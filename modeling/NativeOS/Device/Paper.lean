/-
  NativeOS.Device.Paper — the console as a window on a terminal that never scrolls.

  `Paper` has a row for every number, and a cursor that only ever moves down: what
  `vtcon_write` is for. The screen is its rows from `top` on. As long as the paper fits,
  `top` is 0; then a new line moves the window, and the console gets there by copying 23 rows
  up one after the other and clearing the last. Every copy reads a row that no earlier copy
  has written (`screenCell_scroll`), and the row cleared is one the paper has not reached.

  Proved:
  * `output_is_a_window_on_paper` — after `clearscreen`, over everything written.
-/

import NativeOS.Device.VtconProofs

namespace NativeOS.Device.Vtcon

open NativeOS.Lib
open NativeOS.Device.Vgafb (vgaBase vgaCols vgaRows)

/-! ## Paper -/

/-- A character and its attribute. -/
abbrev Cell : Type := UInt8 × UInt8

/-- The two bytes of a framebuffer entry. -/
def entryCell (entry : Nat) : Cell := (UInt8.ofNat entry, UInt8.ofNat (entry / 256))

/-- The rows written so far, and the cursor. -/
structure Paper where
  cell : Nat → Nat → Cell
  cx : Nat
  row : Nat

namespace Paper

/-- The first 24 rows are as `clearscreen` leaves them, the others as `clearrow` does. -/
def fresh (fg bg : Nat) : Paper :=
  ⟨fun y _ => if y < 24 then entryCell (vgaEntry 32 fg bg) else entryCell (fg <<< 8), 0, 0⟩

def newline (p : Paper) : Paper := { p with row := p.row + 1 }

def advance (p : Paper) : Paper := if p.cx + 1 = 80 then { p with cx := 0 }.newline else { p with cx := p.cx + 1 }

def print (p : Paper) (c : Cell) : Paper :=
  { p with cell := fun y x => if y = p.row ∧ x = p.cx then c else p.cell y x }.advance

/-- A tab goes to the next multiple of seven. -/
def tab (p : Paper) : Paper :=
  let cx := (p.cx / 7 + 1) * 7
  if 80 ≤ cx then { p with cx := 0 }.newline else { p with cx := cx }

def type (fg bg : Nat) (p : Paper) (ch : UInt8) : Paper :=
  if ch = 8 then { p with cx := p.cx - 1 }
  else if ch = 9 then p.tab
  else if ch = 10 then { p.newline with cx := 0 }
  else if ch = 13 then { p with cx := 0 }
  else p.print (entryCell (vgaEntry ch.toNat fg bg))

def write (fg bg : Nat) (p : Paper) (buf : List UInt8) : Paper := buf.foldl (type fg bg) p

/-- The first row of the window. -/
def top (p : Paper) : Nat := p.row - 23

end Paper

/-! ## The screen, cell by cell -/

def cellAddr (y x : Nat) : Nat := vgaBase + 2 * (vgaCols * y + x)

def screenCell (s : Console) (y x : Nat) : Cell := (s.vga.mem (cellAddr y x), s.vga.mem (cellAddr y x + 1))

/-- The console shows the window of the paper. -/
structure Shown (fg bg : Nat) (s : Console) (p : Paper) : Prop where
  colours : s.context.fg = fg ∧ s.context.bg = bg
  cx : s.context.cx = p.cx
  inside : p.cx < 80
  cy : s.context.cy = p.row - p.top
  cells : ∀ y < 24, ∀ x < 80, screenCell s y x = p.cell (p.top + y) x
  /-- Rows that the cursor has not reached and the screen has not shown. -/
  below : ∀ y, p.row < y → 24 ≤ y → ∀ x, p.cell y x = entryCell (fg <<< 8)

theorem cellAddr_eq (y x : Nat) : cellAddr y x = 753664 + 160 * y + 2 * x := by
  show 753664 + 2 * (80 * y + x) = _
  omega

theorem screenCell_congr {s t : Console} {y x : Nat} (h : ∀ a, cellAddr y x ≤ a → a < cellAddr y x + 2 → t.vga.mem a = s.vga.mem a) :
    screenCell t y x = screenCell s y x := by
  rw [screenCell, screenCell, h _ (Nat.le_refl _) (by omega), h _ (Nat.le_succ _) (by omega)]

@[simp] theorem screenCell_setContext (s : Console) (c : Vtcontext) (y x : Nat) :
    screenCell (s.setContext c) y x = screenCell s y x := rfl
@[simp] theorem screenCell_setCx (s : Console) (n y x : Nat) : screenCell (s.setCx n) y x = screenCell s y x := rfl
@[simp] theorem screenCell_setCy (s : Console) (n y x : Nat) : screenCell (s.setCy n) y x = screenCell s y x := rfl
@[simp] theorem screenCell_mark (s : Console) (m : Mark) (y x : Nat) : screenCell (s.mark m) y x = screenCell s y x := rfl
@[simp] theorem context_setCx (s : Console) (n : Nat) : (s.setCx n).context = { s.context with cx := n } := context_setContext _ _
@[simp] theorem context_setCy (s : Console) (n : Nat) : (s.setCy n).context = { s.context with cy := n } := context_setContext _ _
@[simp] theorem context_mark (s : Console) (m : Mark) : (s.mark m).context = s.context := rfl
@[simp] theorem context_fbWrite (s : Console) (offt : Nat) (buf : List UInt8) : (fbWrite s offt buf).context = s.context := rfl

/-- Two bytes written where a cell is. -/
theorem screenCell_fbWrite (s : Console) {offt py px : Nat} (entry : Nat) (hoff : offt = 160 * py + 2 * px) (hy : py < 25)
    (hx : px < 80) (y : Nat) {x : Nat} (hx' : x < 80) :
    screenCell (fbWrite s offt (short entry)) y x = if y = py ∧ x = px then entryCell entry else screenCell s y x := by
  have hmem : (fbWrite s offt (short entry)).vga.mem = put s.vga.mem (vgaBase + offt) (short entry) :=
    fbWrite_in s (by rw [length_short]; omega) (by omega)
  have hbase : vgaBase = 753664 := rfl
  have haddr := cellAddr_eq y x
  split
  · obtain ⟨rfl, rfl⟩ := ‹y = py ∧ x = px›
    have h0 := put_in s.vga.mem (a := vgaBase + offt) (l := short entry) (Nat.zero_lt_succ 1)
    have h1 := put_in s.vga.mem (a := vgaBase + offt) (l := short entry) (Nat.lt_succ_self 1)
    rw [screenCell, hmem, show cellAddr y x = vgaBase + offt + 0 by omega, h0]
    simp only [Nat.add_zero]
    rw [h1]
    rfl
  · refine screenCell_congr fun a hl hr => ?_
    rw [hmem]
    refine put_out s.vga.mem ?_
    rw [length_short]
    omega

theorem screenCell_copyrow (s : Console) {dst src : Nat} (hd : dst < 25) (hs : src < 25) (y : Nat) {x : Nat} (hx : x < 80) :
    screenCell (copyrow s dst src) y x = if y = dst then screenCell s src x else screenCell s y x := by
  have hcols : vgaCols = 80 := rfl
  have hbase : vgaBase = 753664 := rfl
  have hread : fbRead s (vgaCols * src * 2) (vgaCols * 2) = slice s.vga.mem (vgaBase + vgaCols * src * 2) (vgaCols * 2) :=
    fbRead_eq s (by rw [hcols]; omega) (by rw [hcols]; omega)
  have hlen : (fbRead s (vgaCols * src * 2) (vgaCols * 2)).length = 160 := by rw [hread, length_slice, hcols]
  have hmem : (copyrow s dst src).vga.mem =
      put s.vga.mem (vgaBase + vgaCols * dst * 2) (slice s.vga.mem (vgaBase + vgaCols * src * 2) (vgaCols * 2)) := by
    rw [copyrow, if_pos ⟨hd, hs⟩, ← hread]
    exact fbWrite_in s (by rw [hlen, hcols]; omega) (by rw [hcols]; omega)
  have haddr := cellAddr_eq y x
  have haddr' := cellAddr_eq src x
  split
  · subst y
    -- the cell's bytes come from the same column of the source row
    have hbyte : ∀ i < 2, (copyrow s dst src).vga.mem (cellAddr dst x + i) = s.vga.mem (cellAddr src x + i) := by
      intro i hi
      rw [hmem, show cellAddr dst x + i = vgaBase + vgaCols * dst * 2 + (2 * x + i) by rw [hcols]; omega,
        put_in _ (by rw [length_slice, hcols]; omega), getD_slice _ _ (by rw [hcols]; omega)]
      congr 1
      rw [hcols]
      omega
    exact Prod.ext (hbyte 0 (by decide)) (hbyte 1 (by decide))
  · refine screenCell_congr fun a hl hr => ?_
    rw [hmem]
    refine put_out s.vga.mem ?_
    rw [length_slice, hcols]
    omega

/-! ## Rows -/

theorem contexts_scroll_to (n : Nat) (s : Console) :
    ((List.range n).foldl (fun s i => copyrow s i (i + 1)) s).contexts = s.contexts := by
  induction n with
  | zero => rfl
  | succ n ih =>
    simp only [List.range_succ, List.foldl_append, List.foldl_cons, List.foldl_nil]
    exact (contexts_copyrow _ _ _).trans ih

/-- `n` rows copied: each is the one below it was, and row `n` still is what it was. -/
theorem screenCell_scroll_to (s : Console) {n : Nat} (hn : n ≤ 23) (y : Nat) {x : Nat} (hx : x < 80) :
    screenCell ((List.range n).foldl (fun s i => copyrow s i (i + 1)) s) y x =
      if y < n then screenCell s (y + 1) x else screenCell s y x := by
  induction n generalizing y with
  | zero => rfl
  | succ n ih =>
    simp only [List.range_succ, List.foldl_append, List.foldl_cons, List.foldl_nil]
    rw [screenCell_copyrow _ (by omega) (by omega) y hx, ih (by omega), ih (by omega)]
    by_cases hy : y = n
    · rw [if_pos hy, if_neg (by omega), if_pos (by omega), hy]
    · rw [if_neg hy]
      by_cases hlt : y < n
      · rw [if_pos hlt, if_pos (by omega)]
      · rw [if_neg hlt, if_neg (by omega)]

theorem screenCell_scroll (s : Console) (y : Nat) {x : Nat} (hx : x < 80) :
    screenCell (scroll s) y x = if y < 23 then screenCell s (y + 1) x else screenCell s y x :=
  screenCell_scroll_to s (Nat.le_refl 23) y hx

/-- Cells of one row written from the left, all with one value. -/
theorem fillrow (value : Vtcontext → Nat) (offt : Nat → Nat) {row : Nat} (hr : row < 25)
    (hoff : ∀ i < 80, offt i = 160 * row + 2 * i) (s : Console) {n : Nat} (hn : n ≤ 80) :
    ((List.range n).foldl (fun s i => fbWrite s (offt i) (short (value s.context))) s).context = s.context ∧
    ∀ y, ∀ x < 80, screenCell ((List.range n).foldl (fun s i => fbWrite s (offt i) (short (value s.context))) s) y x =
      if y = row ∧ x < n then entryCell (value s.context) else screenCell s y x := by
  induction n with
  | zero => exact ⟨rfl, fun y x _ => (if_neg fun h => absurd h.2 (Nat.not_lt_zero x)).symm⟩
  | succ n ih =>
    obtain ⟨hcontext, hcells⟩ := ih (by omega)
    simp only [List.range_succ, List.foldl_append, List.foldl_cons, List.foldl_nil]
    refine ⟨hcontext, fun y x hx => ?_⟩
    rw [screenCell_fbWrite _ _ (hoff n (by omega)) hr (by omega) y hx, hcells y x hx, hcontext]
    by_cases hn' : y = row ∧ x = n
    · rw [if_pos hn', if_pos ⟨hn'.1, by omega⟩]
    · rw [if_neg hn']
      by_cases hlt : y = row ∧ x < n
      · rw [if_pos hlt, if_pos ⟨hlt.1, by omega⟩]
      · rw [if_neg hlt, if_neg (by omega)]

theorem clearrow_cells (s : Console) {row : Nat} (hr : row < 25) : (clearrow s row).context = s.context ∧
    ∀ y, ∀ x < 80, screenCell (clearrow s row) y x = if y = row then entryCell (s.context.fg <<< 8) else screenCell s y x := by
  have hoff : ∀ i < 80, vgaCols * row * 2 + 2 * i = 160 * row + 2 * i := fun i _ => by
    show 80 * row * 2 + 2 * i = _
    omega
  obtain ⟨hcontext, hcells⟩ := fillrow (fun c => c.fg <<< 8) (fun i => vgaCols * row * 2 + 2 * i) hr hoff s (Nat.le_refl 80)
  rw [clearrow]
  refine ⟨(context_mark _ _).trans hcontext, fun y x hx => ?_⟩
  rw [screenCell_mark, hcells y x hx]
  simp only [hx, and_true]

theorem fill_to (s : Console) {n : Nat} (hn : n ≤ 25) :
    ((List.range n).foldl (fun s y => (List.range vgaCols).foldl (fun s x =>
      writeCell s (y * vgaCols + x) (vgaEntry 32 s.context.fg s.context.bg)) s) s).context = s.context ∧
    ∀ y < n, ∀ x < 80, screenCell ((List.range n).foldl (fun s y => (List.range vgaCols).foldl (fun s x =>
      writeCell s (y * vgaCols + x) (vgaEntry 32 s.context.fg s.context.bg)) s) s) y x =
        entryCell (vgaEntry 32 s.context.fg s.context.bg) := by
  induction n with
  | zero => exact ⟨rfl, fun y hy => absurd hy (Nat.not_lt_zero y)⟩
  | succ n ih =>
    obtain ⟨hcontext, hcells⟩ := ih (by omega)
    rw [@List.range_succ n, List.foldl_append, List.foldl_cons, List.foldl_nil]
    generalize (List.range n).foldl _ s = t at hcontext hcells ⊢
    have hoff : ∀ x < 80, 2 * (n * vgaCols + x) = 160 * n + 2 * x := fun x _ => by
      show 2 * (n * 80 + x) = _
      omega
    obtain ⟨hrow, hrowcells⟩ := fillrow (fun c => vgaEntry 32 c.fg c.bg) (fun x => 2 * (n * vgaCols + x))
      (show n < 25 by omega) hoff t (Nat.le_refl 80)
    refine ⟨hrow.trans hcontext, fun y hy x hx => (hrowcells y x hx).trans ?_⟩
    rw [hcontext]
    by_cases hyn : y = n
    · rw [if_pos ⟨hyn, hx⟩]
    · rw [if_neg fun h => hyn h.1]
      exact hcells y (by omega) x hx

/-- The end of an operation leaves the text rows and the cursor as they are. -/
theorem finish_cells (env : Env) (s : Console) : (finish env s).context = s.context ∧
    ∀ y < 24, ∀ x < 80, screenCell (finish env s) y x = screenCell s y x := by
  refine ⟨?_, fun y hy x hx => screenCell_congr fun a hl hr => ?_⟩
  · rw [finish, context_syncfbcursor, Console.context, contexts_drawstatus, current_drawstatus]
    rfl
  · have haddr := cellAddr_eq y x
    rw [finish, mem_syncfbcursor, mem_drawstatus]
    refine put_out s.vga.mem (.inl ?_)
    show a < 753664 + 3840
    omega

/-! ## One byte -/

variable {fg bg : Nat} {s : Console} {p : Paper}

theorem tabLoop_eq : ∀ cx < 80, tabLoop 7 cx = (cx / 7 + 1) * 7 := by decide

theorem Paper.top_newline (p : Paper) : p.newline.top = if p.row < 23 then p.top else p.top + 1 := by
  unfold Paper.newline Paper.top
  dsimp only
  split <;> omega

/-- The cursor moves inside its row. -/
theorem Shown.move (h : Shown fg bg s p) {t : Console} {x : Nat} (hx : x < 80) (ht : t.context = { s.context with cx := x })
    (hcells : ∀ y x, screenCell t y x = screenCell s y x) : Shown fg bg t { p with cx := x } where
  colours := by
    rw [ht]
    exact h.colours
  cx := by rw [ht]
  inside := hx
  cy := by
    rw [ht]
    exact h.cy
  cells y hy x hx := (hcells y x).trans (h.cells y hy x hx)
  below := h.below

theorem Shown.setCx (h : Shown fg bg s p) {x : Nat} (hx : x < 80) : Shown fg bg (s.setCx x) { p with cx := x } :=
  h.move hx (context_setCx s x) fun _ _ => rfl

/-- A new line on the last row scrolls, and the window of the paper moves. -/
theorem Shown.moveline (h : Shown fg bg s p) : Shown fg bg (moveline s) p.newline := by
  have hcy := h.cy
  have htop : p.top = p.row - 23 := rfl
  have hnew := p.top_newline
  unfold Vtcon.moveline
  dsimp only
  by_cases hlast : s.context.cy + 1 = vgaRows - 1
  · have hrow : ¬ p.row < 23 := by
      have h24 : s.context.cy + 1 = 24 := hlast
      omega
    rw [if_neg hrow] at hnew
    rw [if_pos hlast]
    obtain ⟨hcontext, hcells⟩ := clearrow_cells (scroll (s.setCy (s.context.cy + 1))) (show vgaRows - 2 < 25 by decide)
    have hscroll : (scroll (s.setCy (s.context.cy + 1))).context = { s.context with cy := s.context.cy + 1 } := by
      rw [Console.context, show (scroll (s.setCy (s.context.cy + 1))).contexts = (s.setCy (s.context.cy + 1)).contexts from
        contexts_scroll_to 23 _, local_scroll.current]
      exact context_setCy s _
    rw [hscroll] at hcontext hcells
    constructor
    · rw [context_setCy, hcontext]
      exact h.colours
    · rw [context_setCy, hcontext]
      exact h.cx
    · exact h.inside
    · rw [context_setCy]
      show 23 = p.row + 1 - p.newline.top
      omega
    · intro y hy x hx
      rw [screenCell_setCy, hcells y x hx, screenCell_scroll _ y hx, hnew]
      show (if y = 23 then entryCell (s.context.fg <<< 8) else _) = p.cell (p.top + 1 + y) x
      by_cases h23 : y = 23
      · -- the row the cursor gets to is one the paper has not been written on
        rw [if_pos h23, h.colours.1]
        exact (h.below _ (by omega) (by omega) x).symm
      · rw [if_neg h23, if_pos (by omega), screenCell_setCy, h.cells (y + 1) (by omega) x hx]
        show p.cell (p.top + (y + 1)) x = p.cell (p.top + 1 + y) x
        rw [Nat.add_comm y 1, Nat.add_assoc]
    · exact fun y hy => h.below y (Nat.lt_of_succ_lt hy)
  · have hrow : p.row < 23 := by
      have h24 : ¬ s.context.cy + 1 = 24 := hlast
      omega
    rw [if_pos hrow] at hnew
    rw [if_neg hlast]
    constructor
    · rw [context_setCy]
      exact h.colours
    · rw [context_setCy]
      exact h.cx
    · exact h.inside
    · rw [context_setCy]
      show s.context.cy + 1 = p.row + 1 - p.newline.top
      omega
    · rw [hnew]
      exact h.cells
    · exact fun y hy => h.below y (Nat.lt_of_succ_lt hy)

theorem Shown.movecursor (h : Shown fg bg s p) : Shown fg bg (movecursor s) p.advance := by
  have hcx := h.cx
  have hin := h.inside
  unfold Vtcon.movecursor Paper.advance
  dsimp only
  by_cases hend : p.cx + 1 = 80
  · rw [if_pos hend, if_pos (by rw [hcx]; exact hend)]
    have hzero : Shown fg bg ((s.setCx (s.context.cx + 1)).setCx 0) { p with cx := 0 } :=
      h.move (by decide) (by rw [context_setCx, context_setCx]) fun _ _ => rfl
    exact hzero.moveline
  · rw [if_neg hend, if_neg (by rw [hcx]; exact hend), hcx]
    exact h.setCx (by omega)

/-- A cell written at the cursor. -/
theorem Shown.write (h : Shown fg bg s p) (ch : Nat) :
    Shown fg bg ((writeCell s (s.context.cy * vgaCols + s.context.cx) (vgaEntry ch s.context.fg s.context.bg)).mark
      (.cell (s.context.cy * vgaCols + s.context.cx)))
      { p with cell := fun y x => if y = p.row ∧ x = p.cx then entryCell (vgaEntry ch fg bg) else p.cell y x } where
  colours := h.colours
  cx := h.cx
  inside := h.inside
  cy := h.cy
  cells y hy x hx := by
    have hcx := h.cx
    have hcy := h.cy
    have hin := h.inside
    have htop : p.top = p.row - 23 := rfl
    have hoff : 2 * (s.context.cy * vgaCols + s.context.cx) = 160 * s.context.cy + 2 * s.context.cx := by
      show 2 * (s.context.cy * 80 + s.context.cx) = _
      omega
    rw [screenCell_mark, writeCell, screenCell_fbWrite s _ hoff (by omega) (by omega) y hx, h.colours.1, h.colours.2]
    -- the cursor's row of the screen is the cursor's row of the paper
    have hplace : (y = s.context.cy ∧ x = s.context.cx) ↔ (p.top + y = p.row ∧ x = p.cx) := by
      rw [hcx]
      omega
    simp only [hplace]
    split
    · exact (if_pos ‹_›).symm
    · exact (h.cells y hy x hx).trans (if_neg ‹_›).symm
  below y hy h24 x := (if_neg fun he => absurd he.1 (Nat.ne_of_gt hy)).trans (h.below y hy h24 x)

theorem Shown.tab (h : Shown fg bg s p) : Shown fg bg
    (if tabLoop 7 s.context.cx ≥ vgaCols then Vtcon.moveline ((s.setCx (tabLoop 7 s.context.cx)).setCx 0)
      else s.setCx (tabLoop 7 s.context.cx)) p.tab := by
  have htab := tabLoop_eq p.cx h.inside
  rw [h.cx, htab]
  unfold Paper.tab
  dsimp only
  by_cases hend : 80 ≤ (p.cx / 7 + 1) * 7
  · rw [if_pos hend, if_pos hend]
    have hzero : Shown fg bg ((s.setCx ((p.cx / 7 + 1) * 7)).setCx 0) { p with cx := 0 } :=
      h.move (by decide) (by rw [context_setCx, context_setCx]) fun _ _ => rfl
    exact hzero.moveline
  · rw [if_neg hend, if_neg hend]
    exact h.setCx (by omega)

theorem toNat_ne {c : UInt8} {n : Nat} (hn : n < 256) : c.toNat = n ↔ c = UInt8.ofNat n := by
  rw [← UInt8.toNat_inj, UInt8.toNat_ofNat', Nat.mod_eq_of_lt hn]

/-- One byte, by the cases of `putchar`'s switch. -/
theorem Shown.place (h : Shown fg bg s p) (ch : UInt8) : Shown fg bg (place s ch.toNat) (p.type fg bg ch) := by
  have hcx := h.cx
  have hin := h.inside
  unfold Vtcon.place Paper.type
  dsimp only
  by_cases hbackspace : ch = 8
  · rw [if_pos hbackspace, if_pos (by rw [hbackspace]; rfl)]
    by_cases hpos : s.context.cx > 0
    · rw [if_pos hpos, hcx]
      exact h.setCx (by omega)
    · rw [if_neg hpos]
      exact h.move (by omega) (by rw [show p.cx - 1 = s.context.cx by omega]) fun _ _ => rfl
  rw [if_neg hbackspace, if_neg fun he => hbackspace ((toNat_ne (by decide)).mp he)]
  by_cases htab : ch = 9
  · rw [if_pos htab, if_pos (by rw [htab]; rfl)]
    exact h.tab
  rw [if_neg htab, if_neg fun he => htab ((toNat_ne (by decide)).mp he)]
  by_cases hline : ch = 10
  · rw [if_pos hline, if_pos (by rw [hline]; rfl)]
    exact h.moveline.setCx (by decide)
  rw [if_neg hline, if_neg fun he => hline ((toNat_ne (by decide)).mp he)]
  by_cases hreturn : ch = 13
  · rw [if_pos hreturn, if_pos (by rw [hreturn]; rfl)]
    exact h.setCx (by decide)
  rw [if_neg hreturn, if_neg fun he => hreturn ((toNat_ne (by decide)).mp he)]
  exact (h.write ch.toNat).movecursor

theorem Shown.finish (h : Shown fg bg s p) (env : Env) : Shown fg bg (finish env s) p := by
  obtain ⟨hcontext, hcells⟩ := finish_cells env s
  refine ⟨?_, ?_, h.inside, ?_, fun y hy x hx => (hcells y hy x hx).trans (h.cells y hy x hx), h.below⟩
  · rw [hcontext]
    exact h.colours
  · rw [hcontext]
    exact h.cx
  · rw [hcontext]
    exact h.cy

/-! ## Everything written -/

theorem shown_clearscreen (env : Env) (s : Console) :
    Shown s.context.fg s.context.bg (clearscreen env s) (Paper.fresh s.context.fg s.context.bg) := by
  obtain ⟨hcontext, hcells⟩ := fill_to s (Nat.le_refl 25)
  rw [clearscreen_eq]
  refine Shown.finish ?_ env
  have hfill : (fill s).context = s.context := hcontext
  have hhome : (((fill s).setCx 0).setCy 0).context = { s.context with cx := 0, cy := 0 } := by
    rw [context_setCy, context_setCx, hfill]
  refine ⟨?_, ?_, (by decide : 0 < 80), ?_, fun y hy x hx => ?_, fun y _ h24 x => if_neg (Nat.not_lt.mpr h24)⟩
  · rw [hhome]
    exact ⟨rfl, rfl⟩
  · rw [hhome]
    rfl
  · rw [hhome]
    rfl
  · have hrow : (Paper.fresh s.context.fg s.context.bg).top + y < 24 := by
      show 0 - 23 + y < 24
      omega
    have hblank : (Paper.fresh s.context.fg s.context.bg).cell (0 - 23 + y) x =
        entryCell (vgaEntry 32 s.context.fg s.context.bg) := if_pos hrow
    have hcell : screenCell (fill s) y x = entryCell (vgaEntry 32 s.context.fg s.context.bg) := hcells y (by omega) x hx
    rw [screenCell_setCy, screenCell_setCx, hcell]
    exact hblank.symm

theorem putchar_eq (env : Env) (s : Console) (ch : Nat) : putchar env s ch = finish env (place s ch) := rfl

theorem Shown.vtconWrite (h : Shown fg bg s p) (env : Env) (buf : List UInt8) :
    Shown fg bg (vtconWrite env s buf) (p.write fg bg buf) := by
  unfold Vtcon.vtconWrite Paper.write
  induction buf generalizing s p with
  | nil => exact h
  | cons c buf ih =>
    rw [List.foldl_cons, List.foldl_cons, putchar_eq]
    exact ih ((h.place c).finish env)

/-- Right after `clearscreen`, whatever is written then: the text rows of the screen are the rows
    of the paper from `max 0 (row - 23)` on, and the cursor is where the paper's is. -/
theorem output_is_a_window_on_paper (env : Env) (s : Console) (buf : List UInt8) :
    let written := vtconWrite env (clearscreen env s) buf
    let paper := (Paper.fresh s.context.fg s.context.bg).write s.context.fg s.context.bg buf
    (∀ y < 24, ∀ x < 80, screenCell written y x = paper.cell (paper.row - 23 + y) x) ∧
      written.context.cx = paper.cx ∧ written.context.cy = paper.row - (paper.row - 23) := by
  have h := (shown_clearscreen env s).vtconWrite env buf
  exact ⟨h.cells, h.cx, h.cy⟩

end NativeOS.Device.Vtcon
