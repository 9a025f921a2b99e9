/-
  NativeOS.Device.VtconProofs — the cursor stays on the text rows, the consoles stay apart.

  An operation moves the cursor of the selected context only, and keeps it inside 80 columns
  and 24 rows (`Good`); so no operation but `drawstatus` leaves anything in the last row. What it does to the 24 text rows is a
  function of those rows and the cursor (`Local`); so the eight consoles, each in the
  framebuffer while it is selected and in its buffer while it is not, do not see each other.

  Proved:
  * `cursors_stay_on_the_text_rows` — over every run of writes, echoed keys and ioctls.
  * `consoles_are_isolated` — every run against eight single-console runs.
-/

import NativeOS.Lib.Multiplex
import NativeOS.Device.Vtcon

namespace NativeOS.Device.Vtcon

open NativeOS.Lib
open NativeOS.Device.Vgafb

/-! ## Writes to the framebuffer -/

/-- The bytes of the 24 text rows. -/
abbrev textSize : Nat := 3840

@[simp] theorem contexts_fbWrite (s : Console) (offt : Nat) (buf : List UInt8) :
    (fbWrite s offt buf).contexts = s.contexts := rfl
@[simp] theorem current_fbWrite (s : Console) (offt : Nat) (buf : List UInt8) :
    (fbWrite s offt buf).current = s.current := rfl
@[simp] theorem trace_fbWrite (s : Console) (offt : Nat) (buf : List UInt8) :
    (fbWrite s offt buf).trace = s.trace := rfl

theorem length_short (w : Nat) : (short w).length = 2 := rfl

theorem length_statusRow (env : Env) (k : Fin 8) (date : Mem) : (statusRow env k date).length = 160 := by
  simp [statusRow, List.length_flatMap, length_short, vgaCols]

theorem fbRead_eq (s : Console) {offt len : Nat} (h : offt + len ≤ 4000) (h0 : offt < 4000) :
    fbRead s offt len = slice s.vga.mem (vgaBase + offt) len := vgafbRead_eq s.vga h h0

theorem fbWrite_in (s : Console) {offt : Nat} {buf : List UInt8} (h : offt + buf.length ≤ 4000) (h0 : offt < 4000) :
    (fbWrite s offt buf).vga.mem = put s.vga.mem (vgaBase + offt) buf := mem_vgafbWrite_in s.vga h h0

/-- The first `n` bytes of the framebuffer after a write are a function of those before. -/
theorem slice_fbWrite {s t : Console} {n : Nat} (h : slice t.vga.mem vgaBase n = slice s.vga.mem vgaBase n)
    (offt : Nat) (buf : List UInt8) :
    slice (fbWrite t offt buf).vga.mem vgaBase n = slice (fbWrite s offt buf).vga.mem vgaBase n := by
  rw [slice_eq_iff] at h ⊢
  intro x hl hr
  show (vgafbWrite t.vga buf offt buf.length).1.mem x = (vgafbWrite s.vga buf offt buf.length).1.mem x
  rw [mem_vgafbWrite, mem_vgafbWrite]
  split
  · rw [put_byte, put_byte, h x hl hr]
  · exact h x hl hr

/-! ## Pens -/

/-- A context's cursor and colours: all that decides what is written, and where. -/
structure Pen where
  cx : Nat
  cy : Nat
  fg : Nat
  bg : Nat

def Vtcontext.pen (c : Vtcontext) : Pen := ⟨c.cx, c.cy, c.fg, c.bg⟩

@[simp] theorem Vtcontext.pen_buffer (c : Vtcontext) (b : Mem) : { c with buffer := b }.pen = c.pen := rfl

def Console.pen (s : Console) : Pen := s.context.pen

/-- What a user sees of console `k`: its text rows, in the framebuffer or saved, and its pen. -/
def look (k : Fin 8) (s : Console) : List UInt8 × Pen :=
  (if s.current = k then slice s.vga.mem vgaBase textSize else slice (s.contexts k).buffer 0 textSize, (s.contexts k).pen)

theorem look_current (s : Console) : look s.current s = (slice s.vga.mem vgaBase textSize, s.pen) := by
  rw [look, if_pos rfl]
  rfl

theorem look_eq_iff {s t : Console} (hc : t.current = s.current) :
    look s.current t = look s.current s ↔
      slice t.vga.mem vgaBase textSize = slice s.vga.mem vgaBase textSize ∧ t.pen = s.pen := by
  rw [look_current, ← hc, look_current, Prod.mk.injEq]

/-- Work on the selected console: the other contexts keep everything, all contexts keep their
    keyboard state, and what becomes of the console depends on nothing but the console. -/
structure Local (F : Console → Console) : Prop where
  current : ∀ s, (F s).current = s.current
  others : ∀ s k, k ≠ s.current → (F s).contexts k = s.contexts k
  kbd : ∀ s, (F s).context.kbdStatus = s.context.kbdStatus
  look : ∀ s t, t.current = s.current → look s.current t = look s.current s →
    Vtcon.look s.current (F t) = Vtcon.look s.current (F s)

namespace Local

variable {F G : Console → Console}

theorem id : Local fun s => s := ⟨fun _ => rfl, fun _ _ _ => rfl, fun _ => rfl, fun _ _ _ h => h⟩

theorem comp (hG : Local G) (hF : Local F) : Local fun s => G (F s) where
  current s := (hG.current _).trans (hF.current s)
  others s k hk := (hG.others (F s) k (by rwa [hF.current])).trans (hF.others s k hk)
  kbd s := (hG.kbd _).trans (hF.kbd s)
  look s t hc hl := by
    have hFl := hF.look s t hc hl
    rw [← hF.current s] at hFl ⊢
    exact hG.look (F s) (F t) (by rw [hF.current, hF.current, hc]) hFl

theorem foldl {α : Type} {H : α → Console → Console} (hH : ∀ a, Local (H a)) (l : List α) :
    Local fun s => l.foldl (fun s a => H a s) s := by
  induction l with
  | nil => exact id
  | cons a l ih => exact ih.comp (hH a)

theorem ite {c : Prop} [Decidable c] (hF : Local F) (hG : Local G) : Local fun s => if c then F s else G s := by
  by_cases h : c
  · simpa only [if_pos h] using hF
  · simpa only [if_neg h] using hG

/-- An operation may look at the pen first. -/
theorem withPen (H : Pen → Console → Console) (hH : ∀ p, Local (H p)) : Local fun s => H s.pen s where
  current s := (hH _).current s
  others s k hk := (hH _).others s k hk
  kbd s := (hH _).kbd s
  look s t hc hl := by
    rw [((look_eq_iff hc).mp hl).2]
    exact (hH _).look s t hc hl

theorem mark (m : Mark) : Local fun s => s.mark m := ⟨fun _ => rfl, fun _ _ _ => rfl, fun _ => rfl, fun _ _ _ h => h⟩

/-- An operation on the framebuffer alone. -/
theorem ofScreen (hcur : ∀ s, (F s).current = s.current) (hcon : ∀ s, (F s).contexts = s.contexts)
    (hmem : ∀ s t, slice t.vga.mem vgaBase textSize = slice s.vga.mem vgaBase textSize →
      slice (F t).vga.mem vgaBase textSize = slice (F s).vga.mem vgaBase textSize) : Local F where
  current := hcur
  others s k _ := by rw [hcon]
  kbd s := by rw [Console.context, hcon, hcur]; rfl
  look s t hc hl := by
    have hpen : ∀ u, (F u).pen = u.pen := fun u => by rw [Console.pen, Console.context, hcon, hcur]; rfl
    obtain ⟨hm, hp⟩ := (look_eq_iff hc).mp hl
    have := (look_eq_iff (s := F s) (t := F t) (by rw [hcur, hcur, hc])).mpr ⟨hmem s t hm, by rw [hpen, hpen, hp]⟩
    rwa [hcur] at this

theorem fbWrite (offt : Nat) (buf : List UInt8) : Local fun s => Vtcon.fbWrite s offt buf :=
  ofScreen (fun _ => rfl) (fun _ => rfl) fun _ _ h => slice_fbWrite h offt buf

/-- An assignment to a field of the context that its reader does not see the value of. -/
theorem setContext {f : Vtcontext → Vtcontext} (hk : ∀ c, (f c).kbdStatus = c.kbdStatus)
    (hp : ∀ c d, d.pen = c.pen → (f d).pen = (f c).pen) : Local fun s => s.setContext (f s.context) where
  current _ := rfl
  others _ _ hk' := Function.update_of_ne hk' _ _
  kbd s := by
    show (Function.update s.contexts s.current _ s.current).kbdStatus = _
    rw [Function.update_self]
    exact hk _
  look s t hc hl := by
    obtain ⟨hm, hpen⟩ := (look_eq_iff hc).mp hl
    refine (look_eq_iff (s := s.setContext (f s.context)) (t := t.setContext (f t.context)) hc).mpr ⟨hm, ?_⟩
    show (Function.update t.contexts t.current _ t.current).pen = (Function.update s.contexts s.current _ s.current).pen
    rw [Function.update_self, Function.update_self]
    exact hp _ _ hpen

theorem setCx (x : Nat) : Local fun s => s.setCx x := by
  refine setContext (f := fun c => { c with cx := x }) (fun _ => rfl) fun c d h => ?_
  rw [Vtcontext.pen, Vtcontext.pen, Pen.mk.injEq] at h ⊢
  exact ⟨rfl, h.2⟩

theorem setCy (y : Nat) : Local fun s => s.setCy y := by
  refine setContext (f := fun c => { c with cy := y }) (fun _ => rfl) fun c d h => ?_
  rw [Vtcontext.pen, Vtcontext.pen, Pen.mk.injEq] at h ⊢
  exact ⟨h.1, rfl, h.2.2⟩

end Local

/-! ## What the operations do to a console -/

theorem local_copyrow (dst : Nat) {src : Nat} (hs : src < 24) : Local fun s => copyrow s dst src := by
  by_cases hd : dst < vgaRows ∧ src < vgaRows
  · simp only [copyrow, if_pos hd]
    refine (Local.mark _).comp (Local.ofScreen (fun _ => rfl) (fun _ => rfl) fun s t h => ?_)
    have hread : fbRead t (vgaCols * src * 2) (vgaCols * 2) = fbRead s (vgaCols * src * 2) (vgaCols * 2) := by
      have hrow : vgaCols * src * 2 + vgaCols * 2 ≤ textSize := by
        show 80 * src * 2 + 160 ≤ 3840
        omega
      have hcols : 0 < vgaCols := by decide
      have htext : textSize = 3840 := rfl
      rw [fbRead_eq t (by omega) (by omega), fbRead_eq s (by omega) (by omega)]
      rw [slice_eq_iff] at h ⊢
      exact fun x hl hr => h x (by omega) (by omega)
    rw [hread]
    exact slice_fbWrite h _ _
  · simp only [copyrow, if_neg hd]
    exact Local.id

theorem local_clearrow (row : Nat) : Local fun s => clearrow s row := by
  refine (Local.mark _).comp (Local.foldl (fun i => ?_) (List.range vgaCols))
  exact Local.withPen (fun p s => fbWrite s (vgaCols * row * 2 + 2 * i) (short (p.fg <<< 8))) fun _ => Local.fbWrite _ _

theorem local_scroll_to (n : Nat) (hn : n ≤ 23) :
    Local fun s => (List.range n).foldl (fun s i => copyrow s i (i + 1)) s := by
  induction n with
  | zero => exact Local.id
  | succ n ih =>
    simp only [List.range_succ, List.foldl_append, List.foldl_cons, List.foldl_nil]
    exact (local_copyrow n (by omega)).comp (ih (by omega))

theorem local_scroll : Local scroll := local_scroll_to 23 (Nat.le_refl _)

theorem local_moveline : Local moveline := by
  refine Local.withPen (fun p s =>
    if p.cy + 1 = vgaRows - 1 then (clearrow (scroll (s.setCy (p.cy + 1))) (vgaRows - 2)).setCy (vgaRows - 2)
    else s.setCy (p.cy + 1)) fun p => ?_
  refine Local.ite ?_ (Local.setCy _)
  exact (Local.setCy _).comp ((local_clearrow _).comp (local_scroll.comp (Local.setCy _)))

theorem local_movecursor : Local movecursor := by
  refine Local.withPen (fun p s =>
    if p.cx + 1 = vgaCols then moveline ((s.setCx (p.cx + 1)).setCx 0) else s.setCx (p.cx + 1)) fun p => ?_
  refine Local.ite ?_ (Local.setCx _)
  exact local_moveline.comp ((Local.setCx _).comp (Local.setCx _))

theorem local_place (ch : Nat) : Local fun s => place s ch := by
  refine Local.withPen (fun p s =>
    if ch = 8 then if p.cx > 0 then s.setCx (p.cx - 1) else s
    else if ch = 9 then
      if tabLoop 7 p.cx ≥ vgaCols then moveline ((s.setCx (tabLoop 7 p.cx)).setCx 0) else s.setCx (tabLoop 7 p.cx)
    else if ch = 10 then (moveline s).setCx 0
    else if ch = 13 then s.setCx 0
    else movecursor ((writeCell s (p.cy * vgaCols + p.cx) (vgaEntry ch p.fg p.bg)).mark (.cell (p.cy * vgaCols + p.cx))))
    fun p => ?_
  refine Local.ite (Local.ite (Local.setCx _) Local.id) (Local.ite (Local.ite ?_ (Local.setCx _)) (Local.ite ?_
    (Local.ite (Local.setCx _) ?_)))
  · exact local_moveline.comp ((Local.setCx _).comp (Local.setCx _))
  · exact (Local.setCx _).comp local_moveline
  · exact local_movecursor.comp ((Local.mark _).comp (Local.fbWrite _ _))

/-- The status bar is behind the text rows, so it may show what it likes. -/
theorem mem_drawstatus (env : Env) (s : Console) :
    (drawstatus env s).vga.mem = put s.vga.mem (vgaBase + textSize) (statusRow env s.current (env.date s.drawn)) := by
  have hrow : 2 * vgaCols * (vgaRows - 1) = textSize := rfl
  dsimp only [drawstatus, Console.mark]
  rw [hrow]
  generalize hbuf : statusRow env s.current (env.date s.drawn) = buf
  have hlen : buf.length = 160 := by rw [← hbuf, length_statusRow]
  exact fbWrite_in s (Nat.add_le_add_left (Nat.le_of_eq hlen) _) (by decide)

@[simp] theorem contexts_drawstatus (env : Env) (s : Console) : (drawstatus env s).contexts = s.contexts := by
  dsimp only [drawstatus, Console.mark]
  rw [contexts_fbWrite]
@[simp] theorem current_drawstatus (env : Env) (s : Console) : (drawstatus env s).current = s.current := by
  dsimp only [drawstatus, Console.mark]
  rw [current_fbWrite]

theorem trace_drawstatus (env : Env) (s : Console) :
    (drawstatus env s).trace = .status (statusRow env s.current (env.date s.drawn)) :: s.trace := by
  dsimp only [drawstatus, Console.mark]
  rw [trace_fbWrite]

theorem local_drawstatus (env : Env) : Local (drawstatus env) := by
  refine Local.ofScreen (current_drawstatus env) (contexts_drawstatus env) fun s t h => ?_
  rw [mem_drawstatus, mem_drawstatus, slice_put_apart _ (Or.inl (Nat.le_refl _)),
    slice_put_apart _ (Or.inl (Nat.le_refl _)), h]

@[simp] theorem mem_syncfbcursor (s : Console) : (syncfbcursor s).vga.mem = s.vga.mem := rfl
@[simp] theorem contexts_syncfbcursor (s : Console) : (syncfbcursor s).contexts = s.contexts := rfl
@[simp] theorem current_syncfbcursor (s : Console) : (syncfbcursor s).current = s.current := rfl
@[simp] theorem context_syncfbcursor (s : Console) : (syncfbcursor s).context = s.context := rfl

theorem local_syncfbcursor : Local syncfbcursor := Local.ofScreen (fun _ => rfl) (fun _ => rfl) fun _ _ h => h

/-- What every operation ends with. -/
def finish (env : Env) (s : Console) : Console := syncfbcursor (drawstatus env s)

theorem local_finish (env : Env) : Local (finish env) := local_syncfbcursor.comp (local_drawstatus env)

theorem local_putchar (env : Env) (ch : Nat) : Local fun s => putchar env s ch := (local_finish env).comp (local_place ch)

theorem local_putstr (env : Env) (str : List UInt8) : Local fun s => putstr env s str :=
  Local.foldl (fun c => local_putchar env (signExtend c)) str

theorem local_vtconWrite (env : Env) (buf : List UInt8) : Local fun s => vtconWrite env s buf := by
  have hput : ∀ c : UInt8, Local fun s => putchar env s c.toNat := fun c => local_putchar env c.toNat
  exact Local.foldl hput buf

/-- The loops of `clearscreen`. -/
def fill (s : Console) : Console :=
  (List.range vgaRows).foldl (fun s y =>
    (List.range vgaCols).foldl (fun s x =>
      writeCell s (y * vgaCols + x) (vgaEntry 32 s.context.fg s.context.bg)) s) s

theorem clearscreen_eq (env : Env) (s : Console) : clearscreen env s = finish env (((fill s).setCx 0).setCy 0) := rfl

theorem local_fill : Local fill := by
  refine Local.foldl (fun y => Local.foldl (fun x => ?_) (List.range vgaCols)) (List.range vgaRows)
  exact Local.withPen (fun p s => writeCell s (y * vgaCols + x) (vgaEntry 32 p.fg p.bg)) fun _ => Local.fbWrite _ _

theorem local_clearscreen (env : Env) : Local (clearscreen env) := by
  simp only [funext (clearscreen_eq env)]
  exact (local_finish env).comp ((Local.setCy 0).comp ((Local.setCx 0).comp local_fill))

theorem local_vtconIoctl (env : Env) (op : Int) : Local fun s => vtconIoctl env s op :=
  Local.ite (local_clearscreen env) Local.id

/-! ## Eight consoles -/

/-- F1 to F8, pressed. -/
def Ev.switches : Ev → Bool
  | .key vk flags => flags &&& kbdCapUp == 0 && (echoOf vk).any fun echo => match echo with
    | .switchcontext _ => true
    | _ => false
  | _ => false

theorem echoScancode_eq (env : Env) (s : Console) (vk flags : Nat) :
    echoScancode env s vk flags = if flags &&& kbdCapUp ≠ 0 then s else ((echoOf vk).map (perform env s)).getD s := by
  unfold echoScancode
  cases echoOf vk <;> rfl

theorem local_step (env : Env) {e : Ev} (he : e.switches = false) : Local fun s => step env s e := by
  cases e with
  | write buf => exact local_vtconWrite env buf
  | ioctl op => exact local_vtconIoctl env op
  | key vk flags =>
    simp only [step, echoScancode_eq]
    by_cases hup : flags &&& kbdCapUp ≠ 0
    · simp only [if_pos hup]
      exact Local.id
    · simp only [if_neg hup]
      rw [not_not] at hup
      cases hecho : echoOf vk with
      | none => exact Local.id
      | some echo =>
        cases echo with
        | putstr str => exact local_putstr env str
        | putchar ch => exact local_putchar env ch
        | clearscreen => exact local_clearscreen env
        | switchcontext target => simp [Ev.switches, hup, hecho] at he

theorem step_switches (env : Env) (s : Console) {e : Ev} (he : e.switches = true) :
    ∃ target, step env s e = switchcontext env s target := by
  cases e with
  | write buf => cases he
  | ioctl op => cases he
  | key vk flags =>
    rw [Ev.switches, Bool.and_eq_true, beq_iff_eq, Option.any_eq_true] at he
    obtain ⟨hup, echo, hecho, hswitch⟩ := he
    cases echo with
    | switchcontext target => exact ⟨target, by simp [step, echoScancode, hup, hecho, perform]⟩
    | _ => cases hswitch

/-- The two halves of a switch: into the old context's buffer, out of the new one's. -/
def saved (s : Console) : Console :=
  s.setContext { s.context with buffer := put s.context.buffer 0 (fbRead s 0 bufferSize) }

def restored (s : Console) : Console := fbWrite s 0 (slice s.context.buffer 0 bufferSize)

theorem switchcontext_eq (env : Env) (s : Console) {target : Nat} (h : target < 8) :
    switchcontext env s target = finish env (restored { saved s with current := ⟨target, h⟩ }) := dif_pos h

theorem contexts_saved (s : Console) (k : Fin 8) : (saved s).contexts k =
    if k = s.current then { s.contexts k with buffer := put (s.contexts k).buffer 0 (slice s.vga.mem vgaBase bufferSize) }
    else s.contexts k := by
  have hread : fbRead s 0 bufferSize = slice s.vga.mem vgaBase bufferSize := fbRead_eq s (by decide) (by decide)
  rw [saved, hread]
  by_cases hk : k = s.current
  · subst hk
    rw [if_pos rfl]
    exact Function.update_self _ _ _
  · rw [if_neg hk]
    exact Function.update_of_ne hk _ _

theorem mem_restored (s : Console) :
    (restored s).vga.mem = put s.vga.mem vgaBase (slice s.context.buffer 0 bufferSize) := by
  have hlen : (slice s.context.buffer 0 bufferSize).length = 4000 := length_slice _ _ _
  rw [restored]
  generalize slice s.context.buffer 0 bufferSize = buf at hlen
  exact fbWrite_in s (Nat.add_le_add_left (Nat.le_of_eq hlen) _) (by decide)

/-- A switch shows on no console: neither on the one left, nor on the one entered. -/
theorem look_switch (s : Console) (target k : Fin 8) : look k (restored { saved s with current := target }) = look k s := by
  have htext : textSize ≤ bufferSize := by decide
  have hcon : (restored { saved s with current := target }).contexts k = (saved s).contexts k := rfl
  have hpen : ((saved s).contexts k).pen = (s.contexts k).pen := by
    rw [contexts_saved]
    split
    · rw [Vtcontext.pen_buffer]
    · rfl
  -- the buffer of `k` once the old context is saved
  have hbuf : slice ((saved s).contexts k).buffer 0 textSize =
      if s.current = k then slice s.vga.mem vgaBase textSize else slice (s.contexts k).buffer 0 textSize := by
    rw [contexts_saved]
    by_cases hk : k = s.current
    · rw [if_pos hk, if_pos hk.symm, ← take_slice _ _ htext, slice_put_slice, take_slice _ _ htext]
    · rw [if_neg hk, if_neg fun h => hk h.symm]
  rw [look, look, hcon, hpen, hbuf, ← hbuf]
  by_cases htarget : target = k
  · subst htarget
    rw [mem_restored, ← take_slice _ _ htext, slice_put_slice, take_slice _ _ htext]
    split <;> rfl
  · rw [show (restored { saved s with current := target }).current = target from rfl, if_neg htarget]

/-- The consoles behind one screen. -/
def consoles (env : Env) : Mux Console Ev (Fin 8) (List UInt8 × Pen) := ⟨step env, Console.current, Ev.switches, look⟩

theorem look_finish (env : Env) (s : Console) (k : Fin 8) : look k (finish env s) = look k s := by
  have hmem : slice (finish env s).vga.mem vgaBase textSize = slice s.vga.mem vgaBase textSize := by
    rw [finish, mem_syncfbcursor, mem_drawstatus, slice_put_apart _ (Or.inl (Nat.le_refl _))]
  have hcon : (finish env s).contexts = s.contexts := by rw [finish, contexts_syncfbcursor, contexts_drawstatus]
  have hcur : (finish env s).current = s.current := by rw [finish, current_syncfbcursor, current_drawstatus]
  rw [look, look, hmem, hcon, hcur]

theorem unwinds_consoles (env : Env) : (consoles env).Unwinds where
  keeps s _ he := (local_step env he).current s
  hidden s e k he hk := by
    have hl := local_step env he
    have hcur : (step env s e).current = s.current := hl.current s
    show look k (step env s e) = look k s
    have hsel : ¬ s.current = k := fun h => hk h.symm
    rw [look, look, hl.others s k hk, hcur, if_neg hsel, if_neg hsel]
  consistent s t _ he := (local_step env he).look s t
  saved s e k he := by
    obtain ⟨target, htarget⟩ := step_switches env s he
    show look k (step env s e) = look k s
    rw [htarget]
    by_cases h : target < 8
    · rw [switchcontext_eq env s h, look_finish, look_switch]
    · rw [switchcontext, dif_neg h]

/-! ## The cursor and the last row -/

def Mark.Inside : Mark → Prop
  | .status _ => True
  | .cell pos => pos < vgaCols * (vgaRows - 1)
  | .copied dst src => dst < vgaRows - 1 ∧ src < vgaRows - 1
  | .cleared row => row < vgaRows - 1
  | .cursor abspos => abspos < vgaCols * (vgaRows - 1)

def lastStatus (trace : List Mark) : Option (List UInt8) :=
  trace.findSome? fun m => match m with
    | .status row => some row
    | _ => none

/-- All work was done in rows 0 to 23, and the last row is the status bar last drawn. -/
structure Rows (s : Console) : Prop where
  inside : ∀ m ∈ s.trace, m.Inside
  status : lastStatus s.trace = some (slice s.vga.mem (vgaBase + textSize) 160)

def Cursors (s : Console) : Prop := ∀ k, (s.contexts k).cx < vgaCols ∧ (s.contexts k).cy < vgaRows - 1

namespace Rows

variable {s : Console}

theorem setContext (h : Rows s) (c : Vtcontext) : Rows (s.setContext c) := ⟨h.inside, h.status⟩
theorem setCx (h : Rows s) (x : Nat) : Rows (s.setCx x) := h.setContext _
theorem setCy (h : Rows s) (y : Nat) : Rows (s.setCy y) := h.setContext _

theorem mark (h : Rows s) {m : Mark} (hm : m.Inside) (hs : ∀ row, m ≠ .status row) : Rows (s.mark m) := by
  refine ⟨fun m' hm' => ?_, ?_⟩
  · rcases List.mem_cons.mp hm' with rfl | hm'
    · exact hm
    · exact h.inside m' hm'
  · show lastStatus (m :: s.trace) = some (slice s.vga.mem (vgaBase + textSize) 160)
    cases m with
    | status row => exact absurd rfl (hs row)
    | _ => exact h.status

theorem fbWrite (h : Rows s) {offt : Nat} {buf : List UInt8} (hin : offt + buf.length ≤ textSize) (h0 : 0 < buf.length) :
    Rows (fbWrite s offt buf) := by
  have htext : textSize = 3840 := rfl
  refine ⟨h.inside, ?_⟩
  rw [trace_fbWrite, fbWrite_in s (by omega) (by omega), slice_put_apart _ (Or.inr (by omega))]
  exact h.status

end Rows

theorem Cursors.of_contexts {s t : Console} (h : Cursors s) (hc : t.contexts = s.contexts) : Cursors t := by
  intro k
  rw [hc]
  exact h k

@[simp] theorem context_setContext (s : Console) (c : Vtcontext) : (s.setContext c).context = c :=
  Function.update_self _ _ _

/-- `Cursors`, but for the selected context: it may be at work. -/
def Others (s : Console) : Prop := ∀ k, k ≠ s.current → (s.contexts k).cx < vgaCols ∧ (s.contexts k).cy < vgaRows - 1

theorem Cursors.others {s : Console} (h : Cursors s) : Others s := fun k _ => h k

theorem Others.setContext {s : Console} (h : Others s) (c : Vtcontext) : Others (s.setContext c) := by
  intro k hk
  rw [show (s.setContext c).contexts k = s.contexts k from Function.update_of_ne hk _ _]
  exact h k hk

theorem Others.of_contexts {s t : Console} (h : Others s) (hcon : t.contexts = s.contexts) (hcur : t.current = s.current) :
    Others t := by
  intro k hk
  rw [hcon]
  exact h k (hcur ▸ hk)

theorem Others.cursors {s : Console} (h : Others s) (hx : s.context.cx < vgaCols) (hy : s.context.cy < vgaRows - 1) :
    Cursors s := by
  intro k
  by_cases hk : k = s.current
  · rw [hk]
    exact ⟨hx, hy⟩
  · exact h k hk

theorem Cursors.setContext {s : Console} (h : Cursors s) {c : Vtcontext} (hx : c.cx < vgaCols) (hy : c.cy < vgaRows - 1) :
    Cursors (s.setContext c) := by
  refine (h.others.setContext c).cursors ?_ ?_
  · rwa [context_setContext]
  · rwa [context_setContext]

theorem Cursors.setCx {s : Console} (h : Cursors s) {x : Nat} (hx : x < vgaCols) : Cursors (s.setCx x) :=
  h.setContext hx (h s.current).2

theorem Cursors.setCy {s : Console} (h : Cursors s) {y : Nat} (hy : y < vgaRows - 1) : Cursors (s.setCy y) :=
  h.setContext (h s.current).1 hy

theorem cell_inside {x y : Nat} (hx : x < vgaCols) (hy : y < vgaRows - 1) : y * vgaCols + x < vgaCols * (vgaRows - 1) := by
  show y * 80 + x < 1920
  have hx' : x < 80 := hx
  have hy' : y < 24 := hy
  omega

@[simp] theorem contexts_mark (s : Console) (m : Mark) : (s.mark m).contexts = s.contexts := rfl

/-! ### Scrolling -/

theorem rows_copyrow {s : Console} (h : Rows s) {dst src : Nat} (hd : dst < 24) (hs : src < 24) :
    Rows (copyrow s dst src) := by
  have hboth : dst < vgaRows ∧ src < vgaRows := ⟨Nat.lt_succ_of_lt hd, Nat.lt_succ_of_lt hs⟩
  have hdst : vgaCols * dst * 2 + 160 ≤ textSize := by
    show 80 * dst * 2 + 160 ≤ 3840
    omega
  have hsrc : vgaCols * src * 2 + vgaCols * 2 ≤ 4000 := by
    show 80 * src * 2 + 160 ≤ 4000
    omega
  have hcols : 0 < vgaCols := by decide
  rw [copyrow, if_pos hboth, fbRead_eq s hsrc (by omega)]
  refine (h.fbWrite ?_ ?_).mark ⟨hd, hs⟩ fun _ => Mark.noConfusion
  · rw [length_slice]
    exact hdst
  · rw [length_slice]
    decide

theorem contexts_copyrow (s : Console) (dst src : Nat) : (copyrow s dst src).contexts = s.contexts := by
  unfold copyrow
  split
  · rw [contexts_mark, contexts_fbWrite]
  · rfl

theorem rows_scroll_to {s : Console} (h : Rows s) (n : Nat) (hn : n ≤ 23) :
    Rows ((List.range n).foldl (fun s i => copyrow s i (i + 1)) s) ∧
      ((List.range n).foldl (fun s i => copyrow s i (i + 1)) s).contexts = s.contexts := by
  induction n with
  | zero => exact ⟨h, rfl⟩
  | succ n ih =>
    simp only [List.range_succ, List.foldl_append, List.foldl_cons, List.foldl_nil]
    have hn' := ih (by omega)
    exact ⟨rows_copyrow hn'.1 (by omega) (by omega), (contexts_copyrow _ _ _).trans hn'.2⟩

theorem rows_scroll {s : Console} (h : Rows s) : Rows (scroll s) ∧ (scroll s).contexts = s.contexts :=
  rows_scroll_to h 23 (Nat.le_refl _)

theorem rows_clearcells {s : Console} (h : Rows s) {row : Nat} (hr : row < 24) (n : Nat) (hn : n ≤ 80) :
    Rows ((List.range n).foldl (fun s i => fbWrite s (vgaCols * row * 2 + 2 * i) (short (s.context.fg <<< 8))) s) ∧
      ((List.range n).foldl (fun s i => fbWrite s (vgaCols * row * 2 + 2 * i) (short (s.context.fg <<< 8))) s).contexts =
        s.contexts := by
  induction n with
  | zero => exact ⟨h, rfl⟩
  | succ n ih =>
    simp only [List.range_succ, List.foldl_append, List.foldl_cons, List.foldl_nil]
    have hn' := ih (by omega)
    refine ⟨hn'.1.fbWrite ?_ (by rw [length_short]; decide), (contexts_fbWrite _ _ _).trans hn'.2⟩
    rw [length_short]
    show 80 * row * 2 + 2 * n + 2 ≤ 3840
    omega

theorem rows_clearrow {s : Console} (h : Rows s) {row : Nat} (hr : row < 24) :
    Rows (clearrow s row) ∧ (clearrow s row).contexts = s.contexts := by
  have hcells := rows_clearcells h hr 80 (Nat.le_refl _)
  exact ⟨hcells.1.mark hr fun _ => Mark.noConfusion, (contexts_mark _ _).trans hcells.2⟩

/-- A new line scrolls instead of leaving row 23. -/
theorem rows_moveline {s : Console} (h : Rows s) (hc : Others s) (hx : s.context.cx < vgaCols)
    (hy : s.context.cy < vgaRows - 1) : Rows (moveline s) ∧ Cursors (moveline s) := by
  have h1 := h.setCy (s.context.cy + 1)
  have hother : Others (s.setCy (s.context.cy + 1)) := hc.setContext _
  have hcontext : (s.setCy (s.context.cy + 1)).context = { s.context with cy := s.context.cy + 1 } :=
    context_setContext _ _
  have hx1 : (s.setCy (s.context.cy + 1)).context.cx < vgaCols := by rwa [hcontext]
  unfold moveline
  dsimp only
  by_cases hlast : s.context.cy + 1 = vgaRows - 1
  · rw [if_pos hlast]
    generalize s.setCy (s.context.cy + 1) = s1 at *
    have hscroll := rows_scroll h1
    have hclear := rows_clearrow hscroll.1 (show vgaRows - 2 < 24 by decide)
    have hcon : (clearrow (scroll s1) (vgaRows - 2)).contexts = s1.contexts := hclear.2.trans hscroll.2
    have hcur : (clearrow (scroll s1) (vgaRows - 2)).current = s1.current :=
      ((local_clearrow _).current _).trans (local_scroll.current _)
    refine ⟨hclear.1.setCy _, ((hother.of_contexts hcon hcur).setContext _).cursors ?_ ?_⟩
    · rw [context_setContext, Console.context, hcon, hcur]
      exact hx1
    · rw [context_setContext]
      exact (by decide : vgaRows - 2 < vgaRows - 1)
  · rw [if_neg hlast]
    refine ⟨h1, hother.cursors ?_ ?_⟩ <;> rw [hcontext] <;> dsimp only <;> omega

theorem rows_movecursor {s : Console} (h : Rows s) (hc : Cursors s) : Rows (movecursor s) ∧ Cursors (movecursor s) := by
  obtain ⟨hx, hy⟩ := hc s.current
  unfold movecursor
  dsimp only
  by_cases hlast : s.context.cx + 1 = vgaCols
  · rw [if_pos hlast]
    refine rows_moveline ((h.setCx _).setCx _) ((hc.others.setContext _).setContext _) ?_ ?_
    · rw [Console.setCx, context_setContext]
      exact (by decide : 0 < vgaCols)
    · rw [Console.setCx, context_setContext, Console.setCx, context_setContext]
      exact hy
  · rw [if_neg hlast]
    refine ⟨h.setCx _, hc.setCx ?_⟩
    rw [Console.context] at hlast ⊢
    omega

theorem rows_place {s : Console} (h : Rows s) (hc : Cursors s) (ch : Nat) : Rows (place s ch) ∧ Cursors (place s ch) := by
  obtain ⟨hx, hy⟩ := hc s.current
  have hctx : s.contexts s.current = s.context := rfl
  rw [hctx] at hx hy
  unfold place
  dsimp only
  by_cases hbackspace : ch = 8
  · rw [if_pos hbackspace]
    split
    · exact ⟨h.setCx _, hc.setCx (by omega)⟩
    · exact ⟨h, hc⟩
  rw [if_neg hbackspace]
  by_cases htab : ch = 9
  · rw [if_pos htab]
    by_cases hover : tabLoop 7 s.context.cx ≥ vgaCols
    · rw [if_pos hover]
      refine rows_moveline ((h.setCx _).setCx _) ((hc.others.setContext _).setContext _) ?_ ?_
      · rw [Console.setCx, context_setContext]
        exact (by decide : 0 < vgaCols)
      · rw [Console.setCx, context_setContext, Console.setCx, context_setContext]
        exact hy
    · rw [if_neg hover]
      exact ⟨h.setCx _, hc.setCx (Nat.lt_of_not_le hover)⟩
  rw [if_neg htab]
  by_cases hline : ch = 10
  · rw [if_pos hline]
    have hmove := rows_moveline h hc.others hx hy
    exact ⟨hmove.1.setCx _, hmove.2.setCx (by decide)⟩
  rw [if_neg hline]
  by_cases hreturn : ch = 13
  · rw [if_pos hreturn]
    exact ⟨h.setCx _, hc.setCx (by decide)⟩
  rw [if_neg hreturn]
  have hcell := cell_inside hx hy
  refine rows_movecursor ((h.fbWrite ?_ (by rw [length_short]; decide)).mark hcell fun _ => Mark.noConfusion)
    (hc.of_contexts rfl)
  rw [length_short]
  have htext : textSize = 3840 := rfl
  have hlast : vgaCols * (vgaRows - 1) = 1920 := rfl
  omega

/-! ### Whole operations -/

/-- The console between two operations. -/
structure Good (s : Console) : Prop where
  rows : Rows s
  cursors : Cursors s
  synced : Vgafb.cursorPos s.vga = s.context.cy * vgaCols + s.context.cx

theorem rows_drawstatus (env : Env) {s : Console} (hm : ∀ m ∈ s.trace, m.Inside) : Rows (drawstatus env s) := by
  have htrace := trace_drawstatus env s
  have hrow : slice (drawstatus env s).vga.mem (vgaBase + textSize) 160 = statusRow env s.current (env.date s.drawn) := by
    have hself := slice_put_self s.vga.mem (vgaBase + textSize) (statusRow env s.current (env.date s.drawn))
    rw [length_statusRow] at hself
    rw [mem_drawstatus, hself]
  refine ⟨fun m hmem => ?_, ?_⟩
  · rw [htrace] at hmem
    rcases List.mem_cons.mp hmem with rfl | hmem
    · trivial
    · exact hm m hmem
  · rw [htrace, hrow]
    rfl

theorem rows_syncfbcursor {s : Console} (h : Rows s) (hc : Cursors s) :
    Rows (syncfbcursor s) ∧ Vgafb.cursorPos (syncfbcursor s).vga = s.context.cy * vgaCols + s.context.cx := by
  have hpos : s.context.cy * vgaCols + s.context.cx < vgaCols * (vgaRows - 1) :=
    cell_inside (hc s.current).1 (hc s.current).2
  have hshort : (s.context.cy * vgaCols + s.context.cx) % 65536 = s.context.cy * vgaCols + s.context.cx :=
    Nat.mod_eq_of_lt (Nat.lt_trans hpos (by decide))
  unfold syncfbcursor
  dsimp only
  rw [hshort]
  have hmoved : Rows { s with vga := Vgafb.movecursor s.vga (s.context.cy * vgaCols + s.context.cx) } := ⟨h.inside, h.status⟩
  refine ⟨hmoved.mark (m := .cursor _) hpos fun _ => Mark.noConfusion, ?_⟩
  exact Vgafb.cursorPos_movecursor _ (Nat.lt_trans hpos (by decide))

theorem good_finish (env : Env) {s : Console} (hm : ∀ m ∈ s.trace, m.Inside) (hc : Cursors s) : Good (finish env s) := by
  have hdrawn : Cursors (drawstatus env s) := hc.of_contexts (contexts_drawstatus env s)
  obtain ⟨hrows, hsync⟩ := rows_syncfbcursor (rows_drawstatus env hm) hdrawn
  rw [finish]
  refine ⟨hrows, hdrawn.of_contexts (contexts_syncfbcursor _), ?_⟩
  rw [context_syncfbcursor]
  exact hsync

theorem good_putchar (env : Env) {s : Console} (h : Good s) (ch : Nat) : Good (putchar env s ch) := by
  have hplace := rows_place h.rows h.cursors ch
  exact good_finish env hplace.1.inside hplace.2

theorem good_foldl {α : Type} {H : Console → α → Console} (hH : ∀ s a, Good s → Good (H s a)) (l : List α) {s : Console}
    (h : Good s) : Good (l.foldl H s) := by
  induction l generalizing s with
  | nil => exact h
  | cons a l ih => exact ih (hH s a h)

/-- Cells written one after another. -/
theorem foldl_keeps {H : Console → Nat → Console} (hH : ∀ s i, (H s i).contexts = s.contexts ∧ (H s i).trace = s.trace)
    (l : List Nat) (s : Console) : (l.foldl H s).contexts = s.contexts ∧ (l.foldl H s).trace = s.trace := by
  induction l generalizing s with
  | nil => exact ⟨rfl, rfl⟩
  | cons i l ih => exact ⟨(ih (H s i)).1.trans (hH s i).1, (ih (H s i)).2.trans (hH s i).2⟩

theorem fill_keeps (s : Console) : (fill s).contexts = s.contexts ∧ (fill s).trace = s.trace := by
  refine foldl_keeps (fun s y => foldl_keeps (fun s x => ?_) _ s) _ s
  exact ⟨contexts_fbWrite _ _ _, trace_fbWrite _ _ _⟩

theorem good_home (env : Env) {s : Console} (hm : ∀ m ∈ s.trace, m.Inside) (hc : Cursors s) :
    Good (finish env ((s.setCx 0).setCy 0)) :=
  good_finish env hm ((hc.setCx (by decide)).setCy (by decide))

theorem good_clearscreen (env : Env) {s : Console} (h : Good s) : Good (clearscreen env s) := by
  obtain ⟨hcon, htrace⟩ := fill_keeps s
  have hinside : ∀ m ∈ (fill s).trace, m.Inside := by
    rw [htrace]
    exact h.rows.inside
  rw [clearscreen_eq]
  exact good_home env hinside (h.cursors.of_contexts hcon)

theorem good_switchcontext (env : Env) {s : Console} (h : Good s) (target : Nat) : Good (switchcontext env s target) := by
  by_cases ht : target < 8
  · rw [switchcontext_eq env s ht]
    have hinside : ∀ m ∈ (restored { saved s with current := ⟨target, ht⟩ }).trace, m.Inside := by
      rw [restored, trace_fbWrite]
      exact h.rows.inside
    have hcursors : Cursors (saved s) := fun k => by
      rw [contexts_saved]
      split
      · exact h.cursors k
      · exact h.cursors k
    refine good_finish env hinside (hcursors.of_contexts ?_)
    rw [restored, contexts_fbWrite]
  · rw [switchcontext, dif_neg ht]
    exact h

/-- One event keeps the console in order. -/
theorem good_step (env : Env) {s : Console} (h : Good s) (e : Ev) : Good (step env s e) := by
  cases e with
  | write buf =>
    have hput : ∀ s (c : UInt8), Good s → Good (putchar env s c.toNat) := fun _ c hs => good_putchar env hs c.toNat
    exact good_foldl hput buf h
  | ioctl op =>
    rw [step, vtconIoctl]
    split
    · exact good_clearscreen env h
    · exact h
  | key vk flags =>
    rw [step, echoScancode_eq]
    split
    · exact h
    · cases echoOf vk with
      | none => exact h
      | some echo =>
        cases echo with
        | putstr str =>
          have hput : ∀ s (c : UInt8), Good s → Good (putchar env s (signExtend c)) :=
            fun _ c hs => good_putchar env hs (signExtend c)
          exact good_foldl hput str h
        | putchar ch => exact good_putchar env h ch
        | clearscreen => exact good_clearscreen env h
        | switchcontext target => exact good_switchcontext env h target

theorem good_run (env : Env) (evs : List Ev) {s : Console} (h : Good s) : Good (evs.foldl (step env) s) :=
  good_foldl (fun _ e hs => good_step env hs e) evs h

theorem buffer_resetcontext (c : Vtcontext) : (resetcontext c).buffer = put c.buffer 0 blanks := by
  rw [resetcontext]

theorem contexts_vtconInit (vga : Vga) (k : Fin 8) :
    (vtconInit vga).contexts k = resetcontext ⟨0, 0, 0, 0, 0, ⟨fun _ => 0⟩⟩ := rfl

theorem vtconOpen_eq (env : Env) (s : Console) : vtconOpen env s = finish env s := rfl

/-- The console opened with `k` selected. -/
theorem good_open (env : Env) (vga : Vga) (k : Fin 8) : Good (vtconOpen env { vtconInit vga with current := k }) := by
  rw [vtconOpen_eq]
  refine good_finish env (fun _ hm => nomatch hm) fun j => ?_
  rw [contexts_vtconInit]
  exact ⟨by decide, by decide⟩

/-- The cursor of every context stays on the text rows; what is drawn, scrolled, cleared and
    pointed at is inside them; the last row is the last status bar, also in the middle of
    a `putchar`, before it is drawn anew. -/
theorem cursors_stay_on_the_text_rows (env : Env) (vga : Vga) (evs : List Ev) :
    (∀ k, ((run env vga evs).contexts k).cx < 80 ∧ ((run env vga evs).contexts k).cy < 24) ∧
    Rows (run env vga evs) ∧ ∀ ch, Rows (place (run env vga evs) ch) := by
  have hgood : Good (run env vga evs) := good_run env evs (good_open env vga 0)
  exact ⟨hgood.cursors, hgood.rows, fun ch => (rows_place hgood.rows hgood.cursors ch).1⟩

/-! ## Isolation -/

/-- Console `k` with a screen of its own: what was on it for the first, blanks for the others. -/
def alone (env : Env) (vga : Vga) (k : Fin 8) : Console :=
  let screen := if (vtconInit vga).current = k then vga else { vga with mem := put vga.mem vgaBase blanks }
  vtconOpen env { vtconInit screen with current := k }

/-- What a run performs while `k` is selected, the switches left out. -/
def performedOn (env : Env) (vga : Vga) (k : Fin 8) (evs : List Ev) : List Ev :=
  (consoles env).performed k (vtconOpen env (vtconInit vga)) evs

theorem length_blanks : blanks.length = bufferSize := by
  rw [blanks, List.length_flatten, List.map_replicate, length_short, List.sum_replicate_nat,
    Nat.mul_comm]

theorem look_alone (env : Env) (vga : Vga) (k : Fin 8) : look k (alone env vga k) = look k (vtconOpen env (vtconInit vga)) := by
  rw [alone, vtconOpen_eq, vtconOpen_eq, look_finish, look_finish]
  by_cases hk : (vtconInit vga).current = k
  · rw [if_pos hk, ← hk]
  · have hblank : ∀ m a, slice (put m a blanks) a textSize = blanks.take textSize := by
      intro m a
      have hself := slice_put_self m a blanks
      rw [length_blanks] at hself
      rw [← take_slice _ _ (show textSize ≤ bufferSize by decide), hself]
    have hmem : ∀ v, (vtconInit v).vga = v := fun _ => rfl
    rw [if_neg hk, look, look, if_pos rfl, if_neg hk, hmem, contexts_vtconInit, contexts_vtconInit, buffer_resetcontext,
      hblank, hblank]

/-- Every console is as if it were alone: at any time its text and its pen are those of a run
    of what was performed on it, and when it is selected so are the screen and both cursors. -/
theorem consoles_are_isolated (env : Env) (vga : Vga) (evs : List Ev) (k : Fin 8) :
    let s := run env vga evs
    let t := (performedOn env vga k evs).foldl (step env) (alone env vga k)
    t.current = k ∧ look k s = look k t ∧
    (s.current = k → slice s.vga.mem vgaBase textSize = slice t.vga.mem vgaBase textSize ∧
      s.context.cx = t.context.cx ∧ s.context.cy = t.context.cy ∧
      Vgafb.cursorPos s.vga = Vgafb.cursorPos t.vga) := by
  intro s t
  have hsel : (consoles env).sel (alone env vga k) = k := by
    show (alone env vga k).current = k
    rw [alone, vtconOpen_eq, finish, current_syncfbcursor, current_drawstatus]
  have hview : (consoles env).view k (alone env vga k) = (consoles env).view k (vtconOpen env (vtconInit vga)) :=
    look_alone env vga k
  obtain ⟨htcur, htlook⟩ : t.current = k ∧ look k t = look k s :=
    (consoles env).isolated (unwinds_consoles env) evs hsel hview
  refine ⟨htcur, htlook.symm, fun hcur => ?_⟩
  subst hcur
  obtain ⟨hrows, hpen⟩ := (look_eq_iff htcur).mp htlook
  have hs : Good s := good_run env evs (good_open env vga 0)
  have ht : Good t := good_run env _ (good_open env _ _)
  have hcx : s.context.cx = t.context.cx := congrArg Pen.cx hpen.symm
  have hcy : s.context.cy = t.context.cy := congrArg Pen.cy hpen.symm
  refine ⟨hrows.symm, hcx, hcy, ?_⟩
  rw [hs.synced, ht.synced, hcx, hcy]

end NativeOS.Device.Vtcon
