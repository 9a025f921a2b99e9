/-
  NativeOS.Device.Terminals — the console as eight terminals.

  What the console is for: eight papers (`Paper`), one of them worked on. F1 to F8 select
  another, everything else is typed on the selected one. The code has one screen: it works on it
  and on one context, and at a switch it copies the screen into a buffer and another buffer onto
  the screen. Console `k` shows paper `k` (`OnPaper`) in what `look k` sees, the screen or the
  buffer; so a switch shows nothing new, and the work on the selected console is `Paper`'s.

  Proved:
  * `the_console_is_eight_terminals` — over everything written, typed and asked for.
  * `typed_keys_are_shown` — the same with the keyboard: interrupts at any time, and the reads
    of `vtcon_read` in between.
-/

import NativeOS.Device.KeyboardProofs
import NativeOS.Device.Paper

namespace NativeOS.Device.Vtcon

open NativeOS.Lib
open NativeOS.Stdkern.Ring (Ringbuf ringbufWrite unread)
open NativeOS.Device.Vgafb (vgaBase vgaCols vgaRows)

/-! ## Terminals -/

structure Terminals where
  selected : Fin 8
  papers : Fin 8 → Paper

def Echo.onPaper (p : Paper) : Echo → Paper
  | .putstr str => p.write 7 0 str
  | .putchar ch => p.type 7 0 (UInt8.ofNat ch)
  | .clearscreen => .fresh 7 0
  | .switchcontext _ => p

def Ev.onPaper (p : Paper) : Ev → Paper
  | .write buf => p.write 7 0 buf
  | .key vk flags => if flags &&& kbdCapUp ≠ 0 then p else ((echoOf vk).map (Echo.onPaper p)).getD p
  | .ioctl op => if op = 0 then .fresh 7 0 else p

/-- The terminal an event selects. -/
def Ev.target : Ev → Option (Fin 8)
  | .key vk flags => switchTarget ⟨vk, flags⟩
  | _ => none

def Terminals.step (d : Terminals) (e : Ev) : Terminals :=
  ⟨e.target.getD d.selected, Function.update d.papers d.selected (e.onPaper (d.papers d.selected))⟩

/-- A cell of the text rows, one after the other. -/
def textCell (text : List UInt8) (y x : Nat) : Cell :=
  (text.getD (2 * (vgaCols * y + x)) 0, text.getD (2 * (vgaCols * y + x) + 1) 0)

/-- What is seen of a console is the window of the paper, in the colours of `resetcontext`. -/
structure OnPaper (l : List UInt8 × Pen) (p : Paper) : Prop where
  pen : l.2 = ⟨p.cx, p.row - p.top, 7, 0⟩
  inside : p.cx < 80
  cells : ∀ y < 24, ∀ x < 80, textCell l.1 y x = p.cell (p.top + y) x
  below : ∀ y, p.row < y → 24 ≤ y → ∀ x, p.cell y x = entryCell (7 <<< 8)

structure OnPapers (s : Console) (d : Terminals) : Prop where
  selected : s.current = d.selected
  terminals : ∀ k, OnPaper (look k s) (d.papers k)

section

variable {s : Console} {d : Terminals} {p : Paper}

/-! ## The selected one -/

theorem textCell_slice (m : Mem) (a : Nat) {y x : Nat} (hy : y < 24) (hx : x < 80) :
    textCell (slice m a textSize) y x = (m (a + 2 * (80 * y + x)), m (a + 2 * (80 * y + x) + 1)) := by
  have hcell : textCell (slice m a textSize) y x =
      ((slice m a textSize).getD (2 * (80 * y + x)) 0, (slice m a textSize).getD (2 * (80 * y + x) + 1) 0) := rfl
  have htext : textSize = 3840 := rfl
  rw [hcell, getD_slice _ _ (by omega), getD_slice _ _ (by omega)]
  rfl

theorem textCell_screen (s : Console) {y x : Nat} (hy : y < 24) (hx : x < 80) :
    textCell (slice s.vga.mem vgaBase textSize) y x = screenCell s y x := textCell_slice _ _ hy hx

theorem onPaper_current : OnPaper (look s.current s) p ↔ Shown 7 0 s p := by
  rw [look_current]
  constructor
  · intro h
    have hpen : s.pen = ⟨p.cx, p.row - p.top, 7, 0⟩ := h.pen
    have hcells := h.cells
    dsimp only at hcells
    refine ⟨⟨congrArg Pen.fg hpen, congrArg Pen.bg hpen⟩, congrArg Pen.cx hpen, h.inside, congrArg Pen.cy hpen, ?_, h.below⟩
    intro y hy x hx
    rw [← textCell_screen s hy hx, hcells y hy x hx]
  · intro h
    have hpen : s.pen = ⟨p.cx, p.row - p.top, 7, 0⟩ := by
      rw [← h.cx, ← h.cy, ← h.colours.1, ← h.colours.2]
      rfl
    refine ⟨hpen, h.inside, fun y hy x hx => ?_, h.below⟩
    dsimp only
    rw [textCell_screen s hy hx, h.cells y hy x hx]

/-- It prints ASCII. -/
def Echo.plain : Echo → Bool
  | .putstr str => str.all fun c => c.toNat < 128
  | .putchar ch => ch < 128
  | _ => true

theorem echoCases_plain : (echoCases.all fun x => x.2.plain) = true := by
  decide +kernel

theorem echoOf_plain {vk : Nat} {echo : Echo} (h : echoOf vk = some echo) : echo.plain = true := by
  unfold echoOf at h
  split at h
  · rename_i echo' hlookup
    obtain rfl := Option.some.inj h
    obtain ⟨front, back, hsplit, -⟩ := List.lookup_eq_some_iff.mp hlookup
    refine List.all_eq_true.mp echoCases_plain (vk, echo') ?_
    rw [hsplit]
    simp
  · split at h
    · obtain rfl := Option.some.inj h
      refine decide_eq_true ?_
      omega
    · cases h

theorem signExtend_ascii {c : UInt8} (h : c.toNat < 128) : signExtend c = c.toNat := by
  rw [signExtend, if_pos h]

theorem Shown.putchar (h : Shown 7 0 s p) (env : Env) (ch : UInt8) : Shown 7 0 (putchar env s ch.toNat) (p.type 7 0 ch) := by
  rw [putchar_eq]
  exact (h.place ch).finish env

theorem Shown.putstr (h : Shown 7 0 s p) (env : Env) {str : List UInt8} (hstr : ∀ c ∈ str, c.toNat < 128) :
    Shown 7 0 (putstr env s str) (p.write 7 0 str) := by
  unfold Vtcon.putstr Paper.write
  induction str generalizing s p with
  | nil => exact h
  | cons c str ih =>
    rw [List.forall_mem_cons] at hstr
    rw [List.foldl_cons, List.foldl_cons, signExtend_ascii hstr.1]
    exact ih (h.putchar env c) hstr.2

theorem Shown.clearscreen (h : Shown 7 0 s p) (env : Env) : Shown 7 0 (clearscreen env s) (.fresh 7 0) := by
  have hclear := shown_clearscreen env s
  rwa [h.colours.1, h.colours.2] at hclear

/-- Work on the selected console. -/
theorem Shown.step (h : Shown 7 0 s p) (env : Env) {e : Ev} (he : e.switches = false) : Shown 7 0 (step env s e) (e.onPaper p) := by
  cases e with
  | write buf => exact h.vtconWrite env buf
  | ioctl op =>
    show Shown 7 0 (if op = 0 then Vtcon.clearscreen env s else s) (if op = 0 then .fresh 7 0 else p)
    split
    · exact h.clearscreen env
    · exact h
  | key vk flags =>
    rw [Vtcon.step, echoScancode_eq, Ev.onPaper]
    by_cases hup : flags &&& kbdCapUp ≠ 0
    · rw [if_pos hup, if_pos hup]
      exact h
    · rw [if_neg hup, if_neg hup]
      cases hecho : echoOf vk with
      | none => exact h
      | some echo =>
        have hplain := echoOf_plain hecho
        cases echo with
        | putstr str =>
          have hstr : ∀ c ∈ str, c.toNat < 128 := fun c hc => of_decide_eq_true (List.all_eq_true.mp hplain c hc)
          exact h.putstr env hstr
        | putchar ch =>
          have hlt : ch < 128 := of_decide_eq_true hplain
          have hch : (UInt8.ofNat ch).toNat = ch := UInt8.toNat_ofNat_of_lt' (Nat.lt_trans hlt (by decide))
          have hput := h.putchar env (UInt8.ofNat ch)
          rwa [hch] at hput
        | clearscreen => exact h.clearscreen env
        | switchcontext target =>
          rw [not_not] at hup
          simp [Ev.switches, hup, hecho] at he

/-! ## The others -/

theorem onPaper_switches {e : Ev} (he : e.switches = true) (p : Paper) : e.onPaper p = p := by
  cases e with
  | write buf => cases he
  | ioctl op => cases he
  | key vk flags =>
    rw [Ev.switches, Bool.and_eq_true, beq_iff_eq, Option.any_eq_true] at he
    obtain ⟨hup, echo, hecho, hswitch⟩ := he
    rw [Ev.onPaper, if_neg (not_not.mpr hup), hecho]
    cases echo with
    | switchcontext target => rfl
    | _ => cases hswitch

theorem current_step (env : Env) (s : Console) (e : Ev) : (step env s e).current = e.target.getD s.current := by
  cases e with
  | write buf => exact (local_vtconWrite env buf).current s
  | ioctl op => exact (local_vtconIoctl env op).current s
  | key vk flags => exact congrArg Keys.current (keys_echoScancode env s ⟨vk, flags⟩)

theorem papers_step (d : Terminals) (e : Ev) :
    (d.step e).papers = Function.update d.papers d.selected (e.onPaper (d.papers d.selected)) := rfl

/-- The screen is the selected one's. -/
theorem OnPapers.shown (h : OnPapers s d) : Shown 7 0 s (d.papers d.selected) := by
  rw [← onPaper_current, h.selected]
  exact h.terminals d.selected

/-- One event: the others are as they were, and so is every console at a switch. -/
theorem OnPapers.step (h : OnPapers s d) (env : Env) (e : Ev) : OnPapers (step env s e) (d.step e) := by
  have hunwinds := unwinds_consoles env
  refine ⟨?_, fun k => ?_⟩
  · rw [current_step, h.selected]
    rfl
  · rw [papers_step]
    by_cases hswitch : e.switches = true
    · have hlook : look k (Vtcon.step env s e) = look k s := hunwinds.saved s e k hswitch
      rw [hlook, onPaper_switches hswitch, Function.update_eq_self]
      exact h.terminals k
    · rw [Bool.not_eq_true] at hswitch
      by_cases hk : k = d.selected
      · subst hk
        have hcur : (Vtcon.step env s e).current = s.current := (local_step env hswitch).current s
        have hnext := onPaper_current.mpr (h.shown.step env hswitch)
        rw [hcur, h.selected] at hnext
        rw [Function.update_self]
        exact hnext
      · have hlook : look k (Vtcon.step env s e) = look k s := hunwinds.hidden s e k hswitch (by rwa [← h.selected] at hk)
        rw [hlook, Function.update_of_ne hk]
        exact h.terminals k

theorem OnPapers.run (h : OnPapers s d) (env : Env) (evs : List Ev) :
    OnPapers (evs.foldl (Vtcon.step env) s) (evs.foldl Terminals.step d) := by
  induction evs generalizing s d with
  | nil => exact h
  | cons e evs ih => exact ih (h.step env e)

/-! ## The start -/

/-- What is on the screen already, in its first 24 rows. -/
def screenPaper (vga : Vgafb.Vga) : Paper :=
  ⟨fun y x => if y < 24 then (vga.mem (cellAddr y x), vga.mem (cellAddr y x + 1)) else entryCell (7 <<< 8), 0, 0⟩

/-- Blank papers, but for the selected one. -/
def Terminals.start (selected : Fin 8) (p : Paper) : Terminals := ⟨selected, Function.update (fun _ => .fresh 7 0) selected p⟩

theorem papers_start (selected : Fin 8) (p : Paper) :
    (Terminals.start selected p).papers = Function.update (fun _ => .fresh 7 0) selected p := rfl

theorem blanks_byte {i : Nat} (hi : i < 2000) : blanks.getD (2 * i) 0 = UInt8.ofNat (vgaEntry 32 7 0) ∧
    blanks.getD (2 * i + 1) 0 = UInt8.ofNat (vgaEntry 32 7 0 / 256) :=
  getD_flatten_replicate (UInt8.ofNat (vgaEntry 32 7 0)) (UInt8.ofNat (vgaEntry 32 7 0 / 256)) 2000 i hi

theorem onPaper_blanks (m : Mem) : OnPaper (slice (put m 0 blanks) 0 textSize, ⟨0, 0, 7, 0⟩) (.fresh 7 0) where
  pen := rfl
  inside := by decide
  cells y hy x hx := by
    dsimp only
    have hlen := length_blanks
    have hbyte := @blanks_byte (80 * y + x) (by omega)
    rw [textCell_slice _ _ hy hx]
    generalize blanks = cells at hlen hbyte
    have hsize : bufferSize = 4000 := rfl
    have hcell : (Paper.fresh 7 0).cell ((Paper.fresh 7 0).top + y) x = entryCell (vgaEntry 32 7 0) :=
      if_pos (by show 0 - 23 + y < 24; omega)
    rw [hcell, Nat.add_assoc, put_in m (by omega), put_in m (by omega), hbyte.1, hbyte.2]
    rfl
  below y _ h24 x := if_neg (Nat.not_lt.mpr h24)

/-- The contexts are as `resetcontexts` leaves them. -/
theorem onPapers_open (env : Env) (hreset : ∀ k, ∃ c, s.contexts k = resetcontext c) (hshown : Shown 7 0 (vtconOpen env s) p) :
    OnPapers (vtconOpen env s) (.start s.current p) := by
  have hcur : (vtconOpen env s).current = s.current := (local_finish env).current s
  refine ⟨hcur, fun k => ?_⟩
  rw [papers_start]
  by_cases hk : k = s.current
  · subst hk
    rw [Function.update_self, ← hcur]
    exact onPaper_current.mpr hshown
  · obtain ⟨c, hc⟩ := hreset k
    rw [Function.update_of_ne hk, vtconOpen_eq, look_finish, look, if_neg fun h => hk h.symm, hc, buffer_resetcontext]
    exact onPaper_blanks c.buffer

theorem onPapers_opened (env : Env) (vga : Vgafb.Vga) : OnPapers (vtconOpen env (vtconInit vga)) (.start 0 (screenPaper vga)) := by
  have hbefore : Shown 7 0 (vtconInit vga) (screenPaper vga) := by
    refine ⟨⟨rfl, rfl⟩, rfl, Nat.zero_lt_succ 79, rfl, fun y hy x _ => ?_, fun _ _ h24 _ => if_neg (Nat.not_lt.mpr h24)⟩
    have htop : (screenPaper vga).top + y = y := Nat.zero_add y
    rw [htop]
    exact (if_pos hy).symm
  exact onPapers_open env (fun k => ⟨_, contexts_vtconInit vga k⟩) (hbefore.finish env)

/-- The console is eight terminals: what is written, typed and asked for goes to the selected
    one, and each is looked at in the window of its own paper. -/
theorem the_console_is_eight_terminals (env : Env) (vga : Vgafb.Vga) (evs : List Ev) :
    OnPapers (Vtcon.run env vga evs) (evs.foldl Terminals.step (.start 0 (screenPaper vga))) :=
  (onPapers_opened env vga).run env evs

/-! ## The keyboard -/

def Terminals.type (d : Terminals) (kbdev : Kbdev) : Terminals := d.step (.key kbdev.vk kbdev.flags)

theorem OnPapers.congr {t : Console} (h : OnPapers s d) (hcur : t.current = s.current) (hlook : ∀ k, look k t = look k s) :
    OnPapers t d := by
  refine ⟨hcur.trans h.selected, fun k => ?_⟩
  rw [hlook]
  exact h.terminals k

/-- The keyboard state is not seen. -/
theorem look_kbdStatus (s : Console) (status : Nat) (k : Fin 8) :
    look k (s.setContext { s.context with kbdStatus := status }) = look k s := by
  generalize ht : s.setContext { s.context with kbdStatus := status } = t
  have hvga : t.vga = s.vga := by rw [← ht]; rfl
  have hcur : t.current = s.current := by rw [← ht]; rfl
  have hcon : (t.contexts k).buffer = (s.contexts k).buffer ∧ (t.contexts k).pen = (s.contexts k).pen := by
    rw [← ht, Console.setContext]
    dsimp only
    by_cases hk : k = s.current
    · subst hk
      rw [Function.update_self]
      exact ⟨rfl, rfl⟩
    · rw [Function.update_of_ne hk]
      exact ⟨rfl, rfl⟩
  rw [look, look, hvga, hcur, hcon.1, hcon.2]

theorem look_drawstatus (env : Env) (s : Console) (k : Fin 8) : look k (drawstatus env s) = look k s := by
  have hmem : slice (drawstatus env s).vga.mem vgaBase textSize = slice s.vga.mem vgaBase textSize := by
    rw [mem_drawstatus, slice_put_apart _ (Or.inl (Nat.le_refl _))]
  rw [look, look, hmem, contexts_drawstatus, current_drawstatus]

/-- One turn of the loop of `vtcon_read`: the key it decodes, if any, is typed. -/
theorem OnPapers.turn {m : Machine} (h : OnPapers m.con d) (env : Env) (stale : Nat) (c : Call) :
    ∃ keys, (Vtcon.turn env stale m c).events = m.events ++ keys ∧
      OnPapers (Vtcon.turn env stale m c).con (keys.foldl Terminals.type d) := by
  have hnone : ∃ keys, m.events = m.events ++ keys ∧ OnPapers m.con (keys.foldl Terminals.type d) :=
    ⟨[], (List.append_nil _).symm, h⟩
  unfold Vtcon.turn
  dsimp only
  split
  · exact hnone
  · split
    · exact hnone
    · have hheld : ∀ status, OnPapers (m.con.setContext { m.con.context with kbdStatus := status }) d := fun status =>
        h.congr rfl fun k => look_kbdStatus m.con status k
      unfold decodeTurn
      dsimp only
      split
      · rename_i kbdev _
        exact ⟨[kbdev], rfl, (hheld _).step env (.key kbdev.vk kbdev.flags)⟩
      · exact ⟨[], (List.append_nil _).symm, hheld _⟩

/-- A run of the keyboard and of `vtcon_read`. -/
theorem OnPapers.polled {env : Env} {ok : Machine → KbdEv → Prop} {start m : Machine} {evs : List KbdEv}
    (h : OnPapers start.con d) (hrun : Polled env ok start evs m) :
    ∃ keys, m.events = start.events ++ keys ∧ OnPapers m.con (keys.foldl Terminals.type d) := by
  induction hrun with
  | start => exact ⟨[], (List.append_nil _).symm, h⟩
  | irq scancode _ _ ih => exact ih
  | @read _ m len _ _ _ ih =>
    obtain ⟨keys, hkeys, hpapers⟩ := ih
    refine ⟨keys, (events_enterRead env m len).trans hkeys, hpapers.congr ?_ fun k => ?_⟩
    · rw [con_enterRead, current_drawstatus]
    · rw [con_enterRead, look_drawstatus]
  | turn stale _ _ _ ih =>
    obtain ⟨keys, hkeys, hpapers⟩ := ih
    obtain ⟨more, hmore, hpapers'⟩ := hpapers.turn env stale _
    refine ⟨keys ++ more, ?_, ?_⟩
    · rw [hmore, hkeys, List.append_assoc]
    · rw [List.foldl_append]
      exact hpapers'

/-- With the bytes of the keyboard: what is typed is what the codes come to, one by one. -/
theorem OnPapers.typed {env : Env} {con : Console} {buffer : Nat → UInt8} {evs : List KbdEv} {m : Machine} (h : OnPapers con d)
    (hrun : Polled env (fun m e => Room m e ∧ OneCode m e) (booted con buffer) evs m) :
    ∃ codes : List (List UInt8), (∀ code ∈ codes, Whole code) ∧ stream evs = codes.flatten ++ unread m.rbuf ∧
      OnPapers m.con ((codes.foldl tap (con.keys, [])).2.foldl Terminals.type d) := by
  obtain ⟨codes, pending, lost, htyped⟩ := typed_run hrun
  obtain ⟨keys, hkeys, hpapers⟩ := OnPapers.polled h hrun
  have hevents : (codes.foldl tap (con.keys, [])).2 = keys := by
    rw [← htyped.keys]
    exact hkeys
  refine ⟨codes, htyped.whole, ?_, ?_⟩
  · rw [htyped.pending]
    exact htyped.bytes
  · rw [hevents]
    exact hpapers

/-- From the bytes of the keyboard to the screen, with interrupts at any time: the codes they
    are made of are decoded in the state of the console they were typed on, and each console
    shows what was typed on it. -/
theorem typed_keys_are_shown {env : Env} {vga : Vgafb.Vga} {buffer : Nat → UInt8} {evs : List KbdEv} {m : Machine}
    (hrun : Polled env (fun m e => Room m e ∧ OneCode m e) (booted (vtconOpen env (vtconInit vga)) buffer) evs m) :
    ∃ codes : List (List UInt8), (∀ code ∈ codes, Whole code) ∧ stream evs = codes.flatten ++ unread m.rbuf ∧
      OnPapers m.con ((codes.foldl tap (⟨0, fun _ => 0⟩, [])).2.foldl Terminals.type (.start 0 (screenPaper vga))) := by
  have hkeys : (vtconOpen env (vtconInit vga)).keys = ⟨0, fun _ => 0⟩ := by
    rw [vtconOpen_eq, (local_finish env).keys]
    rfl
  have htyped := (onPapers_opened env vga).typed hrun
  rw [hkeys] at htyped
  exact htyped

/-! ## One key -/

/-- The key A, pressed before a turn. -/
theorem key_a_polled (env : Env) (con : Console) : ∃ evs m,
    Polled env (fun m e => Room m e ∧ OneCode m e) (booted con fun _ => 0) evs m ∧ stream evs = [0x1E] ∧ unread m.rbuf = [] := by
  let ok := fun m e => Room m e ∧ OneCode m e
  let empty : Ringbuf := ⟨fun _ => 0, 1024, 0, 0, 0⟩
  have hroom : (unread empty).length + 1 < 1024 := by decide +kernel
  have hpending : unread (ringbufWrite empty 0x1E) = [0x1E] := by decide +kernel
  have hdrained : unread (keyboardRead (ringbufWrite empty 0x1E) 16).2 = [] := by decide +kernel
  have pressed : Polled env ok (booted con fun _ => 0) _ _ := .irq 0x1E .start ⟨room_of hroom, trivial⟩
  have entered : Polled env ok (booted con fun _ => 0) _ _ := .read 4 pressed ⟨trivial, trivial⟩ rfl
  have turned : Polled env ok (booted con fun _ => 0) _ _ :=
    .turn 0 entered ⟨trivial, oneCode_of hpending (.inr (.inl ⟨0x1E, rfl, by decide⟩))⟩ rfl
  refine ⟨_, _, turned, rfl, ?_⟩
  rw [rbuf_turn env 0 _ (Nat.le_refl 4)]
  exact hdrained

/-- Its codes are the one byte. -/
theorem codes_of_key_a {codes : List (List UInt8)} (hwhole : ∀ code ∈ codes, Whole code) (h : [0x1E] = codes.flatten ++ []) :
    codes = [[0x1E]] := by
  have hkey : ∀ code ∈ [[0x1E]], Whole code := by
    rw [List.forall_mem_singleton]
    exact .inl ⟨0x1E, rfl, by decide⟩
  refine code_whole.flatten_inj hwhole hkey ?_
  rw [← h.trans (List.append_nil _)]
  rfl

theorem a_letter_is_shown : ∃ m : Machine, screenCell m.con 0 0 = entryCell (vgaEntry 97 7 0) ∧ m.con.context.cx = 1 := by
  let vga : Vgafb.Vga := ⟨⟨fun _ => 0⟩, fun _ => 0⟩
  obtain ⟨evs, m, hrun, hstream, hdrained⟩ := key_a_polled quiet (vtconOpen quiet (vtconInit vga))
  obtain ⟨codes, hwhole, hcodes, hpapers⟩ := typed_keys_are_shown hrun
  rw [hstream, hdrained] at hcodes
  rw [codes_of_key_a hwhole hcodes] at hpapers
  have hshown := hpapers.shown
  exact ⟨m, hshown.cells 0 (by decide) 0 (by decide), hshown.cx⟩

end

end NativeOS.Device.Vtcon
