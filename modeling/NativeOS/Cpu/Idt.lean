/-
  NativeOS.Cpu.Idt — interrupts (`arch/i386/kernel/cpu/idt.c`, and of `lidt.S` what the stubs
  push; the stubs themselves are in `NativeOS.Cpu.Isr`).

  `idt_init` puts both interrupt controllers behind the exceptions, at 0x20 and 0x28, fills a
  table of 48 gates and lets the processor take interrupts. From then on devices raise their
  lines, drivers set handlers and exceptions come at any time, in any order, also while a
  handler works. A gate of the table turns interrupts off, so a second request waits until
  `idt_handler` has announced the end of the first and the stub has returned. Outside the
  handlers the kernel may turn them off for a while, as `read_cmos` does; no handler does.

  The controllers are `NativeOS.Lib.Pic`'s, the addresses of the stubs a parameter.

  Proved, for every state in which the chips and the table were before, and for every run:
  * `requests_are_accounted_for` — each request was served once or is still waiting; each
    call goes to the handler set last, with the number of the line.
  * `one_request_at_a_time` — at most one request is worked on, and it is what is in service;
    where nobody works nothing is in service, and the processor takes interrupts unless the
    kernel has turned them off.
  * `waiting_requests_are_served` — where no exception stops the system, a request that waits
    is served when what is going on goes on, without anything else happening.
-/

import Mathlib.Data.Finset.Card
import NativeOS.Lib.Pic
import NativeOS.Lib.LastWord

namespace NativeOS.Cpu

open NativeOS.Lib NativeOS.Lib.Pic

/-! ## idt.c -/

/-- `INTERRUPTS`. -/
abbrev INTERRUPTS : Nat := 48

structure IdtEntry where
  offset1 : Nat
  segment : Nat
  zeros : Nat
  attributes : Nat
  offset2 : Nat

/-- `idt_toc`, `idt_entries` and `idt_handlers`, where `none` is NULL. -/
structure Idt (H : Type) where
  limit : Nat
  base : Nat
  entries : Nat → IdtEntry
  handlers : Nat → Option H

/-- What the linker knows: `isr_vector`, and the number that the stub at an address pushes. -/
structure Image where
  idtEntries : Nat
  isrVector : Nat → Nat
  stubAt : Nat → Option Nat
  bound : ∀ n < INTERRUPTS, isrVector n < 4294967296
  stub : ∀ n < INTERRUPTS, stubAt (isrVector n) = some n

section Source

variable {H : Type}

def idtSetEntry (t : Idt H) (pos offset segment attributes : Nat) : Idt H :=
  let entry : IdtEntry :=
    { offset1 := offset &&& 0xFFFF
      offset2 := (offset >>> 16) &&& 0xFFFF
      zeros := 0
      segment := segment
      attributes := attributes }
  { t with entries := Function.update t.entries pos entry }

/-- The bytes `remap_pic` writes. -/
def remapPicBytes (startInt : Nat) : List (Nat × Nat) :=
  [(0x20, 0x11), (0xA0, 0x11),
    (0x21, startInt), (0xA1, startInt + 8),
    (0x21, 0x04), (0xA1, 0x02),
    (0x21, 0x01), (0xA1, 0x01),
    (0x21, 0x00), (0xA1, 0x00)]

def portOutByte (x : Pics) (port value : Nat) : Pics := x.out port (value % 256)

def remapPic (startInt : Nat) (x : Pics) : Pics := (remapPicBytes startInt).foldl (fun x w => portOutByte x w.1 w.2) x

def idtSetHandler (t : Idt H) (interruptCode : Nat) (handler : Option H) : Idt H :=
  if INTERRUPTS ≤ interruptCode then t
  else { t with handlers := Function.update t.handlers interruptCode handler }

/-- One turn of `idt_init`'s loop. -/
def initEntry (img : Image) (t : Idt H) (i : Nat) : Idt H :=
  let t1 := idtSetEntry t i (img.isrVector i) 0x08 0x8E
  { t1 with handlers := Function.update t1.handlers i none }

/-- The table and the chips; the size of an entry is 8. -/
def idtInit (img : Image) (t : Idt H) (x : Pics) : Idt H × Pics :=
  let t1 := { t with base := img.idtEntries, limit := 8 * INTERRUPTS - 1 }
  ((List.range INTERRUPTS).foldl (initEntry img) t1, remapPic 0x20 x)

/-- The end of `idt_handler`, behind the handler's call; `none` is `kernel_die`. -/
def endHandler (intNo : Nat) (x : Pics) : Option Pics :=
  if intNo < 16 then none
  else
    let x1 := if 0x28 ≤ intNo ∧ intNo < 0x30 then portOutByte x 0xA0 0x20 else x
    some (if 0x20 ≤ intNo ∧ intNo < 0x30 then portOutByte x1 0x20 0x20 else x1)

end Source

/-! ## The processor -/

/-- What the processor reads of an entry. -/
structure Gate where
  offset : Nat
  segment : Nat
  present : Bool
  /-- The gate turns interrupts off. -/
  interrupt : Bool

def IdtEntry.gate (e : IdtEntry) : Gate where
  offset := e.offset1 ||| (e.offset2 <<< 16)
  segment := e.segment
  present := e.attributes.testBit 7
  interrupt := e.attributes % 32 == 0x0E

/-- The gate of a vector, if the table goes that far. -/
def Idt.gate {H : Type} (t : Idt H) (vector : Nat) : Option Gate :=
  if vector * 8 + 7 ≤ t.limit then some (t.entries vector).gate else none

/-- Why a vector was entered. -/
inductive Cause where
  | request
  /-- A request that was gone when the processor asked for it. -/
  | spurious
  | exception
  deriving DecidableEq

/-- What a stub has pushed, and whether interrupts were on. -/
structure Frame where
  intNo : Nat
  cause : Cause
  iflag : Bool

structure Machine (H : Type) where
  idt : Idt H
  pics : Pics
  iflag : Bool
  /-- The handlers that work, innermost first. -/
  frames : List Frame
  halted : Bool

/-- What happens: a line rises, a handler is set or called, one is done. -/
inductive Event (H : Type) where
  /-- `fresh` if the line was not waiting already. -/
  | raised (k : Nat) (fresh : Bool)
  | set (interruptCode : Nat) (handler : Option H)
  | called (intNo : Nat) (handler : Option H) (cause : Cause)
  | done
  | cli
  | sti

section Machine

variable {H : Type}

/-- The processor enters a vector, and the stub calls `idt_handler`. -/
def enter (img : Image) (m : Machine H) (vector : Nat) (cause : Cause) : Option (Event H × Machine H) :=
  match m.idt.gate vector with
  | some g =>
    match g.present, img.stubAt g.offset with
    | true, some intNo => some (.called intNo (m.idt.handlers intNo) cause,
        { m with frames := ⟨intNo, cause, m.iflag⟩ :: m.frames, iflag := m.iflag && !g.interrupt })
    | _, _ => none
  | none => none

/-- One step of the devices, of the kernel or of the processor. -/
inductive Step (img : Image) : Machine H → Event H → Machine H → Prop
  | raise (m : Machine H) (k : Nat) : k < 16 → k ≠ 2 →
      Step img m (.raised k (!m.pics.requested k)) { m with pics := m.pics.raise k }
  | set (m : Machine H) (code : Nat) (handler : Option H) : m.halted = false →
      Step img m (.set code handler) { m with idt := idtSetHandler m.idt code handler }
  | take {m m' : Machine H} {e : Event H} {i : Nat} : m.halted = false → m.iflag = true → m.pics.pending = some i →
      enter img { m with pics := (m.pics.serve i).1 } (m.pics.serve i).2 .request = some (e, m') → Step img m e m'
  /-- The first chip has no request any more, and answers with line 7. -/
  | spurious {m m' : Machine H} {e : Event H} : m.halted = false → m.iflag = true → m.pics.pending = none →
      enter img m (m.pics.master.base + 7) .spurious = some (e, m') → Step img m e m'
  /-- The second chip has none any more, when the first has put its line into service. -/
  | spuriousSlave {m m' : Machine H} {e : Event H} : m.halted = false → m.iflag = true →
      m.pics.slave.pending m.pics.slave.irr = none →
      enter img { m with pics := (m.pics.serve 2).1 } (m.pics.serve 2).2 .spurious = some (e, m') → Step img m e m'
  /-- Vector 17 comes from ring 3 only. -/
  | exception {m m' : Machine H} {e : Event H} {vector : Nat} : m.halted = false → vector < 32 → vector ≠ 17 →
      enter img m vector .exception = some (e, m') → Step img m e m'
  | done {m : Machine H} {f : Frame} {rest : List Frame} {x : Pics} : m.halted = false → m.frames = f :: rest →
      endHandler f.intNo m.pics = some x → Step img m .done { m with pics := x, iflag := f.iflag, frames := rest }
  | die {m : Machine H} {f : Frame} {rest : List Frame} : m.halted = false → m.frames = f :: rest →
      endHandler f.intNo m.pics = none → Step img m .done { m with iflag := false, halted := true }
  /-- `read_cmos` turns interrupts off, and on again, in no handler. -/
  | cli (m : Machine H) : m.halted = false → m.frames = [] → Step img m .cli { m with iflag := false }
  | sti (m : Machine H) : m.halted = false → m.frames = [] → Step img m .sti { m with iflag := true }

/-- After `idt_load`. -/
def start (img : Image) (t : Idt H) (x : Pics) : Machine H where
  idt := (idtInit img t x).1
  pics := (idtInit img t x).2
  iflag := true
  frames := []
  halted := false

/-- A run and what has happened, oldest first. -/
inductive Run (img : Image) : List (Event H) → Machine H → Prop
  | start (t : Idt H) (x : Pics) : Run img [] (start img t x)
  | step {h : List (Event H)} {m m' : Machine H} {e : Event H} : Run img h m → Step img m e m' → Run img (h ++ [e]) m'

/-! ## What happened -/

def Event.raises (k : Nat) : Event H → Bool
  | .raised l fresh => l == k && fresh
  | _ => false

def Event.serves (k : Nat) : Event H → Bool
  | .called intNo _ .request => intNo == 0x20 + k
  | _ => false

/-- What an event says about the handler of `n`. -/
def Event.setsHandler (n : Nat) : Event H → Option (Option H)
  | .set code handler => if code = n then some handler else none
  | _ => none

/-- What an event says about interrupts outside the handlers. -/
def Event.setsInterrupts : Event H → Option Bool
  | .cli => some false
  | .sti => some true
  | _ => none

/-- Outside the handlers interrupts are on, by the last `cli` or `sti`. -/
def interruptsOn (h : List (Event H)) : Bool := (lastSaid Event.setsInterrupts h).getD true

/-- The handler of `n` that was set last. -/
def handlerSet (n : Nat) (h : List (Event H)) : Option H := (lastSaid (Event.setsHandler n) h).getD none

end Machine

/-! ## After idt_init -/

section Init

variable {H : Type} {img : Image} {t : Idt H} {n : Nat}

theorem gate_offset (offset : Nat) (h : offset < 4294967296) :
    (offset &&& 0xFFFF) ||| (((offset >>> 16) &&& 0xFFFF) <<< 16) = offset := by
  have hlow : offset &&& 0xFFFF = offset % 65536 := Nat.and_two_pow_sub_one_eq_mod offset 16
  have hhigh : (offset >>> 16) &&& 0xFFFF = offset / 65536 := by
    rw [show (0xFFFF : Nat) = 2 ^ 16 - 1 from rfl, Nat.and_two_pow_sub_one_eq_mod, Nat.shiftRight_eq_div_pow]
    exact Nat.mod_eq_of_lt (by omega)
  have hlt : offset % 65536 < 2 ^ 16 := Nat.mod_lt _ (by decide)
  rw [hlow, hhigh, Nat.or_comm, ← Nat.shiftLeft_add_eq_or_of_lt hlt, Nat.shiftLeft_eq]
  omega

theorem initLoop_limit (N : Nat) : ((List.range N).foldl (initEntry img) t).limit = t.limit := by
  induction N with
  | zero => rfl
  | succ N ih =>
    rw [List.range_succ, List.foldl_append]
    exact ih

theorem initLoop_entries (N : Nat) (hn : n < N) :
    ((List.range N).foldl (initEntry img) t).entries n =
      ⟨img.isrVector n &&& 0xFFFF, 0x08, 0, 0x8E, (img.isrVector n >>> 16) &&& 0xFFFF⟩ := by
  induction N with
  | zero => exact absurd hn (Nat.not_lt_zero n)
  | succ N ih =>
    rw [List.range_succ, List.foldl_append]
    by_cases he : n = N
    · subst he
      exact Function.update_self _ _ _
    · have hkept : ((List.range N).foldl (initEntry img) t).entries n = _ := ih (by omega)
      exact (Function.update_of_ne he _ _).trans hkept

theorem initLoop_handlers (N : Nat) (hn : n < N) : ((List.range N).foldl (initEntry img) t).handlers n = none := by
  induction N with
  | zero => exact absurd hn (Nat.not_lt_zero n)
  | succ N ih =>
    rw [List.range_succ, List.foldl_append]
    by_cases he : n = N
    · subst he
      exact Function.update_self _ _ _
    · have hkept : ((List.range N).foldl (initEntry img) t).handlers n = none := ih (by omega)
      exact (Function.update_of_ne he _ _).trans hkept

/-- What a chip is after its part of `remap_pic`, whatever it was. -/
def remapped (base cascade : Nat) : Chip where
  irr _ := false
  isr _ := false
  imr := Nat.testBit 0
  base := base
  cascade := cascade
  x86 := true
  autoEnd := false
  expects := []

theorem remapped_programmed (base cascade : Nat) : (remapped base cascade).Programmed base cascade :=
  ⟨rfl, rfl, Nat.zero_testBit, rfl, rfl, rfl⟩

theorem remapped_inService (base cascade : Nat) : (remapped base cascade).InService none := by
  refine ⟨fun i => by simp [remapped], ?_⟩
  intro i hi
  cases hi

/-- Gates for 48 vectors, each to the stub that pushes its number. -/
structure Installed (img : Image) (t : Idt H) : Prop where
  limit : t.limit = 8 * INTERRUPTS - 1
  entries : ∀ n < INTERRUPTS,
    t.entries n = ⟨img.isrVector n &&& 0xFFFF, 0x08, 0, 0x8E, (img.isrVector n >>> 16) &&& 0xFFFF⟩

theorem installed_idtInit (img : Image) (t : Idt H) (x : Pics) : Installed img (idtInit img t x).1 :=
  ⟨initLoop_limit INTERRUPTS, fun _ hn => initLoop_entries INTERRUPTS hn⟩

theorem Installed.gate (h : Installed img t) (hn : n < INTERRUPTS) :
    t.gate n = some ⟨img.isrVector n, 0x08, true, true⟩ := by
  unfold Idt.gate
  have hlimit : n * 8 + 7 ≤ t.limit := by
    rw [h.limit]
    unfold INTERRUPTS at hn ⊢
    omega
  rw [if_pos hlimit, h.entries n hn]
  unfold IdtEntry.gate
  have hpresent : Nat.testBit 0x8E 7 = true := by decide
  have htype : (0x8E % 32 == 0x0E) = true := by decide
  rw [gate_offset _ (img.bound n hn), hpresent, htype]

theorem Installed.setHandler (h : Installed img t) (code : Nat) (handler : Option H) :
    Installed img (idtSetHandler t code handler) := by
  unfold idtSetHandler
  split
  · exact h
  · exact ⟨h.limit, h.entries⟩

/-- The processor gets to the stub of the vector, and interrupts are off. -/
theorem enter_eq {m : Machine H} (h : Installed img m.idt) (hn : n < INTERRUPTS) (cause : Cause) :
    enter img m n cause = some (.called n (m.idt.handlers n) cause,
      { m with frames := ⟨n, cause, m.iflag⟩ :: m.frames, iflag := false }) := by
  unfold enter
  rw [h.gate hn]
  dsimp only
  rw [img.stub n hn]
  simp only [Bool.not_true, Bool.and_false]

end Init

/-! ## The invariant -/

/-- The lines of the two chips that are in service while the handler works. -/
def Frame.lines (f : Frame) : Option Nat × Option Nat :=
  match f.cause with
  | .request => if f.intNo < 0x28 then (some (f.intNo - 0x20), none) else (some 2, some (f.intNo - 0x28))
  | .spurious => if f.intNo < 0x28 then (none, none) else (some 2, none)
  | .exception => (none, none)

/-- Only the outermost handler can be one of the chips'. -/
def linesOf (frames : List Frame) : Option Nat × Option Nat := (frames.getLast?).elim (none, none) Frame.lines

def Frame.Fits (f : Frame) : Prop :=
  match f.cause with
  | .exception => f.intNo < 0x20
  | _ => 0x20 ≤ f.intNo ∧ f.intNo < 0x30

/-- The outermost handler came with interrupts as they are outside the handlers, the others are
    exceptions' that came while they were off. -/
inductive Nested (on : Bool) : List Frame → Prop
  | nil : Nested on []
  | outer {f : Frame} : f.iflag = on → f.Fits → Nested on [f]
  | inner {f : Frame} {frames : List Frame} : f.iflag = false → f.cause = .exception → f.intNo < 0x20 → frames ≠ [] →
      Nested on frames → Nested on (f :: frames)

section Invariant

variable {H : Type}

structure Inv (img : Image) (h : List (Event H)) (m : Machine H) : Prop where
  installed : Installed img m.idt
  handlers : ∀ n < INTERRUPTS, m.idt.handlers n = handlerSet n h
  programmed : m.pics.Programmed 0x20 0x28
  nested : Nested (interruptsOn h) m.frames
  iflag : m.halted = false → m.iflag = (m.frames.isEmpty && interruptsOn h)
  inService : m.pics.InService (linesOf m.frames).1 (linesOf m.frames).2
  accounts : ∀ k < 16, k ≠ 2 → h.countP (Event.raises k) = h.countP (Event.serves k) + if m.pics.requested k then 1 else 0
  calls : ∀ i n handler cause, h[i]? = some (.called n handler cause) → n < INTERRUPTS ∧ handler = handlerSet n (h.take i)

variable {img : Image} {h : List (Event H)} {m m' : Machine H} {e : Event H} {x : Pics} {n : Nat} {cause : Cause}

theorem handlerSet_concat (n : Nat) (h : List (Event H)) (e : Event H) :
    handlerSet n (h ++ [e]) = (e.setsHandler n).getD (handlerSet n h) := by
  unfold handlerSet
  rw [lastSaid_concat, Option.getD_or]

theorem interruptsOn_concat (h : List (Event H)) (e : Event H) :
    interruptsOn (h ++ [e]) = e.setsInterrupts.getD (interruptsOn h) := by
  unfold interruptsOn
  rw [lastSaid_concat, Option.getD_or]

/-- Where `e` is neither `cli` nor `sti`. -/
theorem interruptsOn_other (h : List (Event H)) (he : e.setsInterrupts = none) : interruptsOn (h ++ [e]) = interruptsOn h := by
  rw [interruptsOn_concat, he, Option.getD_none]

theorem linesOf_cons {f : Frame} {frames : List Frame} (hne : frames ≠ []) : linesOf (f :: frames) = linesOf frames := by
  unfold linesOf
  rw [List.getLast?_cons, List.getLast?_eq_some_getLast hne]
  rfl

theorem serves_called (n : Nat) (handler : Option H) (cause : Cause) (k : Nat) :
    (Event.called n handler cause).serves k = decide (cause = .request ∧ n = 0x20 + k) := by
  cases cause with
  | request => simp only [Event.serves, true_and, beq_eq_decide]
  | spurious => simp [Event.serves]
  | exception => simp [Event.serves]

/-- An event that sets nothing keeps the calls' handlers right. -/
theorem calls_concat
    (hcalls : ∀ i n handler cause, h[i]? = some (.called n handler cause) → n < INTERRUPTS ∧ handler = handlerSet n (h.take i))
    (he : ∀ n handler cause, e = .called n handler cause → n < INTERRUPTS ∧ handler = handlerSet n h) :
    ∀ i n handler cause, (h ++ [e])[i]? = some (.called n handler cause) →
      n < INTERRUPTS ∧ handler = handlerSet n ((h ++ [e]).take i) := by
  intro i n handler cause hi
  rcases Nat.lt_trichotomy i h.length with hlt | heq | hgt
  · rw [List.getElem?_append_left hlt] at hi
    rw [List.take_append_of_le_length (Nat.le_of_lt hlt)]
    exact hcalls i n handler cause hi
  · subst heq
    rw [List.getElem?_concat_length, Option.some.injEq] at hi
    rw [List.take_left]
    exact he n handler cause hi
  · rw [List.getElem?_eq_none (by rw [List.length_append, List.length_singleton]; omega)] at hi
    cases hi

/-- Outside the handlers. -/
theorem Inv.iflag_outside (hi : Inv img h m) (hh : m.halted = false) (hf : m.frames = []) : m.iflag = interruptsOn h := by
  rw [hi.iflag hh, hf, List.isEmpty_nil, Bool.true_and]

theorem Inv.iflag_inside (hi : Inv img h m) (hh : m.halted = false) (hf : m.frames ≠ []) : m.iflag = false := by
  rw [hi.iflag hh, List.isEmpty_eq_false_iff.mpr hf, Bool.false_and]

/-- Interrupts are on, so nobody works. -/
theorem Inv.outside (hi : Inv img h m) (hh : m.halted = false) (hon : m.iflag = true) : m.frames = [] := by
  by_contra hf
  rw [hi.iflag_inside hh hf] at hon
  cases hon

/-- What the chips do when a line rises. -/
theorem Inv.raise (hi : Inv img h m) (k : Nat) :
    Inv img (h ++ [.raised k (!m.pics.requested k)]) { m with pics := m.pics.raise k } := by
  have hon := interruptsOn_other h (e := .raised k (!m.pics.requested k)) rfl
  refine ⟨hi.installed, ?_, hi.programmed.raise k, hon ▸ hi.nested, hon ▸ hi.iflag, hi.inService.raise k, ?_, ?_⟩
  · intro n hn
    rw [handlerSet_concat]
    exact hi.handlers n hn
  · intro l hl hl2
    have hold := hi.accounts l hl hl2
    rw [List.countP_append, List.countP_append, hold]
    show _ = _ + if (m.pics.raise k).requested l = true then 1 else 0
    rw [Pics.requested_raise]
    by_cases he : l = k
    · subst he
      cases m.pics.requested l <;> simp [Event.raises, Event.serves]
    · have hne : (k == l) = false := by simpa using Ne.symm he
      simp [Event.raises, Event.serves, he, hne]
  · refine calls_concat hi.calls ?_
    intro n handler cause he
    cases he

theorem Inv.set (hi : Inv img h m) (code : Nat) (handler : Option H) :
    Inv img (h ++ [.set code handler]) { m with idt := idtSetHandler m.idt code handler } := by
  have hon := interruptsOn_other h (e := .set code handler) rfl
  refine ⟨hi.installed.setHandler code handler, ?_, hi.programmed, hon ▸ hi.nested, hon ▸ hi.iflag, hi.inService, ?_, ?_⟩
  · intro n hn
    have hsays : (Event.set code handler).setsHandler n = if code = n then some handler else none := rfl
    rw [handlerSet_concat, ← hi.handlers n hn, hsays]
    show (idtSetHandler m.idt code handler).handlers n = _
    unfold idtSetHandler
    by_cases hc : code = n
    · subst hc
      rw [if_neg (Nat.not_le.mpr hn), if_pos rfl]
      exact Function.update_self _ _ _
    · rw [if_neg hc]
      split
      · rfl
      · exact Function.update_of_ne (Ne.symm hc) _ _
  · intro k hk hk2
    rw [List.countP_append, List.countP_append, hi.accounts k hk hk2]
    rfl
  · refine calls_concat hi.calls ?_
    intro n handler cause he
    cases he

/-- A handler is called: what has to hold of the chips, the new frame and the counts. -/
theorem Inv.enter (hi : Inv img h m) (hn : n < INTERRUPTS) (hp : x.Programmed 0x20 0x28)
    (hnested : Nested (interruptsOn h) (⟨n, cause, m.iflag⟩ :: m.frames))
    (hs : x.InService (linesOf (⟨n, cause, m.iflag⟩ :: m.frames)).1 (linesOf (⟨n, cause, m.iflag⟩ :: m.frames)).2)
    (haccounts : ∀ k < 16, k ≠ 2 → (if m.pics.requested k then 1 else 0) =
      (if cause = .request ∧ n = 0x20 + k then 1 else 0) + if x.requested k then 1 else 0)
    (he : enter img { m with pics := x } n cause = some (e, m')) : Inv img (h ++ [e]) m' := by
  have hentered := enter_eq (m := { m with pics := x }) hi.installed hn cause
  rw [hentered, Option.some.injEq, Prod.mk.injEq] at he
  obtain ⟨rfl, rfl⟩ := he
  have hon := interruptsOn_other h (e := .called n (m.idt.handlers n) cause) rfl
  refine ⟨hi.installed, ?_, hp, hon ▸ hnested, fun _ => rfl, hs, ?_, ?_⟩
  · intro n' hn'
    rw [handlerSet_concat]
    exact hi.handlers n' hn'
  · intro k hk hk2
    have hold := hi.accounts k hk hk2
    rw [haccounts k hk hk2] at hold
    rw [List.countP_append, List.countP_append, hold, List.countP_singleton, List.countP_singleton]
    simp only [Event.raises, serves_called, Bool.false_eq_true, if_false, decide_eq_true_eq]
    omega
  · refine calls_concat hi.calls ?_
    intro n' handler cause' he
    cases he
    exact ⟨hn, hi.handlers n hn⟩

/-- Nobody works, so nothing is in service. -/
theorem Inv.quiet (hi : Inv img h m) (hf : m.frames = []) : m.pics.InService none none := by
  have hs := hi.inService
  rw [hf] at hs
  exact hs

theorem Inv.take (hi : Inv img h m) {i : Nat} (hh : m.halted = false) (hon : m.iflag = true) (hpending : m.pics.pending = some i)
    (he : Cpu.enter img { m with pics := (m.pics.serve i).1 } (m.pics.serve i).2 .request = some (e, m')) :
    Inv img (h ++ [e]) m' ∧ ∃ k, Pics.Served m.pics m'.pics 0x20 0x28 k (0x20 + k) ∧
      e = .called (0x20 + k) (m.idt.handlers (0x20 + k)) .request := by
  have hf := hi.outside hh hon
  obtain ⟨k, hserved⟩ := hi.programmed.served (hi.quiet hf) hpending
  have hk := hserved.bound
  have hv : (m.pics.serve i).2 = 0x20 + k := by
    rw [hserved.vector]
    split <;> omega
  rw [hv] at he
  have hn : 0x20 + k < INTERRUPTS := by
    unfold INTERRUPTS
    omega
  have hlines : linesOf (⟨0x20 + k, .request, m.iflag⟩ :: m.frames) =
      (some (if k < 8 then k else 2), if k < 8 then none else some (k - 8)) := by
    rw [hf]
    show Frame.lines ⟨0x20 + k, .request, m.iflag⟩ = _
    unfold Frame.lines
    by_cases h8 : k < 8
    · simp [h8, show 0x20 + k < 0x28 by omega]
    · simp [h8, show ¬ 0x20 + k < 0x28 by omega, show 0x20 + k - 0x28 = k - 8 by omega]
  have hfits : Frame.Fits ⟨0x20 + k, .request, m.iflag⟩ := by
    show 0x20 ≤ 0x20 + k ∧ 0x20 + k < 0x30
    omega
  have hnext := hi.enter hn (hi.programmed.serve i) (by rw [hf]; exact .outer (hi.iflag_outside hh hf) hfits)
    (by rw [hlines]; exact hserved.inService) ?_ he
  · have hentered := enter_eq (m := { m with pics := (m.pics.serve i).1 }) hi.installed hn .request
    rw [hentered, Option.some.injEq, Prod.mk.injEq] at he
    obtain ⟨rfl, rfl⟩ := he
    refine ⟨hnext, k, ?_, rfl⟩
    rw [← hv]
    exact hserved
  · intro l hl hl2
    rw [hserved.requested l hl2]
    by_cases he' : l = k
    · subst he'
      simp [hserved.wasRequested]
    · simp [he', Ne.symm he']

/-- Nothing was taken back. -/
theorem no_request (hcause : cause ≠ .request) (hx : ∀ k, k ≠ 2 → x.requested k = m.pics.requested k) (k : Nat) (hk : k ≠ 2) :
    (if m.pics.requested k then 1 else 0) =
      (if cause = .request ∧ n = 0x20 + k then 1 else 0) + if x.requested k then 1 else 0 := by
  have hno : ¬ (cause = .request ∧ n = 0x20 + k) := fun hc => hcause hc.1
  rw [hx k hk, if_neg hno, Nat.zero_add]

theorem Inv.spurious (hi : Inv img h m) (hh : m.halted = false) (hon : m.iflag = true)
    (he : Cpu.enter img m (m.pics.master.base + 7) .spurious = some (e, m')) : Inv img (h ++ [e]) m' := by
  have hf := hi.outside hh hon
  have hfits : Frame.Fits ⟨0x20 + 7, .spurious, m.iflag⟩ := by
    show 0x20 ≤ 0x20 + 7 ∧ 0x20 + 7 < 0x30
    decide
  rw [hi.programmed.master.base] at he
  refine hi.enter (x := m.pics) (by decide) hi.programmed ?_ ?_ ?_ he
  · rw [hf]
    exact .outer (hi.iflag_outside hh hf) hfits
  · rw [hf]
    exact hi.quiet hf
  · exact fun k _ hk => no_request (by decide) (fun _ _ => rfl) k hk

theorem Inv.spuriousSlave (hi : Inv img h m) (hh : m.halted = false) (hon : m.iflag = true)
    (hnone : m.pics.slave.pending m.pics.slave.irr = none)
    (he : Cpu.enter img { m with pics := (m.pics.serve 2).1 } (m.pics.serve 2).2 .spurious = some (e, m')) :
    Inv img (h ++ [e]) m' := by
  have hf := hi.outside hh hon
  have hserve : m.pics.serve 2 = (⟨m.pics.master.serve 2, m.pics.slave⟩, m.pics.slave.base + 7) := by
    unfold Pics.serve
    rw [if_pos ⟨rfl, hi.programmed.cascaded⟩, hnone]
  have hq := hi.quiet hf
  have hfits : Frame.Fits ⟨0x28 + 7, .spurious, m.iflag⟩ := by
    show 0x20 ≤ 0x28 + 7 ∧ 0x28 + 7 < 0x30
    decide
  rw [hserve, hi.programmed.slave.base] at he
  have hn : 0x28 + 7 < INTERRUPTS := by decide
  refine hi.enter (x := ⟨m.pics.master.serve 2, m.pics.slave⟩) hn
    ⟨hi.programmed.master.serve 2, hi.programmed.slave⟩ ?_ ?_ ?_ he
  · rw [hf]
    exact .outer (hi.iflag_outside hh hf) hfits
  · rw [hf]
    exact ⟨hq.master.serve hi.programmed.master (by decide), hq.slave⟩
  · refine fun k _ hk => no_request (by decide) ?_ k hk
    intro l hl
    rw [Pics.requested_serve_master (by decide), if_neg hl]

theorem Inv.exception (hi : Inv img h m) (hh : m.halted = false) {vector : Nat} (hv : vector < 32)
    (he : Cpu.enter img m vector .exception = some (e, m')) : Inv img (h ++ [e]) m' := by
  have hn : vector < INTERRUPTS := by
    unfold INTERRUPTS
    omega
  refine hi.enter (x := m.pics) hn hi.programmed ?_ ?_ (fun k _ hk => no_request (by decide) (fun _ _ => rfl) k hk) he
  · by_cases hf : m.frames = []
    · rw [hf]
      exact .outer (hi.iflag_outside hh hf) hv
    · rw [hi.iflag_inside hh hf]
      exact .inner rfl rfl hv hf hi.nested
  · by_cases hf : m.frames = []
    · rw [hf]
      exact hi.quiet hf
    · rw [linesOf_cons hf]
      exact hi.inService

theorem endHandler_exception (h16 : ¬ n < 16) (h : n < 0x20) (x : Pics) : endHandler n x = some x := by
  have hslave : ¬ (0x28 ≤ n ∧ n < 0x30) := by omega
  have hmaster : ¬ (0x20 ≤ n ∧ n < 0x30) := by omega
  simp only [endHandler, if_neg h16, if_neg hslave, if_neg hmaster]

theorem endHandler_master (h : 0x20 ≤ n) (h' : n < 0x28) (x : Pics) : endHandler n x = some (x.out 0x20 0x20) := by
  have h16 : ¬ n < 16 := by omega
  have hslave : ¬ (0x28 ≤ n ∧ n < 0x30) := by omega
  have hmaster : 0x20 ≤ n ∧ n < 0x30 := by omega
  simp only [endHandler, if_neg h16, if_neg hslave, if_pos hmaster]
  rfl

theorem endHandler_slave (h : 0x28 ≤ n) (h' : n < 0x30) (x : Pics) :
    endHandler n x = some ((x.out 0xA0 0x20).out 0x20 0x20) := by
  have h16 : ¬ n < 16 := by omega
  have hmaster : 0x20 ≤ n ∧ n < 0x30 := by omega
  simp only [endHandler, if_neg h16, if_pos (And.intro h h'), if_pos hmaster]
  rfl

/-- The end of a request's handler takes out of service what it put there. -/
theorem Frame.Fits.ends {f : Frame} (hfits : f.Fits) (hp : m.pics.Programmed 0x20 0x28)
    (hs : m.pics.InService f.lines.1 f.lines.2) (hx : endHandler f.intNo m.pics = some x) :
    Pics.Ended m.pics x 0x20 0x28 := by
  have hrequest : 0x20 ≤ f.intNo → f.intNo < 0x30 → (f.intNo < 0x28 → f.lines.2 = none) → Pics.Ended m.pics x 0x20 0x28 := by
    intro hlo hhi hnone
    by_cases h8 : f.intNo < 0x28
    · rw [endHandler_master hlo h8, Option.some.injEq] at hx
      rw [hnone h8] at hs
      rw [← hx]
      exact hs.end_master hp
    · rw [endHandler_slave (by omega) hhi, Option.some.injEq] at hx
      rw [← hx]
      exact hs.end_slave hp
  unfold Frame.Fits at hfits
  cases hcause : f.cause with
  | request =>
    rw [hcause] at hfits
    refine hrequest hfits.1 hfits.2 ?_
    intro h8
    simp [Frame.lines, hcause, h8]
  | spurious =>
    rw [hcause] at hfits
    refine hrequest hfits.1 hfits.2 ?_
    intro h8
    simp [Frame.lines, hcause, h8]
  | exception =>
    rw [hcause] at hfits
    have h16 : ¬ f.intNo < 16 := by
      intro h16
      rw [endHandler, if_pos h16] at hx
      cases hx
    have hlines : f.lines = (none, none) := by
      unfold Frame.lines
      rw [hcause]
    rw [endHandler_exception h16 hfits, Option.some.injEq] at hx
    rw [hlines] at hs
    rw [← hx]
    exact ⟨hp, hs, fun _ => rfl⟩

/-- What the end of a handler leaves belongs to the handlers that are left. -/
theorem Inv.ends (hi : Inv img h m) {f : Frame} {rest : List Frame} (hf : m.frames = f :: rest)
    (hx : endHandler f.intNo m.pics = some x) :
    x.Programmed 0x20 0x28 ∧ x.InService (linesOf rest).1 (linesOf rest).2 ∧ (∀ k, x.requested k = m.pics.requested k) ∧
      Nested (interruptsOn h) rest ∧ f.iflag = (rest.isEmpty && interruptsOn h) := by
  have hs := hi.inService
  have hnested := hi.nested
  rw [hf] at hs hnested
  cases hnested with
  | inner hoff hcause hlt hne hrest =>
    have h16 : ¬ f.intNo < 16 := by
      intro h16
      rw [endHandler, if_pos h16] at hx
      cases hx
    rw [endHandler_exception h16 hlt, Option.some.injEq] at hx
    rw [linesOf_cons hne] at hs
    rw [← hx]
    refine ⟨hi.programmed, hs, fun _ => rfl, hrest, ?_⟩
    rw [hoff, List.isEmpty_eq_false_iff.mpr hne, Bool.false_and]
  | outer hon hfits =>
    have hend := hfits.ends hi.programmed hs hx
    exact ⟨hend.programmed, hend.inService, hend.requested, .nil, hon⟩

theorem Inv.done (hi : Inv img h m) {f : Frame} {rest : List Frame} (hf : m.frames = f :: rest)
    (hx : endHandler f.intNo m.pics = some x) :
    Inv img (h ++ [.done]) { m with pics := x, iflag := f.iflag, frames := rest } := by
  obtain ⟨hp, hs, hreq, hnested, hflag⟩ := hi.ends hf hx
  have hon := interruptsOn_other h (e := .done) rfl
  refine ⟨hi.installed, ?_, hp, hon ▸ hnested, fun _ => hon ▸ hflag, hs, ?_, ?_⟩
  · intro n hn
    rw [handlerSet_concat]
    exact hi.handlers n hn
  · intro k hk hk2
    show _ = _ + if x.requested k = true then 1 else 0
    rw [List.countP_append, List.countP_append, hi.accounts k hk hk2, hreq k]
    rfl
  · refine calls_concat hi.calls ?_
    intro n handler cause he
    cases he

theorem Inv.die (hi : Inv img h m) : Inv img (h ++ [.done]) { m with iflag := false, halted := true } := by
  have hon := interruptsOn_other h (e := .done) rfl
  refine ⟨hi.installed, ?_, hi.programmed, hon ▸ hi.nested, fun hh => (Bool.noConfusion hh), hi.inService, ?_, ?_⟩
  · intro n hn
    rw [handlerSet_concat]
    exact hi.handlers n hn
  · intro k hk hk2
    rw [List.countP_append, List.countP_append, hi.accounts k hk hk2]
    rfl
  · refine calls_concat hi.calls ?_
    intro n handler cause he
    cases he

/-- Outside the handlers interrupts are turned on or off. -/
theorem Inv.switch {on : Bool} (hi : Inv img h m) (hf : m.frames = []) (he : e.setsInterrupts = some on) (hsets : ∀ n, e.setsHandler n = none)
    (hraises : ∀ k, e.raises k = false) (hserves : ∀ k, e.serves k = false)
    (hcalled : ∀ n handler cause, e ≠ .called n handler cause) : Inv img (h ++ [e]) { m with iflag := on } := by
  have hon : interruptsOn (h ++ [e]) = on := by rw [interruptsOn_concat, he, Option.getD_some]
  refine ⟨hi.installed, ?_, hi.programmed, ?_, ?_, hi.inService, ?_, ?_⟩
  · intro n hn
    rw [handlerSet_concat, hsets n]
    exact hi.handlers n hn
  · rw [hf]
    exact .nil
  · intro _
    rw [hon, hf, List.isEmpty_nil, Bool.true_and]
  · intro k hk hk2
    rw [List.countP_append, List.countP_append, hi.accounts k hk hk2, List.countP_singleton, List.countP_singleton, hraises k,
      hserves k]
    rfl
  · exact calls_concat hi.calls fun n handler cause hcall => absurd hcall (hcalled n handler cause)

/-- The step rule. -/
theorem Inv.step (hi : Inv img h m) (hs : Step img m e m') : Inv img (h ++ [e]) m' := by
  cases hs with
  | raise k _ _ => exact hi.raise k
  | set code handler _ => exact hi.set code handler
  | take hh hon hpending he => exact (hi.take hh hon hpending he).1
  | spurious hh hon _ he => exact hi.spurious hh hon he
  | spuriousSlave hh hon hnone he => exact hi.spuriousSlave hh hon hnone he
  | exception hh hv _ he => exact hi.exception hh hv he
  | done _ hf hx => exact hi.done hf hx
  | die _ _ _ => exact hi.die
  | cli _ hf => exact hi.switch hf rfl (fun _ => rfl) (fun _ => rfl) (fun _ => rfl) nofun
  | sti _ hf => exact hi.switch hf rfl (fun _ => rfl) (fun _ => rfl) (fun _ => rfl) nofun

/-- The run rule. -/
theorem run_inv (hr : Run img h m) : Inv img h m := by
  induction hr with
  | start t x =>
    have hpics : (start img t x).pics = ⟨remapped 0x20 4, remapped 0x28 2⟩ := rfl
    refine ⟨installed_idtInit img t x, ?_, ?_, .nil, fun _ => rfl, ?_, ?_, ?_⟩
    · intro n hn
      exact initLoop_handlers INTERRUPTS hn
    · rw [hpics]
      exact ⟨remapped_programmed _ _, remapped_programmed _ _⟩
    · rw [hpics]
      exact ⟨remapped_inService _ _, remapped_inService _ _⟩
    · intro k _ _
      rw [hpics]
      simp [Pics.requested, remapped]
    · intro i n handler cause hi
      cases hi
  | step _ hs ih => exact ih.step hs

end Invariant

/-! ## Going on -/

section Progress

variable {H : Type} {img : Image} {h : List (Event H)} {m m' : Machine H} {e : Event H} {es : List (Event H)}

inductive Path (img : Image) : Machine H → List (Event H) → Machine H → Prop
  | nil (m : Machine H) : Path img m [] m
  | cons {m m₁ m' : Machine H} {e : Event H} {es : List (Event H)} : Step img m e m₁ → Path img m₁ es m' → Path img m (e :: es) m'

theorem Path.append {m₁ : Machine H} {es' : List (Event H)} (h₁ : Path img m es m₁) (h₂ : Path img m₁ es' m') :
    Path img m (es ++ es') m' := by
  induction h₁ with
  | nil m => exact h₂
  | cons hs _ ih => exact .cons hs (ih h₂)

theorem Inv.path (hi : Inv img h m) (hp : Path img m es m') : Inv img (h ++ es) m' := by
  induction hp generalizing h with
  | nil m => rwa [List.append_nil]
  | cons hs _ ih =>
    have hnext := ih (hi.step hs)
    rwa [List.append_assoc] at hnext

/-- A handler that ends, interrupts turned on, or a request that is served. -/
def Event.goesOn : Event H → Bool
  | .done => true
  | .sti => true
  | .called _ _ .request => true
  | _ => false

/-- Handlers of which none stops the system come to their ends. -/
theorem drains (img : Image) (hh : m.halted = false) (hframes : ∀ f ∈ m.frames, 16 ≤ f.intNo) :
    ∃ es m', Path img m es m' ∧ (∀ e ∈ es, e = .done) ∧ m'.frames = [] ∧ m'.halted = false ∧ m'.idt = m.idt := by
  generalize hf : m.frames = frames at hframes
  induction frames generalizing m with
  | nil => exact ⟨[], m, .nil m, by simp, hf, hh, rfl⟩
  | cons f rest ih =>
    obtain ⟨h16, hrest⟩ := List.forall_mem_cons.mp hframes
    obtain ⟨x, hx⟩ : ∃ x, endHandler f.intNo m.pics = some x := by
      unfold endHandler
      rw [if_neg (Nat.not_lt.mpr h16)]
      exact ⟨_, rfl⟩
    obtain ⟨es, m', hpath, hes, hout⟩ := ih (m := { m with pics := x, iflag := f.iflag, frames := rest }) hh rfl hrest
    exact ⟨_, m', .cons (.done hh hf hx) hpath, List.forall_mem_cons.mpr ⟨rfl, hes⟩, hout⟩

/-- What is going on comes to an end, and interrupts are on. -/
theorem wakes (img : Image) (hh : m.halted = false) (hframes : ∀ f ∈ m.frames, 16 ≤ f.intNo) :
    ∃ es m', Path img m es m' ∧ (∀ e ∈ es, e = .done ∨ e = .sti) ∧ m'.frames = [] ∧ m'.iflag = true ∧ m'.halted = false ∧
      m'.idt = m.idt := by
  obtain ⟨es, m₁, hpath, hes, hf, hh₁, hidt⟩ := drains img hh hframes
  refine ⟨es ++ [.sti], { m₁ with iflag := true }, hpath.append (.cons (.sti m₁ hh₁ hf) (.nil _)), ?_, hf, rfl, hh₁, hidt⟩
  intro e he
  rcases List.mem_append.mp he with he | he
  · exact .inl (hes e he)
  · exact .inr (List.mem_singleton.mp he)

/-- Neither leaves other requests waiting. -/
theorem requested_done (hi : Inv img h m) (hp : Path img m es m') (hes : ∀ e ∈ es, e = .done ∨ e = .sti) {k : Nat} (hk : k < 16)
    (hk2 : k ≠ 2) :
    m'.pics.requested k = m.pics.requested k := by
  have hold := hi.accounts k hk hk2
  have hnew := (hi.path hp).accounts k hk hk2
  have hraises : es.countP (Event.raises k) = 0 := by
    rw [List.countP_eq_zero]
    intro e he
    rcases hes e he with rfl | rfl <;> exact Bool.false_ne_true
  have hserves : es.countP (Event.serves k) = 0 := by
    rw [List.countP_eq_zero]
    intro e he
    rcases hes e he with rfl | rfl <;> exact Bool.false_ne_true
  rw [List.countP_append, List.countP_append, hraises, hserves] at hnew
  have hsame : (if m.pics.requested k then 1 else 0) = if m'.pics.requested k then 1 else 0 := by omega
  revert hsame
  cases m.pics.requested k <;> cases m'.pics.requested k <;> simp

/-- The requests that wait. -/
def waiting (m : Machine H) : Finset Nat := (Finset.range 16).filter fun k => k ≠ 2 ∧ m.pics.requested k = true

theorem mem_waiting {k : Nat} : k ∈ waiting m ↔ k < 16 ∧ k ≠ 2 ∧ m.pics.requested k = true := by
  unfold waiting
  rw [Finset.mem_filter, Finset.mem_range]

/-- Interrupts are on: the next request is served. -/
theorem Inv.takes (hi : Inv img h m) (hh : m.halted = false) (hon : m.iflag = true) {k : Nat} (hk : k < 16) (hk2 : k ≠ 2)
    (hreq : m.pics.requested k = true) :
    ∃ k' m', Step img m (.called (0x20 + k') (m.idt.handlers (0x20 + k')) .request) m' ∧
      Pics.Served m.pics m'.pics 0x20 0x28 k' (0x20 + k') ∧ m'.halted = false ∧ m'.idt = m.idt ∧
      ∀ f ∈ m'.frames, 16 ≤ f.intNo := by
  have hf := hi.outside hh hon
  obtain ⟨i, hpending⟩ := hi.programmed.pending_of_requested (hi.quiet hf) hk hk2 hreq
  obtain ⟨k₁, hserved⟩ := hi.programmed.served (hi.quiet hf) hpending
  have hv : 0x20 ≤ (m.pics.serve i).2 ∧ (m.pics.serve i).2 < INTERRUPTS := by
    have hbound := hserved.bound
    unfold INTERRUPTS
    rw [hserved.vector]
    split <;> omega
  have he := enter_eq (m := { m with pics := (m.pics.serve i).1 }) hi.installed hv.2 .request
  obtain ⟨-, k', hserved', hcalled⟩ := hi.take hh hon hpending he
  refine ⟨k', _, ?_, hserved', hh, rfl, ?_⟩
  · rw [← hcalled]
    exact .take hh hon hpending he
  · rw [hf]
    intro f hmem
    rw [List.mem_singleton.mp hmem]
    exact Nat.le_trans (by decide) hv.1

theorem served_within (N : Nat) {k : Nat} (hk : k < 16) (hk2 : k ≠ 2) (hi : Inv img h m) (hh : m.halted = false)
    (hframes : ∀ f ∈ m.frames, 16 ≤ f.intNo) (hreq : m.pics.requested k = true) (hN : (waiting m).card ≤ N) :
    ∃ es m', Path img m (es ++ [.called (0x20 + k) (m.idt.handlers (0x20 + k)) .request]) m' ∧ ∀ e ∈ es, e.goesOn := by
  induction N generalizing h m with
  | zero =>
    have hmem : k ∈ waiting m := mem_waiting.mpr ⟨hk, hk2, hreq⟩
    rw [Finset.card_eq_zero.mp (Nat.le_zero.mp hN)] at hmem
    exact absurd hmem (Finset.notMem_empty k)
  | succ N ih =>
    obtain ⟨es₁, m₁, hpath₁, hdone, -, hon₁, hh₁, hidt₁⟩ := wakes img hh hframes
    have hi₁ := hi.path hpath₁
    have hsame : ∀ l < 16, l ≠ 2 → m₁.pics.requested l = m.pics.requested l := fun l hl hl2 =>
      requested_done hi hpath₁ hdone hl hl2
    have hgoes₁ : ∀ e ∈ es₁, e.goesOn := by
      intro e he
      rcases hdone e he with rfl | rfl <;> rfl
    have hreq₁ : m₁.pics.requested k = true := (hsame k hk hk2).trans hreq
    obtain ⟨k', m₂, hstep, hserved, hh₂, hidt₂, hframes₂⟩ := hi₁.takes hh₁ hon₁ hk hk2 hreq₁
    by_cases he : k' = k
    · subst he
      rw [hidt₁] at hstep
      exact ⟨es₁, m₂, hpath₁.append (.cons hstep (.nil m₂)), hgoes₁⟩
    · -- another one came first, and one less is waiting
      have hreq₂ : m₂.pics.requested k = true := by
        rw [hserved.requested k hk2, if_neg (Ne.symm he)]
        exact hreq₁
      have hless : waiting m₂ ⊂ waiting m := by
        rw [Finset.ssubset_iff_of_subset]
        · refine ⟨k', mem_waiting.mpr ⟨hserved.bound, hserved.notCascade, ?_⟩, ?_⟩
          · rw [← hsame k' hserved.bound hserved.notCascade]
            exact hserved.wasRequested
          · intro hmem
            have hstill := (mem_waiting.mp hmem).2.2
            rw [hserved.requested k' hserved.notCascade, if_pos rfl] at hstill
            cases hstill
        · intro l hmem
          obtain ⟨hl, hl2, hlreq⟩ := mem_waiting.mp hmem
          refine mem_waiting.mpr ⟨hl, hl2, ?_⟩
          rw [hserved.requested l hl2] at hlreq
          split at hlreq
          · cases hlreq
          · rw [← hsame l hl hl2]
            exact hlreq
      have hcard := Finset.card_lt_card hless
      obtain ⟨es, m', hpath, hes⟩ := ih (hi₁.step hstep) hh₂ hframes₂ hreq₂ (by omega)
      rw [hidt₂, hidt₁] at hpath
      refine ⟨es₁ ++ Event.called (0x20 + k') (m₁.idt.handlers (0x20 + k')) .request :: es, m', ?_, ?_⟩
      · rw [List.append_assoc]
        exact hpath₁.append (.cons hstep hpath)
      · intro e hmem
        rcases List.mem_append.mp hmem with hmem | hmem
        · exact hgoes₁ e hmem
        · rcases List.mem_cons.mp hmem with rfl | hmem
          · rfl
          · exact hes e hmem

end Progress

/-! ## Moves -/

/-- What somebody does next. -/
inductive Move (H : Type) where
  | raise (k : Nat)
  | set (interruptCode : Nat) (handler : Option H)
  | take
  | exception (vector : Nat)
  | done
  | cli
  | sti

section Moves

variable {H : Type} {img : Image} {h : List (Event H)} {m m' : Machine H} {e : Event H}

def move (img : Image) (m : Machine H) : Move H → Option (Event H × Machine H)
  | .raise k =>
    if k < 16 ∧ k ≠ 2 then some (.raised k (!m.pics.requested k), { m with pics := m.pics.raise k }) else none
  | .set code handler =>
    if m.halted = false then some (.set code handler, { m with idt := idtSetHandler m.idt code handler }) else none
  | .take =>
    if m.halted = false ∧ m.iflag = true then
      match m.pics.pending with
      | some i => enter img { m with pics := (m.pics.serve i).1 } (m.pics.serve i).2 .request
      | none => none
    else none
  | .exception vector => if m.halted = false ∧ vector < 32 ∧ vector ≠ 17 then enter img m vector .exception else none
  | .done =>
    match m.frames with
    | [] => none
    | f :: rest =>
      if m.halted = false then
        match endHandler f.intNo m.pics with
        | some x => some (.done, { m with pics := x, iflag := f.iflag, frames := rest })
        | none => some (.done, { m with iflag := false, halted := true })
      else none
  | .cli => if m.halted = false ∧ m.frames.isEmpty then some (.cli, { m with iflag := false }) else none
  | .sti => if m.halted = false ∧ m.frames.isEmpty then some (.sti, { m with iflag := true }) else none

theorem move_step {mv : Move H} (hmove : move img m mv = some (e, m')) : Step img m e m' := by
  cases mv with
  | raise k =>
    simp only [move] at hmove
    split_ifs at hmove with hk
    cases hmove
    exact .raise m k hk.1 hk.2
  | set code handler =>
    simp only [move] at hmove
    split_ifs at hmove with hh
    cases hmove
    exact .set m code handler hh
  | take =>
    simp only [move] at hmove
    split_ifs at hmove with hh
    split at hmove
    · rename_i i hpending
      exact .take hh.1 hh.2 hpending hmove
    · cases hmove
  | exception vector =>
    simp only [move] at hmove
    split_ifs at hmove with hh
    exact .exception hh.1 hh.2.1 hh.2.2 hmove
  | done =>
    simp only [move] at hmove
    split at hmove
    · cases hmove
    · rename_i f rest hf
      split_ifs at hmove with hh
      split at hmove
      · rename_i x hx
        cases hmove
        exact .done hh hf hx
      · rename_i hx
        cases hmove
        exact .die hh hf hx
  | cli =>
    simp only [move] at hmove
    split_ifs at hmove with hh
    cases hmove
    exact .cli m hh.1 (List.isEmpty_iff.mp hh.2)
  | sti =>
    simp only [move] at hmove
    split_ifs at hmove with hh
    cases hmove
    exact .sti m hh.1 (List.isEmpty_iff.mp hh.2)

def moves (img : Image) (h : List (Event H)) (m : Machine H) : List (Move H) → Option (List (Event H) × Machine H)
  | [] => some (h, m)
  | mv :: mvs =>
    match move img m mv with
    | some (e, m') => moves img (h ++ [e]) m' mvs
    | none => none

theorem moves_run {mvs : List (Move H)} {r : List (Event H) × Machine H} (hr : Run img h m) (hmoves : moves img h m mvs = some r) :
    Run img r.1 r.2 := by
  induction mvs generalizing h m with
  | nil =>
    cases hmoves
    exact hr
  | cons mv mvs ih =>
    unfold moves at hmoves
    split at hmoves
    · rename_i e m' hmove
      exact ih (hr.step (move_step hmove)) hmoves
    · cases hmoves

end Moves

/-- Stubs of 16 bytes each. -/
def stubsAt1M : Image where
  idtEntries := 0x200000
  isrVector n := 0x100000 + 16 * n
  stubAt a := some ((a - 0x100000) / 16)
  bound := by
    intro n hn
    unfold INTERRUPTS at hn
    omega
  stub := by
    intro n _
    rw [Option.some.injEq]
    omega

/-- The keyboard's handler is 1, the clock's 2. While interrupts are off the keyboard has a
    request; while its handler works, the clock on the second chip, and the keyboard again. -/
def keyboardAndClock : List (Move Nat) :=
  [.set 0x21 (some 1), .set 0x28 (some 2), .cli, .raise 1, .sti, .take, .raise 8, .raise 1, .exception 16, .done, .done, .take]

/-- Chips and a table that nobody has written to. -/
def keyboardAndClockRun : Option (List (Event Nat) × Machine Nat) :=
  moves stubsAt1M [] (start stubsAt1M ⟨0, 0, fun _ => ⟨0, 0, 0, 0, 0⟩, fun _ => none⟩ ⟨.initialise 0, .initialise 0⟩) keyboardAndClock

theorem keyboard_and_clock_run (hsome : keyboardAndClockRun.isSome = true) :
    Run stubsAt1M (keyboardAndClockRun.get hsome).1 (keyboardAndClockRun.get hsome).2 :=
  moves_run (.start _ _) (Option.some_get hsome).symm

/-! ## Every run -/

section Results

variable {H : Type} {img : Image} {h : List (Event H)} {m : Machine H}

/-- Each line was served as often as it began to wait, but for the request that still waits; and
    each call is of a vector of the table, and of the handler that had been set last for it. -/
theorem requests_are_accounted_for (hr : Run img h m) :
    (∀ k < 16, k ≠ 2 → h.countP (Event.raises k) = h.countP (Event.serves k) + if m.pics.requested k then 1 else 0) ∧
    ∀ i n handler cause, h[i]? = some (.called n handler cause) → n < INTERRUPTS ∧ handler = handlerSet n (h.take i) := by
  have hi := run_inv hr
  exact ⟨hi.accounts, hi.calls⟩

/-- The keyboard was served twice, once for each request; the clock waits. -/
theorem keyboard_and_clock_accounted : ∃ h m, Run (H := Nat) stubsAt1M h m ∧ h.countP (Event.serves 1) = 2 ∧
    (h.countP (Event.raises 8) = h.countP (Event.serves 8) + if m.pics.requested 8 then 1 else 0) := by
  have hr := keyboard_and_clock_run (by decide +kernel)
  exact ⟨_, _, hr, by decide +kernel, (requests_are_accounted_for hr).1 8 (by decide) (by decide)⟩

/-- At most one of the handlers that work was called for the chips, the outermost one; what is
    in service are its lines; and interrupts are on exactly where nobody works and the kernel has
    not turned them off. -/
theorem one_request_at_a_time (hr : Run img h m) :
    (∀ f ∈ m.frames, f.Fits) ∧ (∀ f ∈ m.frames.dropLast, f.cause = .exception) ∧
    m.pics.InService (linesOf m.frames).1 (linesOf m.frames).2 ∧
    (m.frames = [] → m.pics.InService none none) ∧
    (m.halted = false → (m.iflag = true ↔ m.frames = [] ∧ interruptsOn h = true)) := by
  have hi := run_inv hr
  have hnested : ∀ {frames : List Frame}, Nested (interruptsOn h) frames →
      (∀ f ∈ frames, f.Fits) ∧ ∀ f ∈ frames.dropLast, f.cause = .exception := by
    intro frames hn
    induction hn with
    | nil => exact ⟨by simp, by simp⟩
    | outer _ hfits => exact ⟨by simpa using hfits, by simp⟩
    | @inner f frames _ hcause hlt hne _ ih =>
      refine ⟨List.forall_mem_cons.mpr ⟨?_, ih.1⟩, ?_⟩
      · unfold Frame.Fits
        rw [hcause]
        exact hlt
      · rw [List.dropLast_cons_of_ne_nil hne]
        exact List.forall_mem_cons.mpr ⟨hcause, ih.2⟩
  obtain ⟨hfits, houter⟩ := hnested hi.nested
  refine ⟨hfits, houter, hi.inService, hi.quiet, fun hh => ?_⟩
  rw [hi.iflag hh, Bool.and_eq_true, List.isEmpty_iff]

theorem keyboard_is_in_service : ∃ h m, Run (H := Nat) stubsAt1M h m ∧ m.frames.map Frame.intNo = [0x21] ∧
    m.pics.InService (linesOf m.frames).1 (linesOf m.frames).2 := by
  have hr := keyboard_and_clock_run (by decide +kernel)
  exact ⟨_, _, hr, by decide +kernel, (one_request_at_a_time hr).2.2.1⟩

/-- Where none of the handlers that work stops the system, a request that waits is served after
    some ends of handlers, `sti`s and other requests, by the handler that was set for it. -/
theorem waiting_requests_are_served (hr : Run img h m) (hh : m.halted = false) (hframes : ∀ f ∈ m.frames, 16 ≤ f.intNo)
    {k : Nat} (hk : k < 16) (hk2 : k ≠ 2) (hreq : m.pics.requested k = true) :
    ∃ es m', Path img m (es ++ [.called (0x20 + k) (handlerSet (0x20 + k) h) .request]) m' ∧ ∀ e ∈ es, e.goesOn := by
  have hi := run_inv hr
  have hn : 0x20 + k < INTERRUPTS := by
    unfold INTERRUPTS
    omega
  rw [← hi.handlers _ hn]
  exact served_within _ hk hk2 hi hh hframes hreq (Nat.le_refl _)

theorem the_clock_is_served : ∃ h m, Run (H := Nat) stubsAt1M h m ∧ m.pics.requested 8 = true ∧
    ∃ es m', Path stubsAt1M m (es ++ [.called (0x20 + 8) (handlerSet (0x20 + 8) h) .request]) m' ∧ ∀ e ∈ es, e.goesOn := by
  have hr := keyboard_and_clock_run (by decide +kernel)
  have hreq : (keyboardAndClockRun.get (by decide +kernel)).2.pics.requested 8 = true := by decide +kernel
  exact ⟨_, _, hr, hreq, waiting_requests_are_served hr (by decide +kernel) (by decide +kernel) (by decide) (by decide) hreq⟩

end Results

end NativeOS.Cpu
