/-
  NativeOS.Lib.Pic — two 8259A interrupt controllers, the second one on line 2 of the first.

  A chip latches requests (`irr`), hands out the one with the lowest number that is not masked
  and not below a line in service, and keeps it in service (`isr`) until the end of the
  interrupt is announced. It is programmed by a command word and the data words it announces.
  A chip whose line 2 is a second chip's output lets that one name the vector.

  Left out are rotating priorities, polling and the specific end of interrupt.

  `Programmed` says what programming has to achieve: bases that are multiples of 8, nothing
  masked, the cascade known to both, no automatic end. Then:
  * `Programmed.served` — the processor gets the vector of a requested line, which is
    the one line put into service and the one request taken back.
  * `InService.end_slave`, `InService.end_master` — an end of interrupt to the second chip, if it
    is one of its lines, and one to the first leave nothing in service.
-/

import Mathlib.Logic.Function.Basic
import Mathlib.Data.List.Range

namespace NativeOS.Lib.Pic

/-! ## One chip -/

/-- A data word that is to come. -/
inductive Icw where
  | vectorBase
  | cascade
  | mode
  deriving DecidableEq

structure Chip where
  irr : Nat → Bool
  isr : Nat → Bool
  imr : Nat → Bool
  base : Nat
  /-- The lines with a second chip on them, or the line this chip is on. -/
  cascade : Nat
  x86 : Bool
  autoEnd : Bool
  expects : List Icw

namespace Chip

def line (i : Nat) (b : Bool) (lines : Nat → Bool) : Nat → Bool := Function.update lines i b

/-- The first of the eight lines that `lines` has. -/
def first (lines : Nat → Bool) : Option Nat := (List.range 8).find? lines

/-- The initialisation command: the chip starts over. -/
def initialise (b : Nat) : Chip where
  irr _ := false
  isr _ := false
  imr _ := false
  base := 0
  cascade := 7
  x86 := false
  autoEnd := false
  expects := .vectorBase :: ((if b.testBit 1 then [] else [Icw.cascade]) ++ if b.testBit 0 then [Icw.mode] else [])

/-- The line in service that matters most is done. -/
def endOfInterrupt (p : Chip) : Chip :=
  match first p.isr with
  | some i => { p with isr := line i false p.isr }
  | none => p

/-- A byte written to the command port. -/
def command (p : Chip) (b : Nat) : Chip :=
  if b.testBit 4 then initialise b
  else if b = 0x20 then p.endOfInterrupt
  else p

/-- A byte written to the data port. -/
def data (p : Chip) (b : Nat) : Chip :=
  match p.expects with
  | .vectorBase :: rest => { p with base := b - b % 8, expects := rest }
  | .cascade :: rest => { p with cascade := b, expects := rest }
  | .mode :: rest => { p with x86 := b.testBit 0, autoEnd := b.testBit 1, expects := rest }
  | [] => { p with imr := b.testBit }

def raise (p : Chip) (i : Nat) : Chip := { p with irr := line i true p.irr }

/-- The request handed out: none that is masked, and none behind a line in service. -/
def pending (p : Chip) (requests : Nat → Bool) : Option Nat :=
  (first fun i => (requests i && !p.imr i) || p.isr i).filter fun i => !p.isr i

/-- The request is taken back, and the line in service. -/
def serve (p : Chip) (i : Nat) : Chip := { p with irr := line i false p.irr, isr := line i (!p.autoEnd) p.isr }

end Chip

namespace Chip

variable {p : Chip} {lines : Nat → Bool} {i j : Nat} {m : Option Nat} {base cascade : Nat}

theorem line_apply (i j : Nat) (b : Bool) (lines : Nat → Bool) : line i b lines j = if j = i then b else lines j :=
  Function.update_apply lines i b j

theorem first_eq_some : first lines = some i ↔ i < 8 ∧ lines i = true ∧ ∀ j < i, lines j = false := by
  unfold first
  rw [List.find?_range_eq_some, List.mem_range]
  constructor
  · rintro ⟨htrue, hlt, hbefore⟩
    exact ⟨hlt, htrue, fun j hj => by simpa using hbefore j hj⟩
  · rintro ⟨hlt, htrue, hbefore⟩
    exact ⟨htrue, hlt, fun j hj => by simpa using hbefore j hj⟩

theorem first_eq_none : first lines = none ↔ ∀ i < 8, lines i = false := by
  unfold first
  rw [List.find?_range_eq_none]
  simp

theorem first_isSome (hi : i < 8) (h : lines i = true) : ∃ j, first lines = some j := by
  cases hf : first lines with
  | some j => exact ⟨j, rfl⟩
  | none =>
    rw [first_eq_none.mp hf i hi] at h
    cases h

/-- The chip is programmed: vectors from `base`, nothing masked, ends of interrupts announced. -/
structure Programmed (p : Chip) (base cascade : Nat) : Prop where
  base : p.base = base
  cascade : p.cascade = cascade
  unmasked : ∀ i, p.imr i = false
  x86 : p.x86 = true
  manual : p.autoEnd = false
  ready : p.expects = []

theorem Programmed.raise (h : p.Programmed base cascade) (i : Nat) : (p.raise i).Programmed base cascade :=
  ⟨h.base, h.cascade, h.unmasked, h.x86, h.manual, h.ready⟩

theorem Programmed.serve (h : p.Programmed base cascade) (i : Nat) : (p.serve i).Programmed base cascade :=
  ⟨h.base, h.cascade, h.unmasked, h.x86, h.manual, h.ready⟩

/-- Nothing, or the one line `m`, is in service. -/
structure InService (p : Chip) (m : Option Nat) : Prop where
  isr : ∀ i, p.isr i = decide (m = some i)
  line : ∀ i ∈ m, i < 8

theorem InService.raise (h : p.InService m) (i : Nat) : (p.raise i).InService m := ⟨h.isr, h.line⟩

/-- With nothing in service the first request is handed out. -/
theorem InService.pending (h : p.InService none) (hp : p.Programmed base cascade) (requests : Nat → Bool) :
    p.pending requests = first requests := by
  have hlines : (fun i => (requests i && !p.imr i) || p.isr i) = requests := by
    funext i
    rw [hp.unmasked, h.isr]
    simp
  unfold Chip.pending
  rw [hlines]
  cases first requests with
  | none => rfl
  | some i => simp [h.isr]

theorem InService.serve (h : p.InService none) (hp : p.Programmed base cascade) (hi : i < 8) : (p.serve i).InService (some i) := by
  refine ⟨?_, ?_⟩
  · intro j
    show Chip.line i (!p.autoEnd) p.isr j = _
    rw [line_apply, hp.manual, h.isr]
    by_cases hj : j = i
    · simp [hj]
    · simp [hj, Ne.symm hj]
  · intro j hj
    cases hj
    exact hi

theorem InService.first (h : p.InService m) : Chip.first p.isr = m := by
  cases m with
  | none =>
    rw [first_eq_none]
    intro i _
    rw [h.isr]
    simp
  | some i =>
    rw [first_eq_some]
    refine ⟨h.line i rfl, by rw [h.isr]; simp, ?_⟩
    intro j hj
    rw [h.isr]
    simp only [Option.some.injEq, decide_eq_false_iff_not]
    omega

/-- Then nothing is in service, and nothing else has changed. -/
theorem InService.endOf (h : p.InService m) : p.endOfInterrupt = { p with isr := fun _ => false } := by
  have hfirst := h.first
  unfold endOfInterrupt
  rw [hfirst]
  cases m with
  | none =>
    have hisr : p.isr = fun _ => false := by
      funext i
      rw [h.isr]
      simp
    rw [← hisr]
  | some i =>
    have hisr : Chip.line i false p.isr = fun _ => false := by
      funext j
      rw [line_apply, h.isr]
      by_cases hj : j = i
      · simp [hj]
      · simp [hj, Ne.symm hj]
    exact congrArg (fun isr => { p with isr := isr }) hisr

theorem inService_none (p : Chip) : ({ p with isr := fun _ => false } : Chip).InService none := by
  refine ⟨by simp, ?_⟩
  intro i hi
  cases hi

end Chip

/-! ## Two chips -/

structure Pics where
  master : Chip
  slave : Chip

namespace Pics

/-- The lines of the first chip, the second being on line 2. -/
def requests (x : Pics) (i : Nat) : Bool := if i = 2 then (x.slave.pending x.slave.irr).isSome else x.master.irr i

def pending (x : Pics) : Option Nat := x.master.pending x.requests

/-- Whether both were told where the second one is. -/
def Cascaded (x : Pics) : Prop := x.master.cascade.testBit 2 = true ∧ x.slave.cascade = 2

instance (x : Pics) : Decidable x.Cascaded := inferInstanceAs (Decidable (_ ∧ _))

/-- Line `i` of the first chip is acknowledged: what is in service then, and the vector. -/
def serve (x : Pics) (i : Nat) : Pics × Nat :=
  if i = 2 ∧ x.Cascaded then
    match x.slave.pending x.slave.irr with
    | some j => (⟨x.master.serve 2, x.slave.serve j⟩, x.slave.base + j)
    | none => (⟨x.master.serve 2, x.slave⟩, x.slave.base + 7)
  else (⟨x.master.serve i, x.slave⟩, x.master.base + i)

/-- Request `k` of the sixteen, 0–7 on the first chip. -/
def requested (x : Pics) (k : Nat) : Bool := if k < 8 then x.master.irr k else x.slave.irr (k - 8)

def raise (x : Pics) (k : Nat) : Pics :=
  if k < 8 then { x with master := x.master.raise k } else { x with slave := x.slave.raise (k - 8) }

/-- A byte written to a port. -/
def out (x : Pics) (port b : Nat) : Pics :=
  if port = 0x20 then { x with master := x.master.command b }
  else if port = 0x21 then { x with master := x.master.data b }
  else if port = 0xA0 then { x with slave := x.slave.command b }
  else if port = 0xA1 then { x with slave := x.slave.data b }
  else x

variable {x : Pics} {base₁ base₂ : Nat} {m m₂ : Option Nat} {i k : Nat}

/-- Both are programmed, the second one as line 2 of the first. -/
structure Programmed (x : Pics) (base₁ base₂ : Nat) : Prop where
  master : x.master.Programmed base₁ 4
  slave : x.slave.Programmed base₂ 2

/-- What is in service on the first and on the second chip. -/
structure InService (x : Pics) (m m₂ : Option Nat) : Prop where
  master : x.master.InService m
  slave : x.slave.InService m₂

theorem Programmed.cascaded (h : x.Programmed base₁ base₂) : x.Cascaded := by
  refine ⟨?_, h.slave.cascade⟩
  rw [h.master.cascade]
  rfl

theorem Programmed.raise (h : x.Programmed base₁ base₂) (k : Nat) : (x.raise k).Programmed base₁ base₂ := by
  unfold Pics.raise
  split
  · exact ⟨h.master.raise k, h.slave⟩
  · exact ⟨h.master, h.slave.raise _⟩

theorem InService.raise (h : x.InService m m₂) (k : Nat) : (x.raise k).InService m m₂ := by
  unfold Pics.raise
  split
  · exact ⟨h.master.raise k, h.slave⟩
  · exact ⟨h.master, h.slave.raise _⟩

theorem requested_raise (x : Pics) (k l : Nat) : (x.raise k).requested l = (decide (l = k) || x.requested l) := by
  unfold Pics.raise requested
  by_cases hk : k < 8
  · rw [if_pos hk]
    by_cases hl : l < 8
    · rw [if_pos hl, if_pos hl]
      show Chip.line k true x.master.irr l = _
      rw [Chip.line_apply]
      by_cases he : l = k <;> simp [he]
    · have hne : l ≠ k := by omega
      rw [if_neg hl, if_neg hl]
      simp [hne]
  · rw [if_neg hk]
    by_cases hl : l < 8
    · have hne : l ≠ k := by omega
      rw [if_pos hl, if_pos hl]
      simp [hne]
    · rw [if_neg hl, if_neg hl]
      show Chip.line (k - 8) true x.slave.irr (l - 8) = _
      rw [Chip.line_apply]
      by_cases he : l = k
      · simp [he]
      · have hne : l - 8 ≠ k - 8 := by omega
        simp [he, hne]

/-- What one acknowledged interrupt is: the request `k` is taken back and no other, and its
    vector handed out. -/
structure Served (x x' : Pics) (base₁ base₂ k v : Nat) : Prop where
  wasRequested : x.requested k = true
  bound : k < 16
  notCascade : k ≠ 2
  requested : ∀ l, l ≠ 2 → x'.requested l = if l = k then false else x.requested l
  vector : v = if k < 8 then base₁ + k else base₂ + (k - 8)
  inService : x'.InService (some (if k < 8 then k else 2)) (if k < 8 then none else some (k - 8))

theorem requested_serve_master (hi : i < 8) (l : Nat) :
    requested ⟨x.master.serve i, x.slave⟩ l = if l = i then false else x.requested l := by
  unfold requested
  by_cases hl : l < 8
  · rw [if_pos hl, if_pos hl]
    exact Chip.line_apply i l false x.master.irr
  · have hne : l ≠ i := by omega
    rw [if_neg hl, if_neg hl, if_neg hne]

theorem requested_serve_slave {j : Nat} (l : Nat) (hl2 : l ≠ 2) :
    requested ⟨x.master.serve 2, x.slave.serve j⟩ l = if l = 8 + j then false else x.requested l := by
  unfold requested
  by_cases hl : l < 8
  · have hne : l ≠ 8 + j := by omega
    rw [if_pos hl, if_pos hl, if_neg hne]
    show Chip.line 2 false x.master.irr l = _
    rw [Chip.line_apply, if_neg hl2]
  · rw [if_neg hl, if_neg hl]
    show Chip.line j false x.slave.irr (l - 8) = _
    rw [Chip.line_apply]
    by_cases he : l = 8 + j
    · rw [if_pos he, if_pos (by omega)]
    · rw [if_neg he, if_neg (by omega)]

/-- With nothing in service, a line that the first chip hands out is a request of one of the two. -/
theorem Programmed.served (h : x.Programmed base₁ base₂) (hq : x.InService none none) (hi : x.pending = some i) :
    ∃ k, Served x (x.serve i).1 base₁ base₂ k (x.serve i).2 := by
  unfold pending at hi
  rw [hq.master.pending h.master, Chip.first_eq_some] at hi
  obtain ⟨hlt, hreq, -⟩ := hi
  unfold requests at hreq
  unfold serve
  by_cases h2 : i = 2
  · -- the second chip
    rw [if_pos h2] at hreq
    obtain ⟨j, hj⟩ := Option.isSome_iff_exists.mp hreq
    rw [if_pos ⟨h2, h.cascaded⟩, hj]
    have hfirst := hj
    rw [hq.slave.pending h.slave, Chip.first_eq_some] at hfirst
    have hnot : ¬ 8 + j < 8 := by omega
    have hsub : 8 + j - 8 = j := by omega
    refine ⟨8 + j, ⟨?_, by omega, by omega, fun l hl => requested_serve_slave l hl, ?_, ?_⟩⟩
    · unfold requested
      rw [if_neg hnot, hsub]
      exact hfirst.2.1
    · show x.slave.base + j = _
      rw [if_neg hnot, h.slave.base, hsub]
    · rw [if_neg hnot, if_neg hnot, hsub]
      exact ⟨hq.master.serve h.master (by decide), hq.slave.serve h.slave hfirst.1⟩
  · rw [if_neg h2] at hreq
    rw [if_neg fun hc => h2 hc.1]
    refine ⟨i, ⟨?_, by omega, h2, fun l _ => requested_serve_master hlt l, ?_, ?_⟩⟩
    · unfold requested
      rw [if_pos hlt]
      exact hreq
    · show x.master.base + i = _
      rw [if_pos hlt, h.master.base]
    · rw [if_pos hlt, if_pos hlt]
      exact ⟨hq.master.serve h.master hlt, hq.slave⟩

/-- With nothing in service a request is enough for one to be handed out. -/
theorem Programmed.pending_of_requested (h : x.Programmed base₁ base₂) (hq : x.InService none none) (hk : k < 16) (h2 : k ≠ 2)
    (hreq : x.requested k = true) : ∃ i, x.pending = some i := by
  unfold pending
  rw [hq.master.pending h.master]
  unfold requested at hreq
  by_cases hlt : k < 8
  · rw [if_pos hlt] at hreq
    refine Chip.first_isSome hlt ?_
    rw [requests, if_neg h2]
    exact hreq
  · rw [if_neg hlt] at hreq
    obtain ⟨j, hj⟩ := Chip.first_isSome (by omega) hreq
    refine Chip.first_isSome (i := 2) (by decide) ?_
    rw [requests, if_pos rfl, hq.slave.pending h.slave, hj]
    rfl

theorem Programmed.serve (h : x.Programmed base₁ base₂) (i : Nat) : (x.serve i).1.Programmed base₁ base₂ := by
  unfold Pics.serve
  split
  · split
    · exact ⟨h.master.serve 2, h.slave.serve _⟩
    · exact ⟨h.master.serve 2, h.slave⟩
  · exact ⟨h.master.serve i, h.slave⟩

/-! ## The end of an interrupt -/

theorem InService.out_slave (h : x.InService m m₂) : x.out 0xA0 0x20 = { x with slave := { x.slave with isr := fun _ => false } } := by
  have hout : x.out 0xA0 0x20 = { x with slave := x.slave.endOfInterrupt } := rfl
  rw [hout, h.slave.endOf]

theorem InService.out_master (h : x.InService m m₂) : x.out 0x20 0x20 = { x with master := { x.master with isr := fun _ => false } } := by
  have hout : x.out 0x20 0x20 = { x with master := x.master.endOfInterrupt } := rfl
  rw [hout, h.master.endOf]

/-- Nothing is in service any more, and nothing else has changed. -/
structure Ended (x x' : Pics) (base₁ base₂ : Nat) : Prop where
  programmed : x'.Programmed base₁ base₂
  inService : x'.InService none none
  requested : ∀ k, x'.requested k = x.requested k

theorem InService.end_master (h : x.InService m none) (hp : x.Programmed base₁ base₂) : Ended x (x.out 0x20 0x20) base₁ base₂ := by
  rw [h.out_master]
  exact {
    programmed := ⟨⟨hp.master.base, hp.master.cascade, hp.master.unmasked, hp.master.x86, hp.master.manual, hp.master.ready⟩, hp.slave⟩
    inService := ⟨Chip.inService_none x.master, h.slave⟩
    requested := fun _ => rfl }

theorem InService.end_slave (h : x.InService m m₂) (hp : x.Programmed base₁ base₂) :
    Ended x ((x.out 0xA0 0x20).out 0x20 0x20) base₁ base₂ := by
  have hout := h.out_slave
  have hp' : (x.out 0xA0 0x20).Programmed base₁ base₂ := by
    rw [hout]
    exact ⟨hp.master, ⟨hp.slave.base, hp.slave.cascade, hp.slave.unmasked, hp.slave.x86, hp.slave.manual, hp.slave.ready⟩⟩
  have hs : (x.out 0xA0 0x20).InService m none := by
    rw [hout]
    exact ⟨h.master, Chip.inService_none x.slave⟩
  have hend := hs.end_master hp'
  refine ⟨hend.programmed, hend.inService, ?_⟩
  intro k
  rw [hend.requested, hout]
  rfl

end Pics

end NativeOS.Lib.Pic
