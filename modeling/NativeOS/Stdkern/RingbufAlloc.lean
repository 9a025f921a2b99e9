/-
  NativeOS.Stdkern.RingbufAlloc — a new ring buffer (`ringbuf_alloc`).

  `malloc` clears nothing. `ringbuf_alloc` sets the size and the two pointers, and leaves
  the status word as it finds it: the flags of whatever used the block before are those of
  the new buffer.

  Proved:
  * `new_buffer_empty_iff` — a new buffer is empty, and can be told from an empty one by no
    calls, exactly when the old word at its status has neither flag.
  * `stale_full_exposes_memory` — with the old RINGBUF_FUL, every byte of the block that
    `malloc` returned for the buffer waits to be read.
-/

import NativeOS.Stdkern.Ringbuf

namespace NativeOS.Stdkern.Ring

open NativeOS.Lib

/-- `header` and `bytes` are what the two calls of `malloc` return: NULL, or a block with
    what it holds. A header without a buffer is freed again. -/
def ringbufAlloc (size : Nat) (header : Option Ringbuf) (bytes : Option (Nat → UInt8)) : Option Ringbuf :=
  match header with
  | none => none
  | some ringbuf =>
    let ringbuf := { ringbuf with size := size, writeptr := 0, readptr := 0 }
    match bytes with
    | none => none
    | some buffer => some { ringbuf with buffer := buffer }

/-! ## What a client sees -/

def tests (buf : Ringbuf) : Nat × Nat := (ringbufTestReady buf, ringbufTestOverflow buf)

/-- One call, and the byte if it is a read. A read is permitted when there is something to read. -/
def call (buf : Ringbuf) : Ev → Option (Ringbuf × Option UInt8)
  | .write byte => some (ringbufWrite buf byte, none)
  | .read => if ringbufTestReady buf ≠ 0 then some ((ringbufRead buf).1, some (ringbufRead buf).2) else none

/-- After each call its byte and the answers of the tests, up to a read that is not permitted. -/
def results (buf : Ringbuf) : List Ev → List (Option UInt8 × Nat × Nat)
  | [] => []
  | e :: evs =>
    match call buf e with
    | some (buf', byte) => (byte, tests buf') :: results buf' evs
    | none => []

/-- Nothing to read, no overflow, and from here on the results of an empty buffer of size `n`. -/
def BehavesEmpty (n : Nat) (buf : Ringbuf) : Prop :=
  ringbufTestReady buf = 0 ∧ ringbufTestOverflow buf = 0 ∧
    ∀ buffer evs, results buf evs = results ⟨buffer, n, 0, 0, 0⟩ evs

/-! ## The queue decides the results -/

section Queue

variable {n : Nat} {q : List UInt8} {lost : Prop} {buf buf' : Ringbuf}

theorem ready_cases (buf : Ringbuf) : ringbufTestReady buf = 0 ∨ ringbufTestReady buf = 1 := by
  unfold ringbufTestReady
  split <;> simp

theorem overflow_cases (buf : Ringbuf) : ringbufTestOverflow buf = 0 ∨ ringbufTestOverflow buf = 2 := by
  have h : buf.status &&& ringbufOvf = (buf.status.testBit 1).toNat * 2 ^ 1 := Nat.and_two_pow buf.status 1
  unfold ringbufTestOverflow
  rw [h]
  cases buf.status.testBit 1 <;> simp

theorem Inv.tests_eq (h : Inv n q lost buf) (h' : Inv n q lost buf') (h0 : 0 < n) : tests buf = tests buf' := by
  have hready : ringbufTestReady buf ≠ 0 ↔ ringbufTestReady buf' ≠ 0 := (h.ready h0).trans (h'.ready h0).symm
  have hover : ringbufTestOverflow buf ≠ 0 ↔ ringbufTestOverflow buf' ≠ 0 :=
    (ovf_iff.trans h.lost).trans (ovf_iff.trans h'.lost).symm
  refine Prod.ext ?_ ?_
  · show ringbufTestReady buf = ringbufTestReady buf'
    rcases ready_cases buf with hr | hr <;> rcases ready_cases buf' with hr' | hr' <;> simp_all
  · show ringbufTestOverflow buf = ringbufTestOverflow buf'
    rcases overflow_cases buf with ho | ho <;> rcases overflow_cases buf' with ho' | ho' <;> simp_all

/-- Two buffers that stand for one queue stay so, call after call. -/
theorem Inv.results_eq (h0 : 0 < n) (hn : n < 4294967296) (evs : List Ev) :
    ∀ {q : List UInt8} {lost : Prop} {buf buf' : Ringbuf}, Inv n q lost buf → Inv n q lost buf' →
      results buf evs = results buf' evs := by
  induction evs with
  | nil =>
    intro q lost buf buf' _ _
    rfl
  | cons e evs ih =>
    intro q lost buf buf' h h'
    cases e with
    | write byte =>
      have hw := h.ringbufWrite h0 hn byte
      have hw' := h'.ringbufWrite h0 hn byte
      simp only [results, call]
      rw [hw.tests_eq hw' h0, ih hw hw']
    | read =>
      cases q with
      | nil =>
        have hr : ¬ ringbufTestReady buf ≠ 0 := fun hne => (h.ready h0).mp hne rfl
        have hr' : ¬ ringbufTestReady buf' ≠ 0 := fun hne => (h'.ready h0).mp hne rfl
        simp only [results, call, if_neg hr, if_neg hr']
      | cons a q =>
        have hr : ringbufTestReady buf ≠ 0 := (h.ready h0).mpr (List.cons_ne_nil a q)
        have hr' : ringbufTestReady buf' ≠ 0 := (h'.ready h0).mpr (List.cons_ne_nil a q)
        obtain ⟨hbyte, hnext⟩ := h.ringbufRead hn
        obtain ⟨hbyte', hnext'⟩ := h'.ringbufRead hn
        simp only [results, call, if_pos hr, if_pos hr']
        rw [hbyte, hbyte', hnext.tests_eq hnext' h0, ih hnext hnext']

end Queue

/-! ## The old status word -/

theorem flags_clear {w : Nat} : w &&& (ringbufFul ||| ringbufOvf) = 0 ↔ w.testBit 0 = false ∧ w.testBit 1 = false := by
  rw [Nat.and_or_distrib_left, Nat.or_eq_zero_iff, ← Bool.not_eq_true, ← Bool.not_eq_true, ← ful_iff, ← ovf_iff,
    not_not, not_not]

/-- No flag: the buffer is the empty queue, whatever else the blocks held. -/
theorem inv_empty {n : Nat} (h0 : 0 < n) {status : Nat} (hs : status &&& (ringbufFul ||| ringbufOvf) = 0)
    (buffer : Nat → UInt8) : Inv n [] False ⟨buffer, n, 0, 0, status⟩ := by
  obtain ⟨hful, hovf⟩ := flags_clear.mp hs
  refine ⟨rfl, h0, Nat.zero_le _, (slot_zero h0).symm, window_nil, ?_, ?_⟩
  · simp only [hful, List.length_nil]
    simp
    omega
  · simp [hovf]

/-- The old RINGBUF_FUL: the queue is the whole block. -/
theorem inv_stale_full {n : Nat} (h0 : 0 < n) {status : Nat} (hs : status &&& ringbufFul ≠ 0) (buffer : Nat → UInt8) :
    Inv n ((List.range n).map buffer) (status.testBit 1 = true) ⟨buffer, n, 0, 0, status⟩ := by
  have hlen : ((List.range n).map buffer).length = n := by simp
  refine ⟨rfl, h0, Nat.le_of_eq hlen, ?_, ?_, ?_, Iff.rfl⟩
  · rw [hlen]
    exact ((slot_eq_self h0).mpr rfl).symm
  · intro i hi
    have hin : i < n := by rwa [hlen] at hi
    simp [slot, hin]
  · exact ⟨fun _ => hlen, fun _ => ful_iff.mp hs⟩

theorem ringbufAlloc_some (n : Nat) (header : Ringbuf) (bytes : Nat → UInt8) :
    ringbufAlloc n (some header) (some bytes) = some ⟨bytes, n, 0, 0, header.status⟩ := rfl

/-- A new buffer of any size, over blocks that held anything. -/
theorem new_buffer_empty_iff {n : Nat} (h0 : 1 ≤ n) (hn : n < 2 ^ 32) {header : Option Ringbuf}
    {bytes : Option (Nat → UInt8)} {buf : Ringbuf} (h : ringbufAlloc n header bytes = some buf) :
    BehavesEmpty n buf ↔ ∃ old, header = some old ∧ old.status &&& (ringbufFul ||| ringbufOvf) = 0 := by
  rcases header with _ | old
  · cases h
  rcases bytes with _ | bytes
  · cases h
  rw [ringbufAlloc_some] at h
  cases h
  constructor
  · intro h
    obtain ⟨hready, hover, -⟩ := h
    refine ⟨old, rfl, ?_⟩
    have hful : ¬ old.status &&& ringbufFul ≠ 0 := by
      intro hf
      simp [ringbufTestReady, hf] at hready
    have hovf : old.status &&& ringbufOvf = 0 := hover
    rw [Nat.and_or_distrib_left, Nat.or_eq_zero_iff]
    exact ⟨not_not.mp hful, hovf⟩
  · intro h
    obtain ⟨old', heq, hs⟩ := h
    cases heq
    have hinv := inv_empty h0 hs bytes
    have hready := not_not.mp (mt (hinv.ready h0).mp (fun hne => hne rfl))
    have hover := not_not.mp (mt (ovf_iff.trans hinv.lost).mp not_false)
    refine ⟨hready, hover, ?_⟩
    intro buffer evs
    exact Inv.results_eq h0 hn evs hinv (inv_empty h0 (Nat.zero_and _) buffer)

/-- The memory of a file that was read and freed, say, can be read again through the device. -/
theorem stale_full_exposes_memory {n : Nat} (h0 : 1 ≤ n) (old : Ringbuf) (bytes : Nat → UInt8)
    (hs : old.status &&& ringbufFul ≠ 0) :
    ∃ buf, ringbufAlloc n (some old) (some bytes) = some buf ∧ unread buf = (List.range n).map bytes :=
  ⟨_, ringbufAlloc_some n old bytes, (inv_stale_full h0 hs bytes).unread h0⟩

/-- A block whose fifth word held 4: bits that are no flags do no harm. -/
theorem other_bits_do_no_harm : BehavesEmpty 2 ⟨fun _ => 7, 2, 0, 0, 4⟩ := by
  refine (new_buffer_empty_iff (by simp) (by simp) (ringbufAlloc_some 2 ⟨fun _ => 0, 9, 9, 9, 4⟩ fun _ => 7)).mpr ?_
  exact ⟨_, rfl, by simp [ringbufFul, ringbufOvf]⟩

/-- A block whose fifth word held 1: the new buffer of two bytes is full of what was there. -/
theorem a_stale_flag_fills_the_buffer : ∃ buf,
    ringbufAlloc 2 (some ⟨fun _ => 0, 9, 9, 9, 1⟩) (some fun _ => 7) = some buf ∧
    ¬ BehavesEmpty 2 buf ∧ ringbufTestReady buf = 1 ∧ unread buf = [7, 7] := by
  refine ⟨_, rfl, ?_, rfl, rfl⟩
  intro h
  obtain ⟨hready, -, -⟩ := h
  simp [ringbufTestReady, ringbufFul] at hready

end NativeOS.Stdkern.Ring
