/-
  NativeOS.Stdkern.RingbufInterrupt — an interrupt inside `ringbuf_read`.

  The handlers of the keyboard and of the serial port write into the buffer the kernel
  reads from, and nothing masks them. `ringbuf_read` fetches the byte, moves the read
  pointer, clears the status; the write comes between two of these.

  Proved:
  * `interrupted_read_iff` — the call is the same as with the write before it or after it
    exactly when the buffer was not full; or, before the pointer moves, when the byte the
    write drops has the value of the one fetched.
  * `interrupted_run_refines_queue` — with room at every interrupt, any run of writes, reads
    and interrupted reads is the queue, each write behind the read it interrupts.
  * `a_write_before_the_status_discards_the_queue`, `a_write_before_the_pointer_loses_a_byte`.
-/

import NativeOS.Stdkern.Ringbuf

namespace NativeOS.Stdkern.Ring

open NativeOS.Lib

/-! ## The statements of ringbuf_read -/

def fetch (buf : Ringbuf) : UInt8 := buf.buffer buf.readptr
def advance (buf : Ringbuf) : Ringbuf := { buf with readptr := bump buf.size buf.readptr }
def clear (buf : Ringbuf) : Ringbuf := { buf with status := 0 }

theorem ringbufRead_eq (buf : Ringbuf) : ringbufRead buf = (clear (advance buf), fetch buf) := rfl

/-- The last statement done when the interrupt comes. -/
inductive Point where
  | fetched
  | advanced
  deriving DecidableEq

def interruptedRead (p : Point) (buf : Ringbuf) (byte : UInt8) : Ringbuf × UInt8 :=
  match p with
  | .fetched => (clear (advance (ringbufWrite buf byte)), fetch buf)
  | .advanced => (clear (ringbufWrite (advance buf) byte), fetch buf)

def writeThenRead (buf : Ringbuf) (byte : UInt8) : Ringbuf × UInt8 := ringbufRead (ringbufWrite buf byte)

def readThenWrite (buf : Ringbuf) (byte : UInt8) : Ringbuf × UInt8 :=
  (ringbufWrite (ringbufRead buf).1 byte, (ringbufRead buf).2)

/-! ## What is left to read -/

/-- At most `k` reads, while there is something to read. -/
def readAll : Nat → Ringbuf → List UInt8
  | 0, _ => []
  | k + 1, buf => if ringbufTestReady buf ≠ 0 then (ringbufRead buf).2 :: readAll k (ringbufRead buf).1 else []

/-- The byte returned is the same, and so are the bytes of all later reads. -/
def SameOutcome (x y : Ringbuf × UInt8) : Prop := x.2 = y.2 ∧ ∀ k, readAll k x.1 = readAll k y.1

/-- As if the interrupt had come before the call, or after it. -/
def Serial (p : Point) (buf : Ringbuf) (byte : UInt8) : Prop :=
  SameOutcome (interruptedRead p buf byte) (writeThenRead buf byte) ∨
  SameOutcome (interruptedRead p buf byte) (readThenWrite buf byte)

section Interrupt

variable {n : Nat} {a : UInt8} {q q' : List UInt8} {lost lost' : Prop} {buf buf' : Ringbuf}

theorem Inv.readAll (h0 : 0 < n) (hn : n < 4294967296) (k : Nat) : ∀ {q : List UInt8} {lost : Prop} {buf : Ringbuf},
    Inv n q lost buf → Ring.readAll k buf = q.take k := by
  induction k with
  | zero =>
    intro q lost buf _
    rfl
  | succ k ih =>
    intro q lost buf h
    rw [Ring.readAll]
    cases q with
    | nil => rw [if_neg (fun hne => (h.ready h0).mp hne rfl), List.take_nil]
    | cons a q =>
      obtain ⟨hbyte, hnext⟩ := h.ringbufRead hn
      rw [if_pos ((h.ready h0).mpr (List.cons_ne_nil a q)), hbyte, ih hnext, List.take_succ_cons]

theorem sameOutcome_iff (h0 : 0 < n) (hn : n < 4294967296) {x y : UInt8} (h : Inv n q lost buf) (h' : Inv n q' lost' buf') :
    SameOutcome (buf, x) (buf', y) ↔ x = y ∧ q = q' := by
  unfold SameOutcome
  constructor
  · intro h
    obtain ⟨hbyte, hall⟩ := h
    refine ⟨hbyte, ?_⟩
    have hk := hall n
    rwa [h.readAll h0 hn, h'.readAll h0 hn, List.take_of_length_le h.fits, List.take_of_length_le h'.fits] at hk
  · intro h
    obtain ⟨hbyte, rfl⟩ := h
    refine ⟨hbyte, ?_⟩
    intro k
    rw [h.readAll h0 hn, h'.readAll h0 hn]

/-! ## Before the pointer moves -/

/-- The write finds the fetched byte still queued; the buffer ends as if it had come first. -/
theorem interruptedRead_fetched (buf : Ringbuf) (byte : UInt8) :
    interruptedRead .fetched buf byte = ((writeThenRead buf byte).1, fetch buf) := by
  rw [writeThenRead, ringbufRead_eq]
  rfl

theorem Inv.fetch (h : Inv n (a :: q) lost buf) (hn : n < 4294967296) : fetch buf = a := (h.ringbufRead hn).1

/-! ## Before the status is cleared -/

/-- With room the flag is clear, so the buffer is sound between the two statements. -/
theorem Inv.advance (h : Inv n (a :: q) lost buf) (hn : n < 4294967296) (hroom : q.length + 1 < n) :
    Inv n q lost (advance buf) := by
  obtain ⟨-, hnext⟩ := h.ringbufRead hn
  have hful : ¬ buf.status.testBit 0 = true := fun hf => Nat.ne_of_lt hroom (h.full.mp hf)
  exact ⟨h.size, hnext.read, hnext.fits, hnext.write, hnext.window,
    ⟨fun hf => absurd hf hful, fun he => absurd he (by omega)⟩, h.lost⟩

theorem Inv.clear (h : Inv n q lost buf) (hroom : q.length < n) : Inv n q False (clear buf) := by
  refine ⟨h.size, h.read, h.fits, h.write, h.window, ?_, ?_⟩
  · simp [Ring.clear]
    omega
  · simp [Ring.clear]

/-- With room for the byte, at either point, the write comes behind the read. -/
theorem Inv.interruptedRead (h : Inv n (a :: q) lost buf) (h0 : 0 < n) (hn : n < 4294967296) (hroom : q.length + 1 < n)
    (p : Point) (byte : UInt8) :
    (interruptedRead p buf byte).2 = a ∧ Inv n (q ++ [byte]) False (interruptedRead p buf byte).1 := by
  refine ⟨by cases p <;> exact h.fetch hn, ?_⟩
  cases p with
  | fetched =>
    have hw := h.ringbufWrite h0 hn byte
    rw [keepNewest_room byte hroom] at hw
    rw [interruptedRead_fetched]
    exact (hw.ringbufRead hn).2
  | advanced =>
    have hw := (h.advance hn hroom).ringbufWrite h0 hn byte
    rw [keepNewest_room byte (by omega)] at hw
    exact hw.clear (by rw [List.length_append, List.length_singleton]; exact hroom)

@[simp] theorem storeByte_size (buf : Ringbuf) (byte : UInt8) : (storeByte buf byte).size = buf.size := by
  simp only [storeByte]
  split <;> rfl

@[simp] theorem storeByte_readptr (buf : Ringbuf) (byte : UInt8) : (storeByte buf byte).readptr = buf.readptr := by
  simp only [storeByte]
  split <;> rfl

@[simp] theorem storeByte_writeptr (buf : Ringbuf) (byte : UInt8) :
    (storeByte buf byte).writeptr = bump buf.size buf.writeptr := by
  simp only [storeByte]
  split <;> rfl

/-- A full buffer: the write closes up to the moved pointer, and with the status goes the
    only sign that the buffer is not empty. -/
theorem Inv.interrupted_full (h : Inv n (a :: q) lost buf) (h2 : 2 ≤ n) (hn : n < 4294967296) (hfull : q.length + 1 = n)
    (byte : UInt8) : Inv n [] False (Ring.interruptedRead .advanced buf byte).1 := by
  have hr : bump buf.size buf.readptr = slot n buf.readptr 1 := by rw [h.size, bump_eq h.read hn]
  have hwp : buf.writeptr = buf.readptr := by
    rw [h.write, List.length_cons, hfull]
    exact (slot_eq_self (by omega)).mpr rfl
  have hlt : slot n buf.readptr 1 < n := slot_lt h.read (by omega)
  -- the pointers differ while the interrupt runs, so nothing is dropped
  have hdrop : dropOldest (Ring.advance buf) = Ring.advance buf := by
    refine if_neg ?_
    intro h
    obtain ⟨he, -⟩ := h
    have hself : slot n buf.readptr 1 = buf.readptr := by
      rw [← hr, ← hwp]
      simpa [Ring.advance, hwp] using he.symm
    exact absurd ((slot_eq_self Nat.one_pos).mp hself) (by omega)
  have hbuf : (Ring.interruptedRead .advanced buf byte).1 =
      Ring.clear (Ring.storeByte (Ring.advance buf) byte) := by
    simp only [Ring.interruptedRead, Ring.ringbufWrite, hdrop]
  rw [hbuf]
  refine ⟨?_, ?_, Nat.zero_le _, ?_, window_nil, ?_, ?_⟩
  · simpa [Ring.clear, Ring.advance] using h.size
  · simpa [Ring.clear, Ring.advance, hr] using hlt
  · rw [List.length_nil, slot_zero (by simpa [Ring.clear, Ring.advance, hr] using hlt)]
    simp [Ring.clear, Ring.advance, hwp]
  · simp [Ring.clear]
    omega
  · simp [Ring.clear]

theorem Inv.writeThenRead (h : Inv n (a :: q) lost buf) (h0 : 0 < n) (hn : n < 4294967296) (byte : UInt8) :
    ∃ c rest, keepNewest n (a :: q) byte = c :: rest ∧ (writeThenRead buf byte).2 = c ∧
      Inv n rest False (writeThenRead buf byte).1 := by
  have hw := h.ringbufWrite h0 hn byte
  cases hk : keepNewest n (a :: q) byte with
  | nil =>
    have hlen := congrArg List.length hk
    simp [keepNewest] at hlen
    omega
  | cons c rest =>
    rw [hk] at hw
    exact ⟨c, rest, rfl, hw.ringbufRead hn⟩

theorem Inv.readThenWrite (h : Inv n (a :: q) lost buf) (h0 : 0 < n) (hn : n < 4294967296) (byte : UInt8) :
    (readThenWrite buf byte).2 = a ∧ ∃ lost', Inv n (q ++ [byte]) lost' (readThenWrite buf byte).1 := by
  obtain ⟨hbyte, hnext⟩ := h.ringbufRead hn
  have hw := hnext.ringbufWrite h0 hn byte
  rw [keepNewest_room byte h.fits] at hw
  exact ⟨hbyte, _, hw⟩

/-- With room the read comes first. -/
theorem Inv.serial_room (h : Inv n (a :: q) lost buf) (h0 : 0 < n) (hn : n < 4294967296) (hroom : q.length + 1 < n)
    (p : Point) (byte : UInt8) : Serial p buf byte := by
  obtain ⟨hbyte, _, hafter⟩ := h.readThenWrite h0 hn byte
  obtain ⟨hgot, hinv⟩ := h.interruptedRead h0 hn hroom p byte
  exact .inr ((sameOutcome_iff h0 hn hinv hafter).mpr ⟨hgot.trans hbyte.symm, rfl⟩)

/-- A full buffer ends as if the write had come first, so the byte must be the one left at
    its front then. -/
theorem Inv.fetched_full_iff {d : UInt8} (h : Inv n (a :: d :: q) lost buf) (h0 : 0 < n) (hn : n < 4294967296)
    (hfull : q.length + 2 = n) (byte : UInt8) : Serial .fetched buf byte ↔ a = d := by
  obtain ⟨-, _, hafter⟩ := h.readThenWrite h0 hn byte
  obtain ⟨c, rest, hkeep, hc, hbefore⟩ := h.writeThenRead h0 hn byte
  have hlen : (a :: d :: q).length = n := hfull
  rw [keepNewest_full byte hlen] at hkeep
  obtain ⟨rfl, rfl⟩ := List.cons.inj hkeep
  have hfetch := h.fetch hn
  rw [Serial, interruptedRead_fetched]
  have hfirst : SameOutcome ((Ring.writeThenRead buf byte).1, Ring.fetch buf) (Ring.writeThenRead buf byte) ↔ a = d := by
    rw [← hfetch, ← hc]
    exact (sameOutcome_iff h0 hn hbefore hbefore).trans (and_iff_left rfl)
  have hlast : ¬ SameOutcome ((Ring.writeThenRead buf byte).1, Ring.fetch buf) (Ring.readThenWrite buf byte) := by
    intro hs
    have he := congrArg List.length ((sameOutcome_iff h0 hn hbefore hafter).mp hs).2
    simp at he
  rw [hfirst, or_iff_left hlast]

/-- The emptied buffer is like neither order. -/
theorem Inv.advanced_full {d : UInt8} (h : Inv n (a :: d :: q) lost buf) (hn : n < 4294967296) (hfull : q.length + 2 = n)
    (byte : UInt8) : ¬ Serial .advanced buf byte := by
  have h0 : 0 < n := by omega
  obtain ⟨-, _, hafter⟩ := h.readThenWrite h0 hn byte
  obtain ⟨c, rest, hkeep, -, hbefore⟩ := h.writeThenRead h0 hn byte
  have hlen : (a :: d :: q).length = n := hfull
  rw [keepNewest_full byte hlen] at hkeep
  obtain ⟨rfl, rfl⟩ := List.cons.inj hkeep
  have hempty := h.interrupted_full (by omega) hn hfull byte
  intro h
  rcases h with hs | hs
  · have he := ((sameOutcome_iff h0 hn hempty hbefore).mp hs).2
    simp at he
  · have he := ((sameOutcome_iff h0 hn hempty hafter).mp hs).2
    simp at he

end Interrupt

/-! ## One interrupted read -/

theorem run_ready {n : Nat} (h0 : 0 < n) (hn : n < 4294967296) {evs : List Ev} {buf : Ringbuf} (hr : Run n evs buf)
    (hready : ringbufTestReady buf ≠ 0) : ∃ a q, unread buf = a :: q ∧ Inv n (a :: q) (Overran n evs) buf := by
  have h := run_inv h0 hn hr
  have hq := h.unread h0
  cases he : queue n evs with
  | nil => exact absurd he ((h.ready h0).mp hready)
  | cons a q =>
    rw [he] at h hq
    exact ⟨a, q, hq, h⟩

/-- Any buffer of at least two bytes, after any writes and reads, with something to read. -/
theorem interrupted_read_iff {n : Nat} (h2 : 2 ≤ n) (hn : n < 2 ^ 32) {evs : List Ev} {buf : Ringbuf} (hr : Run n evs buf)
    (hready : ringbufTestReady buf ≠ 0) (p : Point) (byte : UInt8) :
    Serial p buf byte ↔ (unread buf).length < n ∨ (p = .fetched ∧ (unread buf)[0]? = (unread buf)[1]?) := by
  have h0 : 0 < n := by omega
  obtain ⟨a, q, hq, h⟩ := run_ready h0 hn hr hready
  have hfits : q.length + 1 ≤ n := h.fits
  rw [hq]
  by_cases hroom : q.length + 1 < n
  · exact iff_of_true (h.serial_room h0 hn hroom p byte) (.inl hroom)
  · have hlen : ¬ (a :: q).length < n := hroom
    rw [or_iff_right hlen]
    cases q with
    | nil => exact absurd hfits (by simp at hroom; omega)
    | cons d q =>
      have hfull : q.length + 2 = n := by
        simp only [List.length_cons] at hfits hroom
        omega
      cases p with
      | fetched =>
        rw [h.fetched_full_iff h0 hn hfull byte]
        simp
      | advanced =>
        refine iff_of_false (h.advanced_full hn hfull byte) ?_
        intro h
        obtain ⟨hp, -⟩ := h
        cases hp

/-- Two bytes in a buffer of four: the byte of the interrupt joins them. -/
theorem an_interrupt_with_room_is_serial :
    Serial .advanced (ringbufWrite (ringbufWrite ⟨fun _ => 0, 4, 0, 0, 0⟩ 7) 8) 9 :=
  (interrupted_read_iff (by simp) (by simp) (.write 8 (.write 7 (.start fun _ => 0))) (by decide) .advanced 9).mpr
    (.inl (by decide))

/-- The full buffer `[7, 8]`, with 9 arriving after the pointer has moved: nothing is left. -/
theorem a_write_before_the_status_discards_the_queue :
    ∃ buf, Run 2 [.write 7, .write 8] buf ∧ ringbufTestReady buf ≠ 0 ∧ ¬ Serial .advanced buf 9 ∧
      (interruptedRead .advanced buf 9).2 = 7 ∧ unread (interruptedRead .advanced buf 9).1 = [] := by
  have hr : Run 2 ([] ++ [.write 7] ++ [.write 8]) _ := .write 8 (.write 7 (.start fun _ => 0))
  have hinv : Inv 2 [7, 8] _ _ := run_inv (by simp) (by simp) hr
  exact ⟨_, hr, by decide, hinv.advanced_full (by simp) rfl 9, by decide, by decide⟩

/-- The same buffer, with 9 arriving before the pointer moves: 7 is returned, 8 is gone. -/
theorem a_write_before_the_pointer_loses_a_byte :
    ∃ buf, Run 2 [.write 7, .write 8] buf ∧ ringbufTestReady buf ≠ 0 ∧ ¬ Serial .fetched buf 9 ∧
      (interruptedRead .fetched buf 9).2 = 7 ∧ unread (interruptedRead .fetched buf 9).1 = [9] := by
  have hr : Run 2 ([] ++ [.write 7] ++ [.write 8]) _ := .write 8 (.write 7 (.start fun _ => 0))
  have hinv : Inv 2 [7, 8] _ _ := run_inv (by simp) (by simp) hr
  have hother : ¬ ((7 : UInt8) = 8) := by simp
  refine ⟨_, hr, by decide, ?_, by decide, by decide⟩
  exact mt (hinv.fetched_full_iff (by simp) (by simp) rfl 9).mp hother

/-! ## Runs with interrupts -/

/-- Writes, reads, and reads interrupted by a write while there is room for the byte. -/
inductive InterruptedRun (n : Nat) : List Ev → Ringbuf → Prop
  | start (buffer : Nat → UInt8) : InterruptedRun n [] ⟨buffer, n, 0, 0, 0⟩
  | write {evs : List Ev} {buf : Ringbuf} (byte : UInt8) : InterruptedRun n evs buf →
      InterruptedRun n (evs ++ [.write byte]) (ringbufWrite buf byte)
  | read {evs : List Ev} {buf : Ringbuf} : InterruptedRun n evs buf → ringbufTestReady buf ≠ 0 →
      InterruptedRun n (evs ++ [.read]) (ringbufRead buf).1
  | interrupted {evs : List Ev} {buf : Ringbuf} (p : Point) (byte : UInt8) : InterruptedRun n evs buf →
      ringbufTestReady buf ≠ 0 → (unread buf).length < n →
      InterruptedRun n (evs ++ [.read] ++ [.write byte]) (interruptedRead p buf byte).1

theorem interruptedRun_inv {n : Nat} (h0 : 0 < n) (hn : n < 4294967296) {evs : List Ev} {buf : Ringbuf}
    (hr : InterruptedRun n evs buf) : Inv n (queue n evs) (Overran n evs) buf := by
  induction hr with
  | start buffer => exact run_inv h0 hn (.start buffer)
  | write byte _ ih => exact ih.queueWrite h0 hn byte
  | read _ hready ih => exact ih.queueRead h0 hn hready
  | @interrupted evs buf p byte _ hready hroom ih =>
    rw [ih.unread h0] at hroom
    cases hq : queue n evs with
    | nil => exact absurd hq ((ih.ready h0).mp hready)
    | cons a q =>
      rw [hq] at ih hroom
      have hlen : q.length + 1 < n := hroom
      obtain ⟨-, hinv⟩ := ih.interruptedRead h0 hn hlen p byte
      have hread : queue n (evs ++ [.read]) = q := by rw [queue_snoc, hq]; rfl
      rw [queue_snoc, hread, queueStep, keepNewest_room byte (by omega)]
      refine { hinv with lost := hinv.lost.trans ⟨False.elim, ?_⟩ }
      intro hover
      rcases (overran_write byte).mp hover with hover | hfull
      · exact not_overran_read hover
      · rw [hread] at hfull
        omega

/-- While an interrupt finds room, nothing is lost: the bytes read and the bytes left are
    those of the queue, every interrupting write placed behind its read. -/
theorem interrupted_run_refines_queue {n : Nat} (h0 : 1 ≤ n) (hn : n < 2 ^ 32) {evs : List Ev} {buf : Ringbuf}
    (hr : InterruptedRun n evs buf) :
    unread buf = queue n evs ∧ (ringbufTestReady buf ≠ 0 ↔ queue n evs ≠ []) ∧
    ∀ a q, queue n evs = a :: q → fetch buf = a := by
  have h := interruptedRun_inv h0 hn hr
  refine ⟨h.unread h0, h.ready h0, ?_⟩
  intro a q hq
  rw [hq] at h
  exact h.fetch hn

end NativeOS.Stdkern.Ring
