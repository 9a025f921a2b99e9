/-
  NativeOS.Stdkern.Ringbuf — the ring buffer of the keyboard and the serial port
  (`kernel/stdkern/ringbuf.c`).

  Equal pointers mean empty or full; RINGBUF_FUL tells which. A write into a full buffer
  drops the oldest byte and sets RINGBUF_OVF; a read clears both flags.

  Proved: `ring_refines_queue` — after any writes and permitted reads the buffer is the
  queue that keeps the newest bytes (`queue`), whatever its size and whatever the memory
  of the buffer held before.
-/

import NativeOS.Lib.Bitmap
import NativeOS.Lib.Ring

namespace NativeOS.Stdkern.Ring

open NativeOS.Lib

/-! ## ringbuf.c -/

def ringbufFul : Nat := 1
def ringbufOvf : Nat := 2

/-- `ringbuf_t`; the buffer is the bytes behind its pointer. -/
structure Ringbuf where
  buffer : Nat → UInt8
  size : Nat
  writeptr : Nat
  readptr : Nat
  status : Nat

/-- `if (++ptr == size) ptr = 0`. -/
def bump (size ptr : Nat) : Nat := if add32 ptr 1 = size then 0 else add32 ptr 1

/-- The first half of `ringbuf_write`: a full buffer overflows. -/
def dropOldest (buf : Ringbuf) : Ringbuf :=
  if buf.writeptr = buf.readptr ∧ buf.status &&& ringbufFul ≠ 0 then
    { buf with status := buf.status ||| ringbufOvf, readptr := bump buf.size buf.readptr }
  else buf

/-- The second half: the byte goes in. -/
def storeByte (buf : Ringbuf) (byte : UInt8) : Ringbuf :=
  let b1 := { buf with
    buffer := fun x => if x = buf.writeptr then byte else buf.buffer x
    writeptr := bump buf.size buf.writeptr }
  if b1.writeptr = b1.readptr then { b1 with status := b1.status ||| ringbufFul } else b1

def ringbufWrite (buf : Ringbuf) (byte : UInt8) : Ringbuf := storeByte (dropOldest buf) byte

def ringbufTestOverflow (buf : Ringbuf) : Nat := buf.status &&& ringbufOvf

def ringbufTestReady (buf : Ringbuf) : Nat :=
  if buf.writeptr ≠ buf.readptr ∨ buf.status &&& ringbufFul ≠ 0 then 1 else 0

def ringbufRead (buf : Ringbuf) : Ringbuf × UInt8 :=
  ({ buf with readptr := bump buf.size buf.readptr, status := 0 }, buf.buffer buf.readptr)

/-! ## Runs -/

inductive Ev where
  | write (byte : UInt8)
  | read
  deriving DecidableEq

/-- The states of a buffer of size `n`, created empty over memory that holds anything. -/
inductive Run (n : Nat) : List Ev → Ringbuf → Prop
  | start (buffer : Nat → UInt8) : Run n [] ⟨buffer, n, 0, 0, 0⟩
  | write {evs : List Ev} {buf : Ringbuf} (byte : UInt8) : Run n evs buf →
      Run n (evs ++ [.write byte]) (ringbufWrite buf byte)
  | read {evs : List Ev} {buf : Ringbuf} : Run n evs buf → ringbufTestReady buf ≠ 0 →
      Run n (evs ++ [.read]) (ringbufRead buf).1

/-- The unread bytes as the pointers delimit them, oldest first. -/
def unread (buf : Ringbuf) : List UInt8 :=
  let len :=
    if buf.writeptr = buf.readptr then if buf.status &&& ringbufFul ≠ 0 then buf.size else 0
    else if buf.readptr < buf.writeptr then buf.writeptr - buf.readptr
    else buf.size - buf.readptr + buf.writeptr
  (List.range len).map fun i => buf.buffer ((buf.readptr + i) % buf.size)

/-! ## The queue it stands for -/

/-- A byte enters at the end, and no more than the newest `n` are kept. -/
def keepNewest (n : Nat) (q : List UInt8) (byte : UInt8) : List UInt8 := (q ++ [byte]).drop (q.length + 1 - n)

def queueStep (n : Nat) (q : List UInt8) : Ev → List UInt8
  | .write byte => keepNewest n q byte
  | .read => q.tail

def queue (n : Nat) (evs : List Ev) : List UInt8 := evs.foldl (queueStep n) []

/-- A write after the last read found `n` unread bytes, and so overwrote one. -/
def Overran (n : Nat) (evs : List Ev) : Prop :=
  ∃ before byte after, evs = before ++ .write byte :: after ∧ .read ∉ after ∧ (queue n before).length = n

theorem queue_snoc (n : Nat) (evs : List Ev) (e : Ev) : queue n (evs ++ [e]) = queueStep n (queue n evs) e := by
  unfold queue
  rw [List.foldl_append]
  rfl

theorem keepNewest_room {n : Nat} {q : List UInt8} (byte : UInt8) (h : q.length < n) :
    keepNewest n q byte = q ++ [byte] := by
  unfold keepNewest
  rw [Nat.sub_eq_zero_of_le h, List.drop_zero]

theorem keepNewest_full {n : Nat} {a : UInt8} {q : List UInt8} (byte : UInt8) (h : (a :: q).length = n) :
    keepNewest n (a :: q) byte = q ++ [byte] := by
  unfold keepNewest
  rw [h, Nat.add_sub_cancel_left]
  rfl

theorem overran_write {n : Nat} {evs : List Ev} (byte : UInt8) :
    Overran n (evs ++ [.write byte]) ↔ Overran n evs ∨ (queue n evs).length = n := by
  constructor
  · intro ⟨before, b, after, he, hr, hlen⟩
    rcases List.eq_nil_or_concat after with rfl | ⟨after, e, rfl⟩
    · obtain ⟨rfl, -⟩ := List.append_inj' he rfl
      exact .inr hlen
    · rw [List.concat_eq_append] at he hr
      have he' : evs ++ [.write byte] = (before ++ .write b :: after) ++ [e] := by
        rw [he, List.append_assoc, List.cons_append]
      obtain ⟨rfl, -⟩ := List.append_inj' he' rfl
      exact .inl ⟨before, b, after, rfl, fun h => hr (List.mem_append_left _ h), hlen⟩
  · intro h
    rcases h with ⟨before, b, after, rfl, hr, hlen⟩ | hlen
    · refine ⟨before, b, after ++ [.write byte], by rw [List.append_assoc, List.cons_append], ?_, hlen⟩
      rw [List.mem_append, not_or]
      exact ⟨hr, by simp⟩
    · exact ⟨evs, byte, [], rfl, List.not_mem_nil, hlen⟩

theorem not_overran_read {n : Nat} {evs : List Ev} : ¬ Overran n (evs ++ [.read]) := by
  intro ⟨before, b, after, he, hr, _⟩
  rcases List.eq_nil_or_concat after with rfl | ⟨after, e, rfl⟩
  · obtain ⟨-, h⟩ := List.append_inj' he rfl
    cases h
  · rw [List.concat_eq_append] at he hr
    have he' : evs ++ [Ev.read] = (before ++ .write b :: after) ++ [e] := by
      rw [he, List.append_assoc, List.cons_append]
    obtain ⟨-, h⟩ := List.append_inj' he' rfl
    cases h
    exact hr (List.mem_append_right _ (List.mem_singleton_self _))

/-! ## The invariant -/

theorem ful_iff {w : Nat} : w &&& ringbufFul ≠ 0 ↔ w.testBit 0 = true := by
  rw [show ringbufFul = 2 ^ 0 from rfl, ne_eq, and_two_pow_eq_zero, Bool.not_eq_false]

theorem ovf_iff {w : Nat} : w &&& ringbufOvf ≠ 0 ↔ w.testBit 1 = true := by
  rw [show ringbufOvf = 2 ^ 1 from rfl, ne_eq, and_two_pow_eq_zero, Bool.not_eq_false]

theorem bump_eq {n p : Nat} (hp : p < n) (hn : n < 4294967296) : bump n p = slot n p 1 := by
  unfold bump slot
  rw [add32_eq (by omega)]
  split <;> split <;> omega

/-- The queue `q` lies from the read pointer on, up to the write pointer. -/
structure Inv (n : Nat) (q : List UInt8) (lost : Prop) (buf : Ringbuf) : Prop where
  size : buf.size = n
  read : buf.readptr < n
  fits : q.length ≤ n
  write : buf.writeptr = slot n buf.readptr q.length
  window : Window buf.buffer n buf.readptr q
  full : buf.status.testBit 0 = true ↔ q.length = n
  lost : buf.status.testBit 1 = true ↔ lost

section Inv

variable {n : Nat} {q : List UInt8} {lost : Prop} {buf : Ringbuf}

theorem Inv.storeByte {byte : UInt8} (hn : n < 4294967296) (hsize : buf.size = n) (hread : buf.readptr < n)
    (hq : q.length < n) (hwrite : buf.writeptr = slot n buf.readptr q.length) (hwin : Window buf.buffer n buf.readptr q)
    (hful : buf.status.testBit 0 = true → q.length + 1 = n) (hover : buf.status.testBit 1 = true ↔ lost) :
    Inv n (q ++ [byte]) lost (storeByte buf byte) := by
  have hlen : (q ++ [byte]).length = q.length + 1 := by rw [List.length_append, List.length_singleton]
  have hbump : bump buf.size buf.writeptr = slot n buf.readptr (q.length + 1) := by
    rw [hsize, hwrite, bump_eq (slot_lt hread (by omega)) hn, slot_slot hread (by omega)]
  have hwin' := hwin.push (b := byte) hq fun x => rfl
  rw [← hwrite] at hwin'
  unfold Ring.storeByte
  simp only [hbump]
  by_cases he : slot n buf.readptr (q.length + 1) = buf.readptr
  · -- the buffer just became full, or stays so
    have hfull : q.length + 1 = n := (slot_eq_self (Nat.succ_pos _)).mp he
    rw [if_pos he]
    refine ⟨hsize, hread, by omega, by rw [hlen], hwin', ?_, ?_⟩
    · rw [hlen, Nat.testBit_or, show ringbufFul.testBit 0 = true by decide, Bool.or_true]
      exact ⟨fun _ => hfull, fun _ => rfl⟩
    · rw [← hover, Nat.testBit_or, show ringbufFul.testBit 1 = false by decide, Bool.or_false]
  · have hroom : q.length + 1 ≠ n := fun e => he ((slot_eq_self (Nat.succ_pos _)).mpr e)
    rw [if_neg he]
    refine ⟨hsize, hread, by omega, by rw [hlen], hwin', ?_, hover⟩
    rw [hlen]
    exact ⟨hful, fun e => absurd e hroom⟩

theorem Inv.ringbufWrite (h : Inv n q lost buf) (h0 : 0 < n) (hn : n < 4294967296) (byte : UInt8) :
    Inv n (keepNewest n q byte) (lost ∨ q.length = n) (ringbufWrite buf byte) := by
  unfold Ring.ringbufWrite dropOldest
  by_cases hfull : q.length = n
  · cases q with
    | nil => exact absurd hfull (by simp; omega)
    | cons a q =>
      have hlen : q.length + 1 = n := hfull
      have hsame : buf.writeptr = buf.readptr := by
        rw [h.write, hfull]
        exact (slot_eq_self h0).mpr rfl
      have hcond : buf.writeptr = buf.readptr ∧ buf.status &&& ringbufFul ≠ 0 := ⟨hsame, ful_iff.mpr (h.full.mpr hfull)⟩
      obtain ⟨-, hwin⟩ := h.window.pop h.read (by omega)
      have hbump : bump buf.size buf.readptr = slot n buf.readptr 1 := by rw [h.size, bump_eq h.read hn]
      rw [if_pos hcond, keepNewest_full byte hfull]
      refine Inv.storeByte hn h.size ?_ (by omega) ?_ ?_ (fun _ => hlen) ?_
      · show bump buf.size buf.readptr < n
        rw [hbump]
        exact slot_lt h.read (by omega)
      · show buf.writeptr = slot n (bump buf.size buf.readptr) q.length
        rw [hbump, slot_slot h.read (by omega), h.write, Nat.add_comm 1]
        rfl
      · show Window buf.buffer n (bump buf.size buf.readptr) q
        rwa [hbump]
      · show (buf.status ||| ringbufOvf).testBit 1 = true ↔ _
        rw [Nat.testBit_or, show ringbufOvf.testBit 1 = true by decide, Bool.or_true]
        exact ⟨fun _ => .inr hfull, fun _ => rfl⟩
  · have hcond : ¬ (buf.writeptr = buf.readptr ∧ buf.status &&& ringbufFul ≠ 0) := fun hc =>
      hfull (h.full.mp (ful_iff.mp hc.2))
    have hlt : q.length < n := Nat.lt_of_le_of_ne h.fits hfull
    rw [if_neg hcond, keepNewest_room byte hlt, or_iff_left hfull]
    exact Inv.storeByte hn h.size h.read hlt h.write h.window (fun hf => absurd (h.full.mp hf) hfull) h.lost

theorem Inv.ready (h : Inv n q lost buf) (h0 : 0 < n) : ringbufTestReady buf ≠ 0 ↔ q ≠ [] := by
  have hne : (buf.writeptr ≠ buf.readptr ∨ buf.status &&& ringbufFul ≠ 0) ↔ q ≠ [] := by
    rw [ful_iff, h.full, h.write]
    cases q with
    | nil =>
      rw [List.length_nil, slot_zero h.read]
      simp
      omega
    | cons a q =>
      have := slot_eq_self (n := n) (r := buf.readptr) (Nat.succ_pos q.length)
      rw [List.length_cons, ne_eq, this]
      simp only [ne_eq, reduceCtorEq, not_false_iff, iff_true]
      exact (Decidable.em _).symm
  unfold ringbufTestReady
  rw [← hne]
  split <;> simp_all

theorem Inv.ringbufRead {a : UInt8} (h : Inv n (a :: q) lost buf) (hn : n < 4294967296) :
    (ringbufRead buf).2 = a ∧ Inv n q False (ringbufRead buf).1 := by
  have hfits : q.length + 1 ≤ n := h.fits
  obtain ⟨ha, hwin⟩ := h.window.pop h.read (by omega)
  have hbump : bump buf.size buf.readptr = slot n buf.readptr 1 := by rw [h.size, bump_eq h.read hn]
  unfold Ring.ringbufRead
  rw [hbump]
  refine ⟨ha, h.size, slot_lt h.read (by omega), by omega, ?_, hwin, ?_, ?_⟩
  · show buf.writeptr = _
    rw [slot_slot h.read (by omega), h.write, Nat.add_comm 1]
    rfl
  · simp
    omega
  · simp

theorem Inv.unread (h : Inv n q lost buf) (h0 : 0 < n) : unread buf = q := by
  have hsize := h.size
  have hwrite := h.write
  have hread := h.read
  have hfits := h.fits
  have hful := ful_iff.trans h.full
  -- the distance between the pointers, with the flag to tell a whole turn from none
  have hlen : (if buf.writeptr = buf.readptr then if buf.status &&& ringbufFul ≠ 0 then buf.size else 0
      else if buf.readptr < buf.writeptr then buf.writeptr - buf.readptr
      else buf.size - buf.readptr + buf.writeptr) = q.length := by
    simp only [hful]
    unfold slot at hwrite
    split at hwrite <;> split <;> split <;> omega
  unfold Ring.unread
  rw [hlen]
  refine List.ext_getElem (by simp) ?_
  intro i hi hi'
  rw [List.getElem_map, List.getElem_range, hsize, ← slot_eq_mod hread (by omega)]
  exact h.window i hi'

end Inv

/-- Every write is permitted. -/
theorem Inv.queueWrite {n : Nat} {evs : List Ev} {buf : Ringbuf} (h : Inv n (queue n evs) (Overran n evs) buf) (h0 : 0 < n)
    (hn : n < 4294967296) (byte : UInt8) :
    Inv n (queue n (evs ++ [.write byte])) (Overran n (evs ++ [.write byte])) (Ring.ringbufWrite buf byte) := by
  have hw := h.ringbufWrite h0 hn byte
  rwa [← overran_write byte, ← queueStep, ← queue_snoc] at hw

/-- A read is permitted when there is something to read. -/
theorem Inv.queueRead {n : Nat} {evs : List Ev} {buf : Ringbuf} (h : Inv n (queue n evs) (Overran n evs) buf) (h0 : 0 < n)
    (hn : n < 4294967296) (hready : ringbufTestReady buf ≠ 0) :
    Inv n (queue n (evs ++ [.read])) (Overran n (evs ++ [.read])) (Ring.ringbufRead buf).1 := by
  rw [queue_snoc, queueStep]
  cases hq : queue n evs with
  | nil => exact absurd hq ((h.ready h0).mp hready)
  | cons a q =>
    rw [hq] at h
    obtain ⟨-, hinv⟩ := h.ringbufRead hn
    exact { hinv with lost := hinv.lost.trans ⟨False.elim, not_overran_read⟩ }

theorem run_inv {n : Nat} (h0 : 0 < n) (hn : n < 4294967296) {evs : List Ev} {buf : Ringbuf} (hr : Run n evs buf) :
    Inv n (queue n evs) (Overran n evs) buf := by
  induction hr with
  | start buffer =>
    refine ⟨rfl, h0, Nat.zero_le _, (slot_zero h0).symm, window_nil, ?_, ?_⟩
    · show _ ↔ 0 = n
      simp
      omega
    · simp [Overran]
  | write byte _ ih => exact ih.queueWrite h0 hn byte
  | read _ hready ih => exact ih.queueRead h0 hn hready

/-- The ring buffer is the queue that keeps the newest `n` bytes: its flags, its pointers,
    its unread bytes and the byte the next read returns are those of the queue. -/
theorem ring_refines_queue {n : Nat} (h0 : 1 ≤ n) (hn : n < 2 ^ 32) {evs : List Ev} {buf : Ringbuf} (hr : Run n evs buf) :
    buf.writeptr < n ∧ buf.readptr < n ∧
    (ringbufTestReady buf ≠ 0 ↔ queue n evs ≠ []) ∧
    (∀ a q, queue n evs = a :: q → (ringbufRead buf).2 = a) ∧
    unread buf = queue n evs ∧ (queue n evs).length ≤ n ∧
    (ringbufTestOverflow buf ≠ 0 ↔ Overran n evs) := by
  have h := run_inv h0 hn hr
  refine ⟨?_, h.read, h.ready h0, ?_, h.unread h0, h.fits, ovf_iff.trans h.lost⟩
  · rw [h.write]
    exact slot_lt h.read h.fits
  · intro a q hq
    rw [hq] at h
    exact (h.ringbufRead hn).1

/-- Three bytes into a buffer of two, then a read: the first byte is lost, the flag cleared. -/
theorem newest_two_of_three : ∃ buf, Run 2 [.write 7, .write 8, .write 9, .read] buf ∧ unread buf = [9] := by
  have hr : Run 2 ([] ++ [.write 7] ++ [.write 8] ++ [.write 9] ++ [.read]) _ :=
    .read (.write 9 (.write 8 (.write 7 (.start fun _ => 0)))) (by decide)
  exact ⟨_, hr, (ring_refines_queue (by decide) (by decide) hr).2.2.2.2.1⟩

end NativeOS.Stdkern.Ring
