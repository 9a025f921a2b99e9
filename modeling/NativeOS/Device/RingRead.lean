/-
  NativeOS.Device.RingRead — reading a ring-buffered device into the caller's buffer
  (`keyboard_read` in `kernel/device/kbd.c`, `uart8250_read` in `kernel/device/uart8250.c`).

  Both drain the ring with `while (total <= len && ready)`: one turn more than the caller
  has room for. The bytes go to memory here; `Vtcon.readLoop` is the same loop as the
  console sees it, and says which bytes they are.

  Proved:
  * `drainLoop_eq` — the loop ends, and stores what `Vtcon.readLoop` takes from the ring.
  * `ring_read_iff` — the length is respected exactly when no more than it is pending.
  * `one_byte_too_many` — otherwise the next pending byte lands behind the buffer.
-/

import NativeOS.Device.KeyboardProofs
import NativeOS.Lib.Spans

namespace NativeOS.Device.RingRead

open NativeOS.Lib
open NativeOS.Stdkern
open NativeOS.Stdkern.Ring (Ringbuf ringbufRead ringbufTestReady ringbufWrite unread)
open NativeOS.Device.Vtcon (readLoop readLoop_take)

/-! ## The two loops -/

/-- `while (total <= len && ringbuf_test_ready(rbuf)) { *buf++ = ringbuf_read(rbuf); total++; }`.
    Every turn takes a byte out of the ring; a loop with more turns than it has cells does not end. -/
def drainLoop (len : Nat) : Nat → Nat → Nat → Mem → Ringbuf → Option (Nat × Mem × Ringbuf)
  | 0, _, _, _, _ => none
  | fuel + 1, total, buf, m, rbuf =>
    if total ≤ len ∧ ringbufTestReady rbuf ≠ 0 then
      drainLoop len fuel (add32 total 1) (add32 buf 1) (st8 m buf (ringbufRead rbuf).2) (ringbufRead rbuf).1
    else some (total, m, rbuf)

def keyboardRead (keyboardRbuf : Ringbuf) (m : Mem) (buf len : Nat) : Option (Nat × Mem × Ringbuf) :=
  drainLoop len (keyboardRbuf.size + 1) 0 buf m keyboardRbuf

def uart8250Read (rxBuf : Ringbuf) (m : Mem) (buf len : Nat) : Option (Nat × Mem × Ringbuf) :=
  drainLoop len (rxBuf.size + 1) 0 buf m rxBuf

/-- The contract: `min(len, |q|)` is returned, that many of the oldest bytes of `q` are in the
    buffer with no other byte of memory changed, and the rest is still queued. -/
def RespectsLength (q : List UInt8) (m : Mem) (buf len : Nat) (result : Option (Nat × Mem × Ringbuf)) : Prop :=
  ∃ rbuf, result = some (min len q.length, put m buf (q.take len), rbuf) ∧ unread rbuf = q.drop len

/-! ## The stores -/

/-- Consecutive stores through a 32-bit pointer. -/
def put32 (m : Mem) : Nat → List UInt8 → Mem
  | _, [] => m
  | buf, b :: l => put32 (st8 m buf b) (add32 buf 1) l

/-- Up to the end of memory, which the pointer may step over when it is done. -/
theorem put32_eq (m : Mem) {buf : Nat} {l : List UInt8} (h : buf + l.length ≤ 4294967296) : put32 m buf l = put m buf l := by
  induction l generalizing m buf with
  | nil => rfl
  | cons b l ih =>
    rw [put32, put_cons]
    cases l with
    | nil => rfl
    | cons c l =>
      simp only [List.length_cons] at h
      have hbuf : add32 buf 1 = buf + 1 := add32_eq (by omega)
      rw [hbuf]
      exact ih _ (by simp only [List.length_cons]; omega)

/-- One turn of `readLoop` is one turn of the loop; the counter stays below `2^32`. -/
theorem drainLoop_eq (len : Nat) (fuel : Nat) : ∀ (total buf : Nat) (m : Mem) (rbuf : Ringbuf),
    (readLoop (len + 1 - total) rbuf).1.length < fuel → total + (readLoop (len + 1 - total) rbuf).1.length < 4294967296 →
    drainLoop len fuel total buf m rbuf =
      some (total + (readLoop (len + 1 - total) rbuf).1.length, put32 m buf (readLoop (len + 1 - total) rbuf).1,
        (readLoop (len + 1 - total) rbuf).2) := by
  induction fuel with
  | zero =>
    intro total buf m rbuf hfuel _
    exact absurd hfuel (Nat.not_lt_zero _)
  | succ fuel ih =>
    intro total buf m rbuf hfuel htotal
    rw [drainLoop]
    by_cases hlen : total ≤ len
    · have hturns : len + 1 - total = (len - total) + 1 := by omega
      rw [hturns, readLoop] at hfuel htotal ⊢
      by_cases hready : ringbufTestReady rbuf ≠ 0
      · rw [if_pos hready] at hfuel htotal ⊢
        simp only [List.length_cons] at hfuel htotal ⊢
        have hnext : add32 total 1 = total + 1 := add32_eq (by omega)
        have hrest : len - total = len + 1 - (total + 1) := by omega
        rw [hrest] at hfuel htotal ⊢
        rw [if_pos ⟨hlen, hready⟩, hnext, ih _ _ _ _ (by omega) (by omega), put32, Nat.add_assoc total, Nat.add_comm 1]
      · rw [if_neg hready, if_neg (fun hc => hready hc.2)]
        rfl
    · have hturns : len + 1 - total = 0 := by omega
      rw [if_neg (fun hc => hlen hc.1), hturns]
      rfl

/-! ## The caller's length -/

section Length

variable {n : Nat} {q : List UInt8} {lost : Prop} {rbuf : Ringbuf}

/-- Whatever is pending and asked for, the loop ends, having taken up to `len + 1` bytes. -/
theorem drainLoop_inv (h0 : 0 < n) (hn : n < 4294967296) (h : Ring.Inv n q lost rbuf) (m : Mem) (buf len : Nat) :
    ∃ rbuf', drainLoop len (rbuf.size + 1) 0 buf m rbuf =
      some ((q.take (len + 1)).length, put32 m buf (q.take (len + 1)), rbuf') ∧ unread rbuf' = q.drop (len + 1) := by
  obtain ⟨htake, _, hdrop⟩ := readLoop_take h0 hn (len + 1) h
  have hfits := h.fits
  have hlen : (q.take (len + 1)).length ≤ n := by
    rw [List.length_take]
    omega
  have hloop := drainLoop_eq len (rbuf.size + 1) 0 buf m rbuf
  rw [Nat.sub_zero, htake, Nat.zero_add, h.size] at hloop
  refine ⟨_, ?_, hdrop.unread h0⟩
  rw [h.size]
  exact hloop (by omega) (by omega)

theorem drain_respects_iff (h0 : 0 < n) (hn : n < 4294967296) (h : Ring.Inv n q lost rbuf) (m : Mem) {buf len : Nat}
    (hbuf : buf + len ≤ 4294967296) :
    RespectsLength q m buf len (drainLoop len (rbuf.size + 1) 0 buf m rbuf) ↔ q.length ≤ len := by
  obtain ⟨rbuf', hres, hleft⟩ := drainLoop_inv h0 hn h m buf len
  unfold RespectsLength
  rw [hres]
  constructor
  · intro h
    obtain ⟨_, he, -⟩ := h
    have hcount := congrArg (Option.map Prod.fst) he
    simp at hcount
    omega
  · intro hq
    have hall : q.take (len + 1) = q := List.take_of_length_le (by omega)
    refine ⟨rbuf', ?_, ?_⟩
    · rw [hall, List.take_of_length_le hq, Nat.min_eq_right hq, put32_eq m (by omega)]
    · rw [hleft, List.drop_eq_nil_of_le (by omega), List.drop_eq_nil_of_le hq]

end Length

/-- Both reads, on a ring of any size in any state: `q` is what is pending, and the caller's
    buffer lies in memory. -/
theorem ring_read_iff {n : Nat} (h0 : 1 ≤ n) (hn : n < 2 ^ 32) {q : List UInt8} {lost : Prop} {rbuf : Ringbuf}
    (h : Ring.Inv n q lost rbuf) (m : Mem) {buf len : Nat} (hbuf : buf + len ≤ 2 ^ 32) :
    (RespectsLength q m buf len (keyboardRead rbuf m buf len) ↔ q.length ≤ len) ∧
    (RespectsLength q m buf len (uart8250Read rbuf m buf len) ↔ q.length ≤ len) :=
  ⟨drain_respects_iff h0 hn h m hbuf, drain_respects_iff h0 hn h m hbuf⟩

/-- With more pending than asked for, `len + 1` bytes are stored: the last of them behind the
    caller's buffer. -/
theorem one_byte_too_many {n : Nat} (h0 : 1 ≤ n) (hn : n < 2 ^ 32) {q : List UInt8} {lost : Prop} {rbuf : Ringbuf}
    (h : Ring.Inv n q lost rbuf) (m : Mem) {buf len : Nat} (hbuf : buf + len < 2 ^ 32) (hq : len < q.length) :
    ∃ m' rbuf', drainLoop len (rbuf.size + 1) 0 buf m rbuf = some (len + 1, m', rbuf') ∧
      m' (buf + len) = q.getD len 0 ∧ unread rbuf' = q.drop (len + 1) := by
  obtain ⟨rbuf', hres, hleft⟩ := drainLoop_inv h0 hn h m buf len
  have hcount : (q.take (len + 1)).length = len + 1 := by
    rw [List.length_take]
    omega
  rw [put32_eq m (by omega), hcount] at hres
  refine ⟨_, rbuf', hres, ?_, hleft⟩
  have hin : len < (q.take (len + 1)).length := by omega
  refine (put_in m hin).trans ?_
  simp [List.getD]

/-- Three bytes typed. -/
def typed : Ringbuf := ringbufWrite (ringbufWrite (ringbufWrite ⟨fun _ => 0, 1024, 0, 0, 0⟩ 7) 8) 9

theorem typed_inv : Ring.Inv 1024 [7, 8, 9] (Ring.Overran 1024 [.write 7, .write 8, .write 9]) typed :=
  Ring.run_inv (by simp) (by simp) (.write 9 (.write 8 (.write 7 (.start fun _ => 0))))

theorem three_bytes_fit_in_three : RespectsLength [7, 8, 9] ⟨fun _ => 0⟩ 100 3 (keyboardRead typed ⟨fun _ => 0⟩ 100 3) ∧
    RespectsLength [7, 8, 9] ⟨fun _ => 0⟩ 100 3 (uart8250Read typed ⟨fun _ => 0⟩ 100 3) := by
  obtain ⟨hkbd, huart⟩ := ring_read_iff (by simp) (by simp) typed_inv ⟨fun _ => 0⟩ (show 100 + 3 ≤ 2 ^ 32 by simp)
  exact ⟨hkbd.mpr (by simp), huart.mpr (by simp)⟩

/-- Room for one byte at 100: the byte at 101 is overwritten. -/
theorem a_read_of_one_byte_stores_two : ¬ RespectsLength [7, 8, 9] ⟨fun _ => 0⟩ 100 1 (keyboardRead typed ⟨fun _ => 0⟩ 100 1) ∧
    ∃ m' rbuf', uart8250Read typed ⟨fun _ => 0⟩ 100 1 = some (2, m', rbuf') ∧ m' 101 = 8 := by
  constructor
  · intro hr
    have hle := (drain_respects_iff (by simp) (by simp) typed_inv _ (show 100 + 1 ≤ 4294967296 by simp)).mp hr
    simp at hle
  · obtain ⟨m', rbuf', hres, hbyte, -⟩ :=
      one_byte_too_many (by simp) (by simp) typed_inv ⟨fun _ => 0⟩ (show 100 + 1 < 2 ^ 32 by simp) (by simp)
    exact ⟨m', rbuf', hres, hbyte⟩

end NativeOS.Device.RingRead
