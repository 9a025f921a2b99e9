/-
  NativeOS.Lib.Spans — runs of bytes in a memory.

  `put` stores a list of bytes from an address up, `slice` reads a number of them. A loop
  that copies is a `put`; what it wrote and what it left alone then follows from
  `put_byte`, and what a reader sees from the lemmas on `slice`.
-/

import Mathlib.Data.List.Basic
import NativeOS.Lib.Bytes

namespace NativeOS.Lib

def put (m : Mem) : Nat → List UInt8 → Mem
  | _, [] => m
  | a, b :: l => put (st8 m a b) (a + 1) l

def slice (m : Mem) (a n : Nat) : List UInt8 := (List.range n).map fun i => m (a + i)

/-! ## Stores -/

theorem put_cons (m : Mem) (a : Nat) (b : UInt8) (l : List UInt8) : put m a (b :: l) = put (st8 m a b) (a + 1) l := rfl

theorem put_byte (m : Mem) (a : Nat) (l : List UInt8) (x : Nat) :
    put m a l x = if a ≤ x ∧ x < a + l.length then l.getD (x - a) 0 else m x := by
  induction l generalizing m a with
  | nil => exact (if_neg (by simp)).symm
  | cons b l ih =>
    rw [put_cons, ih, List.length_cons]
    by_cases hx : x = a
    · subst hx
      rw [if_neg (by omega), if_pos (by omega), Nat.sub_self]
      simp [st8]
    · rw [st8_ne m b hx]
      by_cases hin : a + 1 ≤ x ∧ x < a + 1 + l.length
      · rw [if_pos hin, if_pos (by omega), show x - a = (x - (a + 1)) + 1 by omega, List.getD_cons_succ]
      · rw [if_neg hin, if_neg (by omega)]

theorem put_out (m : Mem) {a x : Nat} {l : List UInt8} (h : x < a ∨ a + l.length ≤ x) : put m a l x = m x := by
  rw [put_byte, if_neg (by omega)]

theorem put_in (m : Mem) {a i : Nat} {l : List UInt8} (h : i < l.length) : put m a l (a + i) = l.getD i 0 := by
  rw [put_byte, if_pos (by omega), Nat.add_sub_cancel_left]

theorem put_append (m : Mem) (a : Nat) (l l' : List UInt8) : put m a (l ++ l') = put (put m a l) (a + l.length) l' := by
  induction l generalizing m a with
  | nil => rfl
  | cons b l ih => rw [List.cons_append, put_cons, ih, put_cons, List.length_cons, Nat.add_assoc, Nat.add_comm 1]

/-- The last byte of a run is lost to a run that begins at it. -/
theorem put_over (m : Mem) (a : Nat) (l : List UInt8) (last : UInt8) {l' : List UInt8} (h : l' ≠ []) :
    put (put m a (l ++ [last])) (a + l.length) l' = put m a (l ++ l') := by
  have htwice : ∀ (m : Mem) (x : Nat) (v w : UInt8), st8 (st8 m x v) x w = st8 m x w := by
    intro m x v w
    unfold st8
    congr 1
    funext y
    by_cases hy : y = x
    · rw [if_pos hy, if_pos hy]
    · rw [if_neg hy, if_neg hy]
      exact if_neg hy
  rw [put_append, put_append]
  cases l' with
  | nil => exact absurd rfl h
  | cons b l' =>
    rw [put_cons, put_cons, put_cons, put, htwice]

/-! ## Loads -/

@[simp] theorem length_slice (m : Mem) (a n : Nat) : (slice m a n).length = n := by simp [slice]

theorem getD_slice (m : Mem) (a : Nat) {n i : Nat} (h : i < n) : (slice m a n).getD i 0 = m (a + i) := by
  simp [slice, h]

theorem slice_congr {m m' : Mem} {a n : Nat} (h : ∀ x, a ≤ x → x < a + n → m' x = m x) : slice m' a n = slice m a n := by
  apply List.map_congr_left
  intro i hi
  have hi' := List.mem_range.mp hi
  exact h (a + i) (by omega) (by omega)

theorem slice_eq_iff {m m' : Mem} {a n : Nat} : slice m' a n = slice m a n ↔ ∀ x, a ≤ x → x < a + n → m' x = m x := by
  constructor
  · intro h x hl hr
    have hx := congrArg (fun l => l.getD (x - a) 0) h
    simp only [getD_slice _ _ (show x - a < n by omega)] at hx
    rwa [Nat.add_sub_cancel' hl] at hx
  · exact slice_congr

theorem slice_add (m : Mem) (a n k : Nat) : slice m a (n + k) = slice m a n ++ slice m (a + n) k := by
  unfold slice
  rw [List.range_add, List.map_append, List.map_map]
  congr 1
  apply List.map_congr_left
  intro i _
  show m (a + (n + i)) = m (a + n + i)
  rw [Nat.add_assoc]

theorem take_slice (m : Mem) (a : Nat) {n k : Nat} (h : k ≤ n) : (slice m a n).take k = slice m a k := by
  rw [← Nat.add_sub_cancel' h, slice_add, List.take_left' (length_slice m a k)]

theorem slice_succ (m : Mem) (a n : Nat) : slice m a (n + 1) = m a :: slice m (a + 1) n := by
  rw [Nat.add_comm n 1, slice_add]
  rfl

theorem slice_put_self (m : Mem) (a : Nat) (l : List UInt8) : slice (put m a l) a l.length = l := by
  refine List.ext_getElem (length_slice _ _ _) ?_
  intro i h1 h2
  simp [slice, put_in m h2, h2]

/-- A slice that a store does not fill, and one it fills. -/
theorem slice_put_prefix (m : Mem) (a : Nat) {l : List UInt8} {n : Nat} (h : l.length ≤ n) :
    slice (put m a l) a n = l ++ slice m (a + l.length) (n - l.length) := by
  rw [← Nat.add_sub_cancel' h, slice_add, slice_put_self, Nat.add_sub_cancel_left]
  congr 1
  exact slice_congr fun x hx _ => put_out m (Or.inr hx)

theorem slice_put_take (m : Mem) (a : Nat) {l : List UInt8} {n : Nat} (h : n ≤ l.length) :
    slice (put m a l) a n = l.take n := by
  rw [← take_slice _ _ h, slice_put_self]

/-- One part of what was stored. -/
theorem slice_put_part (m : Mem) (a : Nat) (l part l' : List UInt8) :
    slice (put m a (l ++ part ++ l')) (a + l.length) part.length = part := by
  rw [put_append, put_append]
  refine (slice_congr ?_).trans (slice_put_self (put m a l) (a + l.length) part)
  intro x _ hx
  refine put_out _ (.inl ?_)
  rw [List.length_append]
  omega

theorem slice_put_slice (m m' : Mem) (a b n : Nat) : slice (put m a (slice m' b n)) a n = slice m' b n := by
  have h := slice_put_self m a (slice m' b n)
  rwa [length_slice] at h

theorem slice_put_apart (m : Mem) {a b n : Nat} {l : List UInt8} (h : b + n ≤ a ∨ a + l.length ≤ b) :
    slice (put m a l) b n = slice m b n := slice_congr fun _ _ _ => put_out m (by omega)

/-- A pair of bytes, again and again. -/
theorem getD_flatten_replicate (a b : UInt8) : ∀ (n i : Nat), i < n →
    (List.replicate n [a, b]).flatten.getD (2 * i) 0 = a ∧ (List.replicate n [a, b]).flatten.getD (2 * i + 1) 0 = b
  | _ + 1, 0, _ => ⟨rfl, rfl⟩
  | n + 1, i + 1, h => getD_flatten_replicate a b n i (Nat.lt_of_succ_lt_succ h)

end NativeOS.Lib
