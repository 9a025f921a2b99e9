/-
  NativeOS.Lib.Bitmap — a set of numbers packed into 32-bit words of memory.

  Bit `f % 32` of word `f / 32` says whether `f` is in the set. Setting and clearing a
  bit change the membership of one number. `taken` is the set a bitmap of a given length
  stands for.
-/

import NativeOS.Lib.Bytes
import Mathlib.Data.Nat.Bitwise
import Mathlib.Data.Finset.Basic
import Mathlib.Data.Finset.Filter
import Mathlib.Data.Finset.Range

namespace NativeOS.Lib

def bitAt (m : Mem) (base f : Nat) : Bool := (ld32 m (base + 4 * (f / 32))).testBit (f % 32)

def setBit (m : Mem) (base f : Nat) : Mem :=
  st32 m (base + 4 * (f / 32)) (ld32 m (base + 4 * (f / 32)) ||| 2 ^ (f % 32))

def clearBit (m : Mem) (base f : Nat) : Mem :=
  st32 m (base + 4 * (f / 32)) (ld32 m (base + 4 * (f / 32)) &&& (0xFFFFFFFF ^^^ 2 ^ (f % 32)))

/-- The numbers below `n` whose bit is set. -/
def taken (m : Mem) (base n : Nat) : Finset Nat := (Finset.range n).filter fun f => bitAt m base f = true

theorem mem_taken {m : Mem} {base n f : Nat} : f ∈ taken m base n ↔ f < n ∧ bitAt m base f = true := by
  simp [taken]

/-! ## One word -/

theorem two_pow_mod_lt (f : Nat) : 2 ^ (f % 32) < 2 ^ 32 := Nat.pow_lt_pow_right (by decide) (by omega)

theorem and_two_pow_eq_zero {w k : Nat} : w &&& 2 ^ k = 0 ↔ w.testBit k = false := by
  rw [Nat.and_two_pow]
  cases w.testBit k <;> simp

/-- A word with no clear bit is all ones. -/
theorem word_full {w : Nat} (hw : w < 4294967296) : w = 0xFFFFFFFF ↔ ∀ k < 32, w.testBit k = true := by
  have hones : (0xFFFFFFFF : Nat) = 2 ^ 32 - 1 := by decide
  constructor
  · intro h k hk
    rw [h, hones, Nat.testBit_two_pow_sub_one]
    simpa using hk
  · intro h
    apply Nat.eq_of_testBit_eq
    intro k
    rw [hones, Nat.testBit_two_pow_sub_one]
    by_cases hk : k < 32
    · rw [h k hk, decide_eq_true hk]
    · have hpow : 2 ^ 32 ≤ 2 ^ k := Nat.pow_le_pow_right (by decide) (by omega)
      rw [Nat.testBit_lt_two_pow (Nat.lt_of_lt_of_le hw hpow), decide_eq_false hk]

/-! ## Reading back -/

theorem bitAt_st32 (m : Mem) (base f g : Nat) {w : Nat} (hw : w < 4294967296) :
    bitAt (st32 m (base + 4 * (f / 32)) w) base g = if g / 32 = f / 32 then w.testBit (g % 32) else bitAt m base g := by
  unfold bitAt
  by_cases h : g / 32 = f / 32
  · rw [if_pos h, h, ld32_st32_same _ _ hw]
  · rw [if_neg h, ld32_st32_ne]
    omega

theorem bitAt_setBit (m : Mem) (base f g : Nat) : bitAt (setBit m base f) base g = (decide (g = f) || bitAt m base g) := by
  have hw : ld32 m (base + 4 * (f / 32)) ||| 2 ^ (f % 32) < 4294967296 :=
    Nat.or_lt_two_pow (n := 32) (ld32_lt m _) (two_pow_mod_lt f)
  unfold setBit
  rw [bitAt_st32 _ _ _ _ hw]
  by_cases h : g / 32 = f / 32
  · have hg : f % 32 = g % 32 ↔ g = f := by omega
    rw [if_pos h, Nat.testBit_or, Nat.testBit_two_pow, Bool.or_comm, bitAt, h]
    simp only [hg]
  · have hg : g ≠ f := fun e => h (by rw [e])
    rw [if_neg h, decide_eq_false hg, Bool.false_or]

theorem bitAt_clearBit (m : Mem) (base f g : Nat) :
    bitAt (clearBit m base f) base g = (!decide (g = f) && bitAt m base g) := by
  have hw : ld32 m (base + 4 * (f / 32)) &&& (0xFFFFFFFF ^^^ 2 ^ (f % 32)) < 4294967296 :=
    Nat.lt_of_le_of_lt Nat.and_le_left (ld32_lt m _)
  unfold clearBit
  rw [bitAt_st32 _ _ _ _ hw]
  by_cases h : g / 32 = f / 32
  · have hg : f % 32 = g % 32 ↔ g = f := by omega
    have hones : (0xFFFFFFFF : Nat).testBit (g % 32) = true :=
      (word_full (by decide)).mp rfl _ (Nat.mod_lt _ (by decide))
    rw [if_pos h, Nat.testBit_and, Nat.testBit_xor, Nat.testBit_two_pow, hones, Bool.and_comm, bitAt, h]
    simp only [hg, Bool.true_bne]
  · have hg : g ≠ f := fun e => h (by rw [e])
    rw [if_neg h, decide_eq_false hg, Bool.not_false, Bool.true_and]

/-! ## The set -/

theorem taken_setBit (m : Mem) {base n f : Nat} (hf : f < n) :
    taken (setBit m base f) base n = insert f (taken m base n) := by
  ext g
  rw [Finset.mem_insert, mem_taken, mem_taken, bitAt_setBit, Bool.or_eq_true, decide_eq_true_iff]
  by_cases h : g = f
  · simp [h, hf]
  · simp [h]

theorem taken_clearBit (m : Mem) (base n f : Nat) : taken (clearBit m base f) base n = (taken m base n).erase f := by
  ext g
  rw [Finset.mem_erase, mem_taken, mem_taken, bitAt_clearBit, Bool.and_eq_true, Bool.not_eq_true',
    decide_eq_false_iff_not]
  exact and_left_comm

end NativeOS.Lib
