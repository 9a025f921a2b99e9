/-
  NativeOS.Lib.Digits — numbers written with a fixed number of digits.

  `lowDigits` are the digits as a division loop produces them, the lowest first, as many as
  asked for; `numeral` is the text, the highest first, one letter each. `numeralValue` reads
  a text back: of a text of `n` digits to a base `b` it gives the number modulo `b ^ n`.
-/

import Mathlib.Algebra.Group.Nat.Defs

namespace NativeOS.Lib

variable {α : Type}

def lowDigits (b : Nat) : Nat → Nat → List Nat
  | 0, _ => []
  | n + 1, v => v % b :: lowDigits b n (v / b)

def numeral (letter : Nat → α) (b n v : Nat) : List α := (lowDigits b n v).reverse.map letter

def numeralValue (digit : α → Nat) (b : Nat) (l : List α) : Nat := l.foldl (fun v c => b * v + digit c) 0

section Digits

variable {letter : Nat → α} {digit : α → Nat} {b : Nat}

@[simp] theorem length_lowDigits (b n v : Nat) : (lowDigits b n v).length = n := by
  induction n generalizing v with
  | zero => rfl
  | succ n ih => rw [lowDigits, List.length_cons, ih]

@[simp] theorem length_numeral (letter : Nat → α) (b n v : Nat) : (numeral letter b n v).length = n := by simp [numeral]

theorem lowDigits_zero (b n : Nat) : lowDigits b n 0 = List.replicate n 0 := by
  induction n with
  | zero => rfl
  | succ n ih => rw [lowDigits, Nat.zero_mod, Nat.zero_div, ih, List.replicate_succ]

theorem numeral_succ (letter : Nat → α) (b n v : Nat) :
    numeral letter b (n + 1) v = numeral letter b n (v / b) ++ [letter (v % b)] := by
  simp [numeral, lowDigits]

/-- From the highest digit down. -/
theorem numeral_eq_map (letter : Nat → α) (b n v : Nat) :
    numeral letter b n v = (List.range n).map fun j => letter ((lowDigits b n v).getD (n - 1 - j) 0) := by
  refine List.ext_getElem (by simp) ?_
  intro j h1 h2
  have hj : j < n := by simpa using h1
  have hback : n - 1 - j < n := by omega
  simp [numeral, List.getElem_reverse, hback]

/-- What is read back, if each letter stands for its digit. -/
theorem numeralValue_numeral (hd : ∀ d < b, digit (letter d) = d) (hb : 0 < b) (n v : Nat) :
    numeralValue digit b (numeral letter b n v) = v % b ^ n := by
  induction n generalizing v with
  | zero => exact (Nat.mod_one v).symm
  | succ n ih =>
    have hrest := ih (v / b)
    rw [numeralValue] at hrest
    rw [numeralValue, numeral_succ, List.foldl_append, hrest, List.foldl_cons, List.foldl_nil, hd _ (Nat.mod_lt v hb),
      Nat.pow_succ, Nat.mul_comm (b ^ n), Nat.mod_mul, Nat.add_comm]

end Digits

end NativeOS.Lib
