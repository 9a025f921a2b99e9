/-
  NativeOS.Device.WriteNumber — where `write_number` indexes its array
  (`kernel/device/rtclock.c`).

  Here `tmp` is what is on the stack, before its first entry too, and the indices are noted
  as they are used. The two loops that fill the array use those from 0 to `len` - 1. The last
  one tests `i` before it counts it down, so it ends with the byte at index -1.

  Proved:
  * `writeNumberIndexed_snd` — the memory is the one `writeNumber` leaves.
  * `writeNumber_indices` — for a number that fits, the indices are -1 to `len` - 1.
  * `write_number_leaves_bounds` — so no number is written from within the array.
-/

import Mathlib.Data.List.GetD
import NativeOS.Device.Rtclock

namespace NativeOS.Device.Clock

open NativeOS.Lib

/-! ## rtclock.c -/

/-- `tmp` by index, `i`, and the indices used so far. -/
structure Tmp where
  byte : Int → UInt8
  i : Int
  indexed : List Int

/-- `tmp[i++] = c`. -/
def Tmp.push (t : Tmp) (c : UInt8) : Tmp := ⟨fun j => if j = t.i then c else t.byte j, t.i + 1, t.indexed ++ [t.i]⟩

/-- The index of `tmp[--i]`. -/
def Tmp.pop (t : Tmp) : Tmp := ⟨t.byte, t.i - 1, t.indexed ++ [t.i - 1]⟩

/-- `while (num > 0)`. -/
def digitTurns : Nat → Nat → Tmp → Tmp
  | 0, _, t => t
  | fuel + 1, num, t => if num > 0 then digitTurns fuel (num / 10) (t.push (UInt8.ofNat (48 + num % 10))) else t

/-- `while (i < len)`. -/
def padTurns (len : Nat) : Nat → Tmp → Tmp
  | 0, t => t
  | fuel + 1, t => if t.i < len then padTurns len fuel (t.push 48) else t

/-- `while (i >= 0)`. -/
def outTurns : Nat → Nat → Tmp → Mem → Tmp × Mem
  | 0, _, t, m => (t, m)
  | fuel + 1, buf, t, m => if 0 ≤ t.i then outTurns fuel (buf + 1) t.pop (st8 m buf (t.byte t.pop.i)) else (t, m)

/-- `write_number`, each loop with the turns it may take. -/
def writeNumberIndexed (m : Mem) (buf num len : Nat) (stack : Int → UInt8) : Tmp × Mem :=
  let t := digitTurns num num ⟨stack, 0, []⟩
  let t := padTurns len len t
  outTurns (t.i.toNat + 2) buf t m

/-! ## What it should do -/

/-- Only the first `len` entries are indexed, and only the digits are written. -/
structure StaysInBounds (m : Mem) (run : Tmp × Mem) (buf num len : Nat) : Prop where
  indices : ∀ j ∈ run.1.indexed, 0 ≤ j ∧ j < len
  digits : slice run.2 buf len = decimal len num
  only : Only m run.2 buf (buf + len)

/-! ## The array -/

/-- The entries `l` are in the array, and nothing but them was indexed. -/
structure Tmp.Filled (t : Tmp) (stack : Int → UInt8) (l : List UInt8) : Prop where
  i : t.i = l.length
  bytes : ∀ j < l.length, t.byte j = l.getD j 0
  below : t.byte (-1) = stack (-1)
  indexed : ∀ j, j ∈ t.indexed ↔ 0 ≤ j ∧ j < l.length

section Loops

variable {t : Tmp} {stack : Int → UInt8} {l : List UInt8} {len : Nat}

theorem Tmp.Filled.push (h : t.Filled stack l) (c : UInt8) : (t.push c).Filled stack (l ++ [c]) := by
  have hi := h.i
  have hlen : (l ++ [c]).length = l.length + 1 := by rw [List.length_append, List.length_singleton]
  refine ⟨?_, ?_, ?_, ?_⟩
  · show t.i + 1 = _
    rw [hlen, hi]
    rfl
  · intro j hj
    show (if (j : Int) = t.i then c else t.byte j) = _
    rw [hlen] at hj
    by_cases hlast : j = l.length
    · rw [if_pos (by omega), hlast, List.getD_append_right _ _ _ _ (Nat.le_refl _), Nat.sub_self]
      rfl
    · rw [if_neg (by omega), h.bytes j (by omega), List.getD_append _ _ _ _ (by omega)]
  · show (if (-1 : Int) = t.i then c else t.byte (-1)) = _
    rw [if_neg (by omega), h.below]
  · intro j
    show j ∈ t.indexed ++ [t.i] ↔ _
    rw [List.mem_append, List.mem_singleton, h.indexed, hlen]
    omega

theorem Tmp.Filled.digits (h : t.Filled stack l) (fuel num : Nat) :
    (digitTurns fuel num t).Filled stack (digitLoop fuel num l) := by
  induction fuel generalizing t l num with
  | zero => exact h
  | succ fuel ih =>
    rw [digitTurns, digitLoop]
    by_cases hnum : num > 0
    · rw [if_pos hnum, if_pos hnum]
      exact ih (h.push _) (num / 10)
    · rw [if_neg hnum, if_neg hnum]
      exact h

theorem Tmp.Filled.pad (h : t.Filled stack l) {fuel : Nat} (hf : len - l.length ≤ fuel) :
    (padTurns len fuel t).Filled stack (padLoop (len - l.length) l) := by
  have hi := h.i
  induction fuel generalizing t l with
  | zero =>
    rw [Nat.le_zero.mp hf]
    exact h
  | succ fuel ih =>
    rw [padTurns]
    by_cases hlt : l.length < len
    · have hnext : len - (l ++ [48]).length = len - (l.length + 1) := by rw [List.length_append, List.length_singleton]
      have hpad := ih (h.push 48) (by omega) (h.push 48).i
      rw [hnext] at hpad
      rw [if_pos (by omega), show len - l.length = len - (l.length + 1) + 1 by omega, padLoop]
      exact hpad
    · rw [if_neg (by omega), Nat.sub_eq_zero_of_le (Nat.le_of_not_lt hlt)]
      exact h

/-- The entries from the `k`-th down go out, and the byte below the array. -/
theorem outTurns_eq (k : Nat) : ∀ {t : Tmp} (buf : Nat) (m : Mem), t.i = k → (∀ j < k, t.byte j = l.getD j 0) →
    t.byte (-1) = stack (-1) → (outTurns (k + 2) buf t m).2 = outLoop l (stack (-1)) k buf m ∧
      ∀ j, j ∈ (outTurns (k + 2) buf t m).1.indexed ↔ j ∈ t.indexed ∨ -1 ≤ j ∧ j < k := by
  induction k with
  | zero =>
    intro t buf m hi _ hbelow
    have hpop : t.pop.i = -1 := by
      show t.i - 1 = -1
      omega
    rw [outTurns, if_pos (by omega), outTurns, if_neg (by omega), hpop, hbelow]
    refine ⟨rfl, ?_⟩
    intro j
    show j ∈ t.indexed ++ [t.pop.i] ↔ _
    rw [List.mem_append, List.mem_singleton, hpop]
    exact or_congr_right (by omega)
  | succ k ih =>
    intro t buf m hi hbytes hbelow
    have hpop : t.pop.i = k := by
      show t.i - 1 = k
      omega
    obtain ⟨hmem, hindexed⟩ := ih (t := t.pop) (buf + 1) (st8 m buf (l.getD k 0)) hpop (fun j hj => hbytes j (by omega)) hbelow
    rw [outTurns, if_pos (by omega), hpop, hbytes k (Nat.lt_succ_self k)]
    refine ⟨hmem, ?_⟩
    intro j
    rw [hindexed]
    show j ∈ t.indexed ++ [t.pop.i] ∨ _ ↔ _
    rw [List.mem_append, List.mem_singleton, hpop, or_assoc]
    exact or_congr_right (by omega)

end Loops

/-! ## Every number -/

section Numbers

variable (m : Mem) (buf num len : Nat) (stack : Int → UInt8)

/-- The entries of `tmp` before the last loop. -/
def entries (num len : Nat) : List UInt8 := padLoop (len - (digitLoop num num []).length) (digitLoop num num [])

theorem writeNumberIndexed_eq :
    (writeNumberIndexed m buf num len stack).2 = outLoop (entries num len) (stack (-1)) (entries num len).length buf m ∧
      ∀ j, j ∈ (writeNumberIndexed m buf num len stack).1.indexed ↔ -1 ≤ j ∧ j < (entries num len).length := by
  have hstart : Tmp.Filled ⟨stack, 0, []⟩ stack [] := by
    refine ⟨rfl, fun j hj => absurd hj (Nat.not_lt_zero j), rfl, ?_⟩
    intro j
    simp
  have hfilled : (padTurns len len (digitTurns num num ⟨stack, 0, []⟩)).Filled stack (entries num len) :=
    (hstart.digits num num).pad (Nat.sub_le _ _)
  have hi : (padTurns len len (digitTurns num num ⟨stack, 0, []⟩)).i.toNat = (entries num len).length := by
    rw [hfilled.i]
    rfl
  rcases outTurns_eq (entries num len).length buf m hfilled.i hfilled.bytes hfilled.below with ⟨hmem, hindexed⟩
  simp only [writeNumberIndexed, hi]
  refine ⟨hmem, ?_⟩
  intro j
  rw [hindexed, hfilled.indexed]
  omega

/-- The indices are noted of the same run. -/
theorem writeNumberIndexed_snd : (writeNumberIndexed m buf num len stack).2 = writeNumber m buf num len (stack (-1)) :=
  (writeNumberIndexed_eq m buf num len stack).1

variable {num len}

theorem length_entries (h : num < 10 ^ len) : (entries num len).length = len := by
  have hdigits := digits_eq len num num [] h (Nat.le_refl num)
  rw [List.length_nil, Nat.zero_add, List.nil_append] at hdigits
  rw [entries, hdigits, List.length_map, length_lowDigits]

theorem writeNumber_indices (h : num < 10 ^ len) (j : Int) :
    j ∈ (writeNumberIndexed m buf num len stack).1.indexed ↔ -1 ≤ j ∧ j < len := by
  rw [(writeNumberIndexed_eq m buf num len stack).2, length_entries h]

variable (num len)

/-- For every number and length, every memory and stack: the byte below the array is read. -/
theorem write_number_leaves_bounds : ¬ StaysInBounds m (writeNumberIndexed m buf num len stack) buf num len := by
  intro h
  have hbelow : -1 ∈ (writeNumberIndexed m buf num len stack).1.indexed := by
    rw [(writeNumberIndexed_eq m buf num len stack).2]
    omega
  exact absurd (h.indices (-1) hbelow).1 (by decide)

end Numbers

/-- The last digit of a minute: index 1, index 0, and the one below. -/
theorem a_minute_is_read_from_below :
    ¬ StaysInBounds ⟨fun _ => 0⟩ (writeNumberIndexed ⟨fun _ => 0⟩ 100 59 2 fun _ => 7) 100 59 2 := by
  intro h
  have hindexed : (writeNumberIndexed ⟨fun _ => 0⟩ 100 59 2 fun _ => 7).1.indexed = [0, 1, 1, 0, -1] := by decide +kernel
  have hlast := h.indices (-1) (by rw [hindexed]; decide)
  exact absurd hlast.1 (by decide)

end NativeOS.Device.Clock
