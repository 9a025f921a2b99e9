/-
  NativeOS.Device.Pctimer — reading the tick counter (`kernel/device/pctimer.c`).

  `pctimer_read` writes the eight hexadecimal digits of the ticks into an array, the lowest
  first, and hands out the array backwards. Its index is unsigned, so `i >= 0` always holds
  and the caller's length alone ends the loop: behind the eighth character the index is
  2^32 - 1.

  Proved:
  * `pctimer_read_iff` — for every count and every length, the digits come out as they should
    exactly if no more than eight are asked for.
  * `ninth_character_is_no_digit` — the ninth is read from outside of the array.
-/

import Mathlib.Logic.Function.Basic
import NativeOS.Lib.Digits
import NativeOS.Lib.Spans

namespace NativeOS.Device.Pctimer

open NativeOS.Lib

/-! ## pctimer.c -/

/-- "0123456789ABCDEF". -/
def letters : List UInt8 := [48, 49, 50, 51, 52, 53, 54, 55, 56, 57, 65, 66, 67, 68, 69, 70]

/-- `for (i = 0; i < 8; i++)`: `turns` more entries of the array, from `i` on. -/
def conversionLoop : Nat → Nat → Nat → (Nat → UInt8) → Nat → UInt8
  | 0, _, _, conversion => conversion
  | turns + 1, i, ticks, conversion =>
    conversionLoop turns (i + 1) (ticks >>> 4) (Function.update conversion i (letters.getD (ticks &&& 0xF) 0))

/-- What `pctimer_read` returns, the memory it leaves, and the indices at which it read its array. -/
structure Reading where
  read : Nat
  mem : Mem
  indices : List Nat

/-- `for (i = 7; i >= 0 && len--; --i)`. -/
def outLoop (conversion : Nat → UInt8) : Nat → Nat → Nat → Nat → Mem → Reading
  | 0, _, _, read, m => ⟨read, m, []⟩
  | len + 1, i, buf, read, m =>
    if 0 ≤ i then
      let rest := outLoop conversion len (sub32 i 1) (buf + 1) (add32 read 1) (st8 m buf (conversion i))
      { rest with indices := i :: rest.indices }
    else ⟨read, m, []⟩

/-- `around`: what the memory around the array holds, by index. -/
def pctimerRead (nextTicks : Nat) (around : Nat → UInt8) (m : Mem) (buf len : Nat) : Reading :=
  let conversion := conversionLoop (8 - 0) 0 nextTicks fun i => if i < 8 then 0 else around i
  outLoop conversion len 7 buf 0 m

/-! ## What it should do -/

def hexLetter (d : Nat) : UInt8 := letters.getD d 0

def hexDigit (c : UInt8) : Nat := letters.idxOf c

/-- Eight digits. -/
def hexText (ticks : Nat) : List UInt8 := numeral hexLetter 16 8 ticks

def parseHex (text : List UInt8) : Nat := numeralValue hexDigit 16 text

/-- The first characters of the text, as many as asked for and there are, and their number;
    the array is read at its own indices. -/
structure Renders (ticks : Nat) (m : Mem) (buf len : Nat) (r : Reading) : Prop where
  count : r.read = min len 8
  stored : r.mem = put m buf ((hexText ticks).take len)
  inArray : ∀ i ∈ r.indices, i < 8

theorem hexDigit_hexLetter : ∀ d < 16, hexDigit (hexLetter d) = d := by decide

theorem parseHex_hexText {ticks : Nat} (h : ticks < 2 ^ 32) : parseHex (hexText ticks) = ticks := by
  have hvalue : parseHex (hexText ticks) = ticks % 16 ^ 8 := numeralValue_numeral hexDigit_hexLetter (by decide) 8 ticks
  rw [hvalue, Nat.mod_eq_of_lt (by omega)]

/-! ## The loops -/

theorem conversionLoop_apply (turns : Nat) : ∀ (i ticks : Nat) (conversion : Nat → UInt8) (k : Nat),
    conversionLoop turns i ticks conversion k =
      if i ≤ k ∧ k < i + turns then hexLetter ((lowDigits 16 turns ticks).getD (k - i) 0) else conversion k := by
  induction turns with
  | zero =>
    intro i ticks conversion k
    rw [conversionLoop, if_neg (by omega)]
  | succ turns ih =>
    intro i ticks conversion k
    have hlow : ticks &&& 0xF = ticks % 16 := Nat.and_two_pow_sub_one_eq_mod ticks 4
    have hshift : ticks >>> 4 = ticks / 16 := Nat.shiftRight_eq_div_pow ticks 4
    rw [conversionLoop, ih, hlow, hshift, lowDigits]
    by_cases hk : k = i
    · subst hk
      rw [if_neg (by omega), if_pos (by omega), Function.update_self, Nat.sub_self, List.getD_cons_zero]
      rfl
    · rw [Function.update_of_ne hk]
      by_cases hin : i + 1 ≤ k ∧ k < i + 1 + turns
      · have hnext : k - i = (k - (i + 1)) + 1 := by omega
        rw [if_pos hin, if_pos (by omega), hnext, List.getD_cons_succ]
      · rw [if_neg hin, if_neg (by omega)]

/-- Whatever the index does, the caller's length is counted down. -/
theorem outLoop_read (conversion : Nat → UInt8) (len : Nat) : ∀ (i buf read : Nat) (m : Mem), read + len < 4294967296 →
    (outLoop conversion len i buf read m).read = read + len := by
  induction len with
  | zero =>
    intro i buf read m _
    rfl
  | succ len ih =>
    intro i buf read m h
    have hnext : add32 read 1 = read + 1 := add32_eq (by omega)
    rw [outLoop, if_pos (Nat.zero_le i), hnext]
    exact (ih _ _ _ _ (by omega)).trans (by omega)

/-- Down to index 0. -/
theorem outLoop_down (conversion : Nat → UInt8) (len : Nat) : ∀ (i buf read : Nat) (m : Mem), len ≤ i + 1 → i < 4294967296 →
    (outLoop conversion len i buf read m).mem = put m buf ((List.range len).map fun j => conversion (i - j)) ∧
    ∀ k ∈ (outLoop conversion len i buf read m).indices, k ≤ i := by
  induction len with
  | zero =>
    intro i buf read m _ _
    exact ⟨rfl, fun k hk => by cases hk⟩
  | succ len ih =>
    intro i buf read m hlen hi
    rw [outLoop, if_pos (Nat.zero_le i)]
    by_cases h0 : i = 0
    · have hlast : len = 0 := by omega
      subst h0 hlast
      refine ⟨rfl, ?_⟩
      intro k hk
      exact Nat.le_of_eq (List.mem_singleton.mp hk)
    · have hdown : sub32 i 1 = i - 1 := sub32_eq (by omega) hi
      obtain ⟨hmem, hind⟩ := ih (i - 1) (buf + 1) (add32 read 1) (st8 m buf (conversion i)) (by omega) (by omega)
      rw [hdown]
      constructor
      · have hshift : ∀ j, i - 1 - j = i - (j + 1) := fun j => by omega
        rw [List.range_succ_eq_map, List.map_cons, put_cons, List.map_map]
        simp only [hshift] at hmem
        exact hmem
      · intro k hk
        rcases List.mem_cons.mp hk with rfl | hk
        · exact Nat.le_refl _
        · have hle := hind k hk
          omega

/-- After `i + 1` characters the index wraps. -/
theorem outLoop_wraps (conversion : Nat → UInt8) (i : Nat) : ∀ (len buf read : Nat) (m : Mem), i + 1 < len → i < 4294967296 →
    0xFFFFFFFF ∈ (outLoop conversion len i buf read m).indices := by
  induction i with
  | zero =>
    intro len buf read m hlen _
    obtain ⟨len, rfl⟩ : ∃ k, len = k + 2 := ⟨len - 2, by omega⟩
    rw [outLoop, if_pos (Nat.le_refl 0), outLoop, if_pos (Nat.zero_le _)]
    exact List.mem_cons_of_mem _ List.mem_cons_self
  | succ i ih =>
    intro len buf read m hlen hi
    obtain ⟨len, rfl⟩ : ∃ k, len = k + 1 := ⟨len - 1, by omega⟩
    have hdown : sub32 (i + 1) 1 = i := sub32_eq (by omega) hi
    rw [outLoop, if_pos (Nat.zero_le _), hdown]
    exact List.mem_cons_of_mem _ (ih _ _ _ _ (by omega) (by omega))

/-! ## The characters -/

theorem hexText_take (ticks : Nat) {len : Nat} (h : len ≤ 8) (around : Nat → UInt8) :
    (List.range len).map (fun j => conversionLoop 8 0 ticks around (7 - j)) = (hexText ticks).take len := by
  rw [hexText, numeral_eq_map, ← List.map_take, List.take_range, Nat.min_eq_left h]
  refine List.map_congr_left ?_
  intro j hj
  have hlt := List.mem_range.mp hj
  rw [conversionLoop_apply, if_pos (by omega)]
  rfl

/-- Every tick count, every length, whatever is around the array and in the buffer; and the
    eight characters read back as the count. -/
theorem pctimer_read_iff {nextTicks : Nat} (ht : nextTicks < 2 ^ 32) (around : Nat → UInt8) (m : Mem) (buf : Nat) {len : Nat}
    (hl : len < 2 ^ 32) :
    (Renders nextTicks m buf len (pctimerRead nextTicks around m buf len) ↔ len ≤ 8) ∧
    parseHex (hexText nextTicks) = nextTicks := by
  refine ⟨?_, parseHex_hexText ht⟩
  have hread := outLoop_read (conversionLoop 8 0 nextTicks fun i => if i < 8 then 0 else around i) len 7 buf 0 m (by omega)
  constructor
  · intro h
    have hcount : 0 + len = min len 8 := hread.symm.trans h.count
    omega
  · intro h
    obtain ⟨hmem, hind⟩ := outLoop_down (conversionLoop 8 0 nextTicks fun i => if i < 8 then 0 else around i) len 7 buf 0 m
      (by omega) (by omega)
    refine ⟨?_, ?_, ?_⟩
    · refine hread.trans ?_
      omega
    · rw [hexText_take nextTicks h] at hmem
      exact hmem
    · intro i hi
      exact Nat.lt_succ_of_le (hind i hi)

theorem ninth_character_is_no_digit (nextTicks : Nat) (around : Nat → UInt8) (m : Mem) (buf : Nat) {len : Nat} (h : 8 < len) :
    0xFFFFFFFF ∈ (pctimerRead nextTicks around m buf len).indices :=
  outLoop_wraps _ 7 len buf 0 m (by omega) (by omega)

theorem eight_characters_of_a_minute : Renders 1092 ⟨fun _ => 0⟩ 100 8 (pctimerRead 1092 (fun _ => 7) ⟨fun _ => 0⟩ 100 8) ∧
    parseHex (hexText 1092) = 1092 := by
  obtain ⟨hiff, hparse⟩ := @pctimer_read_iff 1092 (by simp) (fun _ => 7) ⟨fun _ => 0⟩ 100 8 (by simp)
  exact ⟨hiff.mpr (by simp), hparse⟩

/-- A read of nine characters returns nine: "00000444" and the byte before the array. -/
theorem a_read_of_nine_leaves_the_array : (pctimerRead 1092 (fun _ => 7) ⟨fun _ => 0⟩ 100 9).read = 9 ∧
    (pctimerRead 1092 (fun _ => 7) ⟨fun _ => 0⟩ 100 9).mem 108 = 7 ∧
    ¬ Renders 1092 ⟨fun _ => 0⟩ 100 9 (pctimerRead 1092 (fun _ => 7) ⟨fun _ => 0⟩ 100 9) := by
  refine ⟨by decide, by decide, ?_⟩
  intro h
  exact absurd h.count (by decide)

end NativeOS.Device.Pctimer
