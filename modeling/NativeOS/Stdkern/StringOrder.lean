/-
  NativeOS.Stdkern.StringOrder — what `strcmp` and `strncmp` order by.

  `strcmp` is the lexicographic order of the bytes. `strncmp` counts down behind both tests
  for NUL, so its loop is left for the count only after `n` equal characters, and the
  difference it then returns is that of the characters behind them: it is `strcmp` on the
  first `n + 1` characters.

  Proved:
  * `strncmp_truncates_iff` — for all strings and counts: `strncmp` is `strcmp` on the first
    `n` characters, and blind to all others, exactly if `n` is 0 or the strings differ or
    both end before.
  * `a_character_too_many` — "ab" and "ac" differ in their first character.
-/

import Mathlib.Data.List.Lex
import NativeOS.Stdkern.Strings

namespace NativeOS.Stdkern

/-! ## What strncmp should be -/

/-- `strcmp`'s sign on the truncated strings. -/
def OrdersFirst (s1 s2 : List UInt8) (n : Nat) : Prop :=
  (strncmp s1 s2 n).sign = (strcmp (firstChars s1 n) (firstChars s2 n)).sign

/-- Strings with the same first characters are compared alike. -/
def Blind (s1 s2 : List UInt8) (n : Nat) : Prop :=
  ∀ t1 t2, firstChars t1 n = firstChars s1 n → firstChars t2 n = firstChars s2 n → strncmp t1 t2 n = strncmp s1 s2 n

/-! ## strcmp -/

theorem charDiff_neg {s1 s2 : List UInt8} : charDiff s1 s2 < 0 ↔ s1.headD 0 < s2.headD 0 := by
  unfold charDiff
  rw [UInt8.lt_iff_toNat_lt]
  omega

theorem charDiff_swap (s1 s2 : List UInt8) : charDiff s2 s1 = - charDiff s1 s2 := (Int.neg_sub _ _).symm

theorem strcmp_swap (s1 s2 : List UInt8) : strcmp s2 s1 = - strcmp s1 s2 := by
  induction s1 generalizing s2 with
  | nil => rw [@strcmp_end s2 [] (.inr rfl), @strcmp_end [] s2 (.inl rfl), charDiff_swap]
  | cons c1 s1 ih =>
    rcases heads_cases (c1 :: s1) s2 with h | ⟨d1, t1, d2, t2, h1, rfl, hd1, hd2⟩
    · rw [strcmp_end h, strcmp_end h.symm, charDiff_swap]
    · cases h1
      rw [strcmp_cons hd1 hd2, strcmp_cons hd2 hd1, ih]
      by_cases he : c1 = d2
      · rw [if_neg (not_not.mpr he), if_neg (not_not.mpr he.symm)]
      · rw [if_pos he, if_pos (Ne.symm he), Int.neg_sub]

theorem cstr_lt_of_end {s1 s2 : List UInt8} (h : s1.headD 0 = 0 ∨ s2.headD 0 = 0) :
    s1.headD 0 < s2.headD 0 ↔ cstr s1 < cstr s2 := by
  by_cases h2 : s2.headD 0 = 0
  · rw [cstr_eq_nil.mpr h2, h2]
    exact iff_of_false (UInt8.not_lt_zero) (List.not_lt_nil _)
  · have h1 : s1.headD 0 = 0 := h.resolve_right h2
    obtain ⟨c, t, ht⟩ := List.exists_cons_of_ne_nil (fun hn => h2 (cstr_eq_nil.mp hn))
    rw [cstr_eq_nil.mpr h1, h1, ht]
    exact iff_of_true (UInt8.pos_iff_ne_zero.mpr h2) (List.nil_lt_cons c t)

/-- The lexicographic order of unsigned bytes. -/
theorem strcmp_neg {s1 s2 : List UInt8} : strcmp s1 s2 < 0 ↔ cstr s1 < cstr s2 := by
  induction s1 generalizing s2 with
  | nil => rw [strcmp_end (.inl rfl), charDiff_neg, cstr_lt_of_end (.inl rfl)]
  | cons c1 s1 ih =>
    rcases heads_cases (c1 :: s1) s2 with h | ⟨d1, t1, d2, t2, h1, rfl, hd1, hd2⟩
    · rw [strcmp_end h, charDiff_neg, cstr_lt_of_end h]
    · cases h1
      rw [strcmp_cons hd1 hd2, cstr_cons hd1, cstr_cons hd2, List.cons_lt_cons_iff]
      by_cases he : c1 = d2
      · rw [if_neg (not_not.mpr he), ih]
        simp [he]
      · have hneg : (c1.toNat : Int) - d2.toNat < 0 ↔ c1 < d2 := @charDiff_neg [c1] [d2]
        rw [if_pos he, hneg]
        simp [he]

theorem strcmp_pos {s1 s2 : List UInt8} : 0 < strcmp s1 s2 ↔ cstr s2 < cstr s1 := by
  rw [← strcmp_neg, strcmp_swap s1 s2, Int.neg_neg_iff_pos]

/-! ## strncmp -/

theorem firstChars_firstChars (s : List UInt8) {n k : Nat} (h : n ≤ k) : firstChars (firstChars s k) n = firstChars s n := by
  show (cstr (firstChars s k)).take n = firstChars s n
  rw [cstr_firstChars]
  unfold firstChars
  rw [List.take_take, Nat.min_eq_left h]

/-- A string that ends before the count is not cut. -/
theorem firstChars_of_short {s t : List UInt8} {n : Nat} (h : strlen s < n) (he : firstChars t n = firstChars s n) :
    cstr t = cstr s := by
  have hs : firstChars s n = cstr s := List.take_of_length_le (Nat.le_of_lt h)
  have hlen : (firstChars t n).length = strlen s := by
    rw [he, hs]
    rfl
  have ht : firstChars t n = cstr t := by
    refine List.take_of_length_le ?_
    unfold firstChars at hlen
    rw [List.length_take] at hlen
    omega
  rw [← ht, he, hs]

/-- The first difference decides. -/
theorem strcmp_firstChars {n : Nat} {s1 s2 : List UInt8} (h : firstChars s1 n ≠ firstChars s2 n) :
    strcmp (firstChars s1 n) (firstChars s2 n) = strcmp s1 s2 := by
  induction n generalizing s1 s2 with
  | zero => exact absurd rfl h
  | succ n ih =>
    rcases heads_cases s1 s2 with he | ⟨c1, t1, c2, t2, rfl, rfl, h1, h2⟩
    · rw [strcmp_firstChars_end he, strcmp_end he]
    · rw [firstChars_cons h1, firstChars_cons h2, strcmp_cons h1 h2, strcmp_cons h1 h2]
      by_cases hc : c1 = c2
      · rw [if_neg (not_not.mpr hc), if_neg (not_not.mpr hc)]
        refine ih ?_
        intro ht
        apply h
        rw [firstChars_cons h1, firstChars_cons h2, hc, ht]
      · rw [if_pos hc, if_pos hc]

theorem firstChars_ne_succ {n : Nat} {s1 s2 : List UInt8} (h : firstChars s1 n ≠ firstChars s2 n) :
    firstChars s1 (n + 1) ≠ firstChars s2 (n + 1) := by
  intro he
  apply h
  rw [← firstChars_firstChars s1 (Nat.le_succ n), he, firstChars_firstChars s2 (Nat.le_succ n)]

/-- Strings that differ early enough are compared as they should be. -/
theorem strncmp_of_ne {n : Nat} {s1 s2 : List UInt8} (h : firstChars s1 n ≠ firstChars s2 n) :
    strncmp s1 s2 n = strcmp (firstChars s1 n) (firstChars s2 n) := by
  have hn : 0 < n := by
    refine Nat.pos_of_ne_zero ?_
    intro h0
    rw [h0] at h
    exact h rfl
  rw [strncmp_eq hn, strcmp_firstChars (firstChars_ne_succ h), strcmp_firstChars h]

theorem ordersFirst_iff {s1 s2 : List UInt8} {n : Nat} :
    OrdersFirst s1 s2 n ↔ n = 0 ∨ firstChars s1 n ≠ firstChars s2 n ∨ firstChars s1 (n + 1) = firstChars s2 (n + 1) := by
  unfold OrdersFirst
  by_cases h0 : n = 0
  · rw [h0]
    exact iff_of_true rfl (.inl rfl)
  · by_cases he : firstChars s1 n = firstChars s2 n
    · rw [he, strcmp_eq_zero.mpr rfl, Int.sign_zero, Int.sign_eq_zero_iff_zero, strncmp_eq_zero (Nat.pos_of_ne_zero h0)]
      simp [h0, firstChars]
    · rw [strncmp_of_ne he]
      exact iff_of_true rfl (.inr (.inl he))

/-- Equal characters up to the count, and the count reached: the next one is looked at. -/
theorem not_blind {s1 s2 : List UInt8} {n : Nat} (hn : 0 < n) (he : firstChars s1 n = firstChars s2 n)
    (hlen : n ≤ strlen s1) : ¬ Blind s1 s2 n := by
  intro hb
  let t := firstChars s1 n
  have htlen : t.length = n := by
    refine (List.length_take).trans ?_
    exact Nat.min_eq_left hlen
  have hself : firstChars t n = t := firstChars_firstChars s1 (Nat.le_refl n)
  have hno : 0 ∉ t ++ [1] := by
    have ht : 0 ∉ t := fun h => zero_not_mem_cstr s1 (List.mem_of_mem_take h)
    simpa using ht
  have hmore : firstChars (t ++ [1]) n = t := by
    show (cstr (t ++ [1])).take n = t
    rw [cstr_of_no_zero hno, List.take_left' htlen]
  have hsame : strncmp t (t ++ [1]) n = strncmp t t n :=
    (hb t (t ++ [1]) hself (hmore.trans he)).trans (hb t t hself (hself.trans he)).symm
  rw [(@strncmp_eq_zero t t n hn).mpr rfl, strncmp_eq_zero hn, cstr_of_no_zero hno, cstr_firstChars] at hsame
  have hlens := congrArg List.length hsame
  rw [List.length_take, List.length_take, List.length_append, htlen] at hlens
  simp at hlens

theorem blind_iff {s1 s2 : List UInt8} {n : Nat} :
    Blind s1 s2 n ↔ n = 0 ∨ firstChars s1 n ≠ firstChars s2 n ∨ strlen s1 < n := by
  constructor
  · intro hb
    by_contra hc
    rw [not_or, not_or, not_not, Nat.not_lt] at hc
    exact not_blind (Nat.pos_of_ne_zero hc.1) hc.2.1 hc.2.2 hb
  · intro h t1 t2 h1 h2
    rcases Nat.eq_zero_or_pos n with h0 | hn
    · rw [h0]
      rfl
    · by_cases he : firstChars s1 n = firstChars s2 n
      · have hlen : strlen s1 < n := (h.resolve_left (Nat.ne_of_gt hn)).resolve_left (not_not.mpr he)
        have h12 : cstr s2 = cstr s1 := firstChars_of_short hlen he.symm
        have ht1 : cstr t1 = cstr s1 := firstChars_of_short hlen h1
        have ht2 : cstr t2 = cstr s1 := firstChars_of_short hlen (h2.trans he.symm)
        rw [(strncmp_eq_zero hn).mpr (by rw [ht1, ht2]), (strncmp_eq_zero hn).mpr (by rw [h12])]
      · rw [strncmp_of_ne he, strncmp_of_ne (by rwa [h1, h2]), h1, h2]

/-! ## Every comparison -/

/-- `strncmp` is `strcmp` on the first `n` characters, and looks at no other, exactly if the
    count is 0, or the strings differ in those characters, or end before the count is
    reached; the sign alone is right also when the next characters agree. `strcmp` is the
    order of unsigned bytes. -/
theorem strncmp_truncates_iff (s1 s2 : List UInt8) (n : Nat) :
    (OrdersFirst s1 s2 n ∧ Blind s1 s2 n ↔ n = 0 ∨ firstChars s1 n ≠ firstChars s2 n ∨ strlen s1 < n) ∧
      (OrdersFirst s1 s2 n ↔
        n = 0 ∨ firstChars s1 n ≠ firstChars s2 n ∨ firstChars s1 (n + 1) = firstChars s2 (n + 1)) ∧
      (strcmp s1 s2 < 0 ↔ cstr s1 < cstr s2) ∧ (0 < strcmp s1 s2 ↔ cstr s2 < cstr s1) := by
  refine ⟨?_, ordersFirst_iff, strcmp_neg, strcmp_pos⟩
  rw [blind_iff, ordersFirst_iff]
  constructor
  · intro h
    exact h.2
  · intro h
    refine ⟨?_, h⟩
    rcases h with h0 | hne | hlen
    · exact .inl h0
    · exact .inr (.inl hne)
    · by_cases he : firstChars s1 n = firstChars s2 n
      · have hs : cstr s2 = cstr s1 := firstChars_of_short hlen he.symm
        refine .inr (.inr ?_)
        unfold firstChars
        rw [hs]
      · exact .inr (.inl he)

/-- "ab" and "ac" begin with the same character, and `strncmp` of one character tells them apart. -/
theorem a_character_too_many : ¬ OrdersFirst [97, 98] [97, 99] 1 ∧ ¬ Blind [97, 98] [97, 98] 1 := by
  constructor
  · unfold OrdersFirst
    decide
  · intro h
    have heq := h [97, 98] [97, 99] rfl rfl
    revert heq
    decide

end NativeOS.Stdkern
