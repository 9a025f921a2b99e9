/-
  NativeOS.Stdkern.Strings — the kernel's string functions (`kernel/stdkern/strcpy.c`,
  `strcmp.c`, `strsep.c`, `strdup.c`, `strlen.c`).

  A `char *` that is only read is the list of bytes from it on; behind the end of the list
  there are NULs, and a C string is what stands before the first NUL (`cstr`). What a
  function writes goes to a memory.

  Three of these functions differ from the standard's: `strcpy` writes nothing for an empty
  string, `strncpy` writes one NUL too many after a short one, and `strncmp` looks at one
  byte more than it is told to. The equations below (`strcpy_eq`, `strncpy_eq`,
  `strncpy_byte`, `strncmp_eq`) say so exactly, and are what everything else uses.
-/

import Mathlib.Data.List.GetD
import NativeOS.Lib.Spans

namespace NativeOS.Stdkern

open NativeOS.Lib

/-- The C string that starts at these bytes. -/
def cstr (s : List UInt8) : List UInt8 := s.takeWhile (· ≠ 0)

/-- The C string at `a` is `t`. -/
structure CStringAt (m : Mem) (a : Nat) (t : List UInt8) : Prop where
  chars : slice m a t.length = t
  noZero : 0 ∉ t
  ends : m (a + t.length) = 0

/-! ## strlen.c, strcpy.c, strdup.c -/

def strlen (s : List UInt8) : Nat := (cstr s).length

/-- `strcpy`'s loop and the NUL after it. -/
def strcpyLoop (m : Mem) (ptr : Nat) : List UInt8 → Mem
  | [] => st8 m ptr 0
  | c :: src => if c ≠ 0 then strcpyLoop (st8 m ptr c) (ptr + 1) src else st8 m ptr 0

def strcpy (m : Mem) (dst : Nat) (src : List UInt8) : Mem := if src.headD 0 ≠ 0 then strcpyLoop m dst src else m

/-- `while (len--) *ptr++ = 0`. -/
def zeroFill (m : Mem) (ptr : Nat) : Nat → Mem
  | 0 => m
  | len + 1 => zeroFill (st8 m ptr 0) (ptr + 1) len

/-- `strncpy`'s outer loop. `len` is counted down behind the test for NUL, so the NUL itself
    is not counted when the loop turns to filling. -/
def strncpyLoop (m : Mem) (ptr : Nat) (src : List UInt8) : Nat → Mem
  | 0 => m
  | len + 1 =>
    let m1 := st8 m ptr (src.headD 0)
    if src.headD 0 = 0 then zeroFill m1 (ptr + 1) (len + 1) else strncpyLoop m1 (ptr + 1) src.tail len

def strncpy (m : Mem) (dst : Nat) (src : List UInt8) (len : Nat) : Mem := strncpyLoop m dst src len

/-- The bytes at `strdup`'s copy; `stale` is what its buffer and the memory behind it held. -/
def strdup (stale s : List UInt8) : List UInt8 := if s.headD 0 ≠ 0 then cstr s else stale

/-! ## strcmp.c -/

/-- `*cmp1 - *cmp2`. -/
def charDiff (s1 s2 : List UInt8) : Int := (s1.headD 0).toNat - (s2.headD 0).toNat

def strcmp : List UInt8 → List UInt8 → Int
  | c1 :: s1, c2 :: s2 =>
    if c1 ≠ 0 ∧ c2 ≠ 0 then if c1 ≠ c2 then charDiff (c1 :: s1) (c2 :: s2) else strcmp s1 s2
    else charDiff (c1 :: s1) (c2 :: s2)
  | s1, s2 => charDiff s1 s2

def strncmpLoop (s1 s2 : List UInt8) : Nat → Int
  | 0 => charDiff s1 s2
  | n + 1 =>
    if s1.headD 0 ≠ 0 ∧ s2.headD 0 ≠ 0 then
      if s1.headD 0 ≠ s2.headD 0 then charDiff s1 s2 else strncmpLoop s1.tail s2.tail n
    else charDiff s1 s2

def strncmp (s1 s2 : List UInt8) (n : Nat) : Int := if n = 0 then 0 else strncmpLoop s1 s2 n

/-! ## strsep.c -/

/-- `strsep`'s loop: the bytes up to the NUL or the delimiter, and where it leaves `*strptr`. -/
def strsepLoop (delimiter : List UInt8) : List UInt8 → List UInt8 × Option (List UInt8)
  | [] => ([], none)
  | c :: s =>
    if c = 0 then ([], none)
    else if c ∈ delimiter then ([], some s)
    else (c :: (strsepLoop delimiter s).1, (strsepLoop delimiter s).2)

/-- The string returned, and the new `*strptr`. -/
def strsep (strptr : Option (List UInt8)) (delimiter : List UInt8) : Option (List UInt8) × Option (List UInt8) :=
  match strptr with
  | none => (none, none)
  | some s => (some (strsepLoop delimiter s).1, (strsepLoop delimiter s).2)

/-! ## C strings -/

@[simp] theorem cstr_nil : cstr [] = [] := rfl

theorem cstr_cons {c : UInt8} (h : c ≠ 0) (s : List UInt8) : cstr (c :: s) = c :: cstr s :=
  List.takeWhile_cons_of_pos (by simpa using h)

theorem cstr_zero (s : List UInt8) : cstr (0 :: s) = [] := List.takeWhile_cons_of_neg (by simp)

theorem cstr_of_no_zero {s : List UInt8} (h : 0 ∉ s) : cstr s = s := by
  induction s with
  | nil => rfl
  | cons c s ih =>
    rw [List.mem_cons, not_or] at h
    rw [cstr_cons (Ne.symm h.1), ih h.2]

theorem cstr_append (l t : List UInt8) : cstr (l ++ t) = if 0 ∈ l then cstr l else l ++ cstr t := by
  induction l with
  | nil => rfl
  | cons c l ih =>
    by_cases h : c = 0
    · rw [List.cons_append, h, cstr_zero, cstr_zero, if_pos List.mem_cons_self]
    · have hmem : 0 ∈ c :: l ↔ 0 ∈ l := by simp [Ne.symm h]
      rw [List.cons_append, cstr_cons h, ih, cstr_cons h]
      simp only [hmem]
      split
      · rfl
      · rw [List.cons_append]

theorem cstr_append_zero {s : List UInt8} (h : 0 ∉ s) (t : List UInt8) : cstr (s ++ 0 :: t) = s := by
  rw [cstr_append, if_neg h, cstr_zero, List.append_nil]

theorem zero_not_mem_cstr (s : List UInt8) : 0 ∉ cstr s := by
  induction s with
  | nil => exact List.not_mem_nil
  | cons c s ih =>
    by_cases h : c = 0
    · rw [h, cstr_zero]
      exact List.not_mem_nil
    · rw [cstr_cons h, List.mem_cons, not_or]
      exact ⟨Ne.symm h, ih⟩

theorem cstr_eq_nil {s : List UInt8} : cstr s = [] ↔ s.headD 0 = 0 := by
  cases s with
  | nil => simp
  | cons c s =>
    by_cases h : c = 0
    · simp [h, cstr_zero]
    · simp [h, cstr_cons h]

theorem cstr_getD {s : List UInt8} {i : Nat} (h : i < strlen s) : (cstr s).getD i 0 = s.getD i 0 := by
  obtain ⟨rest, hrest⟩ : cstr s <+: s := List.takeWhile_prefix _
  have hfront := List.getD_append (cstr s) rest 0 i h
  rw [hrest] at hfront
  exact hfront.symm

/-! ## C strings in a memory -/

/-- What a reader finds, however far it may look. -/
theorem CStringAt.cstr_eq {m : Mem} {a : Nat} {t : List UInt8} (h : CStringAt m a t) {n : Nat} (hn : t.length < n) :
    cstr (slice m a n) = t := by
  rw [← Nat.add_sub_cancel' (Nat.succ_le_of_lt hn), slice_add, Nat.succ_eq_add_one, slice_add, h.chars,
    show slice m (a + t.length) 1 = [m (a + t.length)] from rfl, h.ends, List.append_assoc]
  exact cstr_append_zero h.noZero _

theorem cStringAt_nil {m : Mem} {a : Nat} : CStringAt m a [] ↔ m a = 0 := by
  constructor
  · intro h
    exact h.ends
  · intro h
    exact ⟨rfl, List.not_mem_nil, h⟩

theorem cStringAt_put (m : Mem) (a : Nat) (src : List UInt8) : CStringAt (put m a (cstr src ++ [0])) a (cstr src) := by
  have hpart := slice_put_part m a [] (cstr src) [0]
  refine ⟨by simpa using hpart, zero_not_mem_cstr src, ?_⟩
  rw [put_in m (by simp)]
  simp

/-! ## What the copies write -/

theorem strcpyLoop_eq (m : Mem) (ptr : Nat) (src : List UInt8) : strcpyLoop m ptr src = put m ptr (cstr src ++ [0]) := by
  induction src generalizing m ptr with
  | nil => rfl
  | cons c src ih =>
    unfold strcpyLoop
    by_cases h : c = 0
    · rw [if_neg (not_not.mpr h), h, cstr_zero]
      rfl
    · rw [if_pos h, ih, cstr_cons h, List.cons_append, put_cons]

/-- Nothing for an empty string, else the string and its NUL. -/
theorem strcpy_eq (m : Mem) (dst : Nat) (src : List UInt8) :
    strcpy m dst src = if cstr src = [] then m else put m dst (cstr src ++ [0]) := by
  unfold strcpy
  by_cases h : cstr src = []
  · rw [if_neg (not_not.mpr (cstr_eq_nil.mp h)), if_pos h]
  · rw [if_pos (fun h0 => h (cstr_eq_nil.mpr h0)), if_neg h, strcpyLoop_eq]

theorem zeroFill_eq (m : Mem) (ptr len : Nat) : zeroFill m ptr len = put m ptr (List.replicate len 0) := by
  induction len generalizing m ptr with
  | zero => rfl
  | succ len ih => rw [zeroFill, ih, List.replicate_succ, put_cons]

theorem strncpyLoop_nil (m : Mem) (ptr len : Nat) :
    strncpyLoop m ptr [] (len + 1) = zeroFill (st8 m ptr 0) (ptr + 1) (len + 1) := rfl

theorem strncpyLoop_cons (m : Mem) (ptr : Nat) (c : UInt8) (src : List UInt8) (len : Nat) :
    strncpyLoop m ptr (c :: src) (len + 1) =
      if c = 0 then zeroFill (st8 m ptr c) (ptr + 1) (len + 1) else strncpyLoop (st8 m ptr c) (ptr + 1) src len := rfl

/-- The first `len` bytes of a string that long; else the string and NULs up to and
    including the byte behind the `len`-th. -/
theorem strncpy_eq (m : Mem) (dst : Nat) (src : List UInt8) (len : Nat) :
    strncpy m dst src len = if strlen src < len then put m dst (cstr src ++ List.replicate (len + 1 - strlen src) 0)
      else put m dst ((cstr src).take len) := by
  unfold strncpy strlen
  induction len generalizing m dst src with
  | zero => rfl
  | succ len ih =>
    have hshort : ([] : List UInt8).length < len + 1 := Nat.succ_pos len
    cases src with
    | nil =>
      rw [strncpyLoop_nil, cstr_nil, if_pos hshort, zeroFill_eq]
      rfl
    | cons c src =>
      rw [strncpyLoop_cons]
      by_cases h : c = 0
      · rw [h, cstr_zero, if_pos rfl, if_pos hshort, zeroFill_eq]
        rfl
      · rw [if_neg h, ih, cstr_cons h, List.length_cons, List.take_succ_cons, put_cons, List.cons_append, put_cons]
        by_cases hlt : (cstr src).length < len
        · rw [if_pos hlt, if_pos (by omega), Nat.add_sub_add_right]
        · rw [if_neg hlt, if_neg (by omega)]

theorem getD_append_zeros (l : List UInt8) (k i : Nat) : (l ++ List.replicate k 0).getD i 0 = l.getD i 0 := by
  by_cases h : i < l.length
  · exact List.getD_append _ _ _ _ h
  · rw [List.getD_append_right _ _ _ _ (Nat.le_of_not_lt h), List.getD_eq_default l _ (Nat.le_of_not_lt h)]
    exact List.getElem?_getD_replicate_default_eq 0 k (i - l.length)

/-- Each byte: `len` of them are the string and NULs, and behind a short string stands one
    NUL more. -/
theorem strncpy_byte (m : Mem) (dst : Nat) (src : List UInt8) (len x : Nat) : strncpy m dst src len x =
    if dst ≤ x ∧ x < dst + len then (cstr src).getD (x - dst) 0
    else if x = dst + len ∧ strlen src < len then 0 else m x := by
  have hlen : (cstr src).length = strlen src := rfl
  rw [strncpy_eq]
  by_cases hs : strlen src < len
  · rw [if_pos hs, put_byte, List.length_append, List.length_replicate, hlen, getD_append_zeros]
    by_cases hin : dst ≤ x ∧ x < dst + len
    · rw [if_pos (by omega), if_pos hin]
    · rw [if_neg hin]
      by_cases hx : x = dst + len
      · rw [if_pos (by omega), if_pos ⟨hx, hs⟩, List.getD_eq_default]
        omega
      · rw [if_neg (by omega), if_neg fun h => hx h.1]
  · have hfull : ((cstr src).take len).length = len := by
      rw [List.length_take, hlen]
      exact Nat.min_eq_left (Nat.le_of_not_lt hs)
    have hmore : ¬ (x = dst + len ∧ strlen src < len) := fun h => hs h.2
    rw [if_neg hs, put_byte, hfull, if_neg hmore]
    by_cases hin : dst ≤ x ∧ x < dst + len
    · rw [if_pos hin, if_pos hin, List.getD_eq_getElem?_getD, List.getD_eq_getElem?_getD,
        List.getElem?_take_of_lt (by omega)]
    · rw [if_neg hin, if_neg hin]

/-! ## What the comparisons decide -/

theorem charDiff_eq_zero {s1 s2 : List UInt8} : charDiff s1 s2 = 0 ↔ s1.headD 0 = s2.headD 0 := by
  unfold charDiff
  rw [Int.sub_eq_zero, Int.ofNat_inj, UInt8.toNat_inj]

/-- Either both strings go on, or one of them ends here. -/
theorem heads_cases (s1 s2 : List UInt8) :
    (s1.headD 0 = 0 ∨ s2.headD 0 = 0) ∨ ∃ c1 t1 c2 t2, s1 = c1 :: t1 ∧ s2 = c2 :: t2 ∧ c1 ≠ 0 ∧ c2 ≠ 0 := by
  cases s1 with
  | nil => exact .inl (.inl rfl)
  | cons c1 s1 =>
    cases s2 with
    | nil => exact .inl (.inr rfl)
    | cons c2 s2 =>
      by_cases h1 : c1 = 0
      · exact .inl (.inl h1)
      · by_cases h2 : c2 = 0
        · exact .inl (.inr h2)
        · exact .inr ⟨c1, s1, c2, s2, rfl, rfl, h1, h2⟩

theorem strcmp_end {s1 s2 : List UInt8} (h : s1.headD 0 = 0 ∨ s2.headD 0 = 0) : strcmp s1 s2 = charDiff s1 s2 := by
  cases s1 with
  | nil => rfl
  | cons c1 s1 =>
    cases s2 with
    | nil => rfl
    | cons c2 s2 =>
      unfold strcmp
      rw [if_neg]
      intro hb
      exact h.elim hb.1 hb.2

theorem strcmp_cons {c1 c2 : UInt8} (h1 : c1 ≠ 0) (h2 : c2 ≠ 0) (s1 s2 : List UInt8) :
    strcmp (c1 :: s1) (c2 :: s2) = if c1 ≠ c2 then (c1.toNat : Int) - c2.toNat else strcmp s1 s2 := by
  rw [strcmp, if_pos ⟨h1, h2⟩]
  rfl

theorem cstr_eq_of_end {s1 s2 : List UInt8} (h : s1.headD 0 = 0 ∨ s2.headD 0 = 0) :
    s1.headD 0 = s2.headD 0 ↔ cstr s1 = cstr s2 := by
  by_cases h2 : s2.headD 0 = 0
  · rw [cstr_eq_nil.mpr h2, h2, cstr_eq_nil]
  · have h1 : s1.headD 0 = 0 := h.resolve_right h2
    rw [cstr_eq_nil.mpr h1, h1]
    exact iff_of_false (Ne.symm h2) (fun he => h2 (cstr_eq_nil.mp he.symm))

theorem strcmp_eq_zero {s1 s2 : List UInt8} : strcmp s1 s2 = 0 ↔ cstr s1 = cstr s2 := by
  induction s1 generalizing s2 with
  | nil => rw [strcmp_end (.inl rfl), charDiff_eq_zero, cstr_eq_of_end (.inl rfl)]
  | cons c1 s1 ih =>
    rcases heads_cases (c1 :: s1) s2 with h | ⟨d1, t1, d2, t2, h1, rfl, hd1, hd2⟩
    · rw [strcmp_end h, charDiff_eq_zero, cstr_eq_of_end h]
    · cases h1
      rw [strcmp_cons hd1 hd2, cstr_cons hd1, cstr_cons hd2, List.cons.injEq]
      by_cases he : c1 = d2
      · rw [if_neg (not_not.mpr he), ih]
        simp [he]
      · rw [if_pos he, Int.sub_eq_zero, Int.ofNat_inj, UInt8.toNat_inj]
        simp [he]

/-! ## What strncmp looks at -/

/-- The first characters of a string, `n` of them or all there are. -/
def firstChars (s : List UInt8) (n : Nat) : List UInt8 := (cstr s).take n

@[simp] theorem firstChars_zero (s : List UInt8) : firstChars s 0 = [] := List.take_zero

theorem firstChars_cons {c : UInt8} (h : c ≠ 0) (s : List UInt8) (n : Nat) :
    firstChars (c :: s) (n + 1) = c :: firstChars s n := by
  unfold firstChars
  rw [cstr_cons h, List.take_succ_cons]

theorem firstChars_head (s : List UInt8) (n : Nat) : (firstChars s (n + 1)).headD 0 = s.headD 0 := by
  by_cases h : s.headD 0 = 0
  · unfold firstChars
    rw [cstr_eq_nil.mpr h, h]
    rfl
  · cases s with
    | nil => exact absurd rfl h
    | cons c s =>
      have hc : c ≠ 0 := h
      rw [firstChars_cons hc]
      rfl

@[simp] theorem cstr_firstChars (s : List UInt8) (n : Nat) : cstr (firstChars s n) = firstChars s n :=
  cstr_of_no_zero fun h => zero_not_mem_cstr s (List.mem_of_mem_take h)

theorem strcmp_firstChars_end {s1 s2 : List UInt8} (h : s1.headD 0 = 0 ∨ s2.headD 0 = 0) (n : Nat) :
    strcmp (firstChars s1 (n + 1)) (firstChars s2 (n + 1)) = charDiff s1 s2 := by
  rw [strcmp_end (by rwa [firstChars_head, firstChars_head])]
  unfold charDiff
  rw [firstChars_head, firstChars_head]

theorem strncmpLoop_cons (c1 c2 : UInt8) (s1 s2 : List UInt8) (n : Nat) :
    strncmpLoop (c1 :: s1) (c2 :: s2) (n + 1) =
      if c1 ≠ 0 ∧ c2 ≠ 0 then if c1 ≠ c2 then charDiff (c1 :: s1) (c2 :: s2) else strncmpLoop s1 s2 n
      else charDiff (c1 :: s1) (c2 :: s2) := rfl

theorem strncmpLoop_eq (n : Nat) (s1 s2 : List UInt8) :
    strncmpLoop s1 s2 n = strcmp (firstChars s1 (n + 1)) (firstChars s2 (n + 1)) := by
  induction n generalizing s1 s2 with
  | zero =>
    rcases heads_cases s1 s2 with h | ⟨c1, t1, c2, t2, rfl, rfl, h1, h2⟩
    · rw [strcmp_firstChars_end h]
      rfl
    · rw [firstChars_cons h1, firstChars_cons h2, strcmp_cons h1 h2, firstChars_zero, firstChars_zero]
      show charDiff (c1 :: t1) (c2 :: t2) = if c1 ≠ c2 then (c1.toNat : Int) - c2.toNat else 0
      by_cases he : c1 = c2
      · rw [if_neg (not_not.mpr he), charDiff_eq_zero]
        exact he
      · rw [if_pos he]
        rfl
  | succ n ih =>
    rcases heads_cases s1 s2 with h | ⟨c1, t1, c2, t2, rfl, rfl, h1, h2⟩
    · rw [strcmp_firstChars_end h, strncmpLoop, if_neg]
      intro hb
      exact h.elim hb.1 hb.2
    · rw [strncmpLoop_cons, if_pos ⟨h1, h2⟩, firstChars_cons h1, firstChars_cons h2, strcmp_cons h1 h2, ih]
      rfl

/-- One character too many is compared. -/
theorem strncmp_eq {n : Nat} (hn : 0 < n) (s1 s2 : List UInt8) :
    strncmp s1 s2 n = strcmp (firstChars s1 (n + 1)) (firstChars s2 (n + 1)) := by
  unfold strncmp
  rw [if_neg (Nat.ne_of_gt hn), strncmpLoop_eq]

theorem strncmp_eq_zero {s1 s2 : List UInt8} {n : Nat} (hn : 0 < n) :
    strncmp s1 s2 n = 0 ↔ (cstr s1).take (n + 1) = (cstr s2).take (n + 1) := by
  rw [strncmp_eq hn, strcmp_eq_zero, cstr_firstChars, cstr_firstChars]
  rfl

/-! ## What strsep cuts off -/

theorem strsepLoop_delimiter {d : UInt8} {t : List UInt8} (h0 : 0 ∉ t) (ht : d ∉ t) (hd : d ≠ 0) (s : List UInt8) :
    strsepLoop [d] (t ++ d :: s) = (t, some s) := by
  induction t with
  | nil => simp [strsepLoop, hd]
  | cons c t ih =>
    rw [List.mem_cons, not_or] at h0 ht
    rw [List.cons_append, strsepLoop, if_neg (Ne.symm h0.1), if_neg (by simpa using Ne.symm ht.1), ih h0.2 ht.2]

theorem strsepLoop_end {d : UInt8} {t : List UInt8} (h0 : 0 ∉ t) (ht : d ∉ t) : strsepLoop [d] t = (t, none) := by
  induction t with
  | nil => rfl
  | cons c t ih =>
    rw [List.mem_cons, not_or] at h0 ht
    rw [strsepLoop, if_neg (Ne.symm h0.1), if_neg (by simpa using Ne.symm ht.1), ih h0.2 ht.2]

/-- A string without a delimiter, or its first one. -/
theorem strsepLoop_parts (delimiter s : List UInt8) :
    (strsepLoop delimiter s = (cstr s, none) ∧ ∀ c ∈ cstr s, c ∉ delimiter) ∨
      ∃ t d rest, s = t ++ d :: rest ∧ strsepLoop delimiter s = (t, some rest) ∧ d ∈ delimiter ∧
        (∀ c ∈ t, c ∉ delimiter) ∧ 0 ∉ t := by
  induction s with
  | nil => exact .inl ⟨rfl, List.forall_mem_nil _⟩
  | cons c s ih =>
    by_cases h0 : c = 0
    · rw [strsepLoop, if_pos h0, h0, cstr_zero]
      exact .inl ⟨rfl, List.forall_mem_nil _⟩
    · rw [strsepLoop, if_neg h0, cstr_cons h0]
      by_cases hd : c ∈ delimiter
      · rw [if_pos hd]
        exact .inr ⟨[], c, s, rfl, rfl, hd, List.forall_mem_nil _, List.not_mem_nil⟩
      · rw [if_neg hd]
        rcases ih with ⟨hloop, hnone⟩ | ⟨t, d, rest, rfl, hloop, hin, hnone, hzero⟩
        · rw [hloop]
          exact .inl ⟨rfl, List.forall_mem_cons.mpr ⟨hd, hnone⟩⟩
        · rw [hloop]
          refine .inr ⟨c :: t, d, rest, rfl, rfl, hin, List.forall_mem_cons.mpr ⟨hd, hnone⟩, ?_⟩
          rw [List.mem_cons, not_or]
          exact ⟨Ne.symm h0, hzero⟩

end NativeOS.Stdkern
