/-
  NativeOS.Stdkern.StringCopies — what `strcpy`, `strncpy` and `strdup` leave at the copy.

  `strcpy` tests `src && *src` first, and everything it does stands behind that test, the
  NUL included. An empty string is therefore not copied at all: what the destination held
  stays, and a block that `malloc` hands out a second time holds what it held. `strncpy`
  fills up with NULs behind a short string, and does not count the string's own among them.

  Proved:
  * `string_copies_iff` — in every run of the heap: the copy is the string exactly if the
    string is not empty or the first byte of the destination is NUL already.
  * `the_empty_string_is_not_copied` — a recycled block keeps its old string.
  * `strncpy_writes_iff` — for every string, length and memory: `strncpy` is exact unless the
    string is shorter than the length and the byte behind the copy was not NUL.
-/

import NativeOS.Mem.HeapProofs
import NativeOS.Stdkern.Strings

namespace NativeOS.Stdkern

open NativeOS.Lib
open NativeOS.Mem.Heap (heapAlloc Run Layout St Ev heap2M fromZero fromZero_run)

/-- `strdup`: the memory it leaves and the pointer it returns. `malloc` is `heap_alloc`. -/
def strdupAt (m : Mem) (root : Nat) (s : List UInt8) : Option (Mem × Nat) :=
  (heapAlloc m root (add32 (strlen s) 1)).map fun (m', copystr) =>
    if copystr ≠ 0 then (strcpy m' copystr s, copystr) else (m', copystr)

/-! ## What a copy should be -/

/-- The C string of `src` stands at `dst`, and nothing else was written. -/
structure Copied (m m' : Mem) (dst : Nat) (src : List UInt8) : Prop where
  string : CStringAt m' dst (cstr src)
  only : Only m m' dst (dst + (strlen src + 1))

/-- The first `len` bytes are the characters of `src` and NULs, and no other byte changes. -/
structure FilledExactly (m m' : Mem) (dst : Nat) (src : List UInt8) (len : Nat) : Prop where
  chars : ∀ i < min len (strlen src), m' (dst + i) = src.getD i 0
  zeros : ∀ i, strlen src ≤ i → i < len → m' (dst + i) = 0
  only : Only m m' dst (dst + len)

theorem only_put (m : Mem) (a : Nat) (src : List UInt8) : Only m (put m a (cstr src ++ [0])) a (a + (strlen src + 1)) := by
  intro x hx
  refine put_out m ?_
  simpa [strlen] using hx

/-! ## strcpy -/

theorem strcpy_string {m : Mem} {dst : Nat} {src : List UInt8} :
    CStringAt (strcpy m dst src) dst (cstr src) ↔ cstr src ≠ [] ∨ m dst = 0 := by
  rw [strcpy_eq]
  by_cases h : cstr src = []
  · rw [if_pos h, h, cStringAt_nil]
    simp
  · rw [if_neg h]
    exact iff_of_true (cStringAt_put m dst src) (.inl h)

theorem strcpy_only (m : Mem) (dst : Nat) (src : List UInt8) : Only m (strcpy m dst src) dst (dst + (strlen src + 1)) := by
  rw [strcpy_eq]
  by_cases h : cstr src = []
  · rw [if_pos h]
    exact fun _ _ => rfl
  · rw [if_neg h]
    exact only_put m dst src

/-- What a reader finds at the copy is what `strdup` says of it. -/
theorem strcpy_reads (m : Mem) (dst : Nat) {src : List UInt8} {n : Nat} (hn : strlen src < n) :
    cstr (slice (strcpy m dst src) dst n) = cstr (strdup (slice m dst n) src) := by
  unfold strdup
  by_cases h : cstr src = []
  · rw [strcpy_eq, if_pos h, if_neg (not_not.mpr (cstr_eq_nil.mp h))]
  · rw [(strcpy_string.mpr (.inl h)).cstr_eq hn, if_pos fun h0 => h (cstr_eq_nil.mpr h0)]
    exact (cstr_of_no_zero (zero_not_mem_cstr src)).symm

/-! ## strncpy -/

/-- For every memory, destination, string and length: the copy is exact if the string fills it,
    or if the NUL too much changes nothing, and only then. -/
theorem strncpy_writes_iff (m : Mem) (dst : Nat) (src : List UInt8) (len : Nat) :
    FilledExactly m (strncpy m dst src len) dst src len ↔ len ≤ strlen src ∨ m (dst + len) = 0 := by
  have hinside : ∀ i < len, strncpy m dst src len (dst + i) = (cstr src).getD i 0 := by
    intro i hi
    rw [strncpy_byte, if_pos (by omega), Nat.add_sub_cancel_left]
  have hbehind : strlen src < len → strncpy m dst src len (dst + len) = 0 := by
    intro hs
    rw [strncpy_byte, if_neg (by omega), if_pos ⟨rfl, hs⟩]
  constructor
  · intro h
    by_cases hs : len ≤ strlen src
    · exact .inl hs
    · have hkept : strncpy m dst src len (dst + len) = m (dst + len) := h.only _ (.inr (Nat.le_refl _))
      rw [hbehind (Nat.lt_of_not_le hs)] at hkept
      exact .inr hkept.symm
  · intro h
    refine ⟨?_, ?_, ?_⟩
    · intro i hi
      rw [hinside i (by omega), cstr_getD (by omega)]
    · intro i hs hi
      rw [hinside i hi]
      exact List.getD_eq_default _ _ hs
    · intro x hx
      by_cases hnul : x = dst + len ∧ strlen src < len
      · rw [hnul.1, hbehind hnul.2]
        exact (h.resolve_left (Nat.not_le_of_lt hnul.2)).symm
      · rw [strncpy_byte, if_neg (by omega), if_neg hnul]

/-- Of "ab" into three bytes, a fourth is written. -/
theorem a_short_string_writes_one_more :
    ¬ FilledExactly ⟨fun _ => 120⟩ (strncpy ⟨fun _ => 120⟩ 0x1000 [97, 98, 0] 3) 0x1000 [97, 98, 0] 3 := by
  intro h
  exact absurd (h.only 0x1003 (.inr (by decide))) (by decide)

/-! ## strdup -/

section Strdup

open NativeOS.Mem.Heap

variable {L : Layout} {st : St} {bs : List Blk} {m' : Mem} {size p : Nat}

/-- `heap_alloc` writes control blocks only: the first byte of the buffer is the old one. -/
theorem alloc_first_byte (hi : Inv L st bs) (hsize : 0 < size) (h : heapAlloc st.mem st.root size = some (m', p))
    (hp : p ≠ 0) : m' p = st.mem p := by
  rw [hi.root, heapAlloc_find hi.rep size] at h
  cases hf : bs.find? (Blk.fits size) with
  | none =>
    rw [hf] at h
    cases h
    exact absurd rfl hp
  | some b =>
    obtain ⟨hfit, pre, post, rfl, -⟩ := List.find?_eq_some_iff_append.mp hf
    have hfits : b.used = false ∧ size ≤ b.size := by simpa [Blk.fits] using hfit
    simp only [hf] at h
    by_cases hs : b.size ≤ size + 21
    · rw [takeBlock_whole hi.rep hfits.2 hs] at h
      cases h
      exact st32_ne _ _ (by omega)
    · rw [takeBlock_split hi.rep (by omega)] at h
      cases h
      simp (disch := omega) only [splitMem, Blk.high, setStatus, setMagic, setSize, setPrev, setNext, st32_ne]

theorem strdupAt_some {s : List UInt8} (h : strdupAt st.mem st.root s = some (m', p)) (hp : p ≠ 0) :
    ∃ m1, heapAlloc st.mem st.root (add32 (strlen s) 1) = some (m1, p) ∧ m' = strcpy m1 p s := by
  unfold strdupAt at h
  rw [Option.map_eq_some_iff] at h
  obtain ⟨⟨m1, p1⟩, h1, h2⟩ := h
  dsimp only at h2
  split at h2
  · cases h2
    exact ⟨m1, h1, rfl⟩
  · next hz =>
    cases h2
    exact absurd hp hz

theorem strdup_string (hr : Run L h st) {s : List UInt8} (hs : strdupAt st.mem st.root s = some (m', p)) (hp : p ≠ 0) :
    CStringAt m' p (cstr s) ↔ cstr s ≠ [] ∨ st.mem p = 0 := by
  obtain ⟨bs, hi⟩ := run_inv hr
  obtain ⟨m1, halloc, hcopy⟩ := strdupAt_some hs hp
  rw [hcopy, strcpy_string]
  by_cases h0 : cstr s = []
  · have hsize : 0 < add32 (strlen s) 1 := by
      unfold strlen
      rw [h0]
      decide
    rw [alloc_first_byte hi hsize halloc hp]
  · exact iff_of_true (.inl h0) (.inl h0)

end Strdup

/-! ## Every copy -/

/-- The copy is the string, and no more than its length and a NUL was written, exactly for
    a string that is not empty or a destination that begins with NUL; a duplicate is the
    string exactly then, whatever the heap's memory held. -/
theorem string_copies_iff {L : Layout} {h : List (St × Ev)} {st : St} (hr : Run L h st) :
    (∀ m dst src, Copied m (strcpy m dst src) dst src ↔ cstr src ≠ [] ∨ m dst = 0) ∧
      ∀ s m' p, strdupAt st.mem st.root s = some (m', p) → p ≠ 0 →
        (CStringAt m' p (cstr s) ↔ cstr s ≠ [] ∨ st.mem p = 0) := by
  constructor
  · intro m dst src
    constructor
    · intro hc
      exact strcpy_string.mp hc.string
    · intro hc
      exact ⟨strcpy_string.mpr hc, strcpy_only m dst src⟩
  · intro s m' p hs hp
    exact strdup_string hr hs hp

/-- A buffer whose first byte was written before it was freed. -/
def writtenBuffer : List Ev := [.alloc 10, .write 0x200014 0 97, .free 0x200014]

/-- On the recycled block a string of one character is copied. -/
theorem a_recycled_block_takes_a_string : ∃ h st m' p, Run heap2M h st ∧ strdupAt st.mem st.root [98] = some (m', p) ∧
    st.mem p = 97 ∧ CStringAt m' p [98] := by
  have hr := fromZero_run writtenBuffer (by decide +kernel)
  have hsome : (strdupAt ((fromZero writtenBuffer).get (by decide +kernel)).2.mem
    ((fromZero writtenBuffer).get (by decide +kernel)).2.root [98]).isSome = true := by decide +kernel
  have hs := (Option.some_get hsome).symm
  exact ⟨_, _, _, _, hr, hs, by decide +kernel,
    ((string_copies_iff hr).2 [98] _ _ hs (by decide +kernel)).mpr (.inl (by decide))⟩

/-- The empty string is not copied over an "a", and its duplicate on the recycled block is
    what the block held. -/
theorem the_empty_string_is_not_copied :
    ¬ Copied ⟨fun _ => 97⟩ (strcpy ⟨fun _ => 97⟩ 0x1000 []) 0x1000 [] ∧
      ∃ h st m' p, Run heap2M h st ∧ strdupAt st.mem st.root [] = some (m', p) ∧ p ≠ 0 ∧ ¬ CStringAt m' p [] := by
  constructor
  · intro h
    exact absurd h.string.ends (by decide)
  · have hr := fromZero_run writtenBuffer (by decide +kernel)
    have hsome : (strdupAt ((fromZero writtenBuffer).get (by decide +kernel)).2.mem
      ((fromZero writtenBuffer).get (by decide +kernel)).2.root []).isSome = true := by decide +kernel
    refine ⟨_, _, _, _, hr, (Option.some_get hsome).symm, by decide +kernel, ?_⟩
    intro h
    have hend := h.ends
    revert hend
    decide +kernel

end NativeOS.Stdkern
