/-
  NativeOS.Fs.TarSize — the size field of a header (`octal2int` in `kernel/fs/tarfs/tar.c`).

  The field has twelve bytes: octal digits, and behind them spaces or NULs. `octal2int` takes
  every character for a digit until it finds a NUL. A space counts -16, and a field that ends
  in spaces alone is read on into `mktime`.

  Proved:
  * `size_field_decoded_iff` — for every field in every header block, whatever is around it:
    the value is the one written exactly if the first byte behind the digits is NUL.
  * `a_space_is_taken_for_a_digit` — "00000001750 " is not 1000.
-/

import Mathlib.RingTheory.Coprime.Lemmas
import Mathlib.Tactic.Ring
import NativeOS.Fs.TarWalk
import NativeOS.Lib.Spans

namespace NativeOS.Fs.Tar

open NativeOS.Lib

/-- A size field as it may be written. -/
structure SizeField where
  digits : List UInt8
  terminator : List UInt8
  octal : ∀ d ∈ digits, 48 ≤ d.toNat ∧ d.toNat ≤ 55
  terminates : ∀ c ∈ terminator, c = 32 ∨ c = 0
  ends : terminator ≠ []
  length : digits.length + terminator.length = 12
  value_lt : octalValue digits < 4294967296

def SizeField.bytes (f : SizeField) : List UInt8 := f.digits ++ f.terminator

/-- The field of the header block is read as its value, whatever else is in memory. -/
def DecodesSize (f : SizeField) (block : Nat) : Prop :=
  ∀ m, BytesAt m (block + sizeOffset) f.bytes → octal2int m (block + sizeOffset) = some (octalValue f.digits)

/-! ## Spaces -/

/-- What `k` spaces make of a number. -/
def afterSpaces (k v : Nat) : Nat := (List.replicate k 32).foldl octalStep v

theorem afterSpaces_zero (v : Nat) : afterSpaces 0 v = v := by
  rw [afterSpaces, List.replicate_zero, List.foldl_nil]

theorem afterSpaces_succ (k v : Nat) : afterSpaces (k + 1) v = afterSpaces k (octalStep v 32) := by
  rw [afterSpaces, List.replicate_succ, List.foldl_cons, afterSpaces]

/-- The only number that a space would leave is 16/7: the distance from it grows eightfold. -/
theorem octalStep_space (v : Nat) : (4294967296 : Int) ∣ 7 * (octalStep v 32 : Int) - 16 - 8 * (7 * v - 16) := by
  have hspace : octalStep v 32 = (v * 8 + 4294967280) % 4294967296 := rfl
  omega

theorem afterSpaces_dvd (k v : Nat) : (4294967296 : Int) ∣ 7 * (afterSpaces k v : Int) - 16 - 8 ^ k * (7 * v - 16) := by
  induction k generalizing v with
  | zero => simp [afterSpaces_zero]
  | succ k ih =>
    rw [afterSpaces_succ]
    have hsum := dvd_add (ih (octalStep v 32)) ((octalStep_space v).mul_left (8 ^ k))
    have hring : ∀ x y z : Int, 7 * x - 16 - 8 ^ k * (7 * y - 16) + 8 ^ k * (7 * y - 16 - 8 * (7 * z - 16)) =
        7 * x - 16 - 8 ^ (k + 1) * (7 * z - 16) := by
      intro x y z
      ring
    rwa [hring] at hsum

/-- A power of 8 that is not 1 moves every number but 0. -/
theorem dvd_of_dvd_pow_mul {k : Nat} (hk : 0 < k) {y : Int} (h : (4294967296 : Int) ∣ y - 8 ^ k * y) : (4294967296 : Int) ∣ y := by
  have hpow : IsCoprime ((8 : Int) ^ k) (1 - 8 ^ k) := ⟨1, 1, by ring⟩
  have htwo : IsCoprime (2 : Int) (1 - 8 ^ k) :=
    hpow.of_isCoprime_of_dvd_left (dvd_pow (by decide) (Nat.ne_of_gt hk))
  have hword : IsCoprime (4294967296 : Int) (1 - 8 ^ k) := htwo.pow_left (m := 32)
  rw [show y - 8 ^ k * y = (1 - 8 ^ k) * y by ring] at h
  exact hword.dvd_of_dvd_mul_left h

theorem afterSpaces_ne {k v : Nat} (hk : 0 < k) (hv : v < 1073741824) : afterSpaces k v ≠ v := by
  intro h
  have hmoved := afterSpaces_dvd k v
  rw [h] at hmoved
  have hfixed := dvd_of_dvd_pow_mul hk hmoved
  omega

theorem spaces_cases (l : List UInt8) (h : ∀ c ∈ l, c = 32 ∨ c = 0) :
    ∃ k, l = List.replicate k 32 ∨ ∃ rest, l = List.replicate k 32 ++ 0 :: rest := by
  induction l with
  | nil => exact ⟨0, .inl rfl⟩
  | cons c l ih =>
    rcases List.forall_mem_cons.mp h with ⟨hc, hl⟩
    rcases hc with rfl | rfl
    · obtain ⟨k, rfl | ⟨rest, rfl⟩⟩ := ih hl
      · exact ⟨k + 1, .inl rfl⟩
      · exact ⟨k + 1, .inr ⟨rest, rfl⟩⟩
    · exact ⟨0, .inr ⟨l, rfl⟩⟩

/-! ## One field -/

section Field

variable {f : SizeField} {block k : Nat} {m : Mem} {l rest : List UInt8}

theorem bytesAt_put (m : Mem) (a : Nat) (l : List UInt8) : BytesAt (put m a l) a l := fun _ hi => put_in m hi

theorem octalValue_lt (digits : List UInt8) (ho : ∀ d ∈ digits, 48 ≤ d.toNat ∧ d.toNat ≤ 55) (acc : Nat) :
    digits.foldl (fun acc d => acc * 8 + (d.toNat - 48)) acc < (acc + 1) * 8 ^ digits.length := by
  induction digits generalizing acc with
  | nil => simp
  | cons d digits ih =>
    rcases List.forall_mem_cons.mp ho with ⟨hd, ho⟩
    have hdigit : acc * 8 + (d.toNat - 48) + 1 ≤ (acc + 1) * 8 := by omega
    calc digits.foldl _ (acc * 8 + (d.toNat - 48)) < (acc * 8 + (d.toNat - 48) + 1) * 8 ^ digits.length := ih ho _
      _ ≤ (acc + 1) * 8 * 8 ^ digits.length := Nat.mul_le_mul_right _ hdigit
      _ = (acc + 1) * 8 ^ (digits.length + 1) := by rw [Nat.pow_succ, Nat.mul_assoc, Nat.mul_comm 8]

/-- Up to the first NUL, in the field or behind it. -/
theorem octal2int_bytes (hb : block + blockSize ≤ 4294967296) (hl : l.length < 24) (h0 : 0 ∉ l)
    (h : BytesAt m (block + sizeOffset) (l ++ [0])) : octal2int m (block + sizeOffset) = some (l.foldl octalStep 0) := by
  have hsize : block + 512 ≤ 4294967296 := hb
  refine octalLoop_bytes l h h0 ?_ (by omega)
  show block + 124 + l.length < 4294967296
  omega

theorem SizeField.foldl_digits (f : SizeField) (k : Nat) (l : List UInt8) :
    (f.digits ++ List.replicate k 32 ++ l).foldl octalStep 0 = l.foldl octalStep (afterSpaces k (octalValue f.digits)) := by
  have hdigits : f.digits.foldl octalStep 0 = octalValue f.digits := foldl_octalStep f.digits f.octal f.value_lt
  rw [List.foldl_append, List.foldl_append, hdigits, afterSpaces]

theorem SizeField.zero_not_mem (f : SizeField) (k : Nat) : 0 ∉ f.digits ++ List.replicate k 32 := by
  rw [List.mem_append, not_or]
  exact ⟨zero_not_mem_digits f.octal, fun h => absurd (List.eq_of_mem_replicate h) (by decide)⟩

/-- A NUL in the field, behind spaces or none. -/
theorem octal2int_nul (hb : block + blockSize ≤ 4294967296) (ht : f.terminator = List.replicate k 32 ++ 0 :: rest)
    (h : BytesAt m (block + sizeOffset) f.bytes) :
    octal2int m (block + sizeOffset) = some (afterSpaces k (octalValue f.digits)) := by
  have hlen := f.length
  rw [ht, List.length_append, List.length_replicate] at hlen
  have hfront : BytesAt m (block + sizeOffset) (f.digits ++ List.replicate k 32 ++ [0]) := by
    have hbytes : f.bytes = f.digits ++ List.replicate k 32 ++ [0] ++ rest := by
      rw [SizeField.bytes, ht]
      simp
    rw [hbytes] at h
    exact (bytesAt_append.mp h).1
  have hread := octal2int_bytes hb (by rw [List.length_append, List.length_replicate]; omega) (f.zero_not_mem k) hfront
  have hfold := f.foldl_digits k []
  rw [List.append_nil, List.foldl_nil] at hfold
  rw [hread, hfold]

/-- Spaces alone: the byte behind the field is read as a digit too. -/
theorem octal2int_behind (hb : block + blockSize ≤ 4294967296) (ht : f.terminator = List.replicate k 32) {c : UInt8} (hc : c ≠ 0) :
    octal2int (put ⟨fun _ => 0⟩ (block + sizeOffset) (f.bytes ++ [c, 0])) (block + sizeOffset) =
      some (octalStep (afterSpaces k (octalValue f.digits)) c) := by
  have hlen := f.length
  rw [ht, List.length_replicate] at hlen
  have hbytes : f.bytes ++ [c, 0] = f.digits ++ List.replicate k 32 ++ [c] ++ [0] := by
    rw [SizeField.bytes, ht, List.append_assoc _ [c]]
    rfl
  have h0 : 0 ∉ f.digits ++ List.replicate k 32 ++ [c] := by
    rw [List.mem_append, not_or, List.mem_singleton]
    exact ⟨f.zero_not_mem k, Ne.symm hc⟩
  have hread := octal2int_bytes hb (by simp; omega) h0 (bytesAt_put ⟨fun _ => 0⟩ (block + sizeOffset) _)
  rw [hbytes, hread, f.foldl_digits, List.foldl_cons, List.foldl_nil]

end Field

/-! ## Every field -/

/-- For every size field and every header block: it is read as its value, over every memory,
    exactly if the digits end in NUL. -/
theorem size_field_decoded_iff (f : SizeField) {block : Nat} (hb : block + blockSize ≤ 4294967296) :
    DecodesSize f block ↔ f.terminator.head? = some 0 := by
  have hlen := f.length
  constructor
  · intro h
    rcases spaces_cases f.terminator f.terminates with ⟨k, hspaces | ⟨rest, hnul⟩⟩
    · -- two bytes behind the field give two numbers
      have hread : ∀ c, c ≠ 0 → octalStep (afterSpaces k (octalValue f.digits)) c = octalValue f.digits := by
        intro c hc
        have hbytes := (bytesAt_append.mp (bytesAt_put ⟨fun _ => 0⟩ (block + sizeOffset) (f.bytes ++ [c, 0]))).1
        have hvalue := (octal2int_behind hb hspaces hc).symm.trans (h _ hbytes)
        exact Option.some.inj hvalue
      have hzero := hread 48 (by decide)
      have hone := hread 49 (by decide)
      have hstep : ∀ v, octalStep v 48 = (v * 8) % 4294967296 ∧ octalStep v 49 = (v * 8 + 1) % 4294967296 := by
        intro v
        have h48 : octalStep v 48 = (v * 8 + 0) % 4294967296 := rfl
        exact ⟨h48, rfl⟩
      rw [(hstep _).1] at hzero
      rw [(hstep _).2] at hone
      omega
    · cases k with
      | zero =>
        rw [hnul]
        rfl
      | succ k =>
        rw [hnul, List.length_append, List.length_replicate, List.length_cons] at hlen
        have hsmall : octalValue f.digits < 1073741824 := by
          have hdigits := octalValue_lt f.digits f.octal 0
          have hpow : 8 ^ f.digits.length ≤ 8 ^ 10 := Nat.pow_le_pow_right (by decide) (by omega)
          unfold octalValue
          omega
        have hvalue := (octal2int_nul hb hnul (bytesAt_put ⟨fun _ => 0⟩ _ _)).symm.trans (h _ (bytesAt_put _ _ _))
        exact absurd (Option.some.inj hvalue) (afterSpaces_ne (Nat.succ_pos k) hsmall)
  · intro h m hm
    cases ht : f.terminator with
    | nil => exact absurd ht f.ends
    | cons c rest =>
      rw [ht] at h
      cases h
      have hread := octal2int_nul (k := 0) hb ht hm
      rwa [afterSpaces_zero] at hread

/-- 1000, as it is written with a NUL. -/
def nulField : SizeField :=
  ⟨[48, 48, 48, 48, 48, 48, 48, 49, 55, 53, 48], [0], by simp, by simp, by decide, rfl, by decide⟩

theorem a_field_with_nul_is_decoded : DecodesSize nulField 0x200000 ↔ nulField.terminator.head? = some 0 :=
  size_field_decoded_iff nulField (by decide)

/-- 1000, as it is written with a space. -/
def spaceField : SizeField :=
  ⟨[48, 48, 48, 48, 48, 48, 48, 49, 55, 53, 48], [32], by simp, by simp, by decide, rfl, by decide⟩

/-- Even with a NUL behind the field it is read as 7984. -/
theorem a_space_is_taken_for_a_digit : ¬ DecodesSize spaceField 0x200000 := by
  intro h
  have hb : BytesAt (put ⟨fun _ => 0⟩ (0x200000 + sizeOffset) spaceField.bytes) (0x200000 + sizeOffset) (spaceField.bytes ++ [0]) := by
    decide
  have hread : octal2int (put ⟨fun _ => 0⟩ (0x200000 + sizeOffset) spaceField.bytes) (0x200000 + sizeOffset) = some 7984 :=
    octal2int_bytes (by decide) (by decide) (by decide) hb
  have hvalue := hread.symm.trans (h _ (bytesAt_put _ _ _))
  exact absurd (Option.some.inj hvalue) (by decide)

end NativeOS.Fs.Tar
