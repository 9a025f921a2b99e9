/-
  NativeOS.Mem.Paging — the kernel's page directory (`kernel/i386/i386/paging.c`).

  1024 entries of 4 MiB pages. The processor takes entry `v >> 22` for the address `v`, the
  frame from the entry's top ten bits and the offset from the low 22 bits of `v`. The lower
  half of the addresses maps to itself; the upper half is to show the same 2 GiB again, but
  its loop shifts the page's number by 2 where the lower half's loop shifts it by 22.

  Proved:
  * `virtualMemoryInit_entry` — what every entry holds, whatever the directory held before.
  * `mirrored_iff` — an address is translated and flagged as meant exactly below 2^31 + 2^22.
  * `upper_half_is_page_zero` — the whole upper half shows the first 4 MiB, over and over.
-/

import Mathlib.Data.Nat.Bitwise
import Mathlib.Logic.Function.Basic
import NativeOS.Lib.Bytes

namespace NativeOS.Mem.Paging

open NativeOS.Lib

/-! ## paging.c -/

/-- Present, writable, and a page of 4 MiB. -/
def pageFlags : Nat := 0x83

/-- The directory: its 1024 words by index. -/
abbrev Directory := Nat → Nat

/-- `(i << 22) | 0x83`, in 32 bits. -/
def lowerEntry (i : Nat) : Nat := (i <<< 22) % 4294967296 ||| pageFlags

/-- `((i - 512) << 2) | 0x83`, in 32 bits. -/
def upperEntry (i : Nat) : Nat := ((i - 512) <<< 2) % 4294967296 ||| pageFlags

/-- `kernel_page_directory[i] = entry(i)` for the next `turns` indices. -/
def fillLoop (entry : Nat → Nat) : Nat → Nat → Directory → Directory
  | 0, _, dir => dir
  | turns + 1, i, dir => fillLoop entry turns (i + 1) (Function.update dir i (entry i))

def virtualMemoryInit (dir : Directory) : Directory :=
  fillLoop upperEntry (1024 - 512) 512 (fillLoop lowerEntry (512 - 0) 0 dir)

/-! ## The processor -/

def pageIndex (v : Nat) : Nat := v >>> 22
def pageOffset (v : Nat) : Nat := v &&& 0x3FFFFF
def entryFrame (entry : Nat) : Nat := entry >>> 22
def entryFlags (entry : Nat) : Nat := entry &&& 0xFFF

def translate (dir : Directory) (v : Nat) : Nat := entryFrame (dir (pageIndex v)) <<< 22 ||| pageOffset v

/-- Memory as the processor sees it with paging on. -/
def enablePaging (dir : Directory) (m : Mem) : Mem := ⟨fun v => m (translate dir v)⟩

/-- `v` shows the byte at its address in the lower 2 GiB, through an entry with the right flags. -/
def Mirrored (dir : Directory) (v : Nat) : Prop :=
  translate dir v = v % 2 ^ 31 ∧ entryFlags (dir (pageIndex v)) = pageFlags

/-! ## The loops -/

theorem fillLoop_apply (entry : Nat → Nat) (turns i : Nat) (dir : Directory) (k : Nat) :
    fillLoop entry turns i dir k = if i ≤ k ∧ k < i + turns then entry k else dir k := by
  induction turns generalizing i dir with
  | zero => rw [fillLoop, if_neg (by omega)]
  | succ turns ih =>
    rw [fillLoop, ih]
    by_cases he : k = i
    · subst he
      simp
    · rw [Function.update_of_ne he]
      simp only [show (i + 1 ≤ k ∧ k < i + 1 + turns) ↔ (i ≤ k ∧ k < i + (turns + 1)) by omega]

/-- Each entry is written by exactly one of the two loops. -/
theorem virtualMemoryInit_entry (dir : Directory) {i : Nat} (hi : i < 1024) :
    virtualMemoryInit dir i = if i < 512 then lowerEntry i else upperEntry i := by
  unfold virtualMemoryInit
  rw [fillLoop_apply, fillLoop_apply]
  by_cases hlo : i < 512
  · rw [if_neg (by omega), if_pos (by omega), if_pos hlo]
  · rw [if_pos (by omega), if_neg hlo]

/-! ## The fields of an entry -/

theorem page_or_low (f : Nat) {low : Nat} (h : low < 2 ^ 22) : f <<< 22 ||| low = 2 ^ 22 * f + low := by
  rw [Nat.shiftLeft_eq, Nat.mul_comm, Nat.two_pow_add_eq_or_of_lt h]

theorem pageOffset_eq (v : Nat) : pageOffset v = v % 2 ^ 22 := Nat.and_two_pow_sub_one_eq_mod v 22

theorem entryFlags_eq (e : Nat) : entryFlags e = e % 2 ^ 12 := Nat.and_two_pow_sub_one_eq_mod e 12

theorem entryFrame_eq (e : Nat) : entryFrame e = e / 2 ^ 22 := Nat.shiftRight_eq_div_pow e 22

theorem pageIndex_eq (v : Nat) : pageIndex v = v / 2 ^ 22 := Nat.shiftRight_eq_div_pow v 22

theorem translate_eq (dir : Directory) (v : Nat) :
    translate dir v = 2 ^ 22 * (dir (pageIndex v) / 2 ^ 22) + v % 2 ^ 22 := by
  unfold translate
  rw [entryFrame_eq, pageOffset_eq, page_or_low _ (Nat.mod_lt v (by simp))]

theorem lowerEntry_eq {i : Nat} (hi : i < 512) : lowerEntry i = 2 ^ 22 * i + pageFlags := by
  unfold lowerEntry
  have hlt : i <<< 22 < 4294967296 := by rw [Nat.shiftLeft_eq]; omega
  rw [Nat.mod_eq_of_lt hlt, page_or_low i (by simp [pageFlags])]

/-- The shifted number stays below the frame field. -/
theorem upperEntry_lt {i : Nat} (hi : i < 1024) : upperEntry i < 2 ^ 12 := by
  unfold upperEntry
  refine Nat.or_lt_two_pow (n := 12) ?_ (by simp [pageFlags])
  rw [Nat.shiftLeft_eq]
  omega

/-! ## What the addresses show -/

theorem lower_half_identity (dir : Directory) {v : Nat} (hv : v < 2 ^ 31) : Mirrored (virtualMemoryInit dir) v := by
  have hi : pageIndex v < 512 := by rw [pageIndex_eq]; omega
  unfold Mirrored
  rw [translate_eq, entryFlags_eq, virtualMemoryInit_entry dir (by omega), if_pos hi, lowerEntry_eq hi, pageIndex_eq]
  have hf : pageFlags = 131 := rfl
  omega

/-- Paging changes nothing below 2 GiB. -/
theorem enablePaging_low (dir : Directory) (m : Mem) {v : Nat} (hv : v < 2 ^ 31) :
    enablePaging (virtualMemoryInit dir) m v = m v := by
  obtain ⟨htranslate, -⟩ := lower_half_identity dir hv
  show m (translate (virtualMemoryInit dir) v) = m v
  rw [htranslate, Nat.mod_eq_of_lt hv]

/-- Two addresses of the upper half a multiple of 4 MiB apart are the same byte. -/
theorem upper_half_is_page_zero (dir : Directory) {v : Nat} (h : 2 ^ 31 ≤ v) (hv : v < 2 ^ 32) :
    translate (virtualMemoryInit dir) v = v % 2 ^ 22 := by
  have hi : pageIndex v < 1024 := by rw [pageIndex_eq]; omega
  have hlo : ¬ pageIndex v < 512 := by rw [pageIndex_eq]; omega
  have hlt := upperEntry_lt hi
  rw [translate_eq, virtualMemoryInit_entry dir hi, if_neg hlo]
  omega

/-- The directory mirrors memory up to the first page of the upper half, and no further:
    from there on the frame is wrong, whatever the flags are. -/
theorem mirrored_iff (dir : Directory) {v : Nat} (hv : v < 2 ^ 32) :
    Mirrored (virtualMemoryInit dir) v ↔ v < 2 ^ 31 + 2 ^ 22 := by
  by_cases hlow : v < 2 ^ 31
  · exact ⟨fun _ => by omega, fun _ => lower_half_identity dir hlow⟩
  · have ht := upper_half_is_page_zero dir (by omega) hv
    constructor
    · intro h
      obtain ⟨hm, -⟩ := h
      rw [ht] at hm
      omega
    · intro h
      have h512 : pageIndex v = 512 := by rw [pageIndex_eq]; omega
      refine ⟨by rw [ht]; omega, ?_⟩
      rw [h512, virtualMemoryInit_entry dir (by omega)]
      rfl

theorem first_upper_page_is_mirrored : Mirrored (virtualMemoryInit fun _ => 0) 0x80000004 :=
  (mirrored_iff (fun _ => 0) (by decide)).mpr (by decide)

/-- The second page of the upper half shows the first page of memory, and its entry has a
    bit of the page's number among its flags. -/
theorem second_upper_page_shows_the_first : ¬ Mirrored (virtualMemoryInit fun _ => 0) 0x80400000 ∧
    translate (virtualMemoryInit fun _ => 0) 0x80400000 = 0 ∧
    entryFlags (virtualMemoryInit (fun _ => 0) (pageIndex 0x80400000)) = 0x87 := by
  refine ⟨?_, upper_half_is_page_zero _ (by decide) (by decide), ?_⟩
  · intro h
    obtain ⟨hm, -⟩ := h
    rw [upper_half_is_page_zero _ (by decide) (by decide)] at hm
    simp at hm
  · rw [virtualMemoryInit_entry _ (by decide)]
    rfl

end NativeOS.Mem.Paging
