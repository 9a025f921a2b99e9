/-
  NativeOS.Kern.Ramdisk — finding the ramdisk (`ramdisk_init` in `kernel/kern/kern_main.c`).

  The loop goes over the modules that the boot loader reports, `i` counting them, and mounts
  the one whose string is "ramdisk". It compares the string of module 0 each time: the first
  turn decides, and the others repeat it.

  Proved:
  * `mounts_ramdisk_iff` — over every list of modules, the ramdisk is mounted as it should be
    exactly if it is the first module or there is none.
  * `bootFs_first` — then what follows is one `vfs_mount` of that module.
  * `a_ramdisk_behind_another_module_is_missed`.
-/

import NativeOS.Fs.TarBounds
import NativeOS.Kern.Vfs

namespace NativeOS.Kern

open NativeOS.Stdkern
open NativeOS.Fs.Tar (BootModule)

/-! ## kern_main.c -/

/-- `multiboot_module_t`, with the bytes its string points to. -/
structure MultibootModule extends BootModule where
  string : List UInt8

/-- "ramdisk". -/
def ramdiskString : List UInt8 := [114, 97, 109, 100, 105, 115, 107]

/-- "INITRD". -/
def initrdName : List UInt8 := [73, 78, 73, 84, 82, 68]

/-- A call of `vfs_mount`. -/
structure MountCall where
  driver : List UInt8
  name : List UInt8
  argp : Nat
  deriving DecidableEq

def modString (mods : List MultibootModule) (i : Nat) : List UInt8 := (mods[i]?).elim [] (·.string)

def modStart (mods : List MultibootModule) (i : Nat) : Nat := (mods[i]?).elim 0 (·.modStart)

/-- The calls made by the turns from `i` on, `turns` of them. -/
def ramdiskLoop (mods : List MultibootModule) : Nat → Nat → List MountCall
  | 0, _ => []
  | turns + 1, i =>
    if strcmp ramdiskString (modString mods 0) = 0 then [⟨Family.tarfs.ident, initrdName, modStart mods i⟩]
    else ramdiskLoop mods turns (i + 1)

def ramdiskInit (mods : List MultibootModule) : List MountCall := ramdiskLoop mods mods.length 0

/-- The file system after `ramdisk_init`. -/
def bootFs (answers : MountAnswers) (s : Fs) (mods : List MultibootModule) : Option Fs :=
  (ramdiskInit mods).foldlM (fun s call => (vfsMount answers s call.driver call.name call.argp).map (·.1)) s

/-! ## What it should do -/

def MultibootModule.IsRamdisk (mod : MultibootModule) : Prop := cstr mod.string = ramdiskString

instance : DecidablePred MultibootModule.IsRamdisk := fun mod => inferInstanceAs (Decidable (cstr mod.string = ramdiskString))

/-- One call with the start of the first module that is the ramdisk, and none without one. -/
def MountsRamdisk (mods : List MultibootModule) : Prop :=
  ramdiskInit mods = ((mods.find? fun mod => decide mod.IsRamdisk).map fun mod =>
    ⟨Family.tarfs.ident, initrdName, mod.modStart⟩).toList

/-! ## What it does -/

section Loop

variable {mod : MultibootModule} {mods : List MultibootModule}

theorem isRamdisk_iff : strcmp ramdiskString mod.string = 0 ↔ mod.IsRamdisk := by
  rw [strcmp_eq_zero]
  exact eq_comm

/-- Every turn that comes asks about the first module again. -/
theorem ramdiskLoop_other (h : ¬ mod.IsRamdisk) (turns i : Nat) : ramdiskLoop (mod :: mods) turns i = [] := by
  induction turns generalizing i with
  | zero => rfl
  | succ turns ih =>
    have hno : ¬ strcmp ramdiskString (modString (mod :: mods) 0) = 0 := fun he => h (isRamdisk_iff.mp he)
    rw [ramdiskLoop, if_neg hno, ih]

theorem ramdiskInit_cons (mod : MultibootModule) (mods : List MultibootModule) :
    ramdiskInit (mod :: mods) = if mod.IsRamdisk then [⟨Family.tarfs.ident, initrdName, mod.modStart⟩] else [] := by
  by_cases h : mod.IsRamdisk
  · have hyes : strcmp ramdiskString (modString (mod :: mods) 0) = 0 := isRamdisk_iff.mpr h
    rw [ramdiskInit, List.length_cons, ramdiskLoop, if_pos hyes, if_pos h]
    rfl
  · rw [if_neg h]
    exact ramdiskLoop_other h _ 0

/-- The one call, made. -/
theorem bootFs_first (answers : MountAnswers) (s : Fs) (h : mod.IsRamdisk) :
    bootFs answers s (mod :: mods) = (vfsMount answers s Family.tarfs.ident initrdName mod.modStart).map (·.1) := by
  rw [bootFs, ramdiskInit_cons, if_pos h, List.foldlM_cons]
  cases vfsMount answers s Family.tarfs.ident initrdName mod.modStart <;> rfl

end Loop

/-- Any list of modules. -/
theorem mounts_ramdisk_iff (mods : List MultibootModule) :
    MountsRamdisk mods ↔ (∃ mod rest, mods = mod :: rest ∧ mod.IsRamdisk) ∨ ∀ mod ∈ mods, ¬ mod.IsRamdisk := by
  unfold MountsRamdisk
  cases mods with
  | nil => simp [ramdiskInit, ramdiskLoop]
  | cons mod mods =>
    rw [ramdiskInit_cons]
    by_cases h : mod.IsRamdisk
    · rw [if_pos h, List.find?_cons_of_pos (by simpa using h)]
      exact iff_of_true rfl (.inl ⟨mod, mods, rfl, h⟩)
    · rw [if_neg h, List.find?_cons_of_neg (by simpa using h)]
      constructor
      · intro hnone
        refine .inr (List.forall_mem_cons.mpr ⟨h, ?_⟩)
        cases hf : mods.find? fun mod => decide mod.IsRamdisk with
        | none => simpa using hf
        | some found =>
          rw [hf] at hnone
          cases hnone
      · intro hall
        rcases hall with ⟨first, rest, he, hram⟩ | hall
        · cases he
          exact absurd hram h
        · have hnone : (mods.find? fun mod => decide mod.IsRamdisk) = none := by
            rw [List.find?_eq_none]
            intro other hmem
            simpa using hall other (List.mem_cons_of_mem _ hmem)
          rw [hnone]
          rfl

/-- A module of 64 KiB at 1 MiB, or at 2 MiB. -/
def symbolsModule : MultibootModule := ⟨⟨0x100000, 0x110000, by decide, by decide⟩, [115, 121, 109, 115]⟩

def ramdiskModule : MultibootModule := ⟨⟨0x200000, 0x210000, by decide, by decide⟩, ramdiskString⟩

/-- Behind another module the ramdisk is not found; before it, it is. -/
theorem a_ramdisk_behind_another_module_is_missed : ramdiskInit [symbolsModule, ramdiskModule] = [] ∧
    ¬ MountsRamdisk [symbolsModule, ramdiskModule] ∧
    ramdiskInit [ramdiskModule, symbolsModule] = [⟨Family.tarfs.ident, initrdName, 0x200000⟩] := by
  have hnone : ramdiskInit [symbolsModule, ramdiskModule] = [] := by decide
  refine ⟨hnone, ?_, by decide⟩
  intro h
  rw [MountsRamdisk, hnone] at h
  exact absurd h (by decide)

end NativeOS.Kern
