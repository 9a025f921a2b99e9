/-
  NativeOS.Fs.TarBounds — how far the header walk goes in a damaged image.

  `ramdisk_init` passes on where the module starts and nothing else: `mod_end` is read by
  no function of the mount. So the walk is held by the image alone. It goes from header to
  header by the size fields, 32 bits round the address space, until a name begins with NUL.
  What it does at a block depends on nothing that came before, so a walk that ends comes to
  no block twice (`Lib.Walk`), and the fuel of `walkLoop` is more than it takes.

  Proved:
  * `walk_stays_inside_iff` — over every content of memory and every module.

  As built: a size field of 37777777000 sends the walk back to the block it is at
  (`a_damaged_size_field_never_ends`); a module without its last block is read past its end
  (`a_cut_image_is_read_past_its_end`).
-/

import NativeOS.Lib.Walk
import NativeOS.Fs.TarWalk

namespace NativeOS.Fs.Tar

open NativeOS.Lib
open NativeOS.Stdkern

/-- Where the boot loader put a module (`multiboot_module_t`). -/
structure BootModule where
  modStart : Nat
  modEnd : Nat
  le : modStart ≤ modEnd
  fits : modEnd < 4294967296

/-- The header block at `b` lies in the module. -/
def BootModule.Holds (mod : BootModule) (b : Nat) : Prop := mod.modStart ≤ b ∧ b + blockSize ≤ mod.modEnd

/-! ## The blocks examined -/

/-- `walkLoop`, with the header blocks it examines before what it leaves. -/
def examineLoop (m : Mem) (buf : Nat) (malloc : Nat → Nat × Nat) : Nat → Nat → Nat → Payload → List Nat × Option Payload
  | 0, _, _, _ => ([], none)
  | fuel + 1, i, bx, tar =>
    let block := add32 buf (blockSize * bx)
    if m block = 0 then ([block], some tar)
    else match octal2int m (add32 block sizeOffset) with
      | none => ([block], none)
      | some fileLength =>
        let bx1 := add32 bx (add32 (fileLength / 512) 1)
        let rest := examineLoop m buf malloc fuel (i + 1) (if fileLength % 512 ≠ 0 then add32 bx1 1 else bx1)
          (decodeBlock tar block (malloc i))
        (block :: rest.1, rest.2)

def headersExamined (m : Mem) (buf : Nat) (malloc : Nat → Nat × Nat) (tar : Payload) : List Nat :=
  (examineLoop m buf malloc 4294967296 0 0 tar).1

/-- The log is one of the walk itself. -/
theorem examineLoop_snd (m : Mem) (buf : Nat) (malloc : Nat → Nat × Nat) (fuel i bx : Nat) (tar : Payload) :
    (examineLoop m buf malloc fuel i bx tar).2 = walkLoop m buf malloc fuel i bx tar := by
  induction fuel generalizing i bx tar with
  | zero => rfl
  | succ fuel ih =>
    rw [examineLoop, walkLoop]
    by_cases hend : m (add32 buf (blockSize * bx)) = 0
    · simp only [if_pos hend]
    · cases hlen : octal2int m (add32 (add32 buf (blockSize * bx)) sizeOffset) with
      | none => simp [hend]
      | some fileLength => simp only [hend, if_false, Option.bind_eq_bind, Option.bind_some, ih]

/-- The header behind the one at `a`: as many blocks on as the size field says the content
    takes, modulo 2^32. `none` if the field never ends. -/
def nextHeader (m : Mem) (a : Nat) : Option Nat :=
  (octal2int m (add32 a sizeOffset)).map fun size => (a + 512 * (1 + (size + 511) / 512)) % 4294967296

/-- From header to header to one without a name. -/
abbrev HeaderWalk (m : Mem) : Nat → List Nat → Prop := Walk (fun a => m a = 0) (nextHeader m)

/-- `bx` moves to the next header, whatever it wraps around. -/
theorem next_block (buf bx size : Nat) :
    add32 buf (blockSize * (if size % 512 ≠ 0 then add32 (add32 bx (add32 (size / 512) 1)) 1
      else add32 bx (add32 (size / 512) 1))) =
      (add32 buf (blockSize * bx) + 512 * (1 + (size + 511) / 512)) % 4294967296 := by
  simp only [add32]
  show (buf + 512 * _) % 4294967296 = ((buf + 512 * bx) % 4294967296 + _) % 4294967296
  split <;> omega

theorem examineLoop_isSome {m : Mem} {buf : Nat} {malloc : Nat → Nat × Nat} {fuel i bx : Nat} {tar : Payload}
    (h : (examineLoop m buf malloc fuel i bx tar).2.isSome) :
    HeaderWalk m (add32 buf (blockSize * bx)) (examineLoop m buf malloc fuel i bx tar).1 := by
  induction fuel generalizing i bx tar with
  | zero => simp [examineLoop] at h
  | succ fuel ih =>
    rw [examineLoop] at h ⊢
    by_cases hend : m (add32 buf (blockSize * bx)) = 0
    · simp only [if_pos hend]
      exact .last hend
    · cases hlen : octal2int m (add32 (add32 buf (blockSize * bx)) sizeOffset) with
      | none => simp [hend, hlen] at h
      | some size =>
        simp only [hend, hlen, if_false] at h ⊢
        have hrest := ih h
        rw [next_block] at hrest
        exact .step hend (by rw [nextHeader, hlen]; rfl) hrest

theorem examineLoop_of_walk {m : Mem} {buf : Nat} {malloc : Nat → Nat × Nat} {fuel i bx : Nat} {tar : Payload} {bs : List Nat}
    (h : HeaderWalk m (add32 buf (blockSize * bx)) bs) (hfuel : bs.length ≤ fuel) :
    (examineLoop m buf malloc fuel i bx tar).2.isSome := by
  induction fuel generalizing i bx tar bs with
  | zero =>
    obtain rfl := List.length_eq_zero_iff.mp (Nat.le_zero.mp hfuel)
    exact absurd h.mem_head List.not_mem_nil
  | succ fuel ih =>
    rw [examineLoop]
    cases h with
    | last hend => simp only [if_pos hend, Option.isSome_some]
    | @step _ b l hend hnext hw =>
      obtain ⟨size, hlen, hb⟩ := Option.map_eq_some_iff.mp hnext
      simp only [hend, hlen, if_false]
      refine ih ?_ (Nat.le_of_succ_le_succ hfuel)
      rw [next_block, hb]
      exact hw

theorem nextHeader_lt {m : Mem} {a b : Nat} (h : nextHeader m a = some b) : b < 4294967296 := by
  obtain ⟨size, -, rfl⟩ := Option.map_eq_some_iff.mp h
  exact Nat.mod_lt _ (by decide)

theorem headerWalk_lt {m : Mem} {a : Nat} {bs : List Nat} (h : HeaderWalk m a bs) (ha : a < 4294967296) :
    ∀ b ∈ bs, b < 4294967296 := by
  induction h with
  | last _ => simpa using ha
  | step _ hn _ ih => exact List.forall_mem_cons.mpr ⟨ha, ih (nextHeader_lt hn)⟩

theorem add32_first {buf : Nat} (hbuf : buf < 4294967296) : add32 buf (blockSize * 0) = buf := Nat.mod_eq_of_lt hbuf

/-- A walk that ends has examined the headers of a `HeaderWalk`. -/
theorem headerWalk_of_isSome {m : Mem} {buf : Nat} {malloc : Nat → Nat × Nat} {tar : Payload} (hbuf : buf < 4294967296)
    (h : (walkHeaders m buf malloc tar).isSome) : HeaderWalk m buf (headersExamined m buf malloc tar) := by
  rw [walkHeaders, ← examineLoop_snd] at h
  have hw := examineLoop_isSome h
  rwa [add32_first hbuf] at hw

/-- And where there is a `HeaderWalk` the fuel is enough: no two of its blocks are the same. -/
theorem isSome_of_headerWalk {m : Mem} {buf : Nat} {bs : List Nat} (hbuf : buf < 4294967296) (h : HeaderWalk m buf bs)
    (malloc : Nat → Nat × Nat) (tar : Payload) : (walkHeaders m buf malloc tar).isSome := by
  rw [walkHeaders, ← examineLoop_snd]
  refine examineLoop_of_walk ?_ (h.length_le (headerWalk_lt h hbuf))
  rwa [add32_first hbuf]

/-! ## Staying inside -/

/-- Whatever memory holds: the walk over a module ends and examines no header block outside it
    exactly when the size fields lead from its start, without leaving it, to a header with an
    empty name. -/
theorem walk_stays_inside_iff (m : Mem) (mod : BootModule) (malloc : Nat → Nat × Nat) (tar : Payload) :
    ((walkHeaders m mod.modStart malloc tar).isSome ∧ ∀ b ∈ headersExamined m mod.modStart malloc tar, mod.Holds b) ↔
      ∃ bs, HeaderWalk m mod.modStart bs ∧ ∀ b ∈ bs, mod.Holds b := by
  have hstart : mod.modStart < 4294967296 := Nat.lt_of_le_of_lt mod.le mod.fits
  constructor
  · rintro ⟨hends, hin⟩
    exact ⟨_, headerWalk_of_isSome hstart hends, hin⟩
  · rintro ⟨bs, hw, hin⟩
    have hends := isSome_of_headerWalk hstart hw malloc tar
    -- there is only one walk from the start
    obtain rfl := (headerWalk_of_isSome hstart hends).unique hw
    exact ⟨hends, hin⟩

/-- A module of one block at 1 MiB. -/
def oneBlock : BootModule := ⟨0x100000, 0x100200, by decide, by decide⟩

/-- One header, for 2^32 - 512 bytes. -/
def damagedSize : Mem :=
  ⟨fun x => if x = 0x100000 then 97
    else if 0x10007C ≤ x then ([51, 55, 55, 55, 55, 55, 55, 55, 48, 48, 48] : List UInt8).getD (x - 0x10007C) 0 else 0⟩

theorem damagedSize_next : nextHeader damagedSize 0x100000 = some 0x100000 := by
  have hoctal : ([51, 55, 55, 55, 55, 55, 55, 55, 48, 48, 48] : List UInt8).all
      (fun d => decide (48 ≤ d.toNat ∧ d.toNat ≤ 55)) = true := by decide
  have hsize : octal2int damagedSize 0x10007C = some 4294966784 :=
    octalLoop_digits [51, 55, 55, 55, 55, 55, 55, 55, 48, 48, 48] (by decide)
      (fun d hd => of_decide_eq_true (List.all_eq_true.mp hoctal d hd)) (by decide) (by decide) (by decide)
  have hfield : add32 0x100000 sizeOffset = 0x10007C := rfl
  rw [nextHeader, hfield, hsize]
  rfl

/-- The next header is the same header, and so is the one after it. -/
theorem a_damaged_size_field_never_ends :
    walkHeaders damagedSize oneBlock.modStart upwards ⟨LinkedList.emptyList, fun _ => ⟨0, 0⟩⟩ = none := by
  rw [← Option.not_isSome_iff_eq_none]
  intro h
  have hw := headerWalk_of_isSome (by decide) h
  exact Walk.not_loop damagedSize_next (by decide) hw

/-- One header for an empty file, and zeros behind it. -/
def cutImage : Mem := ⟨fun x => if x = 0x100000 then 97 else 0⟩

theorem a_cut_image_is_read_past_its_end :
    headersExamined cutImage oneBlock.modStart upwards ⟨LinkedList.emptyList, fun _ => ⟨0, 0⟩⟩ = [0x100000, 0x100200] ∧
      ¬ oneBlock.Holds 0x100200 := by
  have hnext : nextHeader cutImage 0x100000 = some 0x100200 := by
    have hsize : octal2int cutImage 0x10007C = some 0 :=
      octalLoop_digits [] (by decide) (List.forall_mem_nil _) (by decide) (by decide) (by decide)
    have hfield : add32 0x100000 sizeOffset = 0x10007C := rfl
    rw [nextHeader, hfield, hsize]
    rfl
  have hw : HeaderWalk cutImage 0x100000 [0x100000, 0x100200] := .step (by decide) hnext (.last (by decide))
  refine ⟨?_, fun h => absurd h.2 (by decide)⟩
  exact (headerWalk_of_isSome (by decide) (isSome_of_headerWalk (by decide) hw _ _)).unique hw

end NativeOS.Fs.Tar
