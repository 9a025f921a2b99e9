/-
  NativeOS.Mem.Pmm — the physical memory manager (`arch/i386/kernel/mem/pmm.c`).

  One bit per 4 KiB frame, thirty-two to a word, in a buffer taken from the kernel heap.
  `pmm_init` asks the heap for the buffer, then marks the frames of every region the boot
  loader reports as not free and the frames of the kernel image; `pmm_alloc_page` takes
  the least frame whose bit is clear, `pmm_free_page` clears a bit.

  The bitmap is the bytes of the memory at `frames_map`: nothing in the code bounds an
  index, so a word past the buffer is read and written like any other. Heap addresses are
  far below 4 GiB (`Heap.Layout`) and an index is below 2^15 for every frame of a 32-bit
  address, so `frames_map[i]` never wraps. The boot loader's memory map is read from a
  memory of its own: the kernel does not write to it.
-/

import NativeOS.Lib.Bitmap
import NativeOS.Mem.Heap

namespace NativeOS.Mem.Pmm

open NativeOS.Lib

/-! ## Frames and bits -/

/-- The bitmap's variables, and the memory it lies in. -/
structure Frames where
  mem : Mem
  framesMap : Nat
  framesCount : Nat

def frameNumber (memaddr : Nat) : Nat := memaddr >>> 12
def physicalAddr (idx : Nat) : Nat := (idx <<< 12) % 4294967296
def bitIndex (idx : Nat) : Nat := idx >>> 5
def bitOffset (idx : Nat) : Nat := idx &&& 0x1F
def offsetMask (bit : Nat) : Nat := 1 <<< bit

/-- The address of `frames_map[BIT_INDEX(idx)]`. -/
def wordAddr (s : Frames) (idx : Nat) : Nat := s.framesMap + 4 * bitIndex idx

def frameWord (s : Frames) (idx : Nat) : Nat := ld32 s.mem (wordAddr s idx)

def frameSet (s : Frames) (idx : Nat) : Frames :=
  { s with mem := st32 s.mem (wordAddr s idx) (frameWord s idx ||| offsetMask (bitOffset idx)) }

def frameTest (s : Frames) (idx : Nat) : Nat := frameWord s idx &&& offsetMask (bitOffset idx)

def frameClear (s : Frames) (idx : Nat) : Frames :=
  { s with mem := st32 s.mem (wordAddr s idx) (frameWord s idx &&& (0xFFFFFFFF ^^^ offsetMask (bitOffset idx))) }

/-- `frame_find_free`'s inner loop, with `n` offsets left. -/
def scanWord (map : Nat) : Nat → Nat → Option Nat
  | 0, _ => none
  | n + 1, offset => if map &&& offsetMask (bitOffset offset) = 0 then some offset else scanWord map n (offset + 1)

/-- `frame_find_free`'s outer loop. `frames_count` turns leave it, thirty-two frames each. -/
def findLoop (s : Frames) : Nat → Nat → Nat
  | 0, _ => 0xFFFFFFFF
  | fuel + 1, idx =>
    if idx < s.framesCount then
      if frameWord s idx ≠ 0xFFFFFFFF then
        match scanWord (frameWord s idx) 32 0 with
        | some offset => idx ||| offset
        | none => findLoop s fuel (add32 idx 32)
      else findLoop s fuel (add32 idx 32)
    else 0xFFFFFFFF

def frameFindFree (s : Frames) : Nat := findLoop s s.framesCount 0

/-! ## The boot loader's memory map -/

/-- The fields of `multiboot_info_t` this file reads. -/
structure MultibootInfo where
  flags : Nat
  memUpper : Nat
  mmapLength : Nat
  mmapAddr : Nat

def mmapSize (info : Mem) (mblock : Nat) : Nat := ld32 info mblock
def mmapBase (info : Mem) (mblock : Nat) : Nat := ld64 info (mblock + 4)
def mmapLen (info : Mem) (mblock : Nat) : Nat := ld64 info (mblock + 12)
def mmapType (info : Mem) (mblock : Nat) : Nat := ld32 info (mblock + 20)

/-! ## pmm_init -/

/-- `frames_count` for a machine with `mem_upper` KiB above the first MiB. -/
def framesOf (memUpper : Nat) : Nat := frameNumber ((add32 memUpper 1 <<< 10) % 4294967296)

/-- The words a bitmap of `count` frames takes: what `allocate_frames` asks the heap for. -/
def mapSize (count : Nat) : Nat :=
  if bitOffset count ≠ 0 then add32 (bitIndex count) 1 else bitIndex count

def allocateFrames (m : Mem) (root memUpper : Nat) : Option Frames :=
  match Heap.heapAlloc m root (mapSize (framesOf memUpper)) with
  | some (m', p) => some ⟨m', p, framesOf memUpper⟩
  | none => none

/-- `reserve_system_block`'s loop; `frames_count` turns leave it. `f` and `page` are 32 bits
    wide, the length 64. -/
def blockLoop (length : Nat) : Nat → Nat → Nat → Frames → Frames
  | 0, _, _, s => s
  | fuel + 1, f, page, s =>
    if f < s.framesCount ∧ page < length then blockLoop length fuel (add32 f 1) (add32 page 0x1000) (frameSet s f)
    else s

def reserveSystemBlock (info : Mem) (mblock : Nat) (s : Frames) : Frames :=
  blockLoop (mmapLen info mblock) s.framesCount (frameNumber (mmapBase info mblock) % 4294967296) 0 s

/-- `reserve_system`'s loop. The map is never written, so a walk of more turns than there
    are addresses has come back to an entry and goes on for ever: `none`. -/
def mmapLoop (info : Mem) (mmapEnd : Nat) : Nat → Nat → Frames → Option Frames
  | 0, _, _ => none
  | fuel + 1, mblock, s =>
    if mblock < mmapEnd then
      mmapLoop info mmapEnd fuel (add32 (add32 mblock (mmapSize info mblock)) 4)
        (if mmapType info mblock ≠ 1 then reserveSystemBlock info mblock s else s)
    else some s

def reserveSystem (mb : MultibootInfo) (info : Mem) (s : Frames) : Option Frames :=
  if mb.flags &&& 0x40 ≠ 0 then mmapLoop info (add32 mb.mmapAddr mb.mmapLength) 4294967296 mb.mmapAddr s else some s

/-- `reserve_kernel`'s loop. There are 2^20 page addresses: a loop that takes more turns has
    wrapped and never ends. -/
def kernelLoop (kernelAfter : Nat) : Nat → Nat → Nat → Frames → Option Frames
  | 0, _, _, _ => none
  | fuel + 1, addr, frame, s =>
    if addr < kernelAfter then kernelLoop kernelAfter fuel (add32 addr 4096) (add32 frame 1) (frameSet s frame)
    else some s

def reserveKernel (kernelStart kernelAfter : Nat) (s : Frames) : Option Frames :=
  let addr := kernelStart &&& 0xFFFFF000
  kernelLoop kernelAfter 1048577 addr (frameNumber addr) s

/-- `pmm_init` once the bitmap is there. -/
def reserve (mb : MultibootInfo) (info : Mem) (kernelStart kernelAfter : Nat) (s : Frames) : Option Frames :=
  (reserveSystem mb info s).bind (reserveKernel kernelStart kernelAfter)

def pmmInit (mb : MultibootInfo) (info : Mem) (kernelStart kernelAfter : Nat) (m : Mem) (root : Nat) : Option Frames :=
  (allocateFrames m root mb.memUpper).bind (reserve mb info kernelStart kernelAfter)

/-! ## Pages -/

def pmmAllocPage (s : Frames) : Frames × Nat :=
  let frame := frameFindFree s
  if frame = 0xFFFFFFFF then (s, 0) else (frameSet s frame, physicalAddr frame)

def pmmFreePage (s : Frames) (page : Nat) : Frames := frameClear s (frameNumber page)

/-! ## Runs -/

/-- `out`: the pages returned and not freed since, once per call that returned them.
    `ret`: the pages ever returned. 0 is no page but the failure answer. -/
structure St where
  pmm : Frames
  out : List Nat
  ret : List Nat

inductive Ev where
  | alloc
  | free (page : Nat)
  deriving DecidableEq

/-- A client frees an outstanding page; one that frees `again` frees any page it ever got. -/
def Allowed (again : Bool) (s : St) : Ev → Prop
  | .alloc => True
  | .free page => page ∈ if again then s.ret else s.out

instance (again : Bool) (s : St) : (e : Ev) → Decidable (Allowed again s e)
  | .alloc => inferInstanceAs (Decidable True)
  | .free page => inferInstanceAs (Decidable (page ∈ if again then s.ret else s.out))

def step (s : St) : Ev → St
  | .alloc =>
    let r := pmmAllocPage s.pmm
    if r.2 = 0 then { s with pmm := r.1 } else ⟨r.1, r.2 :: s.out, r.2 :: s.ret⟩
  | .free page => { s with pmm := pmmFreePage s.pmm page, out := s.out.erase page }

inductive Run (again : Bool) (s₀ : Frames) : St → Prop
  | start : Run again s₀ ⟨s₀, [], []⟩
  | step {s : St} {e : Ev} : Run again s₀ s → Allowed again s e → Run again s₀ (step s e)

/-! ## What a state can show -/

/-- The frames the words of the bitmap have a bit for. -/
def capacity (count : Nat) : Nat := 32 * mapSize count

/-- The set of frames the bitmap stands for. -/
def takenFrames (s : Frames) : Finset Nat := (Finset.range (capacity s.framesCount)).filter fun f => frameTest s f ≠ 0

/-- `[lo, hi)` has a byte in the page at `page`. -/
def Overlaps (page lo hi : Nat) : Prop := ∃ x, page ≤ x ∧ x < page + 4096 ∧ lo ≤ x ∧ x < hi

/-- A `multiboot_mmap_t`. -/
structure Entry where
  size : Nat
  base : Nat
  length : Nat
  type : Nat
  deriving DecidableEq

/-- The map in `[a, e)` is the entries `es`, each with at least its own fields. -/
def MmapAt (info : Mem) : Nat → Nat → List Entry → Prop
  | a, e, [] => a = e
  | a, e, x :: es =>
    a < e ∧ 20 ≤ x.size ∧ x = ⟨mmapSize info a, mmapBase info a, mmapLen info a, mmapType info a⟩ ∧
      MmapAt info (a + x.size + 4) e es

/-- The page avoids every reserved entry and the kernel image. -/
def Unreserved (es : List Entry) (kernelStart kernelAfter page : Nat) : Prop :=
  (∀ x ∈ es, x.type ≠ 1 → ¬ Overlaps page x.base (x.base + x.length)) ∧ ¬ Overlaps page kernelStart kernelAfter

/-- The entry's `frame_offset`, 32 bits of it. -/
def Entry.firstFrame (x : Entry) : Nat := frameNumber x.base % 4294967296

/-- Frame `f` is counted off from the first frame of the entry, a frame per started 4 KiB
    of its length, and the machine has it. -/
def CountedOff (count : Nat) (x : Entry) (f : Nat) : Prop :=
  f < count ∧ x.firstFrame ≤ f ∧ 4096 * (f - x.firstFrame) < x.length

/-- Frame `f` is one of the pages from the kernel's first to its last. -/
def KernelFrame (kernelStart kernelAfter f : Nat) : Prop := frameNumber kernelStart ≤ f ∧ 4096 * f < kernelAfter

end NativeOS.Mem.Pmm
