/-
  NativeOS.Mem.Heap — the kernel heap allocator (`arch/i386/kernel/mem/heap.c`).

  The heap is the region `[heap_bottom, heap_top)` of the linker script. Each block
  starts with a 20-byte control block (`heap_block_t`: magic, status, next, prev and
  size, one 32-bit word each), and the blocks are linked through next and prev from
  `heap_root`. The functions below are the source's, on the bytes of the memory: a
  control block is whatever the twenty bytes at an address say, so a pointer to an old
  control block inside somebody's buffer is read like any other. The spinlock is left
  out (one processor, no preemption inside the allocator).

  A run (`Run`) boots the heap on any memory and then takes any number of events: an
  allocation of any 32-bit size, a free of a live pointer, or a client writing a byte
  inside the requested bytes of a live buffer.
-/

import NativeOS.Lib.Bytes

namespace NativeOS.Mem.Heap

open NativeOS.Lib

/-! ## Constants and the control block -/

def heapMagicHead : Nat := 0x51514949
def heapMagicFree : Nat := 0x40404040
def heapMagicUsed : Nat := 0xEFEFEFEF

/-- `sizeof(heap_block_t)`. -/
abbrev hdr : Nat := 20

/-- `heap_size` of `kernel.ld`. -/
abbrev heapSize : Nat := 0x100000

/-- Where the linker puts the heap: after the sections of an image linked at 1 MiB. The
    image is nowhere near 1 GiB long, so no heap address has the magic's 0x49 or 0x51
    as its top byte. -/
structure Layout where
  bottom : Nat
  afterImage : 0x100000 < bottom
  lowMemory : bottom + heapSize ≤ 0x49000000

def Layout.top (L : Layout) : Nat := L.bottom + heapSize

def hMagic (m : Mem) (b : Nat) : Nat := ld32 m b
def hStatus (m : Mem) (b : Nat) : Nat := ld32 m (b + 4)
def hNext (m : Mem) (b : Nat) : Nat := ld32 m (b + 8)
def hPrev (m : Mem) (b : Nat) : Nat := ld32 m (b + 12)
def hSize (m : Mem) (b : Nat) : Nat := ld32 m (b + 16)

def setMagic (m : Mem) (b v : Nat) : Mem := st32 m b v
def setStatus (m : Mem) (b v : Nat) : Mem := st32 m (b + 4) v
def setNext (m : Mem) (b v : Nat) : Mem := st32 m (b + 8) v
def setPrev (m : Mem) (b v : Nat) : Mem := st32 m (b + 12) v
def setSize (m : Mem) (b v : Nat) : Mem := st32 m (b + 16) v

/-! ## heap.c -/

/-- `heap_merge` after its checks: unlink `tail` and give its space to `head`. -/
def unlinkTail (m : Mem) (head tail : Nat) : Mem :=
  let m1 := if hNext m tail ≠ 0 then setPrev m (hNext m tail) head else m
  let m2 := setNext m1 head (hNext m1 tail)
  setSize m2 head (add32 (hSize m2 head) (add32 hdr (hSize m2 tail)))

/-- The merged block, or 0 if no merge was made. -/
def heapMerge (m : Mem) (head tail : Nat) : Mem × Nat :=
  if hMagic m head ≠ heapMagicHead ∨ hMagic m head ≠ hMagic m tail then (m, 0)
  else if hStatus m head ≠ heapMagicFree ∨ hStatus m head ≠ hStatus m tail then (m, 0)
  else if hNext m head ≠ tail ∨ hPrev m tail ≠ head then (m, 0)
  else if add32 (add32 head hdr) (hSize m head) ≠ tail then (m, 0)
  else (unlinkTail m head tail, head)

/-- The memory and `heap_root` after `heap_init`. -/
def heapInit (bottom top : Nat) (m : Mem) : Mem × Nat :=
  let total := sub32 top bottom
  let m1 := setMagic m bottom heapMagicHead
  let m2 := setStatus m1 bottom heapMagicFree
  let m3 := setSize m2 bottom (sub32 total hdr)
  let m4 := setPrev m3 bottom 0
  (setNext m4 bottom 0, bottom)

/-- `heap_alloc` once its loop found a block that can be used. -/
def takeBlock (m : Mem) (block size : Nat) : Mem × Nat :=
  let m1 := setStatus m block heapMagicUsed
  let buffer := add32 block hdr
  if hSize m1 block ≤ add32 (add32 size hdr) 1 then (m1, buffer)
  else
    let nextBlock := add32 buffer size
    let m2 := setMagic m1 nextBlock heapMagicHead
    let m3 := setStatus m2 nextBlock heapMagicFree
    let m4 := setSize m3 nextBlock (sub32 (sub32 (hSize m3 block) size) hdr)
    let m5 := setPrev m4 nextBlock block
    let m6 := setNext m5 nextBlock (hNext m5 block)
    let m7 := setSize m6 block size
    (setNext m7 block nextBlock, buffer)

/-- `heap_alloc`'s loop; `none` when the chain is not left within the fuel. -/
def allocLoop (m : Mem) (size : Nat) : Nat → Nat → Option (Mem × Nat)
  | 0, _ => none
  | fuel + 1, block =>
    if block = 0 then some (m, 0)
    else if hMagic m block ≠ heapMagicHead then some (m, 0)
    else if hStatus m block ≠ heapMagicFree then allocLoop m size fuel (hNext m block)
    else if hSize m block < size then allocLoop m size fuel (hNext m block)
    else some (takeBlock m block size)

/-- More turns than the heap has room for control blocks. -/
def walkFuel : Nat := heapSize

def heapAlloc (m : Mem) (root size : Nat) : Option (Mem × Nat) := allocLoop m size walkFuel root

def heapFree (m : Mem) (ptr : Nat) : Mem :=
  let bufheader := sub32 ptr hdr
  if hMagic m bufheader ≠ heapMagicHead then m
  else if hStatus m bufheader ≠ heapMagicUsed then m
  else
    let m1 := setStatus m bufheader heapMagicFree
    let m2 := if hNext m1 bufheader ≠ 0 then (heapMerge m1 bufheader (hNext m1 bufheader)).1 else m1
    if hPrev m2 bufheader ≠ 0 then (heapMerge m2 (hPrev m2 bufheader) bufheader).1 else m2

/-! ## Runs -/

/-- A live buffer: what `heap_alloc` returned and the bytes it was asked for. -/
structure Buf where
  ptr : Nat
  len : Nat
  deriving DecidableEq, Repr

structure St where
  mem : Mem
  root : Nat
  live : List Buf

inductive Ev where
  | alloc (size : Nat)
  | free (ptr : Nat)
  /-- A client stores a byte `off` bytes into its buffer. -/
  | write (ptr off : Nat) (v : UInt8)
  deriving DecidableEq

/-- What clients may do: any 32-bit size, live pointers only, writes inside the request. -/
def Allowed (s : St) : Ev → Prop
  | .alloc size => size < 4294967296
  | .free ptr => ∃ b ∈ s.live, b.ptr = ptr
  | .write ptr off _ => ∃ b ∈ s.live, b.ptr = ptr ∧ off < b.len

instance (s : St) : (e : Ev) → Decidable (Allowed s e)
  | .alloc size => inferInstanceAs (Decidable (size < 4294967296))
  | .free ptr => inferInstanceAs (Decidable (∃ b ∈ s.live, b.ptr = ptr))
  | .write ptr off _ => inferInstanceAs (Decidable (∃ b ∈ s.live, b.ptr = ptr ∧ off < b.len))

def step (s : St) : Ev → Option St
  | .alloc size =>
    match heapAlloc s.mem s.root size with
    | some (m, p) => some { s with mem := m, live := if p = 0 then s.live else ⟨p, size⟩ :: s.live }
    | none => none
  | .free ptr => some { s with mem := heapFree s.mem ptr, live := s.live.filter (·.ptr != ptr) }
  | .write ptr off v => some { s with mem := st8 s.mem (ptr + off) v }

def boot (L : Layout) (m : Mem) : St :=
  let r := heapInit L.bottom L.top m
  ⟨r.1, r.2, []⟩

/-- A run and its history, newest first: each event with the state it was taken in. -/
inductive Run (L : Layout) : List (St × Ev) → St → Prop
  | boot (m : Mem) : Run L [] (boot L m)
  | step {h : List (St × Ev)} {s s' : St} {e : Ev} :
      Run L h s → Allowed s e → step s e = some s' → Run L ((s, e) :: h) s'

/-! ## What a state can show -/

/-- The blocks visited by following next from `b` until it is null. -/
inductive Walk (m : Mem) : Nat → List Nat → Prop
  | done : Walk m 0 []
  | step {b : Nat} {l : List Nat} : b ≠ 0 → Walk m (hNext m b) l → Walk m b (b :: l)

/-- The blocks `l` are the chain, and tile the heap; live buffers are apart. -/
structure Tiled (L : Layout) (s : St) (l : List Nat) : Prop where
  start : s.root = L.bottom
  walk : Walk s.mem s.root l
  magic : ∀ b ∈ l, hMagic s.mem b = heapMagicHead
  next : ∀ b ∈ l, hNext s.mem b ≠ 0 → b + hdr + hSize s.mem b = hNext s.mem b
  last : ∀ b ∈ l, hNext s.mem b = 0 → b + hdr + hSize s.mem b = L.top
  inside : ∀ v ∈ s.live, L.bottom ≤ v.ptr ∧ v.ptr + v.len ≤ L.top
  offHeaders : ∀ v ∈ s.live, ∀ b ∈ l, v.ptr + v.len ≤ b ∨ b + hdr ≤ v.ptr
  apart : s.live.Pairwise fun v w => v.ptr + v.len ≤ w.ptr ∨ w.ptr + w.len ≤ v.ptr

/-- The root has no prev link, and every next link is answered by a prev link. -/
def BackLinked (s : St) : Prop :=
  ∃ l, Walk s.mem s.root l ∧ hPrev s.mem s.root = 0 ∧
    ∀ b ∈ l, hNext s.mem b ≠ 0 → hPrev s.mem (hNext s.mem b) = b

def NoAdjacentFree (s : St) : Prop :=
  ∃ l, Walk s.mem s.root l ∧ ∀ b ∈ l, hNext s.mem b ≠ 0 →
    ¬ (hStatus s.mem b = heapMagicFree ∧ hStatus s.mem (hNext s.mem b) = heapMagicFree)

/-- The single free block `heap_init` creates. -/
def Pristine (L : Layout) (s : St) : Prop :=
  Walk s.mem s.root [L.bottom] ∧ hMagic s.mem L.bottom = heapMagicHead ∧ hStatus s.mem L.bottom = heapMagicFree ∧
    hPrev s.mem L.bottom = 0 ∧ hSize s.mem L.bottom = L.top - L.bottom - hdr

/-- The block `heap_alloc`'s loop stops at. -/
def firstFit (m : Mem) (size : Nat) : Nat → Nat → Option Nat
  | 0, _ => none
  | fuel + 1, block =>
    if block = 0 ∨ hMagic m block ≠ heapMagicHead then none
    else if hStatus m block ≠ heapMagicFree ∨ hSize m block < size then firstFit m size fuel (hNext m block)
    else some block

/-- The event is an allocation that cuts in two a block that has a successor. -/
def splitsInside (s : St) : Ev → Bool
  | .alloc size =>
    match firstFit s.mem size walkFuel s.root with
    | some block => hNext s.mem block != 0 && size + 21 < hSize s.mem block
    | none => false
  | _ => false

end NativeOS.Mem.Heap
