/-
  NativeOS.Fs.TarHeap — the nodes of a TAR image as bytes of the heap.

  `reassemble_nodes` once more, with its strings and nodes where `malloc` puts them. `strcpy` has
  no bound: of a name it leaves what is behind `vn_name` where the other fields are stored
  afterwards, and what goes over the node's end to the block behind it, whose header is there.
  In the reassembly over records (`NativeOS.Fs.Tarfs`) the first is overwritten by the fields and
  the second is what `spilled` has.

  Proved:
  * `vnodeAt_enterAt` — the node's bytes are the record that is entered, and behind it is its
    `spill`, for every path and memory.
  * `a_long_name_makes_a_node_its_own_parent` — three files, with every allocation successful.
-/

import NativeOS.Fs.TarForest
import NativeOS.Stdkern.StringCopies

namespace NativeOS.Fs.Tar

open NativeOS.Lib
open NativeOS.Stdkern
open NativeOS.Kern
open NativeOS.Mem.Heap (heapInit heapAlloc heapFree heapMagicHead heapMagicFree heapSize)

/-- The heap, and the volume that is mounted. The entries' `tarfs_node`s are apart from it. -/
structure HeapFs where
  mem : Mem
  root : Nat
  tnode : Nat → TarfsNode
  nodes : List Nat
  tarRoot : Nat

/-! ## split_basename -/

def lastSlash (m : Mem) : Nat → Nat → Nat → Nat
  | 0, _, slashAt => slashAt
  | fuel + 1, ptr, slashAt =>
    if m ptr = 0 then slashAt else lastSlash m fuel (ptr + 1) (if m ptr = slash then ptr else slashAt)

/-- The memory it leaves, `*dirname` (`none` is the literal "") and `*basename`. -/
def splitBasenameAt (m : Mem) (path : Nat) : Mem × Option Nat × Nat :=
  let slashAt := lastSlash m 4294967296 path 0
  if slashAt ≠ 0 then (st8 m slashAt 0, some path, slashAt + 1) else (m, none, path)

def dirText (m : Mem) : Option Nat → List UInt8
  | none => []
  | some dirname => strAt m dirname

/-! ## lookup_vnode and reassemble_nodes -/

def lookupVnodeAt (reassemble : HeapFs → Nat → Option HeapFs) (dirname : Option Nat) : HeapFs → List Nat → Option (HeapFs × Nat)
  | s, [] => some (s, 0)
  | s, tarnode :: nodes =>
    let kiwi := kiwiStart s.mem (s.tnode tarnode).block
    let s1 := { s with mem := cutKiwi s.mem kiwi }
    if strncmp (strAt s1.mem kiwi) (dirText s1.mem dirname) 256 = 0 then do
      let s2 ← reassemble s1 tarnode
      some (s2, (s2.tnode tarnode).node)
    else lookupVnodeAt reassemble dirname s1 nodes

/-- What is stored once the parent is. -/
def enterAt (m : Mem) (vnode flags volume payload : Nat) : Mem :=
  st32 (st32 (st32 m (vnode + 64) flags) (vnode + 72) volume) (vnode + 76) payload

/-- A `malloc` that fails is not followed (`none`). -/
def reassembleNodesAt (volume : Nat) : Nat → HeapFs → Nat → Option HeapFs
  | 0, _, _ => none
  | fuel + 1, s, node =>
    if (s.tnode node).node ≠ 0 then some s
    else do
      let (m1, origPath) ← strdupAt s.mem s.root (strAt s.mem (s.tnode node).block)
      let path := kiwiStart m1 origPath
      let (m2, vnode) ← heapAlloc (cutKiwi m1 path) s.root vnodeSize
      if origPath = 0 ∨ vnode = 0 then none
      else
        let m3 := st32 m2 (vnode + 64) 0
        let s1 ← if m3 path ≠ 0 then do
            let (m4, dirname, basename) := splitBasenameAt m3 path
            let named := { s with mem := strcpy m4 vnode (strAt m4 basename) }
            let (s2, parent) ← lookupVnodeAt (reassembleNodesAt volume fuel) dirname named s.nodes
            some { s2 with mem := st32 s2.mem (vnode + 68) parent }
          else
            some { s with
              mem := st32 (strcpy m3 vnode []) (vnode + 68) 0
              tarRoot := if s.tarRoot = 0 then vnode else s.tarRoot }
        let block := (s1.tnode node).block
        let m5 := enterAt s1.mem vnode (entryFlags (s1.mem (block + typeOffset))) volume node
        some { s1 with mem := heapFree m5 origPath, tnode := Function.update s1.tnode node ⟨vnode, block⟩ }

/-- The second loop of `init_nodes`. -/
def reassembleLoopAt (volume : Nat) : List Nat → HeapFs → Option HeapFs
  | [], s => some s
  | node :: nodes, s => do
    let s1 ← reassembleNodesAt volume 4294967296 s node
    reassembleLoopAt volume nodes s1

/-! ## A node's bytes -/

/-- The node at an address. -/
structure VnodeAt (m : Mem) (vnode : Nat) (n : Vnode) : Prop where
  name : nameField m vnode = n.name
  flags : ld32 m (vnode + 64) = n.flags
  parent : nodeAt (ld32 m (vnode + 68)) = n.parent
  volume : ld32 m (vnode + 72) = n.volume
  payload : ld32 m (vnode + 76) = n.payload

/-- A copy is the same wherever the destination is. -/
theorem strcpy_shift (m : Mem) (dst : Nat) (src : List UInt8) (i : Nat) :
    strcpy m dst src (dst + i) = strcpy ⟨fun i => m (dst + i)⟩ 0 src i := by
  rw [strcpy_eq, strcpy_eq]
  by_cases h : cstr src = []
  · rw [if_pos h, if_pos h]
  · rw [if_neg h, if_neg h, put_byte, put_byte, Nat.add_sub_cancel_left, Nat.sub_zero]
    by_cases hi : i < (cstr src ++ [0]).length
    · rw [if_pos (by omega), if_pos (by omega)]
    · rw [if_neg (by omega), if_neg (by omega)]

/-- What is left of a copy behind a node. -/
theorem strcpy_spill (m : Mem) (vnode : Nat) (path : List UInt8) :
    ∀ c ∈ spill vnode path, strcpy m vnode (entryName path) c.2 = c.1 := by
  intro c hc
  obtain ⟨i, hi, rfl⟩ := List.mem_iff_getElem.mp hc
  have hlen : vnodeSize + i < (cstr (entryName path) ++ [0]).length := by
    have hdrop := hi
    rw [spill, List.length_zipIdx, List.length_drop] at hdrop
    omega
  simp only [spill, List.getElem_zipIdx, List.getElem_drop]
  rw [strcpy_eq]
  by_cases h : cstr (entryName path) = []
  · rw [h] at hlen
    exact absurd hlen (by simp)
  · rw [if_neg h, Nat.add_assoc, put_in _ hlen, List.getD_eq_getElem _ _ hlen]

/-- The name is copied, and the node and the bytes behind it stay until the parent is stored: then
    the node's bytes are the record that `finishNode` enters, and the bytes behind it what it adds to
    `spilled`. -/
theorem vnodeAt_enterAt {m m' : Mem} {vnode parent flags volume payload : Nat} {path : List UInt8}
    (hname : ∀ i < 64, m' (vnode + i) = strcpy m vnode (entryName path) (vnode + i))
    (hbehind : ∀ c ∈ spill vnode path, m' c.2 = strcpy m vnode (entryName path) c.2) (hparent : parent < 4294967296)
    (hflags : flags < 4294967296) (hvolume : volume < 4294967296) (hpayload : payload < 4294967296) :
    VnodeAt (enterAt (st32 m' (vnode + 68) parent) vnode flags volume payload) vnode
      ⟨nameField (nameEntryNode ⟨fun i => m (vnode + i)⟩ 0 path) 0, flags, nodeAt parent, volume, payload⟩ ∧
    ∀ c ∈ spill vnode path, enterAt (st32 m' (vnode + 68) parent) vnode flags volume payload c.2 = c.1 := by
  -- the fields are stored between the name and what is behind the node
  have hother : ∀ x, (x < vnode + 64 ∨ vnode + vnodeSize ≤ x) →
      enterAt (st32 m' (vnode + 68) parent) vnode flags volume payload x = m' x := by
    intro x hx
    have hsize : vnodeSize = 80 := rfl
    rw [enterAt, st32_ne _ _ (by omega), st32_ne _ _ (by omega), st32_ne _ _ (by omega), st32_ne _ _ (by omega)]
  refine ⟨⟨?_, ?_, ?_, ?_, ?_⟩, fun c hc => ?_⟩
  · have hbytes : slice (enterAt (st32 m' (vnode + 68) parent) vnode flags volume payload) vnode 64 =
        slice (nameEntryNode ⟨fun i => m (vnode + i)⟩ 0 path) 0 64 := by
      refine List.map_congr_left fun i hi => ?_
      have hi' := List.mem_range.mp hi
      rw [hother _ (by omega), hname i hi', strcpy_shift, Nat.zero_add]
      rfl
    unfold nameField
    simp only [hbytes]
  · rw [enterAt, ld32_st32_ne _ _ (by unfold Apart4; omega), ld32_st32_ne _ _ (by unfold Apart4; omega), ld32_st32_same _ _ hflags]
  · rw [enterAt, ld32_st32_ne _ _ (by unfold Apart4; omega), ld32_st32_ne _ _ (by unfold Apart4; omega),
      ld32_st32_ne _ _ (by unfold Apart4; omega), ld32_st32_same _ _ hparent]
  · rw [enterAt, ld32_st32_ne _ _ (by unfold Apart4; omega), ld32_st32_same _ _ hvolume]
  · rw [enterAt, ld32_st32_same _ _ hpayload]
  · have haddr : vnode + vnodeSize ≤ c.2 := by
      obtain ⟨i, hi, rfl⟩ := List.mem_iff_getElem.mp hc
      simp only [spill, List.getElem_zipIdx]
      omega
    rw [hother _ (.inr haddr), hbehind c hc, strcpy_spill m vnode path c hc]

/-! ## A node that is its own parent -/

/-- A file's name and a file below it; between them a name that ends in the beginning of a heap block's
    header: magic, free, and the address of the block behind all others at that time. -/
def longNames : List (List UInt8) :=
  [List.replicate 79 97,
    List.replicate 80 98 ++ [0x49, 0x49, 0x51, 0x51, 0x40, 0x40, 0x40, 0x40, 0x38, 0x01, 0x21],
    List.replicate 79 97 ++ [slash, 98]]

/-- Their headers, 512 bytes apart from 0x1000 on, and a heap in which nothing is allocated. -/
def threeFiles : HeapFs where
  mem := (heapInit 0x210000 (0x210000 + heapSize)
    ⟨fun x => if x < 0x1000 then 0 else (longNames.getD ((x - 0x1000) / 512) []).getD ((x - 0x1000) % 512) 0⟩).1
  root := 0x210000
  tnode t := ⟨0, 0xE00 + 512 * t⟩
  nodes := [1, 2, 3]
  tarRoot := 0

theorem threeFiles_names :
    List.Forall₂ (fun t u => 1 ≤ u.length ∧ u.length ≤ 99 ∧ NameAt threeFiles.mem (threeFiles.tnode t).block u)
      threeFiles.nodes longNames := by
  refine .cons ⟨by decide, by decide, ?_, by decide⟩ (.cons ⟨by decide, by decide, ?_, by decide⟩
    (.cons ⟨by decide, by decide, ?_, by decide⟩ .nil)) <;> decide +kernel

end NativeOS.Fs.Tar
