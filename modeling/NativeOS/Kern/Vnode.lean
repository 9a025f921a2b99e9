/-
  NativeOS.Kern.Vnode — nodes, volumes and the state of the file systems (`kernel/sys/vfs.h`).

  A node is rootfs's or devfs's own root, or memory from `malloc`; NULL is `none`. Volumes
  and the drivers' private structures are at addresses, 0 is NULL. A linked list is the
  sequence of its data pointers, oldest first: `list_append` adds at the end, `list_delete`
  takes the first occurrence out, `list_foreach` goes through it
  (`NativeOS.Stdkern.LinkedListProofs`).
-/

import Mathlib.Logic.Function.Basic
import NativeOS.Fs.Tar
import NativeOS.Stdkern.Strings

namespace NativeOS.Kern

open NativeOS.Lib
open NativeOS.Stdkern
open NativeOS.Fs.Tar (TarfsNode)

def vnFregfile : Nat := 0x1
def vnFdir : Nat := 0x2
def vnFchardev : Nat := 0x3
def vnFblockdev : Nat := 0x4

/-- `vfs_node_t *`, when it is not NULL. -/
inductive NodePtr where
  | rootfsRoot
  | devfsRootdir
  | heap (addr : Nat)
  deriving DecidableEq

/-- `char vn_name[64]`. -/
structure NameField where
  bytes : List UInt8
  size : bytes.length = 64

/-- The field of a node at `node`, whose name is its first member. -/
def nameField (m : Mem) (node : Nat) : NameField := ⟨slice m node 64, length_slice m node 64⟩

theorem bytes_nameField (m : Mem) (node : Nat) : (nameField m node).bytes = slice m node 64 := rfl

def emptyName : NameField := ⟨List.replicate 64 0, List.length_replicate⟩

/-- `sizeof(vfs_node_t)`: the name, and four words. -/
abbrev vnodeSize : Nat := 80

/-- The nodes at `a` and `b` have memory of their own. -/
abbrev VnodesApart (a b : Nat) : Prop := a + vnodeSize ≤ b ∨ b + vnodeSize ≤ a

theorem VnodesApart.ne {a b : Nat} (h : VnodesApart a b) : a ≠ b := by
  rintro rfl
  have hsize : 0 < vnodeSize := by decide
  unfold VnodesApart at h
  omega

theorem VnodesApart.symm {a b : Nat} (h : VnodesApart a b) : VnodesApart b a := Or.symm h

def NodePtr.ApartFrom (a : Nat) : NodePtr → Prop
  | .heap b => VnodesApart a b
  | _ => True

instance (a : Nat) : ∀ p, Decidable (NodePtr.ApartFrom a p)
  | .heap b => inferInstanceAs (Decidable (VnodesApart a b))
  | .rootfsRoot => .isTrue trivial
  | .devfsRootdir => .isTrue trivial

/-- None of the nodes is in the memory of a node at `a`. -/
def ClearOf (nodes : List NodePtr) (a : Nat) : Prop := ∀ p ∈ nodes, NodePtr.ApartFrom a p

instance (nodes : List NodePtr) (a : Nat) : Decidable (ClearOf nodes a) :=
  inferInstanceAs (Decidable (∀ p ∈ nodes, NodePtr.ApartFrom a p))

theorem ClearOf.not_mem {nodes : List NodePtr} {a : Nat} (h : ClearOf nodes a) : .heap a ∉ nodes := fun hmem =>
  VnodesApart.ne (h (.heap a) hmem) rfl

/-- `vfs_node_t`. -/
structure Vnode where
  name : NameField
  flags : Nat
  parent : Option NodePtr
  volume : Nat
  payload : Nat

/-- The bytes from `vn_name` on, as far as a comparison may look: the field, then `vn_flags`. -/
def Vnode.text (n : Vnode) : List UInt8 :=
  n.name.bytes ++ [UInt8.ofNat n.flags, UInt8.ofNat (n.flags / 256), UInt8.ofNat (n.flags / 65536),
    UInt8.ofNat (n.flags / 16777216)]

/-- The drivers linked into the kernel: `vfs_filesys_t` objects. -/
inductive Family where
  | rootfs
  | devfs
  | tarfs
  deriving DecidableEq

/-- `vfs_volume_t`; the bytes at `vv_name`. -/
structure Volume where
  name : List UInt8
  family : Family
  root : Option NodePtr
  payload : Nat

/-- `struct tarfs_payload`. -/
structure TarfsPayload where
  buf : Nat
  nodes : List Nat
  volume : Nat
  root : Option NodePtr

/-- `vfs_volumes`, `vfs_drivers`, `rootfs_nodes` (NULL before rootfs is mounted), `devmgr_list`, and memory.
    `spilled`: the bytes that the names of TAR entries have left behind their nodes, each with its
    address. What they do there is not followed here. -/
structure Fs where
  mem : Mem
  node : NodePtr → Vnode
  vol : Nat → Volume
  volumes : List Nat
  drivers : List Family
  rootfsNodes : Option (List NodePtr)
  devices : List NodePtr
  tarfs : Nat → TarfsPayload
  tnode : Nat → TarfsNode
  spilled : List (UInt8 × Nat) := []

def Fs.setNode (s : Fs) (p : NodePtr) (n : Vnode) : Fs := { s with node := Function.update s.node p n }

def Fs.setVol (s : Fs) (v : Nat) (vol : Volume) : Fs := { s with vol := Function.update s.vol v vol }

def Fs.setTarfs (s : Fs) (p : Nat) (payload : TarfsPayload) : Fs := { s with tarfs := Function.update s.tarfs p payload }

/-- `rootfs_root` and `devfs_rootdir` as they are initialised. -/
def staticRoot : Vnode := ⟨emptyName, vnFdir, none, 0, 0⟩

@[simp] theorem Fs.setNode_self (s : Fs) (p : NodePtr) (n : Vnode) : (s.setNode p n).node p = n := Function.update_self _ _ _

theorem Fs.setNode_ne (s : Fs) {p q : NodePtr} (n : Vnode) (h : q ≠ p) : (s.setNode p n).node q = s.node q :=
  Function.update_of_ne h _ _

@[simp] theorem Fs.setVol_self (s : Fs) (v : Nat) (vol : Volume) : (s.setVol v vol).vol v = vol := Function.update_self _ _ _

theorem Fs.setVol_ne (s : Fs) {v w : Nat} (vol : Volume) (h : w ≠ v) : (s.setVol v vol).vol w = s.vol w :=
  Function.update_of_ne h _ _

@[simp] theorem Fs.setTarfs_self (s : Fs) (p : Nat) (payload : TarfsPayload) : (s.setTarfs p payload).tarfs p = payload :=
  Function.update_self _ _ _

@[simp] theorem Fs.setTarfs_setTarfs (s : Fs) (p : Nat) (payload payload' : TarfsPayload) :
    (s.setTarfs p payload).setTarfs p payload' = s.setTarfs p payload' :=
  congrArg (fun tarfs => { s with tarfs := tarfs }) (Function.update_idem _ _ _)

@[simp] theorem Fs.setTarfs_mem (s : Fs) (p : Nat) (payload : TarfsPayload) : (s.setTarfs p payload).mem = s.mem := rfl
@[simp] theorem Fs.setTarfs_node (s : Fs) (p : Nat) (payload : TarfsPayload) : (s.setTarfs p payload).node = s.node := rfl
@[simp] theorem Fs.setTarfs_tnode (s : Fs) (p : Nat) (payload : TarfsPayload) : (s.setTarfs p payload).tnode = s.tnode := rfl

end NativeOS.Kern
