/-
  NativeOS.Kern.Vfs — the mount table and the root directory (`kernel/kern/fs_vfs.c`,
  `fs_finddir` of `kernel/kern/fs_fsops.c`).

  A mount puts the volume into `vfs_volumes` and a node for it into rootfs's own list; an
  unmount takes both out. The table is searched with a comparison of 16 bytes that looks
  at 17, the root directory with whole names. Of the drivers only rootfs and devfs can be
  mounted once at a time: each keeps a static pointer that says whether it is.

  A mount that never comes back, from an image whose headers never end, is `none`.
-/

import NativeOS.Fs.Tarfs
import NativeOS.Kern.Devfs

namespace NativeOS.Kern

open NativeOS.Lib
open NativeOS.Stdkern
open NativeOS.Fs.Tar (TarfsAnswers tarfsMount tarfsFinddir)

/-! ## rootfs -/

/-- The node `rootfs_register_volume` fills in, over memory that holds `stale`. -/
def volumeNode (s : Fs) (vol : Nat) (stale : Mem) : Vnode where
  name := nameField (nameVolumeNode stale 0 (s.vol vol).name) 0
  flags := vnFregfile
  parent := some .rootfsRoot
  volume := (s.node .rootfsRoot).volume
  payload := vol

/-- `answer`: the node `malloc` returns and what it holds. -/
def rootfsRegisterVolume (s : Fs) (vol : Nat) (answer : Nat × Mem) : Fs :=
  { s.setNode (.heap answer.1) (volumeNode s vol answer.2) with
    rootfsNodes := s.rootfsNodes.map fun nodes => nodes ++ [.heap answer.1] }

def rootfsUnregisterVolume (s : Fs) (vol : Nat) : Fs :=
  let nodes := s.rootfsNodes.getD []
  match nodes.find? fun p => decide (strcmp (s.node p).text (s.vol vol).name = 0) with
  | some p => { s with rootfsNodes := some (nodes.erase p) }
  | none => s

def rootfsMount (s : Fs) (vol : Nat) : Fs × Int :=
  if s.rootfsNodes.isSome then (s, -1)
  else
    let s1 := { s with rootfsNodes := some [] }.setNode .rootfsRoot { s.node .rootfsRoot with volume := vol }
    (s1.setVol vol { s1.vol vol with root := some .rootfsRoot }, 0)

def rootfsFinddir (s : Fs) (name : List UInt8) : Option NodePtr :=
  (s.rootfsNodes.getD []).find? fun p => decide (strcmp (s.node p).text name = 0)

/-! ## vfs_mount, vfs_umount -/

/-- `fsd_ident`. -/
def Family.ident : Family → List UInt8
  | .rootfs => [114, 111, 111, 116, 102, 115]
  | .devfs => [100, 101, 118, 102, 115]
  | .tarfs => [116, 97, 114, 102, 115]

def findMountpointByName (s : Fs) (mtname : List UInt8) : Option Nat :=
  s.volumes.find? fun v => decide (strncmp (s.vol v).name mtname 16 = 0)

def getDriverByName (s : Fs) (name : List UInt8) : Option Family :=
  s.drivers.find? fun fs => decide (strcmp name fs.ident = 0)

/-- What `malloc` returns during a mount: the volume, what `strdup`'s copy of the name held,
    the root directory's node, and what the TAR driver gets. -/
structure MountAnswers where
  volume : Nat
  dup : List UInt8
  rootNode : Nat × Mem
  tar : TarfsAnswers

def fsdMount (answers : MountAnswers) (s : Fs) (vol : Nat) : Family → Option (Fs × Int)
  | .rootfs => some (rootfsMount s vol)
  | .devfs => some (devfsMount s vol)
  | .tarfs => tarfsMount answers.tar s vol

def vfsMount (answers : MountAnswers) (s : Fs) (driver name : List UInt8) (argp : Nat) : Option (Fs × Int) :=
  if (findMountpointByName s name).isSome then some (s, -1)
  else match getDriverByName s driver with
    | none => some (s, -1)
    | some family =>
      if answers.volume = 0 then some (s, -1)
      else do
        let s1 := s.setVol answers.volume ⟨strdup answers.dup name, family, none, argp⟩
        let mounted ← fsdMount answers s1 answers.volume family
        if mounted.2 < 0 then some (mounted.1, -1)
        else
          let s2 := { mounted.1 with volumes := mounted.1.volumes ++ [answers.volume] }
          some (rootfsRegisterVolume s2 answers.volume answers.rootNode, 0)

def vfsUmount (s : Fs) (mountname : List UInt8) : Fs × Int :=
  match findMountpointByName s mountname with
  | some vol =>
    let s1 := rootfsUnregisterVolume s vol
    ({ s1 with volumes := s1.volumes.erase vol }, 0)
  | none => (s, -1)

def vfsGetVolume (s : Fs) (mountname : List UInt8) : Option NodePtr :=
  match findMountpointByName s mountname with
  | some vol => (s.vol vol).root
  | none => none

/-- `registered`: the drivers in the section of file system descriptors; none has an `fsd_init`. -/
def vfsInit (answers : MountAnswers) (registered : List Family) (s : Fs) : Option Fs := do
  let mounted ← vfsMount answers { s with volumes := [], drivers := [.rootfs] } Family.rootfs.ident [82, 79, 79, 84] 0
  some { mounted.1 with drivers := mounted.1.drivers ++ registered }

/-! ## fs_finddir -/

/-- `NODE_OPS(node)->vfs_finddir`. -/
def finddirOf (s : Fs) (node : NodePtr) (name : List UInt8) : Family → Option NodePtr
  | .rootfs => rootfsFinddir s name
  | .devfs => devfsFinddir s name
  | .tarfs => tarfsFinddir s node name

def fsFinddir (s : Fs) (node : NodePtr) (name : List UInt8) : Option NodePtr :=
  if (s.node node).volume = 0 then none
  else if (s.node node).flags = vnFdir then finddirOf s node name (s.vol (s.node node).volume).family
  else none

end NativeOS.Kern
