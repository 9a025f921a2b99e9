/-
  NativeOS.Kern.Fsops — files and devices (`kernel/kern/fs_fsops.c`, and the operations of
  `kernel/kern/fs_devfs.c`, `kernel/kern/fs_vfs.c` and `kernel/fs/tarfs/tar.c`).

  A call on a node goes to the driver of its volume, if the node is of a kind that has the
  call; devfs hands it on to the functions of the device, to those for characters or to
  those for blocks. Both choices are made from `drv_flags`, but not in the same way: the node's
  kind asks for exactly one of the two flags, `devfs_read` and `devfs_write` try the characters
  first.

  A device's functions may look at the file systems; they change memory and the devices' own
  state. Only what `fs_open` and the others do to these is in their types.

  Proved, over every run of mounts, unmounts and devices coming and going:
  * `device_files_are_their_devices` — through a path in `DEV:` every call does what it does on
    the device that is installed under the name.
  * `directories_list_what_they_find` — `ROOT:` and `DEV:` enumerate what their lookup finds.
-/

import NativeOS.Fs.TarDir
import NativeOS.Kern.TarRead
import NativeOS.Kern.FsPath
import NativeOS.Kern.Unmount

namespace NativeOS.Kern.Fsops

open NativeOS.Lib
open NativeOS.Stdkern
open NativeOS.Fs.Tar (TarKeeps slash tarfsReaddir)

/-! ## device.h -/

/-- A call: it may not come back. -/
abbrev Op (W α : Type) : Type := Fs → W → Option (Mem × W × α)

def ret {W α : Type} (a : α) : Op W α := fun s w => some (s.mem, w, a)

/-- -1 as an `unsigned int`. -/
def minusOne : Nat := 4294967295

/-- `device_t`, with the `drv_flags` of its family. A function that is NULL is `none`. -/
structure Device (W : Type) where
  drvFlags : Nat
  devOpen : Option (Nat → Op W Int)
  devReadBlk : Option (Nat → Nat → Nat → Op W Nat)
  devWriteBlk : Option (Nat → Nat → Nat → Op W Nat)
  devReadChr : Option (Nat → Nat → Op W Nat)
  devWriteChr : Option (Nat → Nat → Op W Nat)
  devIoctl : Option (Int → Nat → Op W Int)
  devClose : Option (Op W Int)

section Calls

variable {W : Type}

/-! ## fs_devfs.c -/

/-- What the node's payload points at; `devs` is memory, as far as it holds devices. -/
def payloadDevice (devs : Nat → Device W) (s : Fs) (node : NodePtr) : Option (Device W) :=
  if (s.node node).payload = 0 then none else some (devs (s.node node).payload)

def devfsOpen (devs : Nat → Device W) (node : NodePtr) (flags : Nat) : Op W Int := fun s =>
  match (payloadDevice devs s node).bind Device.devOpen with
  | some op => op flags s
  | none => ret (-1) s

/-- `devfs_read` and `devfs_write`, with the device's two functions for it. -/
def transfer (drvFlags : Nat) (chr : Option (Nat → Nat → Op W Nat)) (blk : Option (Nat → Nat → Nat → Op W Nat))
    (offt buf len : Nat) : Op W Nat :=
  match if drvFlags &&& dvFchardev ≠ 0 then chr else none with
  | some op => op buf len
  | none =>
    match if drvFlags &&& dvFblckdev ≠ 0 then blk else none with
    | some op => op buf offt len
    | none => ret minusOne

def devfsRead (devs : Nat → Device W) (node : NodePtr) (offt buf len : Nat) : Op W Nat := fun s =>
  match payloadDevice devs s node with
  | some dev => transfer dev.drvFlags dev.devReadChr dev.devReadBlk offt buf len s
  | none => ret minusOne s

def devfsWrite (devs : Nat → Device W) (node : NodePtr) (offt buf len : Nat) : Op W Nat := fun s =>
  match payloadDevice devs s node with
  | some dev => transfer dev.drvFlags dev.devWriteChr dev.devWriteBlk offt buf len s
  | none => ret minusOne s

def devfsIoctl (devs : Nat → Device W) (node : NodePtr) (iorq : Int) (args : Nat) : Op W Int := fun s =>
  match (payloadDevice devs s node).bind Device.devIoctl with
  | some op => op iorq args s
  | none => ret (-1) s

def devfsClose (devs : Nat → Device W) (node : NodePtr) : Op W Int := fun s =>
  match (payloadDevice devs s node).bind Device.devClose with
  | some op => op s
  | none => ret (-1) s

def devfsReaddir (s : Fs) (index : Nat) : Option NodePtr := s.devices[index]?

/-! ## rootfs -/

def rootfsOpen (flags : Nat) : Int := if flags &&& voFread = 0 ∨ flags &&& voFwrite ≠ 0 then -1 else 0

def rootfsReaddir (s : Fs) (index : Nat) : Option NodePtr := (s.rootfsNodes.getD [])[index]?

/-! ## fs_fsops.c -/

/-- What `fs_open`, `fs_close`, `fs_read` and `fs_write` have in common: `hook` is what the
    operations table of a driver has for it. -/
def onFile {α : Type} (node : Option NodePtr) (fails : α) (hook : NodePtr → Family → Op W α) : Op W α := fun s =>
  match node with
  | some n => fileOp s n (ret fails) (hook n) s
  | none => ret fails s

def fsOpen (devs : Nat → Device W) (node : Option NodePtr) (flags : Nat) : Op W Int :=
  onFile node (-1) fun n => fun
    | .rootfs => ret (rootfsOpen flags)
    | .devfs => devfsOpen devs n flags
    | .tarfs => ret 0

def fsClose (devs : Nat → Device W) (node : Option NodePtr) : Op W Int :=
  onFile node (-1) fun n => fun
    | .rootfs => ret 0
    | .devfs => devfsClose devs n
    | .tarfs => ret 0

def fsRead (devs : Nat → Device W) (node : Option NodePtr) (offt buf len : Nat) : Op W Nat :=
  onFile node minusOne fun n => fun
    | .rootfs => ret 0
    | .devfs => devfsRead devs n offt buf len
    | .tarfs => fun s w => (tarfsRead s n offt buf len).map fun r => (r.1.mem, w, r.2)

/-- Neither rootfs nor tarfs has a `vfs_write`. -/
def fsWrite (devs : Nat → Device W) (node : Option NodePtr) (offt buf len : Nat) : Op W Nat :=
  onFile node minusOne fun n => fun
    | .rootfs => ret minusOne
    | .devfs => devfsWrite devs n offt buf len
    | .tarfs => ret minusOne

/-- Only devices are passed on, and only devfs has a `vfs_ioctl`. -/
def fsIoctl (devs : Nat → Device W) (node : Option NodePtr) (iorq : Int) (args : Nat) : Op W Int := fun s =>
  match node with
  | some n =>
    if (s.node n).volume = 0 then ret (-1) s
    else if (s.node n).flags = vnFchardev ∨ (s.node n).flags = vnFblockdev then
      match (s.vol (s.node n).volume).family with
      | .devfs => devfsIoctl devs n iorq args s
      | _ => ret (-1) s
    else ret (-1) s
  | none => ret (-1) s

/-- `NODE_OPS(node)->vfs_readdir`. -/
def readdirOf (s : Fs) (node : NodePtr) (index : Nat) : Family → Option NodePtr
  | .rootfs => rootfsReaddir s index
  | .devfs => devfsReaddir s index
  | .tarfs => tarfsReaddir s node index

def fsReaddir (s : Fs) (node : NodePtr) (index : Nat) : Option NodePtr :=
  if (s.node node).volume = 0 then none
  else if (s.node node).flags = vnFdir then readdirOf s node index (s.vol (s.node node).volume).family
  else none

/-! ## What a device file should do -/

inductive Kind where
  | chr
  | blk
  deriving DecidableEq

/-- A device is one or the other. -/
def kindOf (drvFlags : Nat) : Option Kind :=
  if drvFlags &&& (dvFblckdev ||| dvFchardev) = dvFblckdev then some .blk
  else if drvFlags &&& (dvFblckdev ||| dvFchardev) = dvFchardev then some .chr
  else none

/-- A call on a device of one kind. -/
def Device.call {α : Type} (dev : Device W) (fails : α) (op : Kind → Option (Op W α)) : Op W α :=
  ((kindOf dev.drvFlags).bind op).getD (ret fails)

def Device.open_ (dev : Device W) (flags : Nat) : Op W Int := dev.call (-1) fun _ => dev.devOpen.map fun op => op flags

/-- The function for the kind; blocks are transferred from an offset. -/
def Kind.pick (chr : Option (Nat → Nat → Op W Nat)) (blk : Option (Nat → Nat → Nat → Op W Nat)) (offt buf len : Nat) :
    Kind → Option (Op W Nat)
  | .chr => chr.map fun op => op buf len
  | .blk => blk.map fun op => op buf offt len

def Device.read (dev : Device W) (offt buf len : Nat) : Op W Nat :=
  dev.call minusOne (Kind.pick dev.devReadChr dev.devReadBlk offt buf len)

def Device.write (dev : Device W) (offt buf len : Nat) : Op W Nat :=
  dev.call minusOne (Kind.pick dev.devWriteChr dev.devWriteBlk offt buf len)

def Device.ioctl (dev : Device W) (iorq : Int) (args : Nat) : Op W Int :=
  dev.call (-1) fun _ => dev.devIoctl.map fun op => op iorq args

def Device.close (dev : Device W) : Op W Int := dev.call (-1) fun _ => dev.devClose

/-- Where no device is, every call fails. -/
def noDevice : Device W := ⟨0, none, none, none, none, none, none, none⟩

theorem Device.call_of {α : Type} {dev : Device W} {kind : Kind} (h : kindOf dev.drvFlags = some kind) (fails : α)
    (op : Kind → Option (Op W α)) : dev.call fails op = (op kind).getD (ret fails) := by
  rw [Device.call, h, Option.bind_some]

theorem noDevice_call {α : Type} (fails : α) (op : Kind → Option (Op W α)) : (noDevice : Device W).call fails op = ret fails := by
  simp [Device.call, noDevice, kindOf, dvFblckdev, dvFchardev]

/-- The device under a name. -/
def file (devs : Nat → Device W) (d : Dir) (name : List UInt8) : Device W :=
  (d (devKey name)).elim noDevice fun x => devs x.2

end Calls

/-! ## A node of a device -/

/-- The node is that of the device at `dev`. -/
structure DeviceFile (drvFlags : Nat → Nat) (s : Fs) (p : NodePtr) (dev : Nat) : Prop where
  volume : (s.node p).volume ≠ 0
  family : (s.vol (s.node p).volume).family = .devfs
  payload : (s.node p).payload = dev
  ne : dev ≠ 0
  flags : (s.node p).flags = deviceFlags (drvFlags dev)

theorem deviceFlags_eq (drvFlags : Nat) :
    deviceFlags drvFlags = (kindOf drvFlags).elim 0 fun | .chr => vnFchardev | .blk => vnFblockdev := by
  unfold deviceFlags kindOf
  split
  · rfl
  · split
    · rfl
    · rfl

theorem kindOf_bits {drvFlags : Nat} {kind : Kind} (h : kindOf drvFlags = some kind) :
    (drvFlags &&& dvFchardev ≠ 0 ↔ kind = .chr) ∧ (drvFlags &&& dvFblckdev ≠ 0 ↔ kind = .blk) := by
  have hchr : drvFlags &&& dvFchardev = drvFlags &&& (dvFblckdev ||| dvFchardev) &&& dvFchardev := by
    rw [Nat.and_assoc]
    rfl
  have hblk : drvFlags &&& dvFblckdev = drvFlags &&& (dvFblckdev ||| dvFchardev) &&& dvFblckdev := by
    rw [Nat.and_assoc]
    rfl
  rw [hchr, hblk]
  unfold kindOf at h
  split at h
  · rename_i hbits
    cases h
    rw [hbits]
    decide
  · split at h
    · rename_i hbits
      cases h
      rw [hbits]
      decide
    · cases h

section Node

variable {W : Type} {devs : Nat → Device W} {s : Fs} {p : NodePtr} {dev : Nat}

/-- The function the code picks is the one of the device's kind. -/
theorem transfer_eq {drvFlags : Nat} {kind : Kind} (h : kindOf drvFlags = some kind) (chr : Option (Nat → Nat → Op W Nat))
    (blk : Option (Nat → Nat → Nat → Op W Nat)) (offt buf len : Nat) :
    transfer drvFlags chr blk offt buf len = (kind.pick chr blk offt buf len).getD (ret minusOne) := by
  obtain ⟨hchr, hblk⟩ := kindOf_bits h
  unfold transfer
  cases kind with
  | chr =>
    have hnot : ¬ drvFlags &&& dvFblckdev ≠ 0 := fun hb => nomatch hblk.mp hb
    rw [if_pos (hchr.mpr rfl), if_neg hnot]
    cases chr <;> rfl
  | blk =>
    have hnot : ¬ drvFlags &&& dvFchardev ≠ 0 := fun hc => nomatch hchr.mp hc
    rw [if_neg hnot, if_pos (hblk.mpr rfl)]
    cases blk <;> rfl

variable (h : DeviceFile (fun a => (devs a).drvFlags) s p dev)
include h

theorem DeviceFile.device : payloadDevice devs s p = some (devs dev) := by
  rw [payloadDevice, h.payload, if_neg h.ne]

theorem DeviceFile.kind :
    (OpensAsFile (s.node p).flags ↔ (kindOf (devs dev).drvFlags).isSome) ∧
    ((s.node p).flags = vnFchardev ∨ (s.node p).flags = vnFblockdev ↔ (kindOf (devs dev).drvFlags).isSome) := by
  rw [h.flags, deviceFlags_eq]
  cases kindOf (devs dev).drvFlags with
  | none => simp [OpensAsFile, vnFregfile, vnFchardev, vnFblockdev]
  | some kind => cases kind <;> simp [OpensAsFile, vnFregfile, vnFchardev, vnFblockdev]

/-- The call gets to devfs, and from there to the device. -/
theorem DeviceFile.onFile {α : Type} {fails : α} {hook : NodePtr → Family → Op W α} {op : Kind → Option (Op W α)}
    (hop : ∀ kind, kindOf (devs dev).drvFlags = some kind → hook p .devfs s = (op kind).getD (ret fails) s) :
    onFile (some p) fails hook s = (devs dev).call fails op s := by
  have hkind := h.kind.1
  unfold Fsops.onFile fileOp Device.call
  dsimp only
  rw [if_neg h.volume, h.family]
  cases hk : kindOf (devs dev).drvFlags with
  | none =>
    rw [hk] at hkind
    rw [if_neg fun ho => nomatch hkind.mp ho]
    rfl
  | some kind =>
    rw [hk] at hkind
    rw [if_pos (hkind.mpr rfl)]
    exact hop kind hk

theorem DeviceFile.fsOpen (flags : Nat) : fsOpen devs (some p) flags s = (devs dev).open_ flags s := by
  apply h.onFile
  intro kind _
  simp only [devfsOpen, h.device, Option.bind_some]
  cases (devs dev).devOpen <;> rfl

theorem DeviceFile.fsClose : fsClose devs (some p) s = (devs dev).close s := by
  apply h.onFile
  intro kind _
  simp only [devfsClose, h.device, Option.bind_some]
  cases (devs dev).devClose <;> rfl

theorem DeviceFile.fsRead (offt buf len : Nat) : fsRead devs (some p) offt buf len s = (devs dev).read offt buf len s := by
  apply h.onFile
  intro kind hk
  simp only [devfsRead, h.device, transfer_eq hk]

theorem DeviceFile.fsWrite (offt buf len : Nat) : fsWrite devs (some p) offt buf len s = (devs dev).write offt buf len s := by
  apply h.onFile
  intro kind hk
  simp only [devfsWrite, h.device, transfer_eq hk]

theorem DeviceFile.fsIoctl (iorq : Int) (args : Nat) : fsIoctl devs (some p) iorq args s = (devs dev).ioctl iorq args s := by
  have hkind := h.kind.2
  unfold Fsops.fsIoctl Device.ioctl Device.call
  dsimp only
  rw [if_neg h.volume, h.family]
  cases hk : kindOf (devs dev).drvFlags with
  | none =>
    rw [hk] at hkind
    rw [if_neg fun ho => nomatch hkind.mp ho]
    rfl
  | some kind =>
    rw [hk] at hkind
    rw [if_pos (hkind.mpr rfl)]
    simp only [devfsIoctl, h.device, Option.bind_some]
    cases (devs dev).devIoctl <;> rfl

end Node

/-! ## Runs -/

/-- "ROOT" and "DEV". -/
def rootName : List UInt8 := [82, 79, 79, 84]
def devName : List UInt8 := [68, 69, 86]

/-- No device and no volume has its node in the memory of a node at `a`. -/
def Unused (s : Fs) (a : Nat) : Prop := ClearOf s.devices a ∧ ClearOf (s.rootfsNodes.getD []) a

/-- The mounts `vfs_init` and `device_init` make. -/
structure Started (registered : List Family) (s₀ s : Fs) : Prop where
  nodes : s₀.rootfsNodes = none
  devices : s₀.devices = []
  roots : s₀.node .rootfsRoot = staticRoot ∧ s₀.node .devfsRootdir = staticRoot
  mounts : ∃ rootAnswers s₁ devAnswers, rootAnswers.volume ≠ 0 ∧ vfsInit rootAnswers registered s₀ = some s₁ ∧
    MountFresh devAnswers s₁ ∧ vfsMount devAnswers s₁ Family.devfs.ident devName 0 = some (s, 0)

/-- Then devices come and go and volumes of tarfs do, and memory is written; and what should be
    installed under which name. `malloc` gives memory that is not in use. Devices are installed under
    names their nodes can hold, of flags a node can show (`Installable`), and removed under
    names that lead to their own device (`Agrees`); a volume's name has 1 to 63 bytes; a mount writes
    nothing behind the nodes of an archive, and only archives are unmounted. -/
inductive KernelRun (drvFlags : Nat → Nat) (registered : List Family) : Fs → Dir → Prop
  | start {s₀ s : Fs} : Started registered s₀ s → KernelRun drvFlags registered s fun _ => none
  | install {s : Fs} {d : Dir} (dev : Nat) (name : List UInt8) (answer : Nat × Mem) : KernelRun drvFlags registered s d →
      dev ≠ 0 → answer.1 ≠ 0 → Unused s answer.1 → Installable drvFlags s dev name →
      KernelRun drvFlags registered (deviceInstall drvFlags s dev name answer).1 (d.install name dev)
  | remove {s : Fs} {d : Dir} (name : List UInt8) : KernelRun drvFlags registered s d → Agrees s name →
      KernelRun drvFlags registered (deviceRemove s name) (d.remove name)
  | mount {s : Fs} {d : Dir} {answers : MountAnswers} {driver name : List UInt8} {argp : Nat} {r : Fs × Int} :
      KernelRun drvFlags registered s d → 1 ≤ strlen name → strlen name < 64 → answers.volume ∉ s.volumes →
      Unused s answers.rootNode.1 → (∀ t, Unused s (answers.tar.vnode t).vnode) →
      vfsMount answers s driver name argp = some r → r.1.spilled = s.spilled → KernelRun drvFlags registered r.1 d
  | umount {s : Fs} {d : Dir} (name : List UInt8) : KernelRun drvFlags registered s d →
      (∀ v, findMountpointByName s name = some v → (s.vol v).family = .tarfs) →
      KernelRun drvFlags registered (vfsUmount s name).1 d
  | store {s : Fs} {d : Dir} (m : Mem) : KernelRun drvFlags registered s d → KernelRun drvFlags registered { s with mem := m } d

/-! ## The invariant -/

/-- The volume is in the table, with a driver's own root. -/
structure OwnRoot (s : Fs) (root : NodePtr) (family : Family) (name : List UInt8) (v : Nat) : Prop where
  mem : v ∈ s.volumes
  ne : v ≠ 0
  vol : s.vol v = ⟨name, family, some root, 0⟩
  flags : (s.node root).flags = vnFdir
  volume : (s.node root).volume = v

theorem OwnRoot.frame {s s' : Fs} {root : NodePtr} {family : Family} {name : List UInt8} {v : Nat}
    (h : OwnRoot s root family name v) (hmem : v ∈ s'.volumes) (hvol : s'.vol v = s.vol v)
    (hnode : s'.node root = s.node root) : OwnRoot s' root family name v := by
  refine ⟨hmem, h.ne, hvol.trans h.vol, ?_, ?_⟩
  · rw [hnode]
    exact h.flags
  · rw [hnode]
    exact h.volume

theorem DeviceFile.congr {drvFlags : Nat → Nat} {s s' : Fs} {p : NodePtr} (h : DeviceFile drvFlags s p (s.node p).payload)
    (hnode : s'.node p = s.node p) (hvol : s'.vol (s.node p).volume = s.vol (s.node p).volume) :
    DeviceFile drvFlags s' p (s'.node p).payload := by
  refine ⟨?_, ?_, rfl, ?_, ?_⟩
  · rw [hnode]
    exact h.volume
  · rw [hnode, hvol]
    exact h.family
  · rw [hnode]
    exact h.ne
  · rw [hnode]
    exact h.flags

/-- `rv` and `dv` are the volumes of rootfs and devfs. -/
structure Running (drvFlags : Nat → Nat) (rv dv : Nat) (s : Fs) (d : Dir) : Prop where
  inStep : ∃ ns, InStep s ns
  lists : Lists s d
  root : OwnRoot s .rootfsRoot .rootfs rootName rv
  dev : OwnRoot s .devfsRootdir .devfs devName dv
  heap : ∀ p ∈ s.devices, ∃ a, p = .heap a
  file : ∀ p ∈ s.devices, DeviceFile drvFlags s p (s.node p).payload ∧ (s.node p).volume = dv
  apart : ∀ p ∈ s.devices, p ∉ s.rootfsNodes.getD []

section Run

variable {drvFlags : Nat → Nat} {registered : List Family} {rv dv : Nat} {s s' : Fs} {d : Dir}

theorem lists_frame (h : Lists s d) (hdevices : s'.devices = s.devices) (hnode : ∀ p ∈ s.devices, s'.node p = s.node p) :
    Lists s' d := by
  have hkeys : ∀ p ∈ s.devices, nodeKey s' p = nodeKey s p := fun p hp => by rw [nodeKey, nodeKey, hnode p hp]
  refine ⟨?_, ?_, fun k => ?_, fun k name dev hd => ?_⟩
  · rw [hdevices]
    exact h.distinct.congr hkeys
  · rw [hdevices]
    intro p hp
    rw [hnode p hp]
    exact h.flags p hp
  · rw [hdevices, Directory.find_congr hkeys, h.found]
    cases hf : Directory.find (nodeKey s) s.devices k with
    | none => rfl
    | some p => rw [Option.map_some, Option.map_some, hnode p (Directory.find_mem hf).1]
  · obtain ⟨hk, ha⟩ := h.named k name dev hd
    refine ⟨hk, ?_⟩
    unfold Agrees
    rw [hdevices]
    intro p hp hpk
    rw [hnode p hp]
    exact ha p hp ((hkeys p hp).symm.trans hpk)

/-- A step that leaves the devices and the two roots alone, and keeps the mount table in step. -/
theorem Running.frame (h : Running drvFlags rv dv s d) (hin : ∃ ns, InStep s' ns) (hdevices : s'.devices = s.devices)
    (hnode : ∀ p, p ∈ s.devices ∨ p = .rootfsRoot ∨ p = .devfsRootdir → s'.node p = s.node p)
    (hvol : s'.vol rv = s.vol rv ∧ s'.vol dv = s.vol dv) (hmem : rv ∈ s'.volumes ∧ dv ∈ s'.volumes)
    (hapart : ∀ p ∈ s.devices, p ∉ s'.rootfsNodes.getD []) : Running drvFlags rv dv s' d := by
  have hdev : ∀ p ∈ s.devices, s'.node p = s.node p := fun p hp => hnode p (.inl hp)
  refine ⟨hin, lists_frame h.lists hdevices hdev, h.root.frame hmem.1 hvol.1 (hnode _ (.inr (.inl rfl))),
    h.dev.frame hmem.2 hvol.2 (hnode _ (.inr (.inr rfl))), ?_, ?_, ?_⟩
  · rw [hdevices]
    exact h.heap
  · rw [hdevices]
    intro p hp
    obtain ⟨hfile, hv⟩ := h.file p hp
    refine ⟨hfile.congr (hdev p hp) (by rw [hv, hvol.2]), ?_⟩
    rw [hdev p hp]
    exact hv
  · rw [hdevices]
    exact hapart

theorem Running.store (h : Running drvFlags rv dv s d) (m : Mem) : Running drvFlags rv dv { s with mem := m } d := by
  obtain ⟨ns, hin⟩ := h.inStep
  refine h.frame ⟨ns, hin.frame rfl rfl (fun _ _ => rfl) fun _ _ => rfl⟩ rfl (fun _ _ => rfl) ⟨rfl, rfl⟩ ⟨h.root.mem, h.dev.mem⟩ ?_
  exact h.apart

theorem Running.remove (h : Running drvFlags rv dv s d) {name : List UInt8} (ha : Agrees s name) :
    Running drvFlags rv dv (deviceRemove s name) (d.remove name) := by
  obtain ⟨ns, hin⟩ := h.inStep
  have hlists := h.lists.remove ha
  unfold deviceRemove at hlists ⊢
  cases hf : devfsFinddir s name with
  | none =>
    rw [hf] at hlists
    exact ⟨⟨ns, hin⟩, hlists, h.root, h.dev, h.heap, h.file, h.apart⟩
  | some p =>
    rw [hf] at hlists
    have hold : ∀ q ∈ s.devices.erase p, q ∈ s.devices := fun q hq => List.mem_of_mem_erase hq
    refine ⟨⟨ns, hin.frame rfl rfl (fun _ _ => rfl) fun _ _ => rfl⟩, hlists, h.root.frame h.root.mem rfl rfl,
      h.dev.frame h.dev.mem rfl rfl, fun q hq => h.heap q (hold q hq), fun q hq => ?_, fun q hq => h.apart q (hold q hq)⟩
    obtain ⟨hfile, hv⟩ := h.file q (hold q hq)
    exact ⟨hfile.congr rfl rfl, hv⟩

theorem Running.install (h : Running drvFlags rv dv s d) {dev : Nat} {name : List UInt8} {answer : Nat × Mem} (hdev : dev ≠ 0)
    (h0 : answer.1 ≠ 0) (hfresh : Unused s answer.1) (hi : Installable drvFlags s dev name) :
    Running drvFlags rv dv (deviceInstall drvFlags s dev name answer).1 (d.install name dev) := by
  obtain ⟨ns, hin⟩ := h.inStep
  have hlists := (h.lists.install h0 hfresh.1.not_mem hi).2
  unfold deviceInstall at hlists ⊢
  cases hf : devfsFinddir s name with
  | some p =>
    rw [hf] at hlists
    exact ⟨⟨ns, hin⟩, hlists, h.root, h.dev, h.heap, h.file, h.apart⟩
  | none =>
    rw [hf] at hlists
    dsimp only at hlists ⊢
    rw [if_neg h0] at hlists ⊢
    generalize hn : deviceNode drvFlags s dev name answer.2 = n at hlists ⊢
    have hrootdir : (s.node .devfsRootdir).volume = dv := h.dev.volume
    have hother : ∀ p, p ≠ .heap answer.1 → (s.addDevice (.heap answer.1) n).node p = s.node p := fun p hp => Fs.setNode_ne s n hp
    have hself := addDevice_new s (.heap answer.1) n
    have hsplit : ∀ p ∈ (s.addDevice (.heap answer.1) n).devices, p ∈ s.devices ∨ p = .heap answer.1 := by
      intro p hp
      rcases List.mem_append.mp hp with hp | hp
      · exact .inl hp
      · exact .inr (List.mem_singleton.mp hp)
    have hns : ∀ p ∈ ns, p ≠ .heap answer.1 := by
      intro p hp he
      apply hfresh.2.not_mem
      rw [hin.nodes, Option.getD_some]
      exact he ▸ hp
    refine ⟨⟨ns, hin.frame rfl rfl (fun p hp => hother p (hns p hp)) fun _ _ => rfl⟩, hlists,
      h.root.frame h.root.mem rfl (hother _ NodePtr.noConfusion), h.dev.frame h.dev.mem rfl (hother _ NodePtr.noConfusion),
      fun p hp => ?_, fun p hp => ?_, fun p hp => ?_⟩
    · rcases hsplit p hp with hp | rfl
      · exact h.heap p hp
      · exact ⟨_, rfl⟩
    · rcases hsplit p hp with hp | rfl
      · obtain ⟨hfile, hv⟩ := h.file p hp
        have hp' := hother p fun he => hfresh.1.not_mem (he ▸ hp)
        refine ⟨hfile.congr hp' rfl, ?_⟩
        rw [hp']
        exact hv
      · rw [hself, ← hn]
        refine ⟨⟨?_, ?_, ?_, hdev, ?_⟩, hrootdir⟩
        · rw [addDevice_new]
          show (s.node .devfsRootdir).volume ≠ 0
          rw [hrootdir]
          exact h.dev.ne
        · rw [addDevice_new]
          show (s.vol (s.node .devfsRootdir).volume).family = .devfs
          rw [hrootdir, h.dev.vol]
        · rw [addDevice_new]
        · rw [addDevice_new]
          rfl
    · rcases hsplit p hp with hp | rfl
      · exact h.apart p hp
      · exact hfresh.2.not_mem

/-- What a driver's mount leaves of a state in which rootfs and devfs are mounted. -/
structure Keeps (answers : MountAnswers) (s s' : Fs) : Prop where
  volumes : s'.volumes = s.volumes
  rootfsNodes : s'.rootfsNodes = s.rootfsNodes
  devices : s'.devices = s.devices
  node : ∀ p, (∀ t, p ≠ .heap (answers.tar.vnode t).vnode) → s'.node p = s.node p
  vol : ∀ v, v ≠ answers.volume → s'.vol v = s.vol v

/-- devfs has its volume already, and rootfs its list. -/
theorem Running.fsdMount (h : Running drvFlags rv dv s d) {answers : MountAnswers} {vol : Volume} {family : Family}
    {mounted : Fs × Int} (hmount : fsdMount answers (s.setVol answers.volume vol) answers.volume family = some mounted) :
    Keeps answers s mounted.1 := by
  obtain ⟨ns, hin⟩ := h.inStep
  have hset : Keeps answers s (s.setVol answers.volume vol) :=
    ⟨rfl, rfl, rfl, fun _ _ => rfl, fun v hv => Fs.setVol_ne s vol hv⟩
  have hns : (s.setVol answers.volume vol).rootfsNodes.isSome := by
    show s.rootfsNodes.isSome
    rw [hin.nodes]
    rfl
  rcases fsdMount_cases hmount hns with rfl | ⟨-, h0, -⟩ | ⟨-, s', root, hkeeps, rfl, -⟩
  · exact hset
  · exact absurd (h.dev.volume.symm.trans h0) h.dev.ne
  · refine ⟨hkeeps.volumes, hkeeps.rootfsNodes, hkeeps.devices, hkeeps.node, fun v hv => ?_⟩
    rw [Fs.setVol_ne s' _ hv, hkeeps.vol]
    exact hset.vol v hv

theorem Running.mount (h : Running drvFlags rv dv s d) {answers : MountAnswers} {driver name : List UInt8} {argp : Nat}
    {r : Fs × Int} (h1 : 1 ≤ strlen name) (h64 : strlen name < 64) (hvolume : answers.volume ∉ s.volumes)
    (hroot : Unused s answers.rootNode.1) (hvnode : ∀ t, Unused s (answers.tar.vnode t).vnode)
    (hmount : vfsMount answers s driver name argp = some r) : Running drvFlags rv dv r.1 d := by
  obtain ⟨ns, hin⟩ := h.inStep
  have hrv : rv ≠ answers.volume := ne_of_mem_of_not_mem h.root.mem hvolume
  have hdv : dv ≠ answers.volume := ne_of_mem_of_not_mem h.dev.mem hvolume
  have hin' : ∃ ns, InStep r.1 ns := by
    rcases hin.mount h1 h64 ⟨hvolume, hroot.2, fun t => (hvnode t).2⟩ hmount with ⟨-, -, -, h'⟩ | ⟨-, h'⟩
    · exact ⟨_, h'⟩
    · exact ⟨_, h'⟩
  rcases vfsMount_cases hmount with rfl | ⟨family, mounted, -, -, -, hdriver, hend⟩
  · exact h
  have hkeeps := h.fsdMount hdriver
  have hold : ∀ p, p ∈ s.devices ∨ p = .rootfsRoot ∨ p = .devfsRootdir →
      mounted.1.node p = s.node p ∧ p ≠ .heap answers.rootNode.1 := by
    rintro p (hp | rfl | rfl)
    · exact ⟨hkeeps.node p fun t he => (hvnode t).1.not_mem (he ▸ hp), fun he => hroot.1.not_mem (he ▸ hp)⟩
    · exact ⟨hkeeps.node _ fun _ => NodePtr.noConfusion, NodePtr.noConfusion⟩
    · exact ⟨hkeeps.node _ fun _ => NodePtr.noConfusion, NodePtr.noConfusion⟩
  rcases hend with ⟨-, rfl⟩ | ⟨-, rfl⟩
  · apply h.frame hin' hkeeps.devices (fun p hp => (hold p hp).1) ⟨hkeeps.vol rv hrv, hkeeps.vol dv hdv⟩
    · rw [hkeeps.volumes]
      exact ⟨h.root.mem, h.dev.mem⟩
    · rw [hkeeps.rootfsNodes]
      exact h.apart
  · refine h.frame hin' hkeeps.devices (fun p hp => ?_) ⟨hkeeps.vol rv hrv, hkeeps.vol dv hdv⟩ ?_ fun p hp => ?_
    · rw [← (hold p hp).1]
      exact Fs.setNode_ne _ _ (hold p hp).2
    · show rv ∈ mounted.1.volumes ++ [answers.volume] ∧ dv ∈ mounted.1.volumes ++ [answers.volume]
      rw [hkeeps.volumes]
      exact ⟨List.mem_append_left _ h.root.mem, List.mem_append_left _ h.dev.mem⟩
    · show p ∉ (mounted.1.rootfsNodes.map fun nodes => nodes ++ [.heap answers.rootNode.1]).getD []
      have hapart := h.apart p hp
      rw [hin.nodes, Option.getD_some] at hapart
      rw [hkeeps.rootfsNodes, hin.nodes, Option.map_some, Option.getD_some, List.mem_append, List.mem_singleton, not_or]
      exact ⟨hapart, (hold p (.inl hp)).2⟩

theorem Running.umount (h : Running drvFlags rv dv s d) {name : List UInt8}
    (hname : ∀ v, findMountpointByName s name = some v → (s.vol v).family = .tarfs) :
    Running drvFlags rv dv (vfsUmount s name).1 d := by
  obtain ⟨ns, hin⟩ := h.inStep
  rcases hin.umount name with ⟨-, heq⟩ | ⟨p, hin'⟩
  · rw [heq]
    exact h
  cases hv : findMountpointByName s name with
  | none =>
    rw [vfsUmount, hv]
    exact h
  | some v =>
    have hnodes := hin'.nodes
    obtain ⟨ns', heq⟩ := vfsUmount_eq (by rw [hin.nodes]; rfl) hv
    rw [heq] at hin' hnodes ⊢
    cases hnodes
    -- the volume that goes is neither rootfs's nor devfs's
    have hfamily := hname v hv
    have hrv : rv ≠ v := by
      rintro rfl
      rw [h.root.vol] at hfamily
      cases hfamily
    have hdv : dv ≠ v := by
      rintro rfl
      rw [h.dev.vol] at hfamily
      cases hfamily
    refine h.frame ⟨_, hin'⟩ rfl (fun _ _ => rfl) ⟨rfl, rfl⟩
      ⟨(List.mem_erase_of_ne hrv).mpr h.root.mem, (List.mem_erase_of_ne hdv).mpr h.dev.mem⟩ fun q hq hmem => ?_
    apply h.apart q hq
    rw [hin.nodes, Option.getD_some]
    exact List.mem_of_mem_erase hmem

/-! ## The start -/

theorem getDriverByName_devfs {family : Family} (h : getDriverByName s Family.devfs.ident = some family) : family = .devfs := by
  unfold getDriverByName at h
  have hname : strcmp Family.devfs.ident family.ident = 0 := by simpa using List.find?_some h
  cases family with
  | devfs => rfl
  | rootfs => exact absurd hname (by decide)
  | tarfs => exact absurd hname (by decide)

/-- devfs has no volume before its mount, and that one succeeds. -/
theorem devfsMount_cases {answers : MountAnswers} {name : List UInt8} (hns : s.rootfsNodes.isSome)
    (hmount : vfsMount answers s Family.devfs.ident name 0 = some (s', 0)) : answers.volume ≠ 0 ∧
      s'.volumes = s.volumes ++ [answers.volume] ∧ s'.devices = s.devices ∧
      s'.vol answers.volume = ⟨strdup answers.dup name, .devfs, some .devfsRootdir, 0⟩ ∧
      (∀ v, v ≠ answers.volume → s'.vol v = s.vol v) ∧
      s'.node .devfsRootdir = { s.node .devfsRootdir with volume := answers.volume } ∧
      s'.node .rootfsRoot = s.node .rootfsRoot := by
  rcases vfsMount_cases hmount with hr | ⟨family, mounted, -, hdriver, h0, hdevfs, hend⟩
  · exact absurd (Prod.mk.inj hr).2 (by decide)
  obtain rfl := getDriverByName_devfs hdriver
  rcases hend with ⟨-, hr⟩ | ⟨hok, hr⟩
  · exact absurd (Prod.mk.inj hr).2 (by decide)
  obtain rfl := (Prod.mk.inj hr).1
  rcases fsdMount_cases hdevfs hns with rfl | ⟨-, -, rfl⟩ | ⟨hf, -⟩
  · have hneg : (0 : Int) ≤ -1 := hok
    exact absurd hneg (by decide)
  · refine ⟨h0, rfl, rfl, ?_, fun v hv => ?_, ?_, ?_⟩
    · simp [rootfsRegisterVolume, Fs.setVol, Fs.setNode]
    · simp [rootfsRegisterVolume, Fs.setVol, Fs.setNode, hv]
    · simp [rootfsRegisterVolume, Fs.setVol, Fs.setNode]
    · simp [rootfsRegisterVolume, Fs.setVol, Fs.setNode]
  · cases hf

theorem vfsInit_fields {s₀ : Fs} (hroot : s₀.rootfsNodes = none) {answers : MountAnswers} (h0 : answers.volume ≠ 0)
    (hinit : vfsInit answers registered s₀ = some s) : s.volumes = [answers.volume] ∧ s.devices = s₀.devices ∧
      s.vol answers.volume = ⟨rootName, .rootfs, some .rootfsRoot, 0⟩ ∧
      s.node .devfsRootdir = s₀.node .devfsRootdir ∧
      s.node .rootfsRoot = { s₀.node .rootfsRoot with volume := answers.volume } := by
  rw [vfsInit_eq hroot h0, Option.some.injEq] at hinit
  subst hinit
  refine ⟨rfl, rfl, ?_, ?_, ?_⟩
  · simp [rootfsRegisterVolume, rootMounted, Fs.setVol, Fs.setNode, rootName]
  · simp [rootfsRegisterVolume, rootMounted, Fs.setVol, Fs.setNode]
  · simp [rootfsRegisterVolume, rootMounted, Fs.setVol, Fs.setNode]

theorem Started.running {s₀ : Fs} (h : Started registered s₀ s) : ∃ rv dv, Running drvFlags rv dv s fun _ => none := by
  obtain ⟨rootAnswers, s₁, devAnswers, h0, hinit, hfresh, hmount⟩ := h.mounts
  have hin₁ := InStep.init h.nodes h0 hinit
  have hin : ∃ ns, InStep s ns := by
    rcases hin₁.mount (by decide) (by decide) hfresh hmount with ⟨-, -, -, h'⟩ | ⟨-, h'⟩
    · exact ⟨_, h'⟩
    · exact ⟨_, h'⟩
  obtain ⟨hvolumes₁, hdevices₁, hvol₁, hrootdir₁, hroot₁⟩ := vfsInit_fields h.nodes h0 hinit
  obtain ⟨hdv0, hvolumes, hdevices, hvol, hother, hrootdir, hroot⟩ := devfsMount_cases (by rw [hin₁.nodes]; rfl) hmount
  have hnone : s.devices = [] := hdevices.trans (hdevices₁.trans h.devices)
  rw [hvolumes₁] at hvolumes
  have hne : rootAnswers.volume ≠ devAnswers.volume := by
    apply ne_of_mem_of_not_mem _ hfresh.volume
    rw [hvolumes₁]
    exact List.mem_singleton_self _
  refine ⟨rootAnswers.volume, devAnswers.volume, hin, @deviceRun_lists drvFlags _ _ (.start _ hnone), ⟨?_, h0, ?_, ?_, ?_⟩,
    ⟨?_, hdv0, hvol, ?_, ?_⟩, ?_, ?_, ?_⟩
  · rw [hvolumes]
    exact List.mem_append_left _ (List.mem_singleton_self _)
  · rw [hother _ hne, hvol₁]
  · rw [hroot, hroot₁, h.roots.1]
    rfl
  · rw [hroot, hroot₁]
  · rw [hvolumes]
    exact List.mem_append_right _ (List.mem_singleton_self _)
  · rw [hrootdir, hrootdir₁, h.roots.2]
    rfl
  · rw [hrootdir]
  all_goals
    rw [hnone]
    exact List.forall_mem_nil _

/-- What every step keeps, over a run. -/
theorem kernelRun_running (hr : KernelRun drvFlags registered s d) : ∃ rv dv, Running drvFlags rv dv s d := by
  induction hr with
  | start h => exact h.running
  | install dev name answer _ hdev h0 hfresh hi ih =>
    obtain ⟨rv, dv, h⟩ := ih
    exact ⟨rv, dv, h.install hdev h0 hfresh hi⟩
  | remove name _ ha ih =>
    obtain ⟨rv, dv, h⟩ := ih
    exact ⟨rv, dv, h.remove ha⟩
  | mount _ h1 h64 hvolume hroot hvnode hmount _ ih =>
    obtain ⟨rv, dv, h⟩ := ih
    exact ⟨rv, dv, h.mount h1 h64 hvolume hroot hvnode hmount⟩
  | umount name _ hname ih =>
    obtain ⟨rv, dv, h⟩ := ih
    exact ⟨rv, dv, h.umount hname⟩
  | store m _ ih =>
    obtain ⟨rv, dv, h⟩ := ih
    exact ⟨rv, dv, h.store m⟩

/-! ## Through `DEV:` -/

theorem Running.vfsGetVolume (h : Running drvFlags rv dv s d) : vfsGetVolume s devName = some .devfsRootdir := by
  obtain ⟨ns, hin⟩ := h.inStep
  have hkey : volKey s dv = (cstr devName).take 17 := by rw [volKey, h.dev.vol]
  have hfind : findMountpointByName s devName = some dv := by
    rw [findMountpointByName_eq, ← hkey]
    exact hin.distinct.find_self h.dev.mem
  rw [Kern.vfsGetVolume, hfind]
  dsimp only
  rw [h.dev.vol]

theorem OwnRoot.fsFinddir {root : NodePtr} {family : Family} {name : List UInt8} {v : Nat} (h : OwnRoot s root family name v)
    (entry : List UInt8) : fsFinddir s root entry = finddirOf s root entry family := by
  rw [Kern.fsFinddir, h.volume, if_neg h.ne, if_pos h.flags, h.vol]

theorem OwnRoot.fsReaddir {root : NodePtr} {family : Family} {name : List UInt8} {v : Nat} (h : OwnRoot s root family name v)
    (index : Nat) : fsReaddir s root index = readdirOf s root index family := by
  rw [Fsops.fsReaddir, h.volume, if_neg h.ne, if_pos h.flags, h.vol]

theorem Running.resolve (h : Running drvFlags rv dv s d) {name : List UInt8} (h0 : 0 ∉ name) (hslash : slash ∉ name)
    (hne : name ≠ []) (dup : List UInt8) : fsResolve dup s (volumePath devName name) = .ret (devfsFinddir s name) := by
  have hhead : name.headD 0 ≠ 0 := by
    intro he
    cases name with
    | nil => exact hne rfl
    | cons c name => exact h0 (he ▸ List.mem_cons_self)
  rw [fsResolve_volumePath (by decide) (by decide) h0, h.vfsGetVolume]
  dsimp only
  rw [if_pos hhead, fsFollowPath_last h0 hslash, h.dev.fsFinddir]
  rfl

/-- The node of a device that is installed. -/
theorem Running.found (h : Running drvFlags rv dv s d) {name : List UInt8} (h0 : 0 ∉ name) (hslash : slash ∉ name)
    (hne : name ≠ []) (ha : Agrees s name) {x : List UInt8 × Nat} (hx : d (devKey name) = some x) :
    ∃ p, (∀ dup, fsResolve dup s (volumePath devName name) = .ret (some p)) ∧ DeviceFile drvFlags s p x.2 := by
  have hfound := h.lists.found (devKey name)
  rw [hx, Option.map_some, eq_comm, Option.map_eq_some_iff] at hfound
  obtain ⟨p, hp, hpayload⟩ := hfound
  refine ⟨p, fun dup => ?_, ?_⟩
  · rw [h.resolve h0 hslash hne, h.lists.finddir ha, hp]
  · rw [← hpayload]
    exact (h.file p (Directory.find_mem hp).1).1

end Run

/-- What is installed under a name that meets the condition is behind the name in `DEV:`:
    every call on the node a path leads to is the device's own, with the function for its kind,
    and every call fails where there is no device. -/
theorem device_files_are_their_devices {W : Type} {devs : Nat → Device W} {registered : List Family} {s : Fs} {d : Dir}
    (hr : KernelRun (fun a => (devs a).drvFlags) registered s d) {name : List UInt8} (h0 : 0 ∉ name) (hslash : slash ∉ name)
    (hne : name ≠ []) (ha : Agrees s name) :
    ∃ node, (∀ dup, fsResolve dup s (volumePath devName name) = .ret node) ∧ (node = none ↔ d (devKey name) = none) ∧
      (∀ flags, fsOpen devs node flags s = (file devs d name).open_ flags s) ∧
      (∀ offt buf len, fsRead devs node offt buf len s = (file devs d name).read offt buf len s) ∧
      (∀ offt buf len, fsWrite devs node offt buf len s = (file devs d name).write offt buf len s) ∧
      (∀ iorq args, fsIoctl devs node iorq args s = (file devs d name).ioctl iorq args s) ∧
      fsClose devs node s = (file devs d name).close s := by
  obtain ⟨rv, dv, h⟩ := kernelRun_running hr
  refine ⟨devfsFinddir s name, h.resolve h0 hslash hne, ?_⟩
  have hfound := h.lists.found (devKey name)
  rw [h.lists.finddir ha]
  cases hf : Directory.find (nodeKey s) s.devices (devKey name) with
  | none =>
    rw [hf, Option.map_none, Option.map_eq_none_iff] at hfound
    have hfile : file devs d name = noDevice := by rw [file, hfound]; rfl
    rw [hfile]
    refine ⟨⟨fun _ => hfound, fun _ => rfl⟩, fun _ => ?_, fun _ _ _ => ?_, fun _ _ _ => ?_, fun _ _ => ?_, ?_⟩
    · rw [Device.open_, noDevice_call]
      rfl
    · rw [Device.read, noDevice_call]
      rfl
    · rw [Device.write, noDevice_call]
      rfl
    · rw [Device.ioctl, noDevice_call]
      rfl
    · rw [Device.close, noDevice_call]
      rfl
  | some p =>
    rw [hf, Option.map_some, Option.map_eq_some_iff] at hfound
    obtain ⟨x, hx, hpayload⟩ := hfound
    have hfile : file devs d name = devs (s.node p).payload := by rw [file, hx, ← hpayload]; rfl
    have hp := (h.file p (Directory.find_mem hf).1).1
    rw [hfile, hx]
    exact ⟨⟨fun hn => (nomatch hn), fun hn => (nomatch hn)⟩, hp.fsOpen, hp.fsRead, hp.fsWrite, hp.fsIoctl, hp.fsClose⟩

/-- "fb". -/
def fbName : List UInt8 := [102, 98]

/-- A character device that counts what is written to it. -/
def counter : Device Nat where
  drvFlags := dvFchardev
  devOpen := some fun _ => ret 0
  devReadBlk := none
  devWriteBlk := none
  devReadChr := none
  devWriteChr := some fun _ len s written => some (s.mem, written + len, len)
  devIoctl := none
  devClose := none

/-- The kernel starts and one device is installed. -/
theorem one_device_run : ∃ s, KernelRun (fun _ => counter.drvFlags) [.devfs, .tarfs] s (Dir.install (fun _ => none) fbName 5) ∧
    s.volumes = [16, 80] := by
  have h₁ : Started [.devfs, .tarfs] bareFs _ := ⟨rfl, rfl, ⟨rfl, rfl⟩, mountAnswers 16, _, mountAnswers 80, by decide, rfl,
    ⟨by decide, by decide, fun _ => show ClearOf [.heap 256] 1360 by decide⟩, rfl⟩
  have h₂ : KernelRun (fun _ => counter.drvFlags) [.devfs, .tarfs] _ _ :=
    .install 5 fbName (160, ⟨fun _ => 0⟩) (.start h₁) (by decide) (by decide) ⟨by decide, by decide⟩
      (installable_short _ _ _ (by decide))
  exact ⟨_, h₂, by decide +kernel⟩

theorem fb_is_written : ∃ s node, fsResolve [] s (volumePath devName fbName) = .ret node ∧ node ≠ none ∧
    ∀ written, fsWrite (fun _ => counter) node 0 4 3 s written = some (s.mem, written + 3, 3) := by
  obtain ⟨s, hr, -⟩ := one_device_run
  obtain ⟨node, hpath, hnone, -, -, hwrite, -⟩ := @device_files_are_their_devices _ (fun _ => counter) _ _ _ hr fbName
    (by decide) (by decide) (by decide) (installable_short (fun _ => counter.drvFlags) s 5 (by decide)).1
  refine ⟨s, node, hpath [], fun hn => ?_, fun written => ?_⟩
  · exact absurd (hnone.mp hn) (by decide)
  · rw [hwrite]
    rfl

/-! ## The directories -/

/-- What `strcmp` sees of a node's name. -/
def ownName (s : Fs) (p : NodePtr) : List UInt8 := cstr (s.node p).text

section Directories

variable {drvFlags : Nat → Nat} {registered : List Family} {rv dv : Nat} {s : Fs} {d : Dir}

theorem rootfsFinddir_eq (s : Fs) (name : List UInt8) :
    rootfsFinddir s name = Directory.find (ownName s) (s.rootfsNodes.getD []) (cstr name) := by
  refine Directory.find?_eq_find fun p _ => ?_
  rw [decide_eq_decide, strcmp_eq_zero]
  rfl

/-- The nodes have the volumes' names. -/
theorem InStep.ownNames {ns : List NodePtr} (h : InStep s ns) : Directory.Distinct (ownName s) ns := by
  have hmap : ns.map (ownName s) = s.volumes.map fun v => cstr (s.vol v).name := by
    rw [← List.forall₂_eq_eq_eq, List.forall₂_map_left_iff, List.forall₂_map_right_iff]
    exact h.paired.imp fun p v hpv => hpv.name _
  rw [Directory.Distinct, hmap]
  exact h.names

theorem Running.enumerates_root (h : Running drvFlags rv dv s d) :
    Directory.Enumerates (fsReaddir s .rootfsRoot) (fsFinddir s .rootfsRoot) (ownName s) := by
  obtain ⟨ns, hin⟩ := h.inStep
  have hd := InStep.ownNames hin
  have hfind : fsFinddir s .rootfsRoot = fun name => Directory.find (ownName s) ns (cstr name) := by
    funext name
    rw [h.root.fsFinddir, finddirOf, rootfsFinddir_eq, hin.nodes, Option.getD_some]
  have hget : fsReaddir s .rootfsRoot = fun i => ns[i]? := by
    funext i
    rw [h.root.fsReaddir, readdirOf, rootfsReaddir, hin.nodes, Option.getD_some]
  rw [hfind, hget]
  refine Directory.enumerates_list (.of_map _ hd) (fun name p hp => (Directory.find_mem hp).1) fun p hp => ?_
  rw [ownName, cstr_cstr]
  exact hd.find_self hp

/-- A device is found under the bytes its name runs on into. -/
theorem Lists.finddir_own (h : Lists s d) {p : NodePtr} (hp : p ∈ s.devices) : devfsFinddir s (ownName s p) = some p := by
  have hself : strncmp (s.node p).text (ownName s p) 64 = 0 := by
    rw [strncmp_eq_zero (by decide), ownName, cstr_cstr]
  obtain ⟨hkey, hends⟩ := (strncmp_text _ (h.flags p hp) _).mp hself
  have ha : Agrees s (ownName s p) := by
    intro q hq hqk
    rw [List.inj_on_of_nodup_map h.distinct hq hp (hqk.trans hkey.symm)]
    exact hends
  rw [h.finddir ha, ← hkey]
  exact h.distinct.find_self hp

theorem Running.enumerates_dev (h : Running drvFlags rv dv s d) :
    Directory.Enumerates (fsReaddir s .devfsRootdir) (fsFinddir s .devfsRootdir) (ownName s) := by
  have hfind : fsFinddir s .devfsRootdir = devfsFinddir s := by
    funext name
    rw [h.dev.fsFinddir, finddirOf]
  have hget : fsReaddir s .devfsRootdir = fun i => s.devices[i]? := by
    funext i
    rw [h.dev.fsReaddir, readdirOf, devfsReaddir]
  rw [hfind, hget]
  exact Directory.enumerates_list (.of_map _ h.lists.distinct) (fun name p hp => List.mem_of_find?_eq_some hp)
    fun p hp => Lists.finddir_own h.lists hp

end Directories

/-- `fs_readdir` goes through `ROOT:` and `DEV:` and gives what `fs_finddir` finds, without a
    gap and each once: for every volume in the mount table, in its order, the node that names it,
    and for every device that is installed, and no other, its node. -/
theorem directories_list_what_they_find {drvFlags : Nat → Nat} {registered : List Family} {s : Fs} {d : Dir}
    (hr : KernelRun drvFlags registered s d) :
    (∀ dir ∈ [NodePtr.rootfsRoot, NodePtr.devfsRootdir], Directory.Enumerates (fsReaddir s dir) (fsFinddir s dir) (ownName s)) ∧
    (∀ i, (fsReaddir s .rootfsRoot i).map (fun p => (s.node p).payload) = s.volumes[i]?) ∧
    ∀ dev, (∃ i p, fsReaddir s .devfsRootdir i = some p ∧ (s.node p).payload = dev) ↔ ∃ k name, d k = some (name, dev) := by
  obtain ⟨rv, dv, h⟩ := kernelRun_running hr
  refine ⟨fun dir hdir => ?_, fun i => ?_, fun dev => ?_⟩
  · rcases List.mem_cons.mp hdir with rfl | hdir
    · exact h.enumerates_root
    · rw [List.mem_singleton.mp hdir]
      exact h.enumerates_dev
  · obtain ⟨ns, hin⟩ := h.inStep
    have hpayloads : ns.map (fun p => (s.node p).payload) = s.volumes := by
      rw [← List.forall₂_eq_eq_eq, List.forall₂_map_left_iff]
      exact hin.paired.imp fun p v hpv => hpv.payload
    rw [h.root.fsReaddir, readdirOf, rootfsReaddir, hin.nodes, Option.getD_some, ← hpayloads, List.getElem?_map]
  · simp only [h.dev.fsReaddir, readdirOf, devfsReaddir]
    constructor
    · rintro ⟨i, p, hi, rfl⟩
      have hfound := h.lists.found (nodeKey s p)
      rw [h.lists.distinct.find_self (List.mem_of_getElem? hi), Option.map_some, Option.map_eq_some_iff] at hfound
      obtain ⟨⟨name, dev⟩, hd, hdev⟩ := hfound
      rw [← hdev]
      exact ⟨_, name, hd⟩
    · rintro ⟨k, name, hd⟩
      have hfound := h.lists.found k
      rw [hd, Option.map_some, eq_comm, Option.map_eq_some_iff] at hfound
      obtain ⟨p, hp, hdev⟩ := hfound
      obtain ⟨i, hi⟩ := List.mem_iff_getElem?.mp (Directory.find_mem hp).1
      exact ⟨i, p, hi, hdev⟩

theorem fb_is_listed : ∃ s, s.volumes = [16, 80] ∧ (∃ i p, fsReaddir s .devfsRootdir i = some p ∧ (s.node p).payload = 5) ∧
    (fsReaddir s .rootfsRoot 1).map (fun p => (s.node p).payload) = some 80 := by
  obtain ⟨s, hr, hvolumes⟩ := one_device_run
  obtain ⟨-, hroot, hdev⟩ := directories_list_what_they_find hr
  refine ⟨s, hvolumes, (hdev 5).mpr ⟨fbName, fbName, rfl⟩, ?_⟩
  rw [hroot, hvolumes]
  rfl

end NativeOS.Kern.Fsops
