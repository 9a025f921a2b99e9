/-
  NativeOS.Kern.Boot — the boot, from `kernel_main` to the welcome text (`kernel/kern/kern_main.c`,
  `device_init` of `kernel/kern/fs_devfs.c`, the `drv_init` of the drivers under
  `kernel/device`, `vtcon_open` and `vtcon_write`).

  The linker decides in which order the drivers start, and where the `device_t` objects are.
  Of the drivers' own work only what the boot comes back to is here: the frame buffer is
  cleared, the console's contexts are reset. The keyboard's ring, the timer and the serial port
  are not looked at before the kernel's last loop, and that loop is not entered.

  Once paging is on, the kernel reads and writes at the addresses it shows memory at. What the
  upper half shows of a byte that is stored later is not followed; nothing looks there. The text
  memory of the screen is the console's own (`Device.Vgafb`), apart from the rest of memory.
-/

import NativeOS.Device.ConsoleNodes
import NativeOS.Device.Paper
import NativeOS.Kern.Ramdisk
import NativeOS.Kern.TarFiles
import NativeOS.Mem.Paging

namespace NativeOS.Kern.Boot

open NativeOS.Lib
open NativeOS.Stdkern
open NativeOS.Device
open NativeOS.Device.Vtcon (Console Env entryCell Paper Shown vgaEntry)
open NativeOS.Kern.Fsops
open NativeOS.Mem.Paging (virtualMemoryInit enablePaging)

/-! ## The drivers -/

/-- The devices that are linked in. -/
inductive Dev where
  | fb
  | kbd
  | null
  | zero
  | clock
  | vtcon
  | pit
  | uart
  deriving DecidableEq

def Dev.all : List Dev := [.fb, .kbd, .null, .zero, .clock, .vtcon, .pit, .uart]

def Dev.name : Dev → List UInt8
  | .fb => [102, 98]
  | .kbd => [107, 98, 100]
  | .null => [110, 117, 108, 108]
  | .zero => [122, 101, 114, 111]
  | .clock => [99, 108, 111, 99, 107]
  | .vtcon => [118, 116, 99, 111, 110]
  | .pit => [112, 105, 116]
  | .uart => [117, 97, 114, 116]

/-- The `drv_flags` of its driver. -/
def Dev.drvFlags : Dev → Nat
  | .fb => dvFblckdev
  | _ => dvFchardev

inductive Driver where
  | vgafb
  | keyboard
  | null
  | clock
  | vtcon
  | pctimer
  | uart8250
  deriving DecidableEq

def Driver.all : List Driver := [.vgafb, .keyboard, .null, .clock, .vtcon, .pctimer, .uart8250]

/-- What `drv_init` installs. -/
def Driver.devices : Driver → List Dev
  | .vgafb => [.fb]
  | .keyboard => [.kbd]
  | .null => [.null, .zero]
  | .clock => [.clock]
  | .vtcon => [.vtcon]
  | .pctimer => [.pit]
  | .uart8250 => [.uart]

/-- The console, and its pointers to the nodes it works on. -/
structure World where
  console : Console
  nodes : ConsoleNodes.Con

/-- `addr`: where the `device_t` is. `plain`: its functions, but for the flags and the functions
    that are given below. `dup`: what `strdup`'s copies held. -/
structure Kernel where
  addr : Dev → Nat
  plain : Dev → Device World
  env : Env
  dup : List UInt8

/-- No two objects are at one address, and none at NULL. -/
structure Kernel.Linked (k : Kernel) : Prop where
  ne : ∀ d, k.addr d ≠ 0
  distinct : ∀ d e, k.addr d = k.addr e → d = e

/-- The devices in memory. -/
def Kernel.table (k : Kernel) (device : Dev → Device World) (a : Nat) : Device World :=
  ((Directory.find k.addr Dev.all a).map device).getD noDevice

/-- Opening any of these is `return 0`; not the serial port. -/
def Kernel.simple (k : Kernel) : Dev → Device World
  | .uart => { k.plain .uart with drvFlags := Dev.uart.drvFlags }
  | d => { k.plain d with drvFlags := d.drvFlags, devOpen := some fun _ => ret 0 }

/-! ## vtcon.c -/

def Dev.ofNode : ConsoleNodes.Node → Dev
  | .fb => .fb
  | .kbd => .kbd
  | .clock => .clock

/-- VO_FWRITE for the frame buffer, VO_FREAD for the others. -/
def openFlags : ConsoleNodes.Node → Nat
  | .fb => voFwrite
  | _ => voFread

/-- `fs_resolve("DEV:/..")` and `fs_open`; a path of one component is never followed into NULL,
    and these opens change nothing. -/
def Kernel.attempt (k : Kernel) (s : Fs) (w : World) (node : ConsoleNodes.Node) : ConsoleNodes.Attempt :=
  match fsResolve k.dup s (volumePath devName (Dev.ofNode node).name) with
  | .ret (some n) =>
    if (Fsops.fsOpen (k.table k.simple) (some n) (openFlags node) s w).map (fun r => r.2.2) = some 0 then .opened else .refused
  | _ => .missing

def Kernel.vtconOpen (k : Kernel) (flags : Nat) : Op World Int := fun s w =>
  let r := ConsoleNodes.vtconOpen flags (k.attempt s w) w.nodes
  some (s.mem, { console := if r.2 = 0 then Vtcon.vtconOpen k.env w.console else w.console, nodes := r.1 }, r.2)

def Kernel.vtconWrite (k : Kernel) (buf len : Nat) : Op World Nat := fun s w =>
  some (s.mem, { w with console := Vtcon.vtconWrite k.env w.console (slice s.mem buf len) }, len)

def Kernel.device (k : Kernel) : Dev → Device World
  | .vtcon => { k.plain .vtcon with drvFlags := Dev.vtcon.drvFlags, devOpen := some k.vtconOpen, devWriteChr := some k.vtconWrite }
  | d => k.simple d

def Kernel.devs (k : Kernel) : Nat → Device World := k.table k.device

def Kernel.drvFlags (k : Kernel) (a : Nat) : Nat := (k.devs a).drvFlags

/-! ## device_init -/

/-- What `malloc` gives: for the two mounts, for the n-th device's node, for the ramdisk. -/
structure BootAnswers where
  root : MountAnswers
  dev : MountAnswers
  node : Nat → Nat × Mem
  initrd : MountAnswers

/-- `next` counts the calls of `device_install`. -/
structure St where
  fs : Fs
  world : World
  next : Nat

def Kernel.install (k : Kernel) (answers : BootAnswers) (st : St) (d : Dev) : St × Int :=
  let r := deviceInstall k.drvFlags st.fs (k.addr d) d.name (answers.node st.next)
  ({ st with fs := r.1, next := st.next + 1 }, r.2)

/-- The frame buffer's bytes from its start on. -/
def World.fill (w : World) (cells : List UInt8) : World :=
  { w with console := { w.console with vga := { w.console.vga with mem := put w.console.vga.mem Vgafb.vgaBase cells } } }

/-- 0x700 in all 2000 cells. -/
def clearCells : List UInt8 := (List.replicate Vgafb.vgaChars [0, 7]).flatten

/-- The loop of `vgafb_init`. -/
def World.clear (w : World) : World := w.fill clearCells

def World.resetcontexts (w : World) : World :=
  { w with console := { w.console with contexts := fun i => Vtcon.resetcontext (w.console.contexts i) } }

def Kernel.drvInit (k : Kernel) (answers : BootAnswers) (st : St) : Driver → St
  | .vgafb =>
    let r := k.install answers st .fb
    if r.2 < 0 then r.1 else { r.1 with world := r.1.world.clear }
  | .vtcon => (k.install answers { st with world := st.world.resetcontexts } .vtcon).1
  | driver => driver.devices.foldl (fun st d => (k.install answers st d).1) st

def Kernel.deviceInit (k : Kernel) (answers : BootAnswers) (drivers : List Driver) (s : Fs) (w : World) : Option St := do
  let mounted ← vfsMount answers.dev { s with devices := [] } Family.devfs.ident devName 0
  some (drivers.foldl (k.drvInit answers) ⟨mounted.1, w, 0⟩)

/-! ## kern_main.c -/

def systemName : List UInt8 := [83, 89, 83, 84, 69, 77]
def motdName : List UInt8 := [77, 79, 84, 68, 46, 84, 88, 84]

/-- "SYSTEM/MOTD.TXT". -/
def motdPath : List UInt8 := systemName ++ Fs.Tar.slash :: motdName

def Kernel.fsResolveAndOpen (k : Kernel) (path : List UInt8) (flags : Nat) : Op World (Option NodePtr) := fun s w =>
  match fsResolve k.dup s path with
  | .nullDeref => none
  | .ret none => ret none s w
  | .ret (some node) => (Fsops.fsOpen k.devs (some node) flags s w).map fun r => (r.1, r.2.1, if r.2.2 ≠ 0 then none else some node)

/-- The string at `str` has its NUL among the first `size` bytes. -/
def Kernel.fsWriteString (k : Kernel) (node : Option NodePtr) (offt str size : Nat) : Op World Nat := fun s =>
  Fsops.fsWrite k.devs node offt str (strlen (slice s.mem str size)) s

/-- `read` is an `int`. -/
def Kernel.copyLoop (k : Kernel) (vtcon motd : Option NodePtr) (buffer : Nat) : Nat → Nat → Op World Unit
  | 0, _ => fun _ _ => none
  | fuel + 1, offt => fun s w => do
    let r ← Fsops.fsRead k.devs motd offt buffer 64 s w
    if 0 < r.2.2 ∧ r.2.2 < 2147483648 then
      let t ← Fsops.fsWrite k.devs vtcon 0 buffer r.2.2 { s with mem := r.1 } r.2.1
      k.copyLoop vtcon motd buffer fuel (add32 offt r.2.2) { s with mem := t.1 } t.2.1
    else some (r.1, r.2.1, ())

/-- Up to the loop that reads keys for ever. `newline`: where the string "\n" is. -/
def Kernel.kernelWelcome (k : Kernel) (buffer newline fuel : Nat) : Op World Unit := fun s w => do
  let vtcon ← k.fsResolveAndOpen (volumePath devName Dev.vtcon.name) voFwrite s w
  let motd ← k.fsResolveAndOpen (volumePath initrdName motdPath) voFread { s with mem := vtcon.1 } vtcon.2.1
  if motd.2.2.isSome then
    let copied ← k.copyLoop vtcon.2.2 motd.2.2 buffer fuel 0 { s with mem := motd.1 } motd.2.1
    let ended ← k.fsWriteString vtcon.2.2 0 newline 2 { s with mem := copied.1 } copied.2.1
    let closed ← Fsops.fsClose k.devs motd.2.2 { s with mem := ended.1 } ended.2.1
    some (closed.1, closed.2.1, ())
  else some (motd.1, motd.2.1, ())

/-- The loader calls `virtual_memory_init` before it calls the kernel. -/
def kernelPageDirectory : NativeOS.Mem.Paging.Directory := virtualMemoryInit fun _ => 0

/-- From memory as the boot loader leaves it; nothing comes back when NULL is dereferenced. -/
def Kernel.kernelMain (k : Kernel) (answers : BootAnswers) (registered : List Family) (drivers : List Driver)
    (mods : List MultibootModule) (buffer newline fuel : Nat) (m : Mem) (w : World) : Option (Mem × World) := do
  let s ← vfsInit answers.root registered { bareFs with mem := m }
  let st ← k.deviceInit answers drivers s w
  let s ← bootFs answers.initrd st.fs mods
  let s := { s with mem := enablePaging kernelPageDirectory s.mem }
  let r ← k.kernelWelcome buffer newline fuel s st.world
  some (r.1, r.2.1)

/-! ## The devices in memory -/

theorem Dev.mem_all (d : Dev) : d ∈ Dev.all := by
  cases d <;> decide

section Table

variable {k : Kernel}

theorem Kernel.Linked.table (h : k.Linked) (device : Dev → Device World) (d : Dev) : k.table device (k.addr d) = device d := by
  have hfind : Directory.find k.addr Dev.all (k.addr d) = some d := by
    cases hf : Directory.find k.addr Dev.all (k.addr d) with
    | none => exact absurd rfl (Directory.find_eq_none.mp hf d d.mem_all)
    | some e => rw [h.distinct e d (Directory.find_mem hf).2]
  rw [Kernel.table, hfind]
  rfl

theorem table_drvFlags (k : Kernel) {device : Dev → Device World} (h : ∀ d, (device d).drvFlags = d.drvFlags) (a : Nat) :
    (k.table device a).drvFlags = ((Directory.find k.addr Dev.all a).map Dev.drvFlags).getD 0 := by
  unfold Kernel.table
  cases Directory.find k.addr Dev.all a with
  | none => rfl
  | some d => exact h d

theorem simple_drvFlags (k : Kernel) (d : Dev) : (k.simple d).drvFlags = d.drvFlags := by
  cases d <;> rfl

theorem device_drvFlags (k : Kernel) (d : Dev) : (k.device d).drvFlags = d.drvFlags := by
  cases d <;> rfl

/-- Only the functions differ. -/
theorem simple_flags (k : Kernel) : (fun a => (k.table k.simple a).drvFlags) = k.drvFlags := by
  funext a
  rw [Kernel.drvFlags, Kernel.devs, table_drvFlags k (simple_drvFlags k), table_drvFlags k (device_drvFlags k)]

end Table

/-! ## Installing them -/

def Dev.key (d : Dev) : List UInt8 := devKey d.name

/-- The directory with the devices in it. -/
def Kernel.dirOf (k : Kernel) (ds : List Dev) : Dir := fun key =>
  (Directory.find Dev.key ds key).map fun d => (d.name, k.addr d)

theorem Dev.name_short (d : Dev) : strlen d.name < 64 := by
  cases d <;> decide

theorem Dev.key_inj {d e : Dev} (h : d.key = e.key) : d = e := by
  revert h
  cases d <;> cases e <;> decide

/-- A name of a path. -/
theorem Dev.name_plain (d : Dev) : 0 ∉ d.name ∧ Fs.Tar.slash ∉ d.name ∧ d.name ≠ [] := by
  cases d <;> decide

section Install

variable {k : Kernel} {answers : BootAnswers} {registered : List Family} {s₀ : Fs} {ds : List Dev} {st : St}

theorem dirOf_mem {d : Dev} (hd : d ∈ ds) : k.dirOf ds (devKey d.name) = some (d.name, k.addr d) := by
  have hfind : Directory.find Dev.key ds d.key = some d := by
    cases hf : Directory.find Dev.key ds d.key with
    | none => exact absurd rfl (Directory.find_eq_none.mp hf d hd)
    | some e => rw [Dev.key_inj (Directory.find_mem hf).2]
  show (Directory.find Dev.key ds d.key).map _ = _
  rw [hfind]
  rfl

theorem dirOf_not_mem {d : Dev} (hd : d ∉ ds) : k.dirOf ds (devKey d.name) = none := by
  show (Directory.find Dev.key ds d.key).map _ = none
  rw [Option.map_eq_none_iff, Directory.find_eq_none]
  exact fun e he hkey => hd (Dev.key_inj hkey ▸ he)

theorem dirOf_snoc {d : Dev} (hd : d ∉ ds) : (k.dirOf ds).install d.name (k.addr d) = k.dirOf (ds ++ [d]) := by
  have hnone : ¬ (k.dirOf ds (devKey d.name)).isSome = true := by
    rw [dirOf_not_mem hd]
    exact Bool.false_ne_true
  funext key
  have hsnoc := @Directory.find_snoc _ _ _ Dev.key ds d (fun e he hkey => hd (Dev.key_inj hkey ▸ he)) key
  rw [Dir.install, if_neg hnone, Kernel.dirOf, hsnoc]
  by_cases hkey : key = d.key
  · subst hkey
    rw [if_pos rfl]
    exact Function.update_self ..
  · rw [if_neg hkey]
    exact Function.update_of_ne hkey ..

/-- The volumes' nodes in the root directory, and the devices'. -/
def BootAnswers.nodes (answers : BootAnswers) : List Nat :=
  [answers.root.rootNode.1, answers.dev.rootNode.1, answers.initrd.rootNode.1] ++ (List.range 8).map fun i => (answers.node i).1

/-- Memory that nothing else is in, from `malloc`. -/
structure BootAnswers.Fresh (answers : BootAnswers) : Prop where
  volumes : [0, answers.root.volume, answers.dev.volume, answers.initrd.volume].Nodup
  nodes_ne : 0 ∉ answers.nodes
  nodes : answers.nodes.Pairwise VnodesApart
  vnodes : ∀ t, ∀ a ∈ answers.nodes, VnodesApart (answers.initrd.tar.vnode t).vnode a
  unused : ∀ t, VnodesApart (answers.dev.tar.vnode t).vnode answers.root.rootNode.1

/-- What the installs have done to the state `s₀` of before them. -/
structure Installed (k : Kernel) (answers : BootAnswers) (registered : List Family) (s₀ : Fs) (ds : List Dev) (st : St) : Prop where
  run : KernelRun k.drvFlags registered st.fs (k.dirOf ds)
  next : st.next = ds.length
  devices : ∀ p ∈ st.fs.devices, ∃ i < ds.length, p = .heap (answers.node i).1
  mem : st.fs.mem = s₀.mem
  vol : st.fs.vol = s₀.vol
  volumes : st.fs.volumes = s₀.volumes
  drivers : st.fs.drivers = s₀.drivers
  rootfsNodes : st.fs.rootfsNodes = s₀.rootfsNodes

theorem deviceInstall_keeps (drvFlags : Nat → Nat) (s : Fs) (dev : Nat) (name : List UInt8) (answer : Nat × Mem) :
    let t := (deviceInstall drvFlags s dev name answer).1
    (∀ p ∈ t.devices, p ∈ s.devices ∨ p = .heap answer.1) ∧ t.mem = s.mem ∧ t.vol = s.vol ∧ t.volumes = s.volumes ∧
      t.drivers = s.drivers ∧ t.rootfsNodes = s.rootfsNodes := by
  unfold deviceInstall
  split
  · exact ⟨fun p hp => .inl hp, rfl, rfl, rfl, rfl, rfl⟩
  · split
    · exact ⟨fun p hp => .inl hp, rfl, rfl, rfl, rfl, rfl⟩
    · refine ⟨fun p hp => ?_, rfl, rfl, rfl, rfl, rfl⟩
      exact (List.mem_append.mp hp).imp_right List.mem_singleton.mp

theorem BootAnswers.node_mem (answers : BootAnswers) {i : Nat} (hi : i < 8) : (answers.node i).1 ∈ answers.nodes :=
  List.mem_append_right _ (List.mem_map.mpr ⟨i, List.mem_range.mpr hi, rfl⟩)

/-- Behind the nodes of the volumes, and behind those of the devices before it. -/
theorem BootAnswers.Fresh.node (h : answers.Fresh) {i : Nat} (hi : i < 8) : (answers.node i).1 ≠ 0 ∧
    VnodesApart (answers.node i).1 answers.root.rootNode.1 ∧ VnodesApart (answers.node i).1 answers.dev.rootNode.1 ∧
    VnodesApart (answers.node i).1 answers.initrd.rootNode.1 ∧ ∀ j < i, VnodesApart (answers.node i).1 (answers.node j).1 := by
  obtain ⟨-, hrange, hapart⟩ := List.pairwise_append.mp h.nodes
  have hmem : (answers.node i).1 ∈ (List.range 8).map fun i => (answers.node i).1 :=
    List.mem_map.mpr ⟨i, List.mem_range.mpr hi, rfl⟩
  refine ⟨fun he => h.nodes_ne (he ▸ answers.node_mem hi), (hapart _ (by simp) _ hmem).symm, (hapart _ (by simp) _ hmem).symm,
    (hapart _ (by simp) _ hmem).symm, fun j hj => ?_⟩
  rw [List.pairwise_map, List.pairwise_iff_getElem] at hrange
  have hij := hrange j i (by rw [List.length_range]; omega) (by rw [List.length_range]; omega) hj
  rw [List.getElem_range, List.getElem_range] at hij
  exact hij.symm

/-- Memory apart from the nodes there are. -/
theorem Installed.unused (hroots : s₀.rootfsNodes = some [.heap answers.root.rootNode.1, .heap answers.dev.rootNode.1])
    (h : Installed k answers registered s₀ ds st) {a : Nat} (hroot : VnodesApart a answers.root.rootNode.1)
    (hdev : VnodesApart a answers.dev.rootNode.1) (hnodes : ∀ i < ds.length, VnodesApart a (answers.node i).1) : Unused st.fs a := by
  constructor
  · intro p hp
    obtain ⟨i, hi, rfl⟩ := h.devices p hp
    exact hnodes i hi
  · rw [h.rootfsNodes, hroots, Option.getD_some]
    exact List.forall_mem_cons.mpr ⟨hroot, List.forall_mem_singleton.mpr hdev⟩

/-- One more. -/
theorem Installed.install (hk : k.Linked) (hf : answers.Fresh)
    (hroots : s₀.rootfsNodes = some [.heap answers.root.rootNode.1, .heap answers.dev.rootNode.1])
    (h : Installed k answers registered s₀ ds st) {d : Dev} (hd : d ∉ ds) (hlen : ds.length < 8) :
    0 ≤ (k.install answers st d).2 ∧ Installed k answers registered s₀ (ds ++ [d]) (k.install answers st d).1 := by
  obtain ⟨h0, hroot, hdev, -, hnodes⟩ := hf.node hlen
  have hunused : Unused st.fs (answers.node st.next).1 := by
    rw [h.next]
    exact h.unused hroots hroot hdev hnodes
  rw [← h.next] at h0
  have hi := installable_short k.drvFlags st.fs (k.addr d) d.name_short
  obtain ⟨rv, dv, hrun⟩ := kernelRun_running h.run
  have hret : (k.install answers st d).2 = _ := (@Lists.install _ _ _ hrun.lists _ _ (answers.node st.next) h0 hunused.1.not_mem hi).1
  rw [dirOf_not_mem hd] at hret
  obtain ⟨hdevices, hmem, hvol, hvolumes, hdrivers, hnodes'⟩ :=
    deviceInstall_keeps k.drvFlags st.fs (k.addr d) d.name (answers.node st.next)
  refine ⟨?_, ⟨?_, ?_, fun p hp => ?_, hmem.trans h.mem, hvol.trans h.vol, hvolumes.trans h.volumes, hdrivers.trans h.drivers,
    hnodes'.trans h.rootfsNodes⟩⟩
  · exact Int.le_of_eq hret.symm
  · rw [← dirOf_snoc hd]
    exact .install _ _ _ h.run (hk.ne d) h0 hunused hi
  · show st.next + 1 = _
    rw [h.next, List.length_append, List.length_singleton]
  · rw [List.length_append, List.length_singleton]
    rcases hdevices p hp with hp | rfl
    · obtain ⟨i, hi, he⟩ := h.devices p hp
      exact ⟨i, Nat.lt_succ_of_lt hi, he⟩
    · exact ⟨ds.length, Nat.lt_succ_self _, by rw [h.next]⟩

/-- What a driver does to the screen and the console when it starts. -/
def Driver.world : Driver → World → World
  | .vgafb => World.clear
  | .vtcon => World.resetcontexts
  | _ => id

theorem Installed.withWorld (h : Installed k answers registered s₀ ds st) (w : World) :
    Installed k answers registered s₀ ds { st with world := w } :=
  ⟨h.run, h.next, h.devices, h.mem, h.vol, h.volumes, h.drivers, h.rootfsNodes⟩

theorem Installed.drvInit (hk : k.Linked) (hf : answers.Fresh)
    (hroots : s₀.rootfsNodes = some [.heap answers.root.rootNode.1, .heap answers.dev.rootNode.1])
    (h : Installed k answers registered s₀ ds st) {driver : Driver} (hnodup : (ds ++ driver.devices).Nodup)
    (hlen : (ds ++ driver.devices).length ≤ 8) :
    Installed k answers registered s₀ (ds ++ driver.devices) (k.drvInit answers st driver) ∧
      (k.drvInit answers st driver).world = driver.world st.world := by
  have hone : ∀ {st : St} {d : Dev}, driver.devices = [d] → Installed k answers registered s₀ ds st →
      0 ≤ (k.install answers st d).2 ∧ Installed k answers registered s₀ (ds ++ driver.devices) (k.install answers st d).1 := by
    intro st d hds h
    rw [hds] at hnodup hlen ⊢
    rw [List.length_append, List.length_singleton] at hlen
    have hd : d ∉ ds := fun hd => List.disjoint_of_nodup_append hnodup hd (List.mem_singleton_self d)
    exact h.install hk hf hroots hd hlen
  cases driver with
  | vgafb =>
    obtain ⟨hret, hnext⟩ := hone rfl h
    rw [Kernel.drvInit]
    dsimp only
    rw [if_neg (Int.not_lt.mpr hret)]
    exact ⟨hnext.withWorld _, rfl⟩
  | vtcon => exact ⟨(hone rfl (h.withWorld st.world.resetcontexts)).2, rfl⟩
  | keyboard => exact ⟨(hone rfl h).2, rfl⟩
  | clock => exact ⟨(hone rfl h).2, rfl⟩
  | pctimer => exact ⟨(hone rfl h).2, rfl⟩
  | uart8250 => exact ⟨(hone rfl h).2, rfl⟩
  | null =>
    have hlen' : ds.length + 2 ≤ 8 := by rwa [List.length_append] at hlen
    have hnull : Dev.null ∉ ds := fun hd => List.disjoint_of_nodup_append hnodup hd (by decide)
    have hzero : Dev.zero ∉ ds ++ [Dev.null] := by
      rw [List.mem_append, not_or]
      exact ⟨fun hd => List.disjoint_of_nodup_append hnodup hd (by decide), by decide⟩
    have h1 := (h.install hk hf hroots hnull (by omega)).2
    have h2 := (h1.install hk hf hroots hzero (by rw [List.length_append, List.length_singleton]; omega)).2
    rw [List.append_assoc] at h2
    exact ⟨h2, rfl⟩

/-- All the drivers, in whatever order. -/
theorem Installed.drivers_init (hk : k.Linked) (hf : answers.Fresh)
    (hroots : s₀.rootfsNodes = some [.heap answers.root.rootNode.1, .heap answers.dev.rootNode.1]) :
    ∀ (drivers : List Driver) {ds : List Dev} {st : St}, Installed k answers registered s₀ ds st →
      (ds ++ drivers.flatMap Driver.devices).Nodup → (ds ++ drivers.flatMap Driver.devices).length ≤ 8 →
      Installed k answers registered s₀ (ds ++ drivers.flatMap Driver.devices) (drivers.foldl (k.drvInit answers) st) ∧
        (drivers.foldl (k.drvInit answers) st).world = drivers.foldl (fun w driver => driver.world w) st.world
  | [], ds, st, h, _, _ => by
    rw [List.flatMap_nil, List.append_nil]
    exact ⟨h, rfl⟩
  | driver :: drivers, ds, st, h, hnodup, hlen => by
    rw [List.flatMap_cons, ← List.append_assoc] at hnodup hlen ⊢
    have hlen' : (ds ++ driver.devices).length ≤ 8 := by
      rw [List.length_append] at hlen
      omega
    obtain ⟨hstep, hworld⟩ := h.drvInit hk hf hroots (List.Nodup.of_append_left hnodup) hlen'
    rw [List.foldl_cons, List.foldl_cons, ← hworld]
    exact drivers_init hk hf hroots drivers hstep hnodup hlen

end Install

end NativeOS.Kern.Boot
