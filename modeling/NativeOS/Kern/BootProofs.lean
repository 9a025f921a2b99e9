/-
  NativeOS.Kern.BootProofs — what the boot comes to.

  Four steps, each from what the one before it leaves: `vfs_init` and `device_init` end in a
  run of the file systems in which every device is installed (`Boot.Installed`), with the screen
  cleared and the console's contexts reset; the ramdisk's mount adds the archive's tree to it
  (`Kern.TarVolume`); the console opens because the three paths it needs resolve; and the loop
  of `kernel_welcome` hands it the file, 64 bytes at a time.

  Proved:
  * `booting_prints_the_motd` — what is on the screen then, for every archive that the boot loader
    puts below 2 GiB: there paging shows memory where it is.
  * `typing_is_shown_after_the_boot` — and what is typed after it, on the console it is typed on.
-/

import NativeOS.Device.Terminals
import NativeOS.Kern.Boot

namespace NativeOS.Kern.Boot

open NativeOS.Lib
open NativeOS.Stdkern
open NativeOS.Device
open NativeOS.Device.Vtcon (Console Env Cell entryCell Paper Shown screenCell cellAddr vgaEntry Terminals OnPapers Polled Room OneCode Whole
  booted stream tap)
open NativeOS.Stdkern.Ring (unread)
open NativeOS.Kern.Fsops
open NativeOS.Fs.Tar
open NativeOS.Mem.Paging (enablePaging)

/-! ## The screen before anything is written -/

/-- The framebuffer's 0x700 everywhere: what `clearrow` leaves as well. -/
def bootPaper : Paper := ⟨fun _ _ => entryCell 0x700, 0, 0⟩

def Cleared (w : World) : Prop := ∀ y < 24, ∀ x < 80, screenCell w.console y x = entryCell 0x700

def Reset (w : World) : Prop := ∀ i, ∃ c, w.console.contexts i = Vtcon.resetcontext c

theorem length_clearCells : clearCells.length = 4000 := by
  rw [clearCells, List.length_flatten, List.map_replicate, List.sum_replicate_nat]
  rfl

@[simp] theorem fill_nodes (w : World) (cells : List UInt8) : (w.fill cells).nodes = w.nodes := rfl

@[simp] theorem fill_contexts (w : World) (cells : List UInt8) : (w.fill cells).console.contexts = w.console.contexts := rfl

theorem fill_keys (w : World) (cells : List UInt8) : (w.fill cells).console.keys = w.console.keys := rfl

theorem resetcontexts_keys (w : World) : w.resetcontexts.console.keys = w.console.keys := by
  refine Vtcon.keys_eq rfl fun i => ?_
  rw [World.resetcontexts]
  dsimp only
  rw [Vtcon.resetcontext]

theorem fill_byte (w : World) {cells : List UInt8} {i : Nat} (hi : i < cells.length) :
    (w.fill cells).console.vga.mem (Vgafb.vgaBase + i) = cells.getD i 0 := put_in _ hi

theorem cleared_clear (w : World) : Cleared w.clear := by
  have hlen := length_clearCells
  have hcells := getD_flatten_replicate 0 7 Vgafb.vgaChars
  rw [← clearCells] at hcells
  rw [World.clear]
  generalize clearCells = cells at hlen hcells
  intro y hy x hx
  have hpos : 2 * (80 * y + x) + 1 < cells.length := by omega
  obtain ⟨hchar, hattr⟩ := hcells (80 * y + x) (by show 80 * y + x < 2000; omega)
  refine Prod.ext ?_ ?_
  · exact (fill_byte w (Nat.lt_of_succ_lt hpos)).trans hchar
  · exact (fill_byte w hpos).trans hattr

/-- One driver after the other: neither undoes what the other has done. -/
theorem driver_world (driver : Driver) (w : World) :
    (driver.world w).nodes = w.nodes ∧ (driver.world w).console.keys = w.console.keys ∧
    (driver = .vgafb ∨ Cleared w → Cleared (driver.world w)) ∧ (driver = .vtcon ∨ Reset w → Reset (driver.world w)) := by
  by_cases hfb : driver = .vgafb
  · subst hfb
    refine ⟨fill_nodes w clearCells, fill_keys w clearCells, fun _ => cleared_clear w, fun h i => ?_⟩
    have hreset := h.resolve_left Driver.noConfusion
    rw [Driver.world, World.clear, fill_contexts]
    exact hreset i
  · by_cases hcon : driver = .vtcon
    · subst hcon
      refine ⟨rfl, resetcontexts_keys w, fun h => ?_, fun _ i => ?_⟩
      · have hcleared := h.resolve_left hfb
        intro y hy x hx
        rw [Driver.world, World.resetcontexts]
        exact hcleared y hy x hx
      · rw [Driver.world, World.resetcontexts]
        exact ⟨w.console.contexts i, rfl⟩
    · have hid : driver.world w = w := by cases driver <;> first | contradiction | rfl
      rw [hid]
      exact ⟨rfl, rfl, fun h => h.resolve_left hfb, fun h => h.resolve_left hcon⟩

theorem drivers_world (drivers : List Driver) (w : World) :
    let v := drivers.foldl (fun w driver => driver.world w) w
    v.nodes = w.nodes ∧ v.console.keys = w.console.keys ∧ (.vgafb ∈ drivers ∨ Cleared w → Cleared v) ∧
      (.vtcon ∈ drivers ∨ Reset w → Reset v) := by
  induction drivers generalizing w with
  | nil => exact ⟨rfl, rfl, fun h => h.resolve_left List.not_mem_nil, fun h => h.resolve_left List.not_mem_nil⟩
  | cons driver drivers ih =>
    obtain ⟨hnodes, hkeys, hcleared, hreset⟩ := driver_world driver w
    obtain ⟨hnodes', hkeys', hcleared', hreset'⟩ := ih (driver.world w)
    refine ⟨hnodes'.trans hnodes, hkeys'.trans hkeys, fun h => hcleared' ?_, fun h => hreset' ?_⟩
    · rcases h with h | h
      · rcases List.mem_cons.mp h with h | h
        · exact .inr (hcleared (.inl h.symm))
        · exact .inl h
      · exact .inr (hcleared (.inr h))
    · rcases h with h | h
      · rcases List.mem_cons.mp h with h | h
        · exact .inr (hreset (.inl h.symm))
        · exact .inl h
      · exact .inr (hreset (.inr h))

theorem shown_boot {w : World} (hcleared : Cleared w) (hreset : Reset w) (env : Env) :
    Shown 7 0 (Vtcon.vtconOpen env w.console) bootPaper := by
  have hpen : w.console.context.pen = ⟨0, 0, 7, 0⟩ := by
    obtain ⟨c, hc⟩ := hreset w.console.current
    rw [Console.context, hc, Vtcon.resetcontext]
    rfl
  rw [Vtcon.vtconOpen_eq]
  refine Shown.finish ⟨⟨?_, ?_⟩, ?_, by decide, ?_, fun y hy x hx => ?_, fun _ _ _ _ => rfl⟩ env
  · exact congrArg Vtcon.Pen.fg hpen
  · exact congrArg Vtcon.Pen.bg hpen
  · exact congrArg Vtcon.Pen.cx hpen
  · exact congrArg Vtcon.Pen.cy hpen
  · exact hcleared y hy x hx

/-! ## The two mounts of the start -/

section Start

variable {answers : BootAnswers} {registered : List Family}

theorem getDriverByName_ident {s : Fs} {family : Family} (h : family ∈ s.drivers) : getDriverByName s family.ident = some family := by
  have hfind : getDriverByName s family.ident = Directory.find id s.drivers family := by
    refine Directory.find?_eq_find fun fs _ => ?_
    cases family <;> cases fs <;> decide
  rw [hfind]
  cases hf : Directory.find id s.drivers family with
  | none => exact absurd rfl (Directory.find_eq_none.mp hf family h)
  | some fs => exact congrArg some (Directory.find_mem hf).2

theorem BootAnswers.Fresh.volumes_ne (h : answers.Fresh) : answers.root.volume ≠ 0 ∧ answers.dev.volume ≠ 0 ∧
    answers.initrd.volume ≠ 0 ∧ answers.dev.volume ≠ answers.root.volume ∧ answers.initrd.volume ≠ answers.root.volume ∧
    answers.initrd.volume ≠ answers.dev.volume := by
  have hnodup := h.volumes
  simp only [List.nodup_cons, List.mem_cons, List.not_mem_nil, or_false, not_or] at hnodup
  obtain ⟨⟨hr, hd, hi⟩, ⟨hrd, hri⟩, hdi, -⟩ := hnodup
  exact ⟨Ne.symm hr, Ne.symm hd, Ne.symm hi, Ne.symm hrd, Ne.symm hri, Ne.symm hdi⟩

theorem BootAnswers.Fresh.rootNodes (h : answers.Fresh) : VnodesApart answers.dev.rootNode.1 answers.root.rootNode.1 ∧
    VnodesApart answers.initrd.rootNode.1 answers.root.rootNode.1 ∧
    VnodesApart answers.initrd.rootNode.1 answers.dev.rootNode.1 := by
  obtain ⟨hapart, -, -⟩ := List.pairwise_append.mp h.nodes
  simp only [List.pairwise_cons, List.forall_mem_cons] at hapart
  obtain ⟨⟨hrd, hri, -⟩, ⟨hdi, -⟩, -⟩ := hapart
  exact ⟨hrd.symm, hri.symm, hdi.symm⟩

/-- The state in which the drivers start. -/
structure Begun (answers : BootAnswers) (registered : List Family) (m : Mem) (s : Fs) : Prop where
  started : Started registered { bareFs with mem := m } s
  mem : s.mem = m
  devices : s.devices = []
  volumes : s.volumes = [answers.root.volume, answers.dev.volume]
  names : (s.vol answers.root.volume).name = rootName ∧ (s.vol answers.dev.volume).name = devName
  drivers : s.drivers = .rootfs :: registered
  rootfsNodes : s.rootfsNodes = some [.heap answers.root.rootNode.1, .heap answers.dev.rootNode.1]

theorem begun (hf : answers.Fresh) (hreg : .devfs ∈ registered) (m : Mem) : ∃ s₁ s,
    vfsInit answers.root registered { bareFs with mem := m } = some s₁ ∧ s₁.devices = [] ∧
      vfsMount answers.dev s₁ Family.devfs.ident devName 0 = some (s, 0) ∧ Begun answers registered m s := by
  obtain ⟨h0, hinitrd, -, hdevroot, -, -⟩ := hf.volumes_ne
  have hrootnode := hf.rootNodes.1
  generalize hs₀ : ({ bareFs with mem := m } : Fs) = s₀
  have hnone : s₀.rootfsNodes = none := by rw [← hs₀]; rfl
  obtain ⟨s₁, hinit, hmem₁, hdrivers₁, hnodes₁⟩ : ∃ s₁, vfsInit answers.root registered s₀ = some s₁ ∧ s₁.mem = m ∧
      s₁.drivers = .rootfs :: registered ∧ s₁.rootfsNodes = some [.heap answers.root.rootNode.1] :=
    ⟨_, vfsInit_eq hnone h0 registered, by rw [← hs₀]; rfl, rfl, rfl⟩
  obtain ⟨hvolumes₁, hdevices₁, hvol₁, hrootdir₁, -⟩ := vfsInit_fields hnone h0 hinit
  have hempty : s₁.devices = [] := hdevices₁.trans (by rw [← hs₀]; rfl)
  have hrootdir : (s₁.node .devfsRootdir).volume = 0 := by rw [hrootdir₁, ← hs₀]; rfl
  have hfind : findMountpointByName s₁ devName = none := by
    rw [findMountpointByName_eq, Directory.find_eq_none, hvolumes₁, List.forall_mem_singleton, volKey, hvol₁]
    decide
  have hdriver : getDriverByName s₁ Family.devfs.ident = some .devfs :=
    getDriverByName_ident (by rw [hdrivers₁]; exact List.mem_cons_of_mem _ hreg)
  obtain ⟨mounted, hfsd, hmounted, hret⟩ : ∃ mounted : Fs × Int,
      fsdMount answers.dev (s₁.setVol answers.dev.volume ⟨strdup answers.dev.dup devName, .devfs, none, 0⟩)
        answers.dev.volume .devfs = some mounted ∧
      (mounted.1.mem = m ∧ mounted.1.drivers = s₁.drivers ∧ mounted.1.rootfsNodes = s₁.rootfsNodes) ∧ 0 ≤ mounted.2 := by
    generalize hs1 : s₁.setVol answers.dev.volume ⟨strdup answers.dev.dup devName, .devfs, none, 0⟩ = s1
    have hunmounted : (s1.node .devfsRootdir).volume = 0 := by
      rw [← hs1]
      exact hrootdir
    rw [fsdMount, devfsMount, if_neg (not_not.mpr hunmounted), ← hs1]
    exact ⟨_, rfl, ⟨hmem₁, rfl, rfl⟩, Int.le_refl 0⟩
  have hmount := vfsMount_mounted hfind hdriver hinitrd hfsd hret
  obtain ⟨-, hvolumes, hdevices, hvol, hother, -, -⟩ := devfsMount_cases (by rw [hnodes₁]; rfl) hmount
  have hfresh : MountFresh answers.dev s₁ := by
    refine ⟨?_, ?_, fun t => ?_⟩
    · rw [hvolumes₁, List.mem_singleton]
      exact hdevroot
    · rw [hnodes₁, Option.getD_some]
      exact List.forall_mem_singleton.mpr hrootnode
    · rw [hnodes₁, Option.getD_some]
      exact List.forall_mem_singleton.mpr (hf.unused t)
  refine ⟨s₁, _, hinit, hempty, hmount, ⟨?_, ?_, hdevices.trans hempty, ?_, ?_, ?_, ?_⟩⟩
  · rw [hs₀]
    exact ⟨hnone, by rw [← hs₀]; rfl, by rw [← hs₀]; exact ⟨rfl, rfl⟩, answers.root, s₁, answers.dev, h0, hinit, hfresh, hmount⟩
  · exact hmounted.1
  · rw [hvolumes, hvolumes₁]
    rfl
  · rw [hother _ hdevroot.symm, hvol₁, hvol]
    exact ⟨rfl, rfl⟩
  · exact hmounted.2.1.trans hdrivers₁
  · show mounted.1.rootfsNodes.map _ = _
    rw [hmounted.2.2, hnodes₁]
    rfl

variable {k : Kernel} {drivers : List Driver} {m : Mem} {w : World}

/-- `vfs_init` and `device_init`, with the drivers in any order. -/
theorem deviceInit_ready (hk : k.Linked) (hf : answers.Fresh) (hreg : .devfs ∈ registered) (hperm : drivers.Perm Driver.all) (m : Mem)
    (w : World) : ∃ s₁ s₂ st ds, vfsInit answers.root registered { bareFs with mem := m } = some s₁ ∧
      k.deviceInit answers drivers s₁ w = some st ∧ Begun answers registered m s₂ ∧ Installed k answers registered s₂ ds st ∧
      ds.length = 8 ∧ (∀ d, d ∈ ds) ∧ Cleared st.world ∧ Reset st.world ∧ st.world.nodes = w.nodes ∧
      st.world.console.keys = w.console.keys := by
  obtain ⟨s₁, s₂, hinit, hempty, hmount, hbegun⟩ := begun hf hreg m
  have hall : (drivers.flatMap Driver.devices).Perm (Driver.all.flatMap Driver.devices) := hperm.flatMap_right _
  have hnodup : (drivers.flatMap Driver.devices).Nodup := hall.nodup_iff.mpr (by decide)
  have hlen : (drivers.flatMap Driver.devices).length = 8 := hall.length_eq
  have hstart : Installed k answers registered s₂ [] ⟨s₂, w, 0⟩ := by
    refine ⟨.start hbegun.started, rfl, fun p hp => ?_, rfl, rfl, rfl, rfl, rfl⟩
    rw [hbegun.devices] at hp
    cases hp
  obtain ⟨hinstalled, hworld⟩ := hstart.drivers_init hk hf hbegun.rootfsNodes drivers hnodup (Nat.le_of_eq hlen)
  obtain ⟨hnodes, hkeys, hcleared, hreset⟩ := drivers_world drivers w
  have hdev : k.deviceInit answers drivers s₁ w = some (drivers.foldl (k.drvInit answers) ⟨s₂, w, 0⟩) := by
    have hsame : ({ s₁ with devices := [] } : Fs) = s₁ := by rw [← hempty]
    rw [Kernel.deviceInit, hsame, hmount]
    rfl
  refine ⟨s₁, s₂, _, _, hinit, hdev, hbegun, hinstalled, hlen, fun d => ?_, ?_, ?_, ?_, ?_⟩
  · rw [List.nil_append, hall.mem_iff]
    cases d <;> decide
  · rw [hworld]
    exact hcleared (.inl (hperm.mem_iff.mpr (by decide)))
  · rw [hworld]
    exact hreset (.inl (hperm.mem_iff.mpr (by decide)))
  · rw [hworld]
    exact hnodes
  · rw [hworld]
    exact hkeys

/-! ## The ramdisk -/

variable {argp : Nat} {es : List ArchiveEntry} {s₂ : Fs} {ds : List Dev} {st : St}

/-- The image the boot loader has put at `argp`, and memory for its nodes. -/
structure BootImage (answers : BootAnswers) (argp : Nat) (es : List ArchiveEntry) (m : Mem) : Prop where
  archive : Archive es
  image : ArchiveAt m argp es
  fits : argp + imageSize (es.map ArchiveEntry.entry) + 512 ≤ 2 ^ 32
  tar : TarAllocates answers.initrd.tar es.length

theorem BootImage.new (h : BootImage answers argp es m) (hf : answers.Fresh) (hreg : .tarfs ∈ registered)
    (hb : Begun answers registered m s₂) (hi : Installed k answers registered s₂ ds st) :
    NewTarVolume answers.initrd st.fs initrdName argp es where
  archive := h.archive
  image := by
    rw [hi.mem, hb.mem]
    exact h.image
  fits := h.fits
  length := by decide
  no_nul := by decide
  no_colon := by decide
  new := by
    have hkeys : ∀ v ∈ [answers.root.volume, answers.dev.volume], volKey st.fs v ≠ (cstr initrdName).take 17 := by
      rw [List.forall_mem_cons, List.forall_mem_singleton, volKey, volKey, hi.vol, hb.names.1, hb.names.2]
      decide
    rw [findMountpointByName_eq, Directory.find_eq_none, hi.volumes, hb.volumes]
    exact hkeys
  driver := getDriverByName_ident (by rw [hi.drivers, hb.drivers]; exact List.mem_cons_of_mem _ hreg)
  volume := by
    obtain ⟨-, -, hne, -, hroot, hdev⟩ := hf.volumes_ne
    rw [hi.volumes, hb.volumes]
    simp [hne, hroot, hdev]
  tar := h.tar
  rootNode := fun i _ => (hf.vnodes _ _ (by simp [BootAnswers.nodes])).symm

/-- The file systems and memory once the ramdisk is mounted. -/
structure Mounted (k : Kernel) (answers : BootAnswers) (registered : List Family) (ds : List Dev) (argp : Nat)
    (es : List ArchiveEntry) (m : Mem) (s : Fs) : Prop where
  run : KernelRun k.drvFlags registered s (k.dirOf ds)
  tree : TarTree answers.initrd.tar.vnode (slotsAt answers.initrd.tar argp es) answers.initrd.volume s
  volume : vfsGetVolume s initrdName = (s.vol answers.initrd.volume).root
  file : ∀ bx ∈ withHeaders argp es, BytesAt s.mem (bx.1 + sizeOffset) (bx.2.entry.digits ++ [0]) ∧
    BytesAt s.mem (bx.1 + blockSize) bx.2.entry.content ∧
    bx.1 + blockSize + bx.2.entry.content.length ≤ argp + imageSize (es.map ArchiveEntry.entry)
  outside : ∀ a < 2147483648, (a < argp ∨ argp + imageSize (es.map ArchiveEntry.entry) ≤ a) → s.mem a = m a

theorem BootImage.mounted (h : BootImage answers argp es m) (hf : answers.Fresh) (hreg : .tarfs ∈ registered)
    (hb : Begun answers registered m s₂) (hi : Installed k answers registered s₂ ds st) (hlen : ds.length = 8) :
    ∃ s, vfsMount answers.initrd st.fs Family.tarfs.ident initrdName argp = some (s, 0) ∧
      Mounted k answers registered ds argp es m s := by
  have hnew := h.new hf hreg hb hi
  obtain ⟨s, hs, htree, hvolume⟩ := hnew.mount
  have hrun : KernelRun k.drvFlags registered s (k.dirOf ds) := by
    refine .mount hi.run (by decide) (by decide) hnew.volume.2 ?_ (fun t => ?_) hs (hnew.spilled hs)
    · exact hi.unused hb.rootfsNodes hf.rootNodes.2.1 hf.rootNodes.2.2 fun i hlt => (hf.node (hlen ▸ hlt)).2.2.2.1.symm
    · exact hi.unused hb.rootfsNodes (hf.vnodes t _ (by simp [BootAnswers.nodes])) (hf.vnodes t _ (by simp [BootAnswers.nodes]))
        fun i hlt => hf.vnodes t _ (answers.node_mem (hlen ▸ hlt))
  have htrimmed := hnew.trimmed hs
  refine ⟨s, hs, hrun, htree, hvolume, fun bx hbx => hnew.fileLeft hs hbx, fun a _ ha => ?_⟩
  have hm : st.fs.mem = m := hi.mem.trans hb.mem
  rw [← hm]
  refine htrimmed.other a fun bn hbn => ?_
  rw [namesAt, List.zip_map_right] at hbn
  obtain ⟨bx, hbx, rfl⟩ := List.mem_map.mp hbn
  have hge := headers_ge _ _ _ (List.of_mem_zip hbx).1
  have hend := (imageAt_file _ hnew.image.1 bx hbx).2.2
  obtain ⟨x, hx, hentry⟩ := List.mem_map.mp (List.of_mem_zip hbx).2
  have hlen99 := (h.archive.ok x hx).entry.name_le
  rw [hentry] at hlen99
  have hblock : blockSize = 512 := rfl
  dsimp only [Prod.map, id]
  omega

variable {s : Fs}

/-- Where the image is, paging shows it at the addresses it was loaded to. -/
theorem Mounted.paged (h : Mounted k answers registered ds argp es m s) (hb : BootImage answers argp es m)
    (hlow : argp + imageSize (es.map ArchiveEntry.entry) ≤ 2147483648) :
    Mounted k answers registered ds argp es m { s with mem := enablePaging kernelPageDirectory s.mem } := by
  have hsame : ∀ a, a < 2147483648 → enablePaging kernelPageDirectory s.mem a = s.mem a := fun a ha =>
    Mem.Paging.enablePaging_low _ s.mem ha
  refine ⟨h.run.store _, h.tree.store _, h.volume, fun bx hbx => ?_, fun a hlt ha => (hsame a hlt).trans (h.outside a hlt ha)⟩
  obtain ⟨hsize, hcontent, hend⟩ := h.file bx hbx
  have hge := headers_ge _ _ _ (List.of_mem_zip hbx).1
  have hdigits := (hb.archive.ok _ (List.of_mem_zip hbx).2).entry.digits_le
  have hblock : blockSize = 512 := rfl
  have hoffset : sizeOffset = 124 := rfl
  refine ⟨bytesAt_congr hsize fun a hl hr => hsame a ?_, bytesAt_congr hcontent fun a hl hr => hsame a (by omega), hend⟩
  rw [List.length_append, List.length_singleton] at hr
  omega

/-! ## The console -/

/-- Every device has its node. -/
theorem Mounted.device (h : Mounted k answers registered ds argp es m s) {d : Dev} (hd : d ∈ ds) :
    ∃ p, (∀ dup, fsResolve dup s (volumePath devName d.name) = .ret (some p)) ∧ DeviceFile k.drvFlags s p (k.addr d) := by
  obtain ⟨rv, dv, hrun⟩ := kernelRun_running h.run
  obtain ⟨h0, hslash, hne⟩ := d.name_plain
  exact hrun.found h0 hslash hne (installable_short k.drvFlags s (k.addr d) d.name_short).1 (dirOf_mem hd)

theorem Dev.kind (d : Dev) : kindOf d.drvFlags = some (if d = .fb then .blk else .chr) := by
  cases d <;> decide

theorem simple_open (k : Kernel) (node : ConsoleNodes.Node) (flags : Nat) (s : Fs) (w : World) :
    (k.simple (Dev.ofNode node)).open_ flags s w = some (s.mem, w, 0) := by
  rw [Device.open_, Device.call_of ((congrArg kindOf (simple_drvFlags k _)).trans (Dev.kind _))]
  cases node <;> rfl

/-- The console's functions are for characters. -/
theorem vtcon_kind (k : Kernel) : kindOf (k.device .vtcon).drvFlags = some .chr := Dev.kind .vtcon

/-- The three nodes that the console needs resolve and open. -/
theorem Mounted.attempt (h : Mounted k answers registered ds argp es m s) (hk : k.Linked) (hds : ∀ d, d ∈ ds)
    (node : ConsoleNodes.Node) : k.attempt s w node = .opened := by
  obtain ⟨p, hresolve, hfile⟩ := h.device (hds (Dev.ofNode node))
  rw [← simple_flags k] at hfile
  rw [Kernel.attempt, hresolve]
  dsimp only
  rw [hfile.fsOpen, hk.table, simple_open]
  rfl

/-- The console, opened. -/
theorem Mounted.openVtcon (h : Mounted k answers registered ds argp es m s) (hk : k.Linked) (hds : ∀ d, d ∈ ds)
    (hw : w.nodes = ConsoleNodes.init) : ∃ p nodes, DeviceFile k.drvFlags s p (k.addr .vtcon) ∧
      k.fsResolveAndOpen (volumePath devName Dev.vtcon.name) voFwrite s w =
        some (s.mem, ⟨Vtcon.vtconOpen k.env w.console, nodes⟩, some p) := by
  obtain ⟨p, hresolve, hfile⟩ := h.device (hds .vtcon)
  have hall : ∀ node, k.attempt s w node = .opened := fun node => h.attempt hk hds node
  have hopened := @ConsoleNodes.vtconOpen_all w.nodes voFwrite _ (by decide) (by rw [hw]; rfl) hall
  have hopen : Fsops.fsOpen k.devs (some p) voFwrite s w = k.vtconOpen voFwrite s w := by
    rw [hfile.fsOpen, Kernel.devs, hk.table, Device.open_, Device.call_of (vtcon_kind k)]
    rfl
  have hret : (ConsoleNodes.vtconOpen voFwrite (k.attempt s w) w.nodes).2 = 0 := by rw [hopened]
  refine ⟨p, (ConsoleNodes.vtconOpen voFwrite (k.attempt s w) w.nodes).1, hfile, ?_⟩
  rw [Kernel.fsResolveAndOpen, hresolve]
  dsimp only
  rw [hopen, Kernel.vtconOpen]
  rw [if_pos hret, hret]
  rfl

theorem DeviceFile.store {drvFlags : Nat → Nat} {s : Fs} {p : NodePtr} {dev : Nat} (h : DeviceFile drvFlags s p dev) (m : Mem) :
    DeviceFile drvFlags { s with mem := m } p dev := ⟨h.volume, h.family, h.payload, h.ne, h.flags⟩

/-- What is written to it, from wherever it is in memory. -/
theorem fsWrite_vtcon (hk : k.Linked) {p : NodePtr} (hp : DeviceFile k.drvFlags s p (k.addr .vtcon)) (offt buf len : Nat)
    (m : Mem) (w : World) : Fsops.fsWrite k.devs (some p) offt buf len { s with mem := m } w =
      some (m, { w with console := Vtcon.vtconWrite k.env w.console (slice m buf len) }, len) := by
  rw [(DeviceFile.store hp m).fsWrite, Kernel.devs, hk.table, Device.write, Device.call_of (vtcon_kind k)]
  rfl

/-! ## The file -/

theorem vtconWrite_append (env : Env) (c : Console) (a b : List UInt8) :
    Vtcon.vtconWrite env (Vtcon.vtconWrite env c a) b = Vtcon.vtconWrite env c (a ++ b) := by
  rw [Vtcon.vtconWrite, Vtcon.vtconWrite, Vtcon.vtconWrite, List.foldl_append]

/-- The image is as the mount has left it. -/
def Kept (argp : Nat) (es : List ArchiveEntry) (s : Fs) (m : Mem) : Prop :=
  ∀ a, argp ≤ a → a < argp + imageSize (es.map ArchiveEntry.entry) → m a = s.mem a

section Copy

variable {z : Slot} {buffer : Nat} {p : NodePtr} {m' : Mem}

theorem Mounted.slot (h : Mounted k answers registered ds argp es m s)
    (hz : z ∈ slotsAt answers.initrd.tar argp es) : argp ≤ z.block ∧
      BytesAt s.mem (z.block + sizeOffset) (z.entry.entry.digits ++ [0]) ∧ BytesAt s.mem (z.block + blockSize) z.entry.entry.content ∧
      z.block + blockSize + z.entry.entry.content.length ≤ argp + imageSize (es.map ArchiveEntry.entry) := by
  have hmem : (z.block, z.entry) ∈ withHeaders argp es := by
    rw [← slotsFrom_headers es 0 argp]
    exact List.mem_map_of_mem hz
  exact ⟨headers_ge _ _ _ (List.of_mem_zip hmem).1, h.file _ hmem⟩

theorem Mounted.read (h : Mounted k answers registered ds argp es m s) (hb : BootImage answers argp es m)
    (hz : z ∈ slotsAt answers.initrd.tar argp es) (htype : z.entry.type = 48) (hm : Kept argp es s m')
    (hbuf : BufferApart buffer 64 argp (argp + imageSize (es.map ArchiveEntry.entry))) (offt : Nat) (w : World) :
    Fsops.fsRead k.devs (some (z.vnode answers.initrd.tar.vnode)) offt buffer 64 { s with mem := m' } w =
      some (put m' buffer ((z.entry.content.drop offt).take 64), w, ((z.entry.content.drop offt).take 64).length) := by
  obtain ⟨hge, hsize, hcontent, hend⟩ := h.slot hz
  have hs := hb.tar.slots argp hb.archive
  have hdigits := (hs.ok hz).entry.digits_le
  have hfits := hb.fits
  have hblock : blockSize = 512 := rfl
  have hoffset : sizeOffset = 124 := rfl
  have hcount : readCount z.entry.entry offt 64 ≤ 64 := by
    rw [readCount_eq, List.length_take]
    exact Nat.min_le_left ..
  have hread := (h.tree.store m').fsRead k.devs hs hz htype
    (bytesAt_congr hsize fun a hl hr => hm a (by omega) (by rw [List.length_append, List.length_singleton] at hr; omega))
    (bytesAt_congr hcontent fun a hl hr => hm a (by omega) (by omega)) hend (by omega) hge
    (⟨by have := hbuf.1; omega, hbuf.2.imp (fun hlo => by omega) id⟩ : BufferApart buffer (readCount z.entry.entry offt 64) argp _) w
  rw [readCount_eq] at hread
  exact hread

/-- What is left of the file, in reads of 64 bytes. The induction is on the fuel; each turn
    leaves the image as it is, since the buffer is not in it. -/
theorem Mounted.copyLoop (h : Mounted k answers registered ds argp es m s) (hb : BootImage answers argp es m) (hk : k.Linked)
    (hp : DeviceFile k.drvFlags s p (k.addr .vtcon)) (hz : z ∈ slotsAt answers.initrd.tar argp es) (htype : z.entry.type = 48)
    (hlen : z.entry.content.length < 4294967296)
    (hbuf : BufferApart buffer 64 argp (argp + imageSize (es.map ArchiveEntry.entry))) :
    ∀ (fuel offt : Nat) (m' : Mem) (w : World), Kept argp es s m' → offt ≤ z.entry.content.length →
      z.entry.content.length - offt < fuel → ∃ m'',
        k.copyLoop (some p) (some (z.vnode answers.initrd.tar.vnode)) buffer fuel offt { s with mem := m' } w =
          some (m'', { w with console := Vtcon.vtconWrite k.env w.console (z.entry.content.drop offt) }, ()) ∧
        ∀ a, (a < buffer ∨ buffer + 64 ≤ a) → m'' a = m' a := by
  intro fuel
  induction fuel with
  | zero => exact fun offt m' w _ _ hfuel => absurd hfuel (Nat.not_lt_zero _)
  | succ fuel ih =>
    intro offt m' w hm ho hfuel
    have hread := h.read hb hz htype hm hbuf offt w
    generalize hpart : (z.entry.content.drop offt).take 64 = part at hread
    have hpartlen : part.length = min 64 (z.entry.content.length - offt) := by rw [← hpart, List.length_take, List.length_drop]
    have houtside : ∀ a, (a < buffer ∨ buffer + 64 ≤ a) → put m' buffer part a = m' a := fun a ha => put_out m' (by omega)
    rw [Kernel.copyLoop]
    simp only [hread, Option.bind_eq_bind, Option.bind_some]
    by_cases hend : offt = z.entry.content.length
    · rw [if_neg (by omega)]
      refine ⟨_, ?_, houtside⟩
      rw [hend, List.drop_length]
      rfl
    · rw [if_pos (by omega), fsWrite_vtcon hk hp]
      simp only [Option.bind_some]
      have hnext : add32 offt part.length = offt + part.length := add32_eq (by omega)
      have hkept : Kept argp es s (put m' buffer part) := by
        intro a hl hr
        rw [houtside a (by have := hbuf.2; omega)]
        exact hm a hl hr
      obtain ⟨m'', hcopy, hsame⟩ := ih (offt + part.length) (put m' buffer part)
        { w with console := Vtcon.vtconWrite k.env w.console part } hkept (by omega) (by omega)
      refine ⟨m'', ?_, fun a ha => (hsame a ha).trans (houtside a ha)⟩
      rw [slice_put_self, hnext, hcopy]
      have hrest : z.entry.content.drop offt = part ++ z.entry.content.drop (offt + part.length) := by
        rw [← List.drop_drop, ← hpart, List.length_take, List.length_drop]
        conv_lhs => rw [← List.take_append_drop 64 (z.entry.content.drop offt)]
        congr 1
        rcases Nat.le_total 64 (z.entry.content.length - offt) with hl | hl
        · rw [Nat.min_eq_left hl]
        · rw [Nat.min_eq_right hl]
          simp [List.drop_eq_nil_of_le, hl]
      dsimp only
      rw [vtconWrite_append, ← hrest]

end Copy

/-! ## What the boot prints -/

/-- What is printed; nothing is where NULL is dereferenced. -/
def welcome (es : List ArchiveEntry) : Option (List UInt8) :=
  if (Directory.find ArchiveEntry.comps es [systemName]).isNone then none
  else
    match Directory.find ArchiveEntry.comps es [systemName, motdName] with
    | some x => some (if x.type = 48 then x.content ++ [10] else [])
    | none => some []

theorem find_slots {slots : List Slot} {es : List ArchiveEntry} (h : slots.map (·.entry) = es) (comps : List (List UInt8)) :
    Directory.find ArchiveEntry.comps es comps = (Directory.find (fun x => x.entry.comps) slots comps).map (·.entry) := by
  rw [← h, Directory.find, Directory.find, List.find?_map]
  rfl

/-- `n` bytes at `a` that paging leaves where they are and that are not the screen's. -/
structure PlainMemory (a n : Nat) : Prop where
  low : a + n ≤ 2147483648
  offScreen : a + n ≤ Vgafb.vgaBase ∨ Vgafb.vgaBase + 4000 ≤ a

/-- How the boot loader and the linker leave the machine. -/
structure Boots (k : Kernel) (answers : BootAnswers) (registered : List Family) (drivers : List Driver)
    (mods : List MultibootModule) (argp : Nat) (es : List ArchiveEntry) (buffer newline : Nat) (m : Mem) (w : World) : Prop where
  linked : k.Linked
  fresh : answers.Fresh
  families : .devfs ∈ registered ∧ .tarfs ∈ registered
  order : drivers.Perm Driver.all
  first : ∃ mod rest, mods = mod :: rest ∧ mod.IsRamdisk ∧ mod.modStart = argp
  image : BootImage answers argp es m
  /-- `offt` and `read` are of type `int`. -/
  lengths : ∀ x ∈ es, x.content.length < 2147483648
  bufferApart : BufferApart buffer 64 argp (argp + imageSize (es.map ArchiveEntry.entry))
  newlineAt : BytesAt m newline [10, 0]
  newlineApart : (newline + 2 ≤ argp ∨ argp + imageSize (es.map ArchiveEntry.entry) ≤ newline) ∧
    (newline + 2 ≤ buffer ∨ buffer + 64 ≤ newline)
  imagePlain : PlainMemory argp (imageSize (es.map ArchiveEntry.entry) + 512)
  bufferPlain : PlainMemory buffer 64
  newlinePlain : PlainMemory newline 2
  nodes : w.nodes = ConsoleNodes.init

section Boots

variable {buffer newline fuel : Nat} {mods : List MultibootModule}

/-- The string "\n" is printed from where it is. -/
theorem fsWriteString_newline (hk : k.Linked) {p : NodePtr} (hp : DeviceFile k.drvFlags s p (k.addr .vtcon)) {m : Mem}
    (h : BytesAt m newline [10, 0]) (w : World) : k.fsWriteString (some p) 0 newline 2 { s with mem := m } w =
      some (m, { w with console := Vtcon.vtconWrite k.env w.console [10] }, 1) := by
  have h0 : m newline = 10 := h 0 (by decide)
  have h1 : m (newline + 1) = 0 := h 1 (by decide)
  have hone : slice m newline 1 = [10] := by
    rw [slice_succ, h0]
    rfl
  have htwo : slice m newline 2 = [10, 0] := by
    rw [slice_succ, slice_succ, h0, h1]
    rfl
  have hlen : strlen [10, 0] = 1 := by decide
  rw [Kernel.fsWriteString]
  dsimp only
  rw [htwo, hlen, fsWrite_vtcon hk hp, hone]

/-- What the file's path comes to. -/
theorem Mounted.openMotd (h : Mounted k answers registered ds argp es m s) (hb : BootImage answers argp es m) (w : World) :
    k.fsResolveAndOpen (volumePath initrdName motdPath) voFread s w =
      if (Directory.find (fun x : Slot => x.entry.comps) (slotsAt answers.initrd.tar argp es) [systemName]).isNone then none
      else some (s.mem, w, ((Directory.find (fun x : Slot => x.entry.comps) (slotsAt answers.initrd.tar argp es)
        [systemName, motdName]).filter fun z => z.entry.type = 48).map (Slot.vnode answers.initrd.tar.vnode)) := by
  have hs := hb.tar.slots argp hb.archive
  have hresolve : fsResolve k.dup s (volumePath initrdName motdPath) = _ :=
    h.tree.resolveTwo hs (by decide) (by decide) h.volume (by decide) (by decide) k.dup
  rw [Kernel.fsResolveAndOpen]
  by_cases hdir : (Directory.find (fun x : Slot => x.entry.comps) (slotsAt answers.initrd.tar argp es) [systemName]).isNone
  · rw [if_pos hdir] at hresolve ⊢
    rw [hresolve]
  · rw [if_neg hdir] at hresolve ⊢
    rw [hresolve]
    cases hfile : Directory.find (fun x : Slot => x.entry.comps) (slotsAt answers.initrd.tar argp es) [systemName, motdName] with
    | none => rfl
    | some z =>
      rw [Option.map_some]
      dsimp only
      rw [Fsops.fsOpen, onFile_slot h.tree (Directory.find_mem hfile).1]
      by_cases htype : z.entry.type = 48
      · rw [if_pos htype, Option.filter_some, if_pos (decide_eq_true htype)]
        rfl
      · rw [if_neg htype, Option.filter_some, if_neg (by simpa using htype)]
        rfl

/-- All of the file, and the string "\n" is where it was. -/
theorem Mounted.copyMotd (h : Mounted k answers registered ds argp es m s)
    (hb : Boots k answers registered drivers mods argp es buffer newline m w₀) {p : NodePtr}
    (hp : DeviceFile k.drvFlags s p (k.addr .vtcon)) (hfuel : ∀ x ∈ es, x.content.length < fuel) {z : Slot}
    (hz : z ∈ slotsAt answers.initrd.tar argp es) (htype : z.entry.type = 48) (w : World) :
    ∃ m', k.copyLoop (some p) (some (z.vnode answers.initrd.tar.vnode)) buffer fuel 0 { s with mem := s.mem } w =
        some (m', { w with console := Vtcon.vtconWrite k.env w.console z.entry.content }, ()) ∧ BytesAt m' newline [10, 0] := by
  have hmem : z.entry ∈ es := by
    rw [← slotsFrom_entry es 0 argp]
    exact List.mem_map_of_mem hz
  have hlen := hb.lengths z.entry hmem
  obtain ⟨m', hcopy, hsame⟩ := h.copyLoop hb.image hb.linked hp hz htype (by omega) hb.bufferApart fuel 0 s.mem w
    (fun _ _ _ => rfl) (Nat.zero_le _) (hfuel z.entry hmem)
  refine ⟨m', hcopy, bytesAt_congr hb.newlineAt fun a hl hr => ?_⟩
  obtain ⟨hapart, hbuffer⟩ := hb.newlineApart
  have hr' : a < newline + 2 := hr
  have hlow := hb.newlinePlain.low
  exact (hsame a (by omega)).trans (h.outside a (by omega) (by omega))

theorem Mounted.closeMotd (h : Mounted k answers registered ds argp es m s) {z : Slot}
    (hz : z ∈ slotsAt answers.initrd.tar argp es) (htype : z.entry.type = 48) (m' : Mem) (w : World) :
    Fsops.fsClose k.devs (some (z.vnode answers.initrd.tar.vnode)) { s with mem := m' } w = some (m', w, 0) := by
  rw [Fsops.fsClose, onFile_slot (h.tree.store m') hz, if_pos htype]
  rfl

/-- The file is opened, printed and closed. -/
theorem Mounted.kernelWelcome (h : Mounted k answers registered ds argp es m s)
    (hb : Boots k answers registered drivers mods argp es buffer newline m w₀) (hds : ∀ d, d ∈ ds) (hw : w.nodes = ConsoleNodes.init)
    (hfuel : ∀ x ∈ es, x.content.length < fuel) :
    match Boot.welcome es with
    | none => k.kernelWelcome buffer newline fuel s w = none
    | some text => ∃ m' nodes, k.kernelWelcome buffer newline fuel s w =
        some (m', ⟨Vtcon.vtconWrite k.env (Vtcon.vtconOpen k.env w.console) text, nodes⟩, ()) := by
  obtain ⟨p, nodes, hp, hopen⟩ := h.openVtcon hb.linked hds hw
  have hs := hb.image.tar.slots argp hb.image.archive
  have hslots : (slotsAt answers.initrd.tar argp es).map (·.entry) = es := slotsFrom_entry es 0 argp
  have hmotd := h.openMotd hb.image ⟨Vtcon.vtconOpen k.env w.console, nodes⟩
  rw [Boot.welcome, find_slots hslots, find_slots hslots, Option.isNone_map, Kernel.kernelWelcome, hopen]
  by_cases hdir : (Directory.find (fun x : Slot => x.entry.comps) (slotsAt answers.initrd.tar argp es) [systemName]).isNone
  · rw [if_pos hdir] at hmotd ⊢
    simp only [Option.bind_eq_bind, Option.bind_some, hmotd, Option.bind_none]
  · rw [if_neg hdir] at hmotd ⊢
    simp only [Option.bind_eq_bind, Option.bind_some, hmotd]
    cases hfile : Directory.find (fun x : Slot => x.entry.comps) (slotsAt answers.initrd.tar argp es) [systemName, motdName] with
    | none => exact ⟨s.mem, nodes, rfl⟩
    | some z =>
      by_cases htype : z.entry.type = 48
      · obtain ⟨hz, -⟩ := Directory.find_mem hfile
        obtain ⟨m', hcopy, hnewline⟩ := h.copyMotd hb hp hfuel hz htype ⟨Vtcon.vtconOpen k.env w.console, nodes⟩
        rw [Option.filter_some, if_pos (decide_eq_true htype), Option.map_some]
        dsimp only
        rw [if_pos htype]
        simp only [Option.map_some, Option.isSome_some, if_true, hcopy, fsWriteString_newline hb.linked hp hnewline,
          h.closeMotd hz htype, Option.bind_some]
        refine ⟨m', nodes, ?_⟩
        rw [vtconWrite_append]
      · rw [Option.filter_some, if_neg (by simpa using htype), Option.map_some]
        dsimp only
        rw [if_neg htype]
        exact ⟨s.mem, nodes, rfl⟩

/-- The boot is the console opened, with the screen cleared and the contexts reset, and the text
    written to it. -/
theorem Boots.kernelMain (hb : Boots k answers registered drivers mods argp es buffer newline m w)
    (hfuel : ∀ x ∈ es, x.content.length < fuel) : ∃ v : World, Cleared v ∧ Reset v ∧ v.console.keys = w.console.keys ∧
      match Boot.welcome es with
      | none => k.kernelMain answers registered drivers mods buffer newline fuel m w = none
      | some text => ∃ m' nodes, k.kernelMain answers registered drivers mods buffer newline fuel m w =
          some (m', ⟨Vtcon.vtconWrite k.env (Vtcon.vtconOpen k.env v.console) text, nodes⟩) := by
  obtain ⟨s₁, s₂, st, ds, hinit, hdev, hbegun, hinstalled, hlen, hds, hcleared, hreset, hnodes, hkeys⟩ :=
    deviceInit_ready hb.linked hb.fresh hb.families.1 hb.order m w
  obtain ⟨s, hmount, hmounted⟩ := hb.image.mounted hb.fresh hb.families.2 hbegun hinstalled hlen
  obtain ⟨mod, rest, rfl, hramdisk, hstart⟩ := hb.first
  have hfs : bootFs answers.initrd st.fs (mod :: rest) = some s := by
    rw [bootFs_first _ _ hramdisk, hstart, hmount]
    rfl
  have hlow := hb.imagePlain.low
  have hwelcome := (hmounted.paged hb.image (by omega)).kernelWelcome hb hds (hnodes.trans hb.nodes) hfuel
  have hmain : k.kernelMain answers registered drivers (mod :: rest) buffer newline fuel m w =
      (k.kernelWelcome buffer newline fuel { s with mem := enablePaging kernelPageDirectory s.mem } st.world).map
        fun r => (r.1, r.2.1) := by
    simp only [Kernel.kernelMain, Option.bind_eq_bind, hinit, hdev, hfs, Option.bind_some]
    cases k.kernelWelcome buffer newline fuel { s with mem := enablePaging kernelPageDirectory s.mem } st.world <;> rfl
  refine ⟨st.world, hcleared, hreset, hkeys, ?_⟩
  rw [hmain]
  cases htext : Boot.welcome es with
  | none =>
    rw [htext] at hwelcome
    rw [hwelcome]
    rfl
  | some text =>
    rw [htext] at hwelcome
    obtain ⟨m', nodes, hprinted⟩ := hwelcome
    rw [hprinted]
    exact ⟨m', nodes, rfl⟩

/-- From the boot loader to the welcome: whatever the drivers' order and whatever is in the
    archive, the screen shows the file `SYSTEM/MOTD.TXT` and a line's end, written from its
    first corner on; nothing, if that is not a file. Without an entry `SYSTEM` the boot does not
    come so far: NULL is dereferenced. -/
theorem booting_prints_the_motd (hb : Boots k answers registered drivers mods argp es buffer newline m w)
    (hfuel : ∀ x ∈ es, x.content.length < fuel) :
    match welcome es with
    | none => k.kernelMain answers registered drivers mods buffer newline fuel m w = none
    | some text => ∃ m' w', k.kernelMain answers registered drivers mods buffer newline fuel m w = some (m', w') ∧
        Shown 7 0 w'.console (bootPaper.write 7 0 text) := by
  obtain ⟨v, hcleared, hreset, -, hmain⟩ := hb.kernelMain hfuel
  cases htext : welcome es with
  | none =>
    rw [htext] at hmain
    exact hmain
  | some text =>
    rw [htext] at hmain
    obtain ⟨m', nodes, hprinted⟩ := hmain
    exact ⟨m', _, hprinted, (shown_boot hcleared hreset k.env).vtconWrite k.env text⟩

/-- The console as the boot leaves it: the text on the selected paper, and blank others. -/
theorem onPapers_boot {v : World} (hcleared : Cleared v) (hreset : Reset v) (env : Env) (text : List UInt8) :
    OnPapers (Vtcon.vtconWrite env (Vtcon.vtconOpen env v.console) text) (.start v.console.current (bootPaper.write 7 0 text)) := by
  have hopen := Vtcon.onPapers_open env hreset (shown_boot hcleared hreset env)
  have hwritten : OnPapers (Vtcon.vtconWrite env (Vtcon.vtconOpen env v.console) text) _ := hopen.step env (.write text)
  have hstep : (Terminals.start v.console.current bootPaper).step (.write text) =
      .start v.console.current (bootPaper.write 7 0 text) := by
    rw [Terminals.step, Terminals.start, Terminals.start]
    dsimp only
    rw [Function.update_idem, Function.update_self]
    rfl
  rwa [hstep] at hwritten

theorem keys_boot (env : Env) (c : Console) (text : List UInt8) : (Vtcon.vtconWrite env (Vtcon.vtconOpen env c) text).keys = c.keys := by
  rw [(Vtcon.local_vtconWrite env text).keys, Vtcon.vtconOpen_eq, (Vtcon.local_finish env).keys]

/-- From the boot loader on: what is typed once the welcome is printed appears after it, and on
    the consoles that are switched to, whenever the interrupts come. -/
theorem typing_is_shown_after_the_boot (hb : Boots k answers registered drivers mods argp es buffer newline m w)
    (hfuel : ∀ x ∈ es, x.content.length < fuel) {text : List UInt8} (htext : welcome es = some text) :
    ∃ m' w', k.kernelMain answers registered drivers mods buffer newline fuel m w = some (m', w') ∧
      ∀ ring evs s, Polled k.env (fun s e => Room s e ∧ OneCode s e) (booted w'.console ring) evs s →
        ∃ codes : List (List UInt8), (∀ code ∈ codes, Whole code) ∧ stream evs = codes.flatten ++ unread s.rbuf ∧
          OnPapers s.con ((codes.foldl tap (w.console.keys, [])).2.foldl Terminals.type
            (.start w.console.current (bootPaper.write 7 0 text))) := by
  obtain ⟨v, hcleared, hreset, hkeys, hmain⟩ := hb.kernelMain hfuel
  rw [htext] at hmain
  obtain ⟨m', nodes, hprinted⟩ := hmain
  refine ⟨m', _, hprinted, fun ring evs s hrun => ?_⟩
  have htyped := (onPapers_boot hcleared hreset k.env text).typed hrun
  have hcur : v.console.current = w.console.current := congrArg Vtcon.Keys.current hkeys
  rw [keys_boot, hkeys, hcur] at htyped
  exact htyped

end Boots

end Start

/-! ## A greeting of two letters -/

def greeting : List ArchiveEntry :=
  [⟨[dot, slash], [], [], 53, [], []⟩, ⟨[dot, slash], [systemName], [slash], 53, [], []⟩,
    ⟨[dot, slash], [systemName, motdName], [], 48, [50], [104, 105]⟩]

/-- Their image at 1 MiB, and the string "\n" at 4 MiB. -/
def greetingImage : Mem :=
  put (put (put (put (put (put (put (put (put ⟨fun _ => 0⟩ 0x100000 [dot, slash]) 0x10009C [53])
    0x100200 ([dot, slash] ++ systemName ++ [slash])) 0x10029C [53]) 0x100400 ([dot, slash] ++ motdPath)) 0x10047C [50])
    0x10049C [48]) 0x100600 [104, 105]) 0x400000 [10]

def greetingModule : MultibootModule := ⟨⟨0x100000, 0x100800, by decide, by decide⟩, ramdiskString⟩

/-- Nodes from 80 on, one behind the other, and the archive's from 1024 on. -/
def bootAnswers : BootAnswers :=
  ⟨{ tarAnswers with volume := 1, rootNode := (80, ⟨fun _ => 0⟩) }, { tarAnswers with volume := 2, rootNode := (160, ⟨fun _ => 0⟩) },
    fun i => (80 * i + 320, ⟨fun _ => 0⟩), { tarAnswers with volume := 3, rootNode := (240, ⟨fun _ => 0⟩) }⟩

def bootKernel : Kernel := ⟨fun d => Dev.all.idxOf d + 1, fun _ => noDevice, ⟨[118], fun _ => ⟨fun _ => 0⟩⟩, []⟩

/-- Nothing in the screen's memory. -/
def bootWorld : World :=
  ⟨⟨⟨⟨fun _ => 0⟩, fun _ => 0⟩, fun _ => ⟨0, 0, 0, 0, 0, ⟨fun _ => 0⟩⟩, ⟨0, by decide⟩, 0, []⟩, ConsoleNodes.init⟩

theorem greeting_boots : Boots bootKernel bootAnswers [.devfs, .tarfs] Driver.all [greetingModule] 0x100000
    greeting 0x300000 0x400000 greetingImage bootWorld where
  linked := by
    refine ⟨fun d => Nat.succ_ne_zero _, fun d e h => ?_⟩
    revert h
    cases d <;> cases e <;> decide
  fresh := by
    have hlow : ∀ a ∈ bootAnswers.nodes, a + 80 ≤ 1024 := by decide
    exact ⟨by decide, by decide, by decide, fun t a ha => .inr (Nat.le_trans (hlow a ha) (Nat.le_add_left _ _)),
      fun t => .inr (Nat.le_trans (hlow _ (by decide)) (Nat.le_add_left _ _))⟩
  families := by decide
  order := .refl _
  first := ⟨_, _, rfl, by decide, rfl⟩
  image := by
    refine ⟨⟨by decide, by decide, by decide, by decide⟩, ⟨?_, by decide⟩, by decide,
      ⟨⟨by decide, by constructor <;> simp only [bootAnswers, tarAnswers, upwards] <;> decide, by decide, by decide⟩, rfl⟩⟩
    refine ⟨by decide, by decide, by decide, by decide, by decide, by decide, ?_⟩
    refine ⟨by decide, by decide, by decide, ?_⟩
    show greetingImage _ = 0
    decide
  lengths := by decide
  bufferApart := by unfold BufferApart; decide
  newlineAt := by decide
  newlineApart := by decide
  imagePlain := ⟨by decide, by decide⟩
  bufferPlain := ⟨by decide, by decide⟩
  newlinePlain := ⟨by decide, by decide⟩
  nodes := rfl

theorem greeting_is_shown : ∃ m' w', bootKernel.kernelMain bootAnswers [.devfs, .tarfs] Driver.all
      [greetingModule] 0x300000 0x400000 3 greetingImage bootWorld = some (m', w') ∧
    screenCell w'.console 0 0 = entryCell (vgaEntry 104 7 0) ∧ screenCell w'.console 0 1 = entryCell (vgaEntry 105 7 0) ∧
    w'.console.context.cx = 0 ∧ w'.console.context.cy = 1 := by
  obtain ⟨m', w', hmain, hshown⟩ := booting_prints_the_motd greeting_boots (show ∀ x ∈ greeting, x.content.length < 3 by decide)
  exact ⟨m', w', hmain, hshown.cells 0 (by decide) 0 (by decide), hshown.cells 0 (by decide) 1 (by decide), hshown.cx, hshown.cy⟩

/-- The letter A after it. -/
theorem typing_after_the_greeting : ∃ m' w', bootKernel.kernelMain bootAnswers [.devfs, .tarfs] Driver.all
      [greetingModule] 0x300000 0x400000 3 greetingImage bootWorld = some (m', w') ∧
    ∃ evs s, Polled bootKernel.env (fun s e => Room s e ∧ OneCode s e) (booted w'.console fun _ => 0) evs s ∧ stream evs = [0x1E] ∧
      screenCell s.con 0 0 = entryCell (vgaEntry 104 7 0) ∧ screenCell s.con 1 0 = entryCell (vgaEntry 97 7 0) := by
  have htext : welcome greeting = some [104, 105, 10] := by decide
  obtain ⟨m', w', hmain, htyping⟩ :=
    typing_is_shown_after_the_boot greeting_boots (show ∀ x ∈ greeting, x.content.length < 3 by decide) htext
  obtain ⟨evs, s, hrun, hstream, hdrained⟩ := Vtcon.key_a_polled bootKernel.env w'.console
  obtain ⟨codes, hwhole, hcodes, hpapers⟩ := htyping _ evs s hrun
  rw [hstream, hdrained] at hcodes
  rw [Vtcon.codes_of_key_a hwhole hcodes] at hpapers
  have hshown := hpapers.shown
  exact ⟨m', w', hmain, evs, s, hrun, hstream, hshown.cells 0 (by decide) 0 (by decide), hshown.cells 1 (by decide) 0 (by decide)⟩

end NativeOS.Kern.Boot
