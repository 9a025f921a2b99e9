/-
  NativeOS.Kern.VfsProofs — the mount table and the root directory stay in step.

  The invariant (`InStep`) pairs the volumes with rootfs's nodes, position by position, and
  keeps the volumes' first seventeen bytes apart. A mount is refused when those are taken, so the
  whole names that the root directory is searched for are different too, and an unmount
  takes out the two entries that belong together.

  Proved:
  * `mount_table_in_step` — after every run of mounts and unmounts from `vfs_init`.
-/

import NativeOS.Kern.Vfs

namespace NativeOS.Kern

open NativeOS.Lib
open NativeOS.Stdkern
open NativeOS.Fs.Tar (TarfsAnswers TarKeeps tarfsMount tarfsMount_keeps)

/-! ## Searches -/

/-- What `find_mountpoint_by_name` compares. -/
def volKey (s : Fs) (v : Nat) : List UInt8 := (cstr (s.vol v).name).take 17

theorem findMountpointByName_eq (s : Fs) (mtname : List UInt8) :
    findMountpointByName s mtname = Directory.find (volKey s) s.volumes ((cstr mtname).take 17) := by
  refine Directory.find?_eq_find fun v _ => ?_
  rw [decide_eq_decide, strncmp_eq_zero (by decide)]
  rfl

/-- A volume added under a new name is found under it. -/
theorem findMountpointByName_snoc {s s' : Fs} {v : Nat} {name : List UInt8} (hnew : findMountpointByName s name = none)
    (hvolumes : s'.volumes = s.volumes ++ [v]) (hold : ∀ w ∈ s.volumes, volKey s' w = volKey s w)
    (hkey : volKey s' v = (cstr name).take 17) : findMountpointByName s' name = some v := by
  rw [findMountpointByName_eq, Directory.find_eq_none] at hnew
  rw [findMountpointByName_eq, hvolumes, Directory.find_snoc, if_pos hkey.symm]
  intro w hw
  rw [hold w hw, hkey]
  exact hnew w hw

theorem strdup_eq {name : List UInt8} (h : 1 ≤ strlen name) (stale : List UInt8) : strdup stale name = cstr name := by
  have h0 : name.headD 0 ≠ 0 := by
    intro h0
    rw [strlen, cstr_eq_nil.mpr h0] at h
    exact absurd h (by decide)
  rw [strdup, if_pos h0]

theorem cstr_cstr (s : List UInt8) : cstr (cstr s) = cstr s := cstr_of_no_zero (zero_not_mem_cstr s)

/-! ## The invariant -/

/-- The node is the volume's: its payload, and its name wherever it is read. -/
structure Named (s : Fs) (p : NodePtr) (v : Nat) : Prop where
  heap : ∃ a, p = .heap a
  payload : (s.node p).payload = v
  name : ∀ rest, cstr ((s.node p).name.bytes ++ rest) = cstr (s.vol v).name

structure InStep (s : Fs) (ns : List NodePtr) : Prop where
  nodes : s.rootfsNodes = some ns
  paired : List.Forall₂ (Named s) ns s.volumes
  distinct : Directory.Distinct (volKey s) s.volumes

theorem Named.heap_of_mem {s : Fs} {ns : List NodePtr} {vs : List Nat} (h : List.Forall₂ (Named s) ns vs) :
    ∀ p ∈ ns, ∃ a, p = .heap a := by
  induction h with
  | nil => exact List.forall_mem_nil _
  | cons hpv _ ih => exact List.forall_mem_cons.mpr ⟨hpv.heap, ih⟩

theorem InStep.frame {s s' : Fs} {ns : List NodePtr} (h : InStep s ns) (hn : s'.rootfsNodes = s.rootfsNodes)
    (hv : s'.volumes = s.volumes) (hnode : ∀ p ∈ ns, s'.node p = s.node p)
    (hname : ∀ v ∈ s.volumes, (s'.vol v).name = (s.vol v).name) : InStep s' ns := by
  have hkeys : ∀ v ∈ s.volumes, volKey s' v = volKey s v := fun v hm => by rw [volKey, volKey, hname v hm]
  refine ⟨hn.trans h.nodes, ?_, ?_⟩
  · rw [hv]
    refine Directory.paired_imp h.paired fun p hp v hm hpv => ⟨hpv.heap, ?_, fun rest => ?_⟩
    · rw [hnode p hp]
      exact hpv.payload
    · rw [hnode p hp, hname v hm]
      exact hpv.name rest
  · rw [hv]
    exact h.distinct.congr hkeys

/-- Names with different first bytes are different. -/
theorem InStep.names {s : Fs} {ns : List NodePtr} (h : InStep s ns) :
    Directory.Distinct (fun v => cstr (s.vol v).name) s.volumes := by
  have hd := h.distinct
  unfold Directory.Distinct at hd ⊢
  have hmap : s.volumes.map (volKey s) = (s.volumes.map fun v => cstr (s.vol v).name).map (List.take 17) := by
    rw [List.map_map]
    rfl
  rw [hmap] at hd
  exact hd.of_map _

/-- A volume's node is found under the volume's name. -/
theorem InStep.unregister {s : Fs} {ns : List NodePtr} (h : InStep s ns) {v : Nat} (hv : v ∈ s.volumes) :
    ∃ p, rootfsUnregisterVolume s v = { s with rootfsNodes := some (ns.erase p) } ∧
      List.Forall₂ (Named s) (ns.erase p) (s.volumes.erase v) := by
  have hnames := h.names
  have hshared : ∀ p v, Named s p v → (fun p => cstr (s.node p).text) p = (fun v => cstr (s.vol v).name) v :=
    fun _ _ hpv => hpv.name _
  obtain ⟨p, hfind, -, herase⟩ := Directory.paired_erase h.paired hshared hnames hv
  refine ⟨p, ?_, herase⟩
  have hsearch : (ns.find? fun p => decide (strcmp (s.node p).text (s.vol v).name = 0)) = some p := by
    rw [← hfind]
    refine Directory.find?_eq_find fun q _ => ?_
    rw [decide_eq_decide, strcmp_eq_zero]
  unfold rootfsUnregisterVolume
  rw [h.nodes, Option.getD_some]
  dsimp only
  rw [hsearch]

/-! ## One mount -/

/-- What a driver's mount does once rootfs is mounted. -/
theorem fsdMount_cases {answers : MountAnswers} {s : Fs} {vol : Nat} {family : Family} {r : Fs × Int}
    (h : fsdMount answers s vol family = some r) (hns : s.rootfsNodes.isSome) :
    r = (s, -1) ∨
    (family = .devfs ∧ (s.node .devfsRootdir).volume = 0 ∧
      r = ((s.setNode .devfsRootdir { s.node .devfsRootdir with volume := vol }).setVol vol
        { s.vol vol with root := some .devfsRootdir }, 0)) ∨
    (family = .tarfs ∧ ∃ s' root, TarKeeps answers.tar.vnode s s' ∧
      r = (s'.setVol vol { s.vol vol with root := root, payload := answers.tar.payload }, 0) ∧
      (answers.tar.root = none → ∀ p, root = some p →
        (∃ t, p = .heap (answers.tar.vnode t).vnode) ∧ (s'.node p).volume = vol)) := by
  cases family with
  | rootfs =>
    rw [fsdMount, rootfsMount, if_pos hns] at h
    cases h
    exact .inl rfl
  | devfs =>
    rw [fsdMount, devfsMount] at h
    split at h
    · cases h
      exact .inl rfl
    · rename_i h0
      cases h
      exact .inr (.inl ⟨rfl, not_not.mp h0, rfl⟩)
  | tarfs =>
    obtain ⟨s', hkeeps, hr⟩ := tarfsMount_keeps h
    rcases hr with rfl | ⟨root, rfl, howned⟩
    · exact .inl rfl
    · exact .inr (.inr ⟨rfl, s', root, hkeeps, rfl, howned⟩)

/-- Not the table, the root directory, or a name. -/
structure DriverKeeps (s s' : Fs) (ns : List NodePtr) : Prop where
  volumes : s'.volumes = s.volumes
  rootfsNodes : s'.rootfsNodes = s.rootfsNodes
  node : ∀ p ∈ ns, s'.node p = s.node p
  name : ∀ v, (s'.vol v).name = (s.vol v).name

theorem setVol_name (s : Fs) {v : Nat} {vol : Volume} (h : vol.name = (s.vol v).name) (w : Nat) :
    ((s.setVol v vol).vol w).name = (s.vol w).name := by
  by_cases hw : w = v
  · rw [hw, Fs.setVol_self]
    exact h
  · rw [Fs.setVol_ne s vol hw]

theorem fsdMount_keeps {answers : MountAnswers} {s : Fs} {vol : Nat} {family : Family} {r : Fs × Int} {ns : List NodePtr}
    (h : fsdMount answers s vol family = some r) (hns : s.rootfsNodes = some ns) (hheap : ∀ p ∈ ns, ∃ a, p = .heap a)
    (hfresh : ∀ t, .heap (answers.tar.vnode t).vnode ∉ ns) : DriverKeeps s r.1 ns := by
  rcases fsdMount_cases h (by rw [hns]; rfl) with rfl | ⟨-, -, rfl⟩ | ⟨-, s', root, hkeeps, rfl, -⟩
  · exact ⟨rfl, rfl, fun _ _ => rfl, fun _ => rfl⟩
  · refine ⟨rfl, rfl, fun p hp => ?_, setVol_name (s.setNode _ _) rfl⟩
    obtain ⟨a, rfl⟩ := hheap p hp
    have hne : NodePtr.heap a ≠ .devfsRootdir := NodePtr.noConfusion
    exact Fs.setNode_ne s { s.node .devfsRootdir with volume := vol } hne
  · refine ⟨hkeeps.volumes, hkeeps.rootfsNodes, fun p hp => hkeeps.node p fun t he => hfresh t (he ▸ hp), fun v => ?_⟩
    rw [← hkeeps.vol]
    refine setVol_name s' ?_ v
    rfl

/-- The root directory's new node belongs to the new volume. -/
theorem InStep.register {s : Fs} {ns : List NodePtr} (h : InStep s ns) {v : Nat} {answer : Nat × Mem}
    (hfresh : .heap answer.1 ∉ ns) (h1 : 1 ≤ strlen (s.vol v).name) (h64 : strlen (s.vol v).name < 64)
    (hkey : ∀ w ∈ s.volumes, volKey s w ≠ volKey s v) :
    InStep (rootfsRegisterVolume { s with volumes := s.volumes ++ [v] } v answer) (ns ++ [.heap answer.1]) := by
  have hold : ∀ p ∈ ns, (rootfsRegisterVolume { s with volumes := s.volumes ++ [v] } v answer).node p = s.node p :=
    fun p hp => Fs.setNode_ne _ _ fun he => hfresh (he ▸ hp)
  have hself : (rootfsRegisterVolume { s with volumes := s.volumes ++ [v] } v answer).node (.heap answer.1) =
      volumeNode { s with volumes := s.volumes ++ [v] } v answer.2 := Fs.setNode_self _ _ _
  refine ⟨?_, Directory.paired_snoc (Directory.paired_imp h.paired ?_) ?_, h.distinct.snoc hkey⟩
  · show s.rootfsNodes.map _ = _
    rw [h.nodes]
    rfl
  · intro p hp w _ hpw
    refine ⟨hpw.heap, ?_, fun rest => ?_⟩
    · rw [hold p hp]
      exact hpw.payload
    · rw [hold p hp]
      exact hpw.name rest
  · refine ⟨⟨_, rfl⟩, ?_, fun rest => ?_⟩
    · rw [hself]
      rfl
    · rw [hself]
      exact cstr_strcpy answer.2 0 (List.ne_nil_of_length_pos h1) h64 rest

/-- `malloc` gives the volume, the root directory's node and the nodes of a TAR image memory that
    no volume and no node of the root directory is in. -/
structure MountFresh (answers : MountAnswers) (s : Fs) : Prop where
  volume : answers.volume ∉ s.volumes
  rootNode : ClearOf (s.rootfsNodes.getD []) answers.rootNode.1
  vnode : ∀ t, ClearOf (s.rootfsNodes.getD []) (answers.tar.vnode t).vnode

/-- A mount that is refused, or fails, or succeeds. -/
theorem vfsMount_cases {answers : MountAnswers} {s : Fs} {driver name : List UInt8} {argp : Nat} {r : Fs × Int}
    (hr : vfsMount answers s driver name argp = some r) :
    r = (s, -1) ∨ ∃ family mounted, findMountpointByName s name = none ∧ getDriverByName s driver = some family ∧
      answers.volume ≠ 0 ∧
      fsdMount answers (s.setVol answers.volume ⟨strdup answers.dup name, family, none, argp⟩) answers.volume family =
        some mounted ∧
      ((mounted.2 < 0 ∧ r = (mounted.1, -1)) ∨
       (0 ≤ mounted.2 ∧ r = (rootfsRegisterVolume { mounted.1 with volumes := mounted.1.volumes ++ [answers.volume] }
          answers.volume answers.rootNode, 0))) := by
  unfold vfsMount at hr
  split at hr
  · cases hr
    exact .inl rfl
  rename_i hfind
  split at hr
  · cases hr
    exact .inl rfl
  rename_i family hdriver
  split at hr
  · cases hr
    exact .inl rfl
  rename_i h0
  rw [Option.bind_eq_bind, Option.bind_eq_some_iff] at hr
  obtain ⟨mounted, hmount, hr⟩ := hr
  refine .inr ⟨family, mounted, by simpa using hfind, hdriver, h0, hmount, ?_⟩
  split at hr
  · rename_i hneg
    cases hr
    exact .inl ⟨hneg, rfl⟩
  · rename_i hneg
    cases hr
    exact .inr ⟨Int.not_lt.mp hneg, rfl⟩

theorem vfsMount_mounted {answers : MountAnswers} {s : Fs} {driver name : List UInt8} {argp : Nat} {family : Family}
    {mounted : Fs × Int} (hfind : findMountpointByName s name = none) (hdriver : getDriverByName s driver = some family)
    (h0 : answers.volume ≠ 0)
    (hmount : fsdMount answers (s.setVol answers.volume ⟨strdup answers.dup name, family, none, argp⟩) answers.volume family =
      some mounted) (hok : 0 ≤ mounted.2) :
    vfsMount answers s driver name argp =
      some (rootfsRegisterVolume { mounted.1 with volumes := mounted.1.volumes ++ [answers.volume] } answers.volume
        answers.rootNode, 0) := by
  rw [vfsMount, hfind, hdriver, Option.isSome_none, if_neg Bool.false_ne_true]
  dsimp only
  rw [if_neg h0, hmount, Option.bind_eq_bind, Option.bind_some, if_neg (Int.not_lt.mpr hok)]

theorem InStep.mount {s : Fs} {ns : List NodePtr} (h : InStep s ns) {answers : MountAnswers} {driver name : List UInt8}
    {argp : Nat} {r : Fs × Int} (h1 : 1 ≤ strlen name) (h64 : strlen name < 64) (hfresh : MountFresh answers s)
    (hr : vfsMount answers s driver name argp = some r) :
    (r.2 = -1 ∧ r.1.volumes = s.volumes ∧ r.1.rootfsNodes = s.rootfsNodes ∧ InStep r.1 ns) ∨
    (r.2 = 0 ∧ InStep r.1 (ns ++ [.heap answers.rootNode.1])) := by
  have hroot := hfresh.rootNode.not_mem
  have hvnode := fun t => (hfresh.vnode t).not_mem
  simp only [h.nodes, Option.getD_some] at hroot hvnode
  rcases vfsMount_cases hr with rfl | ⟨family, mounted, hfind, -, -, hmount, hend⟩
  · exact .inl ⟨rfl, rfl, rfl, h⟩
  rw [strdup_eq h1] at hmount
  generalize hs1 : s.setVol answers.volume ⟨cstr name, family, none, argp⟩ = s1 at hmount
  have hvol : (s1.vol answers.volume).name = cstr name := by rw [← hs1, Fs.setVol_self]
  have hin1 : InStep s1 ns := by
    rw [← hs1]
    refine h.frame rfl rfl (fun _ _ => rfl) fun v hv => ?_
    rw [Fs.setVol_ne s _ (ne_of_mem_of_not_mem hv hfresh.volume)]
  have hkeeps := fsdMount_keeps hmount hin1.nodes (Named.heap_of_mem hin1.paired) hvnode
  have hin2 : InStep mounted.1 ns := hin1.frame hkeeps.rootfsNodes hkeeps.volumes hkeeps.node fun v _ => hkeeps.name v
  have hname : (mounted.1.vol answers.volume).name = cstr name := (hkeeps.name _).trans hvol
  have hvolumes : mounted.1.volumes = s.volumes := hkeeps.volumes.trans (by rw [← hs1]; rfl)
  rcases hend with ⟨-, rfl⟩ | ⟨-, rfl⟩
  · refine .inl ⟨rfl, hvolumes, ?_, hin2⟩
    rw [hin2.nodes, h.nodes]
  · refine .inr ⟨rfl, hin2.register hroot ?_ ?_ ?_⟩
    · rw [hname, strlen, cstr_cstr]
      exact h1
    · rw [hname, strlen, cstr_cstr]
      exact h64
    · -- the search before the mount found no volume with the new one's key
      rw [findMountpointByName_eq] at hfind
      intro w hw
      rw [hvolumes] at hw
      have hw' : volKey mounted.1 w = volKey s w := by
        rw [volKey, volKey, hkeeps.name, ← hs1, Fs.setVol_ne s _ (ne_of_mem_of_not_mem hw hfresh.volume)]
      rw [hw', volKey.eq_1 mounted.1, hname, cstr_cstr]
      exact Directory.find_eq_none.mp hfind w hw

/-! ## Runs -/

/-- The states reached from `vfs_init` by mounts and unmounts, with names of 1 to 63 bytes. -/
inductive VfsRun (registered : List Family) : Fs → Prop
  | init {s₀ s : Fs} {answers : MountAnswers} : s₀.rootfsNodes = none → answers.volume ≠ 0 →
      vfsInit answers registered s₀ = some s → VfsRun registered s
  | mount {s : Fs} {answers : MountAnswers} {driver name : List UInt8} {argp : Nat} {r : Fs × Int} : VfsRun registered s →
      1 ≤ strlen name → strlen name < 64 → MountFresh answers s → vfsMount answers s driver name argp = some r →
      VfsRun registered r.1
  | umount {s : Fs} (name : List UInt8) : VfsRun registered s → VfsRun registered (vfsUmount s name).1

/-- The list rootfs's own mount makes; the volume is not in the table yet. -/
def rootMounted (s₀ : Fs) (v : Nat) : Fs :=
  Fs.setVol (Fs.setNode { s₀ with volumes := [], drivers := [.rootfs], rootfsNodes := some [] } .rootfsRoot
    { s₀.node .rootfsRoot with volume := v }) v ⟨[82, 79, 79, 84], .rootfs, some .rootfsRoot, 0⟩

theorem rootfsMount_first {s₀ : Fs} (hroot : s₀.rootfsNodes = none) (v : Nat) :
    rootfsMount (Fs.setVol { s₀ with volumes := [], drivers := [.rootfs] } v ⟨[82, 79, 79, 84], .rootfs, none, 0⟩) v =
      (rootMounted s₀ v, 0) := by
  unfold rootfsMount rootMounted Fs.setVol Fs.setNode
  rw [hroot]
  simp

theorem vfsInit_eq {s₀ : Fs} (hroot : s₀.rootfsNodes = none) {answers : MountAnswers} (h0 : answers.volume ≠ 0)
    (registered : List Family) : vfsInit answers registered s₀ =
      some { rootfsRegisterVolume { rootMounted s₀ answers.volume with volumes := [answers.volume] } answers.volume
        answers.rootNode with drivers := .rootfs :: registered } := by
  have hfind : findMountpointByName { s₀ with volumes := [], drivers := [.rootfs] } [82, 79, 79, 84] = none := rfl
  have hdriver : getDriverByName { s₀ with volumes := [], drivers := [.rootfs] } Family.rootfs.ident = some .rootfs := rfl
  have hdup : strdup answers.dup [82, 79, 79, 84] = [82, 79, 79, 84] := rfl
  have hmount := congrArg some (rootfsMount_first hroot answers.volume)
  rw [← hdup] at hmount
  rw [vfsInit, vfsMount_mounted hfind hdriver h0 hmount (Int.le_refl 0)]
  rfl

/-- rootfs registers itself in the list its own mount made. -/
theorem InStep.init {s₀ s : Fs} {answers : MountAnswers} {registered : List Family} (hroot : s₀.rootfsNodes = none)
    (h0 : answers.volume ≠ 0) (hs : vfsInit answers registered s₀ = some s) :
    InStep s [.heap answers.rootNode.1] := by
  rw [vfsInit_eq hroot h0, Option.some.injEq] at hs
  have hempty : InStep (rootMounted s₀ answers.volume) [] := ⟨rfl, .nil, List.nodup_nil⟩
  have hname : ((rootMounted s₀ answers.volume).vol answers.volume).name = [82, 79, 79, 84] := by
    rw [rootMounted, Fs.setVol_self]
  have hreg := @InStep.register _ _ hempty answers.volume answers.rootNode List.not_mem_nil
    (by rw [hname]; decide) (by rw [hname]; decide) (fun w hw => absurd hw List.not_mem_nil)
  subst hs
  exact hreg.frame rfl rfl (fun _ _ => rfl) fun _ _ => rfl

theorem InStep.umount {s : Fs} {ns : List NodePtr} (h : InStep s ns) (name : List UInt8) :
    ((vfsUmount s name).2 = -1 ∧ (vfsUmount s name).1 = s) ∨ ∃ p, InStep (vfsUmount s name).1 (ns.erase p) := by
  unfold vfsUmount
  cases hfind : findMountpointByName s name with
  | none => exact .inl ⟨rfl, rfl⟩
  | some v =>
    rw [findMountpointByName_eq] at hfind
    obtain ⟨p, heq, hpaired⟩ := h.unregister (Directory.find_mem hfind).1
    dsimp only
    rw [heq]
    exact .inr ⟨p, rfl, Directory.paired_imp hpaired fun _ _ _ _ hpv => ⟨hpv.heap, hpv.payload, hpv.name⟩, h.distinct.erase v⟩

theorem vfsRun_inStep {registered : List Family} {s : Fs} (hr : VfsRun registered s) : ∃ ns, InStep s ns := by
  induction hr with
  | init hroot h0 hs => exact ⟨_, InStep.init hroot h0 hs⟩
  | mount _ h1 h64 hfresh hmount ih =>
    obtain ⟨ns, h⟩ := ih
    rcases h.mount h1 h64 hfresh hmount with ⟨-, -, -, h'⟩ | ⟨-, h'⟩
    · exact ⟨_, h'⟩
    · exact ⟨_, h'⟩
  | umount name _ ih =>
    obtain ⟨ns, h⟩ := ih
    rcases h.umount name with ⟨-, heq⟩ | ⟨p, h'⟩
    · rw [heq]
      exact ⟨ns, h⟩
    · exact ⟨_, h'⟩

/-- `malloc` hands out the volume at `a` and the nodes from `16 * a` on. -/
def mountAnswers (a : Nat) : MountAnswers :=
  ⟨a, [], (16 * a, ⟨fun _ => 0⟩),
    ⟨a + 32, none, ⟨fun _ => ⟨0, 0, 0⟩⟩, fun _ => (0, 0), fun _ => ⟨[], 16 * a + 80, ⟨fun _ => 0⟩⟩⟩⟩

end NativeOS.Kern
