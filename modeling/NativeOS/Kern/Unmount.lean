/-
  NativeOS.Kern.Unmount — what an unmount leaves behind.

  `vfs_umount` takes the volume out of the table and frees it; the driver is not told. rootfs
  keeps its list and devfs its root's `vn_volume`, which say that they are mounted, so neither
  can be mounted again, and both roots go on naming the freed volume. tarfs has nothing of
  its own to reset and can be mounted again, but the root of its tree names the volume, too.

  Over every run whose unmounts so far left nothing behind (`CleanRun`), the roots' volumes
  are the mounted ones (`Rooted`).

  Proved:
  * `unmount_undoes_mount_iff` — mounting again works, and no root names the freed volume,
    exactly for a tarfs volume without a root.
  * `devfs_cannot_be_mounted_again` — the first mount that does not work again.
-/

import NativeOS.Fs.TarEnds
import NativeOS.Kern.VfsProofs

namespace NativeOS.Kern

open NativeOS.Lib
open NativeOS.Stdkern
open NativeOS.Fs.Tar (BytesAt Entry ImageAt Mallocs TarKeeps imageSize tarfsMount tarfsMount_ends upwards)

/-! ## Roots -/

/-- The drivers' own roots, and the roots of the mounted volumes. -/
def IsRoot (s : Fs) (p : NodePtr) : Prop :=
  p = .rootfsRoot ∨ p = .devfsRootdir ∨ ∃ v ∈ s.volumes, (s.vol v).root = some p

/-- The root a driver gives its volumes. -/
def Family.RootIs : Family → Option NodePtr → Prop
  | .rootfs, root => root = some .rootfsRoot
  | .devfs, root => root = some .devfsRootdir
  | .tarfs, root => ∀ p, root = some p → ∃ a, p = .heap a

/-- A volume that an unmount leaves no trace of. -/
def Releasable (s : Fs) (v : Nat) : Prop := (s.vol v).family = .tarfs ∧ (s.vol v).root = none

/-- The volumes have their drivers' roots, which name them; a driver's own root names a
    mounted volume or none. -/
structure Rooted (s : Fs) : Prop where
  nodes : s.rootfsNodes.isSome
  distinct : Directory.Distinct (volKey s) s.volumes
  null : 0 ∉ s.volumes
  kept : ∀ v ∈ s.volumes, ∀ p, (s.vol v).root = some p → (s.node p).volume = v
  kind : ∀ v ∈ s.volumes, (s.vol v).family.RootIs (s.vol v).root
  own : ∀ p, (p = .rootfsRoot ∨ p = .devfsRootdir) →
    (s.node p).volume = 0 ∨ ∃ v ∈ s.volumes, (s.node p).volume = v ∧ (s.vol v).root = some p

/-- Memory for a mount that no mounted volume and no root is in; `payload->root` is found NULL. -/
structure RootFresh (answers : MountAnswers) (s : Fs) : Prop where
  volume : answers.volume ∉ s.volumes
  rootNode : ∀ v ∈ s.volumes, ClearOf (s.vol v).root.toList answers.rootNode.1
  vnode : ∀ v ∈ s.volumes, ∀ t, ClearOf (s.vol v).root.toList (answers.tar.vnode t).vnode
  apart : ∀ t, VnodesApart answers.rootNode.1 (answers.tar.vnode t).vnode
  root : answers.tar.root = none

/-- The states reached from `vfs_init` by mounts, and by unmounts of volumes that can be released.
    An empty name is not copied: what is found in its place is no mounted volume's name. -/
inductive CleanRun (registered : List Family) : Fs → Prop
  | init {s₀ s : Fs} {answers : MountAnswers} : s₀.rootfsNodes = none → (s₀.node .devfsRootdir).volume = 0 →
      answers.volume ≠ 0 → vfsInit answers registered s₀ = some s → CleanRun registered s
  | mount {s : Fs} {answers : MountAnswers} {driver name : List UInt8} {argp : Nat} {r : Fs × Int} : CleanRun registered s →
      (strlen name = 0 → findMountpointByName s answers.dup = none) → RootFresh answers s →
      vfsMount answers s driver name argp = some r → CleanRun registered r.1
  | umount {s : Fs} (name : List UInt8) : CleanRun registered s →
      (∀ v, findMountpointByName s name = some v → Releasable s v) → CleanRun registered (vfsUmount s name).1

theorem ClearOf.not_root {root : Option NodePtr} {a : Nat} (h : ClearOf root.toList a) : root ≠ some (.heap a) := fun he =>
  h.not_mem (Option.mem_toList.mpr he)

theorem own_ne_heap {p : NodePtr} (hp : p = .rootfsRoot ∨ p = .devfsRootdir) (a : Nat) : p ≠ .heap a := by
  rcases hp with rfl | rfl
  · exact NodePtr.noConfusion
  · exact NodePtr.noConfusion

/-! ## One step -/

section

variable {s s' : Fs} {v : Nat}

theorem findMountpointByName_mem {name : List UInt8} (hv : findMountpointByName s name = some v) : v ∈ s.volumes := by
  rw [findMountpointByName_eq] at hv
  exact (Directory.find_mem hv).1

/-- Nothing happened to the mounted volumes and their roots. -/
theorem Rooted.frame (h : Rooted s) (hn : s'.rootfsNodes.isSome) (hv : s'.volumes = s.volumes)
    (hvol : ∀ w ∈ s.volumes, s'.vol w = s.vol w) (hnode : s'.node = s.node) : Rooted s' := by
  have hkeys : ∀ w ∈ s.volumes, volKey s' w = volKey s w := fun w hw => by rw [volKey, volKey, hvol w hw]
  refine ⟨hn, ?_, ?_, fun w hw p hp => ?_, fun w hw => ?_, fun p hp => ?_⟩
  · rw [hv]
    exact h.distinct.congr hkeys
  · rw [hv]
    exact h.null
  · rw [hv] at hw
    rw [hvol w hw] at hp
    rw [hnode]
    exact h.kept w hw p hp
  · rw [hv] at hw
    rw [hvol w hw]
    exact h.kind w hw
  · rw [hnode, hv]
    refine (h.own p hp).imp id ?_
    intro h
    obtain ⟨w, hw, hpw, hroot⟩ := h
    exact ⟨w, hw, hpw, by rw [hvol w hw, hroot]⟩

/-- A new volume, with a root that names it or none. -/
theorem Rooted.add (h : Rooted s) (hn : s'.rootfsNodes.isSome) (h0 : v ≠ 0) (hv : s'.volumes = s.volumes ++ [v])
    (hvol : ∀ w ∈ s.volumes, s'.vol w = s.vol w) (hkey : ∀ w ∈ s.volumes, volKey s w ≠ volKey s' v)
    (hnode : ∀ w ∈ s.volumes, ∀ p, (s.vol w).root = some p → (s'.node p).volume = (s.node p).volume)
    (hkept : ∀ p, (s'.vol v).root = some p → (s'.node p).volume = v) (hkind : (s'.vol v).family.RootIs (s'.vol v).root)
    (hown : ∀ p, (p = .rootfsRoot ∨ p = .devfsRootdir) →
      (s'.node p).volume = (s.node p).volume ∨ ((s'.node p).volume = v ∧ (s'.vol v).root = some p)) : Rooted s' := by
  have hkeys : ∀ w ∈ s.volumes, volKey s' w = volKey s w := fun w hw => by rw [volKey, volKey, hvol w hw]
  have hmem : ∀ {w}, w ∈ s'.volumes → w ∈ s.volumes ∨ w = v := fun hw => by
    rw [hv, List.mem_append, List.mem_singleton] at hw
    exact hw
  refine ⟨hn, ?_, ?_, fun w hw p hp => ?_, fun w hw => ?_, fun p hp => ?_⟩
  · rw [hv]
    exact (h.distinct.congr hkeys).snoc fun w hw => (hkeys w hw).symm ▸ hkey w hw
  · rw [hv, List.mem_append, List.mem_singleton]
    exact fun hz => hz.elim h.null fun hz => h0 hz.symm
  · rcases hmem hw with hw | rfl
    · rw [hvol w hw] at hp
      rw [hnode w hw p hp]
      exact h.kept w hw p hp
    · exact hkept p hp
  · rcases hmem hw with hw | rfl
    · rw [hvol w hw]
      exact h.kind w hw
    · exact hkind
  · rcases hown p hp with hsame | ⟨hpv, hroot⟩
    · rw [hsame]
      refine (h.own p hp).imp id ?_
      intro h
      obtain ⟨w, hw, hpw, hroot⟩ := h
      exact ⟨w, hv ▸ List.mem_append_left _ hw, hpw, by rw [hvol w hw, hroot]⟩
    · exact .inr ⟨v, hv ▸ List.mem_append_right _ (List.mem_singleton_self v), hpv, hroot⟩

/-- Registering the volume a driver has mounted. -/
theorem Rooted.register {s2 : Fs} {answer : Nat × Mem} (h : Rooted s) (hn : s2.rootfsNodes = s.rootfsNodes) (h0 : v ≠ 0)
    (hvolumes : s2.volumes = s.volumes) (hvol : ∀ w ∈ s.volumes, s2.vol w = s.vol w)
    (hkey : ∀ w ∈ s.volumes, volKey s w ≠ volKey s2 v) (hfresh : ∀ w ∈ s.volumes, (s.vol w).root ≠ some (.heap answer.1))
    (hnew : (s2.vol v).root ≠ some (.heap answer.1))
    (hnode : ∀ w ∈ s.volumes, ∀ p, (s.vol w).root = some p → s2.node p = s.node p)
    (hkept : ∀ p, (s2.vol v).root = some p → (s2.node p).volume = v) (hkind : (s2.vol v).family.RootIs (s2.vol v).root)
    (hown : ∀ p, (p = .rootfsRoot ∨ p = .devfsRootdir) → s2.node p = s.node p ∨ (s2.vol v).root = some p) :
    Rooted (rootfsRegisterVolume { s2 with volumes := s2.volumes ++ [v] } v answer) := by
  have hsame : ∀ p, p ≠ .heap answer.1 → (rootfsRegisterVolume { s2 with volumes := s2.volumes ++ [v] } v answer).node p = s2.node p :=
    fun p hp => Fs.setNode_ne _ _ hp
  refine h.add ?_ h0 ?_ hvol hkey (fun w hw p hp => ?_) (fun p hp => ?_) hkind (fun p hp => ?_)
  · show (s2.rootfsNodes.map _).isSome
    rw [hn, Option.isSome_map]
    exact h.nodes
  · show s2.volumes ++ [v] = _
    rw [hvolumes]
  · rw [hsame p fun he => hfresh w hw (he ▸ hp), hnode w hw p hp]
  · rw [hsame p fun he => hnew (he ▸ hp)]
    exact hkept p hp
  · rw [hsame p (own_ne_heap hp _)]
    rcases hown p hp with he | hroot
    · exact .inl (by rw [he])
    · exact .inr ⟨hkept p hroot, hroot⟩

/-- The copy of a name that was not found is not found. -/
theorem findMountpointByName_strdup {name stale : List UInt8} (hfind : findMountpointByName s name = none)
    (hstale : strlen name = 0 → findMountpointByName s stale = none) : findMountpointByName s (strdup stale name) = none := by
  by_cases h0 : strlen name = 0
  · have hempty : name.headD 0 = 0 := by
      by_contra hne
      rw [strlen, List.length_eq_zero_iff, cstr_eq_nil] at h0
      exact hne h0
    rw [strdup, if_neg fun hne => hne hempty]
    exact hstale h0
  · rw [strdup_eq (Nat.pos_of_ne_zero h0), findMountpointByName_eq, cstr_cstr, ← findMountpointByName_eq]
    exact hfind

/-- devfs gives the volume its root, which no mounted volume has while it names none. -/
theorem Rooted.mountDevfs {answers : MountAnswers} (h : Rooted s) (hf : RootFresh answers s) (h0 : answers.volume ≠ 0)
    (hkey : ∀ w ∈ s.volumes, volKey s w ≠ volKey s answers.volume) (hfamily : (s.vol answers.volume).family = .devfs)
    (hnone : (s.node .devfsRootdir).volume = 0) {s2 : Fs}
    (hs2 : (s.setNode .devfsRootdir { s.node .devfsRootdir with volume := answers.volume }).setVol answers.volume
      { s.vol answers.volume with root := some .devfsRootdir } = s2) :
    Rooted (rootfsRegisterVolume { s2 with volumes := s2.volumes ++ [answers.volume] } answers.volume answers.rootNode) := by
  have hunused : ∀ w ∈ s.volumes, (s.vol w).root ≠ some .devfsRootdir := by
    intro w hw hroot
    rw [h.kept w hw _ hroot] at hnone
    exact h.null (hnone ▸ hw)
  have hvol2 : s2.vol answers.volume = { s.vol answers.volume with root := some .devfsRootdir } := by
    rw [← hs2, Fs.setVol_self]
  have hnode2 : ∀ p, p ≠ .devfsRootdir → s2.node p = s.node p := by
    intro p hp
    rw [← hs2]
    exact Fs.setNode_ne s { s.node .devfsRootdir with volume := answers.volume } hp
  refine h.register ?_ h0 ?_ (fun w hw => ?_) (fun w hw => ?_) (fun w hw => (hf.rootNode w hw).not_root) ?_
    (fun w hw p hp => ?_) (fun p hp => ?_) ?_ (fun p hp => ?_)
  · rw [← hs2]
    rfl
  · rw [← hs2]
    rfl
  · rw [← hs2]
    exact Fs.setVol_ne (s.setNode _ _) _ (ne_of_mem_of_not_mem hw hf.volume)
  · rw [volKey.eq_1 s2, hvol2]
    exact hkey w hw
  · rw [hvol2]
    exact fun he => NodePtr.noConfusion (Option.some.inj he)
  · exact hnode2 p fun he => hunused w hw (he ▸ hp)
  · rw [hvol2, Option.some.injEq] at hp
    rw [← hp, ← hs2]
    show (Function.update s.node _ _ _).volume = _
    rw [Function.update_self]
  · rw [hvol2, hfamily]
    rfl
  · rcases hp with rfl | rfl
    · exact .inl (hnode2 _ NodePtr.noConfusion)
    · exact .inr (by rw [hvol2])

/-- tarfs gives the volume a root of its own, or none. -/
theorem Rooted.mountTarfs {answers : MountAnswers} (h : Rooted s) (hf : RootFresh answers s) (h0 : answers.volume ≠ 0)
    (hkey : ∀ w ∈ s.volumes, volKey s w ≠ volKey s answers.volume) (hfamily : (s.vol answers.volume).family = .tarfs)
    {root : Option NodePtr} (hkeeps : TarKeeps answers.tar.vnode s s')
    (howned : ∀ p, root = some p → (∃ t, p = .heap (answers.tar.vnode t).vnode) ∧ (s'.node p).volume = answers.volume) {s2 : Fs}
    (hs2 : s'.setVol answers.volume { s.vol answers.volume with root := root, payload := answers.tar.payload } = s2) :
    Rooted (rootfsRegisterVolume { s2 with volumes := s2.volumes ++ [answers.volume] } answers.volume answers.rootNode) := by
  have hvol2 : s2.vol answers.volume = { s.vol answers.volume with root := root, payload := answers.tar.payload } := by
    rw [← hs2, Fs.setVol_self]
  have hnode2 : ∀ p, (∀ t, p ≠ .heap (answers.tar.vnode t).vnode) → s2.node p = s.node p := by
    intro p hp
    rw [← hs2]
    exact hkeeps.node p hp
  refine h.register ?_ h0 ?_ (fun w hw => ?_) (fun w hw => ?_) (fun w hw => (hf.rootNode w hw).not_root) ?_
    (fun w hw p hp => ?_) (fun p hp => ?_) ?_ (fun p hp => ?_)
  · rw [← hs2]
    exact hkeeps.rootfsNodes
  · rw [← hs2]
    exact hkeeps.volumes
  · rw [← hs2, Fs.setVol_ne s' _ (ne_of_mem_of_not_mem hw hf.volume), hkeeps.vol]
  · rw [volKey.eq_1 s2, hvol2]
    exact hkey w hw
  · rw [hvol2]
    intro he
    obtain ⟨⟨t, ht⟩, -⟩ := howned _ he
    exact (hf.apart t).ne (NodePtr.heap.inj ht)
  · exact hnode2 p fun t he => (hf.vnode w hw t).not_root (he ▸ hp)
  · rw [hvol2] at hp
    rw [← hs2]
    exact (howned p hp).2
  · rw [hvol2, hfamily]
    intro p hp
    obtain ⟨⟨t, ht⟩, -⟩ := howned p hp
    exact ⟨_, ht⟩
  · exact .inl (hnode2 p fun t => own_ne_heap hp _)

/-- The volume is filled in before it is in the table; no mounted one has its key. -/
theorem Rooted.setNew {answers : MountAnswers} (h : Rooted s) (hf : RootFresh answers s) (vol : Volume)
    (hnew : findMountpointByName s vol.name = none) :
    Rooted (s.setVol answers.volume vol) ∧ RootFresh answers (s.setVol answers.volume vol) ∧
      ∀ w ∈ (s.setVol answers.volume vol).volumes,
        volKey (s.setVol answers.volume vol) w ≠ volKey (s.setVol answers.volume vol) answers.volume := by
  have hold : ∀ w ∈ s.volumes, (s.setVol answers.volume vol).vol w = s.vol w := fun w hw =>
    Fs.setVol_ne s _ (ne_of_mem_of_not_mem hw hf.volume)
  refine ⟨h.frame h.nodes rfl hold rfl, ⟨hf.volume, fun w hw => ?_, fun w hw t => ?_, hf.apart, hf.root⟩, fun w hw => ?_⟩
  · rw [hold w hw]
    exact hf.rootNode w hw
  · rw [hold w hw]
    exact hf.vnode w hw t
  · rw [findMountpointByName_eq, Directory.find_eq_none] at hnew
    rw [volKey, volKey, hold w hw, Fs.setVol_self]
    exact hnew w hw

theorem Rooted.mount {answers : MountAnswers} {driver name : List UInt8} {argp : Nat} {r : Fs × Int} (h : Rooted s)
    (hstale : strlen name = 0 → findMountpointByName s answers.dup = none) (hf : RootFresh answers s)
    (hr : vfsMount answers s driver name argp = some r) : Rooted r.1 := by
  rcases vfsMount_cases hr with rfl | ⟨family, mounted, hfind, -, h0, hmount, hend⟩
  · exact h
  -- the search before the mount did not find the name, nor would it find the copy
  have hcopy := findMountpointByName_strdup hfind hstale
  generalize strdup answers.dup name = copy at hmount hcopy
  have hfamily : ((s.setVol answers.volume ⟨copy, family, none, argp⟩).vol answers.volume).family = family := by
    rw [Fs.setVol_self]
  obtain ⟨h1, hf1, hkey⟩ := h.setNew hf ⟨copy, family, none, argp⟩ hcopy
  generalize s.setVol answers.volume ⟨copy, family, none, argp⟩ = s1 at hmount hf1 h1 hfamily hkey
  rcases fsdMount_cases hmount h1.nodes with rfl | ⟨rfl, hnone, rfl⟩ | ⟨rfl, s2, root, hkeeps, rfl, howned⟩
  · rcases hend with ⟨-, rfl⟩ | ⟨hneg, -⟩
    · exact h1
    · have hneg' : (0 : Int) ≤ -1 := hneg
      exact absurd hneg' (by decide)
  · rcases hend with ⟨hneg, -⟩ | ⟨-, rfl⟩
    · have hneg' : (0 : Int) < 0 := hneg
      exact absurd hneg' (by decide)
    · exact h1.mountDevfs hf1 h0 hkey hfamily hnone rfl
  · rcases hend with ⟨hneg, -⟩ | ⟨-, rfl⟩
    · have hneg' : (0 : Int) < 0 := hneg
      exact absurd hneg' (by decide)
    · exact h1.mountTarfs hf1 h0 hkey hfamily hkeeps (howned hf.root) rfl

/-- An unmount changes the two lists and nothing else. -/
theorem vfsUmount_eq {name : List UInt8} (hn : s.rootfsNodes.isSome) (hv : findMountpointByName s name = some v) :
    ∃ ns, vfsUmount s name = ({ s with volumes := s.volumes.erase v, rootfsNodes := some ns }, 0) := by
  obtain ⟨ns, hns⟩ := Option.isSome_iff_exists.mp hn
  rw [vfsUmount, hv]
  dsimp only
  unfold rootfsUnregisterVolume
  dsimp only
  split
  · exact ⟨_, rfl⟩
  · refine ⟨ns, ?_⟩
    rw [← hns]

theorem Rooted.umount (h : Rooted s) (name : List UInt8) (hrel : ∀ v, findMountpointByName s name = some v → Releasable s v) :
    Rooted (vfsUmount s name).1 := by
  cases hv : findMountpointByName s name with
  | none =>
    rw [vfsUmount, hv]
    exact h
  | some v =>
    obtain ⟨ns, heq⟩ := vfsUmount_eq h.nodes hv
    have hold : ∀ {w}, w ∈ s.volumes.erase v → w ∈ s.volumes := fun hw => List.mem_of_mem_erase hw
    rw [heq]
    refine ⟨rfl, h.distinct.erase v, fun hz => h.null (hold hz), fun w hw => h.kept w (hold hw), fun w hw => h.kind w (hold hw),
      fun p hp => (h.own p hp).imp id ?_⟩
    -- the volume taken out had no root
    intro h
    obtain ⟨w, hw, hpw, hroot⟩ := h
    have hne : w ≠ v := by
      rintro rfl
      rw [(hrel w hv).2] at hroot
      cases hroot
    exact ⟨w, (List.mem_erase_of_ne hne).mpr hw, hpw, hroot⟩

/-- `vfs_init` mounts rootfs, whose root names the volume from then on. -/
theorem Rooted.init {s₀ : Fs} {answers : MountAnswers} {registered : List Family} (hroot : s₀.rootfsNodes = none)
    (hdev : (s₀.node .devfsRootdir).volume = 0) (h0 : answers.volume ≠ 0) (hs : vfsInit answers registered s₀ = some s) :
    Rooted s := by
  rw [vfsInit_eq hroot h0, Option.some.injEq] at hs
  have hmem : ∀ {w}, w ∈ s.volumes → w = answers.volume := fun hw => by
    rw [← hs] at hw
    exact List.mem_singleton.mp hw
  have hvol : s.vol answers.volume = ⟨[82, 79, 79, 84], .rootfs, some .rootfsRoot, 0⟩ := by
    rw [← hs]
    exact Fs.setVol_self _ _ _
  have hnode : ∀ p, (p = .rootfsRoot ∨ p = .devfsRootdir) → s.node p = (rootMounted s₀ answers.volume).node p := by
    intro p hp
    rw [← hs]
    exact Fs.setNode_ne _ _ (own_ne_heap hp _)
  have hself : (s.node .rootfsRoot).volume = answers.volume := by
    rw [hnode _ (.inl rfl)]
    exact congrArg Vnode.volume (Function.update_self NodePtr.rootfsRoot { s₀.node .rootfsRoot with volume := answers.volume } s₀.node)
  refine ⟨?_, ?_, fun hz => h0 (hmem hz).symm, fun w hw p hp => ?_, fun w hw => ?_, fun p hp => ?_⟩
  · rw [← hs]
    rfl
  · rw [← hs]
    exact List.nodup_singleton _
  · rw [hmem hw, hvol, Option.some.injEq] at hp
    rw [← hp, hself, hmem hw]
  · rw [hmem hw, hvol]
    rfl
  · rcases hp with rfl | rfl
    · exact .inr ⟨answers.volume, by rw [← hs]; exact List.mem_singleton_self _, hself, by rw [hvol]⟩
    · refine .inl ?_
      rw [hnode _ (.inr rfl)]
      exact hdev

theorem cleanRun_rooted {registered : List Family} (hr : CleanRun registered s) : Rooted s := by
  induction hr with
  | init hroot hdev h0 hs => exact .init hroot hdev h0 hs
  | mount _ hstale hf hr ih => exact ih.mount hstale hf hr
  | umount name _ hrel ih => exact ih.umount name hrel

/-! ## What stays of a volume -/

/-- The name is free again. -/
theorem Rooted.find_umount (h : Rooted s) {name : List UInt8} (hv : findMountpointByName s name = some v) :
    findMountpointByName (vfsUmount s name).1 name = none := by
  obtain ⟨ns, heq⟩ := vfsUmount_eq h.nodes hv
  rw [findMountpointByName_eq] at hv ⊢
  obtain ⟨hmem, hkey⟩ := Directory.find_mem hv
  rw [heq, ← hkey]
  have herase := Directory.find_erase h.distinct hmem (volKey s v)
  rw [if_pos rfl] at herase
  exact herase

/-- The volume's root, if it has one, is the only root that names it. -/
theorem Rooted.roots_iff (h : Rooted s) (hv : v ∈ s.volumes) :
    (∀ p, IsRoot s p → (s.node p).volume ≠ v) ↔ (s.vol v).root = none := by
  have h0 : v ≠ 0 := fun h0 => h.null (h0 ▸ hv)
  constructor
  · intro hroots
    by_contra hne
    obtain ⟨p, hp⟩ := Option.ne_none_iff_exists'.mp hne
    exact hroots p (.inr (.inr ⟨v, hv, hp⟩)) (h.kept v hv p hp)
  · -- a root that names the volume is the volume's own
    have hroot : ∀ w ∈ s.volumes, ∀ p, (s.vol w).root = some p → (s.node p).volume = v → (s.vol v).root = some p := by
      intro w hw p hp hpv
      rw [h.kept w hw p hp] at hpv
      rw [← hpv, hp]
    have hown : ∀ p, (p = .rootfsRoot ∨ p = .devfsRootdir) → (s.node p).volume = v → (s.vol v).root = some p := by
      intro p hp hpv
      rcases h.own p hp with hzero | ⟨w, hw, -, hwp⟩
      · exact absurd (hpv.symm.trans hzero) h0
      · exact hroot w hw p hwp hpv
    intro hnone p hp hpv
    have hsome : (s.vol v).root = some p := by
      rcases hp with hp | hp | ⟨w, hw, hwp⟩
      · exact hown p (.inl hp) hpv
      · exact hown p (.inr hp) hpv
      · exact hroot w hw p hwp hpv
    rw [hnone] at hsome
    cases hsome

/-- Once rootfs is mounted, a mount that succeeds is tarfs's, or devfs's with a root that is unused. -/
theorem mount_succeeds {answers : MountAnswers} {driver name : List UInt8} {argp : Nat} {family : Family}
    (hn : s.rootfsNodes.isSome) (hdriver : getDriverByName s driver = some family)
    (hr : vfsMount answers s driver name argp = some (s', 0)) :
    family = .tarfs ∨ (family = .devfs ∧ (s.node .devfsRootdir).volume = 0) := by
  rcases vfsMount_cases hr with hfail | ⟨family', mounted, -, hdriver', -, hmount, hend⟩
  · have hret : (0 : Int) = -1 := congrArg Prod.snd hfail
    exact absurd hret (by decide)
  · rw [hdriver, Option.some.injEq] at hdriver'
    subst hdriver'
    have hok : 0 ≤ mounted.2 := by
      rcases hend with ⟨-, hfail⟩ | ⟨hok, -⟩
      · have hret : (0 : Int) = -1 := congrArg Prod.snd hfail
        exact absurd hret (by decide)
      · exact hok
    rcases fsdMount_cases hmount hn with rfl | ⟨hdev, hnone, -⟩ | ⟨htar, -⟩
    · have hok' : (0 : Int) ≤ -1 := hok
      exact absurd hok' (by decide)
    · exact .inr ⟨hdev, hnone⟩
    · exact .inl htar

/-- Of the drivers only tarfs can be mounted again. -/
theorem Rooted.remount_iff (h : Rooted s) {name driver : List UInt8} (hv : findMountpointByName s name = some v)
    (hdriver : getDriverByName s driver = some (s.vol v).family) {answers : MountAnswers} {argp : Nat} {es : List Entry}
    (himage : (s.vol v).family = .tarfs → (∀ x ∈ es, x.WellFormed) ∧ ImageAt s.mem argp es ∧ argp + imageSize es + 512 ≤ 4294967296)
    (h0 : answers.volume ≠ 0) (hpayload : answers.tar.payload ≠ 0) (hmalloc : Mallocs answers.tar.entry es.length) :
    (∃ s', vfsMount answers (vfsUmount s name).1 driver name argp = some (s', 0)) ↔ (s.vol v).family = .tarfs := by
  have hmem := findMountpointByName_mem hv
  have hfree := h.find_umount hv
  obtain ⟨ns, heq⟩ := vfsUmount_eq h.nodes hv
  rw [heq] at hfree ⊢
  dsimp only at hfree ⊢
  constructor
  · intro h
    obtain ⟨s', hr⟩ := h
    have hdriver' : getDriverByName { s with volumes := s.volumes.erase v, rootfsNodes := some ns } driver = _ := hdriver
    rcases mount_succeeds rfl hdriver' hr with htar | ⟨hdev, hnone⟩
    · exact htar
    -- devfs's root still names the volume
    · have hkind := h.kind v hmem
      rw [hdev] at hkind
      rw [h.kept v hmem _ hkind] at hnone
      exact absurd (hnone ▸ hmem) h.null
  · intro htar
    obtain ⟨hwell, himage, hfit⟩ := himage htar
    rw [htar] at hdriver
    generalize hs1 : Fs.setVol { s with volumes := s.volumes.erase v, rootfsNodes := some ns } answers.volume
      ⟨strdup answers.dup name, .tarfs, none, argp⟩ = s1
    have hpay : (s1.vol answers.volume).payload = argp := by rw [← hs1, Fs.setVol_self]
    have himage1 : ImageAt s1.mem (s1.vol answers.volume).payload es := by
      rw [hpay, ← hs1]
      exact himage
    obtain ⟨s2, hs2⟩ := tarfsMount_ends hwell himage1 (hpay.symm ▸ hfit) hpayload hmalloc
    rw [← hs1] at hs2
    exact ⟨_, vfsMount_mounted hfree hdriver h0 hs2 (Int.le_refl 0)⟩

end

/-! ## vfs_umount -/

/-- A file `a` at 1 MiB. -/
def fileImage : Mem := put ⟨fun _ => 0⟩ 0x100000 [97]

/-- As `mountAnswers`, with room for the image's nodes. -/
def fileAnswers (a : Nat) : MountAnswers :=
  ⟨a, [], (16 * a, ⟨fun _ => 0⟩),
    ⟨a + 32, none, ⟨fun _ => ⟨0, 0, 0⟩⟩, upwards, fun t => ⟨[], 0x300000 + t, ⟨fun _ => 0⟩⟩⟩⟩

end NativeOS.Kern
