/-
  NativeOS.Kern.TarVolume — paths into a mounted archive.

  Once every node is made (`Fs.TarMount`) the volume is a tree (`TarTree`): an entry's node
  finds a name exactly when an entry has that path, and then finds that entry's node
  (`fsFinddir_slot`). `fs_resolve` walks it component by component, through directories only,
  because every parent is one.

  Proved: `archive_paths_resolve` — every entry's path resolves to its node, whose parent is
  the parent's, and every path at all to the same entry whatever order they come in.
-/

import NativeOS.Fs.TarMount
import NativeOS.Kern.FsPath

namespace NativeOS.Kern

open NativeOS.Lib
open NativeOS.Stdkern
open NativeOS.Fs.Tar

/-! ## The tree -/

/-- A volume with an archive's nodes. -/
structure TarTree (answers : Nat → VnodeAnswer) (slots : List Slot) (vol : Nat) (s : Fs) : Prop where
  volume : vol ≠ 0
  family : (s.vol vol).family = .tarfs
  nodes : (s.tarfs (s.vol vol).payload).nodes = slots.map (·.tnode)
  block : ∀ x ∈ slots, (s.tnode x.tnode).block = x.block
  made : ∀ x ∈ slots, Made answers slots vol s x
  root : ∀ x ∈ slots, x.entry.comps = [] → (s.vol vol).root = some (x.vnode answers)

section

variable {answers : Nat → VnodeAnswer} {slots : List Slot} {vol : Nat} {s : Fs} {x y : Slot}

/-- What the search in a directory compares. -/
theorem TarTree.child_iff (hs : Slots answers slots) (h : TarTree answers slots vol s) (hx : x ∈ slots) (hy : y ∈ slots)
    (name : List UInt8) :
    ((s.node (x.vnode answers)).parent = some (y.vnode answers) ∧ strcmp name (s.node (x.vnode answers)).text = 0) ↔
      x.entry.comps = y.entry.comps ++ [cstr name] := by
  have hmade := h.made x hx
  by_cases hc : x.entry.comps = []
  · rw [hmade.root hc, hc]
    simp
  · have htext : cstr (s.node (x.vnode answers)).text = x.entry.comps.getLast hc := hmade.name hc _
    rw [strcmp_eq_zero, htext]
    constructor
    · rintro ⟨hparent, hname⟩
      obtain ⟨z, hz, hzc, -⟩ := hs.parent hx hc
      rw [hmade.parent hc z hz hzc, Option.some.injEq] at hparent
      rw [hname, ← hs.vnode_inj hz hy hparent, hzc]
      exact (List.dropLast_append_getLast hc).symm
    · intro hcomps
      refine ⟨hmade.parent hc y hy ?_, ?_⟩
      · rw [hcomps, List.dropLast_concat]
      · simp only [hcomps, List.getLast_concat]

theorem entryFlags_dir (type : UInt8) : entryFlags type = vnFdir ↔ type = 53 := by
  unfold entryFlags
  split
  · rename_i h
    rw [h]
    decide
  · split
    · rename_i h
      simp [h]
    · rename_i h
      exact iff_of_false (by decide) h

/-- A directory finds the entry that lies in it under the name, and nothing else. -/
theorem fsFinddir_slot (hs : Slots answers slots) (h : TarTree answers slots vol s) (hy : y ∈ slots) (name : List UInt8) :
    fsFinddir s (y.vnode answers) name =
      if y.entry.type = 53 then
        (Directory.find (fun x => x.entry.comps) slots (y.entry.comps ++ [cstr name])).map (Slot.vnode answers)
      else none := by
  have hmade := h.made y hy
  rw [fsFinddir, hmade.volume, if_neg h.volume, hmade.flags, h.family]
  simp only [entryFlags_dir, finddirOf, tarfsFinddir, hmade.volume, h.nodes, List.find?_map, Option.map_map]
  congr 1
  have hfind : slots.find? ((fun t => decide ((s.node (.heap (s.tnode t).node)).parent = some (y.vnode answers) ∧
      strcmp name (s.node (.heap (s.tnode t).node)).text = 0)) ∘ fun x => x.tnode) =
      Directory.find (fun x => x.entry.comps) slots (y.entry.comps ++ [cstr name]) := by
    refine Directory.find?_eq_find fun x hx => ?_
    rw [Function.comp_apply, (h.made x hx).node, decide_eq_decide]
    exact h.child_iff hs hx hy name
  rw [hfind]
  refine Option.map_congr fun x hx => ?_
  rw [Function.comp_apply, (h.made x (Directory.find_mem hx).1).node]
  rfl

/-! ## Walking down -/

theorem TarTree.walk (hs : Slots answers slots) (h : TarTree answers slots vol s) (hx : x ∈ slots) :
    ∀ (cs : List (List UInt8)) {y : Slot}, y ∈ slots → x.entry.comps = y.entry.comps ++ cs → cs ≠ [] →
    Followed s (y.vnode answers) cs ∧ lookupPath s (y.vnode answers) cs = some (x.vnode answers)
  | [], _, _, _, hne => absurd rfl hne
  | c :: cs, y, hy, hcomps, _ => by
    have htype : y.entry.type = 53 := by
      obtain ⟨z, hz, hzc, hzt⟩ := hs.prefix_dir hx hcomps (List.cons_ne_nil _ _)
      rw [← hs.comps_inj hz hy hzc]
      exact hzt
    have hc : cstr c = c := by
      refine cstr_of_no_zero ((hs.ok hx).components c ?_).no_nul
      rw [hcomps]
      simp
    have hd := hs.comps_distinct
    by_cases hcs : cs = []
    · subst hcs
      refine ⟨trivial, ?_⟩
      rw [lookupPath, fsFinddir_slot hs h hy, if_pos htype, hc, hd.find_iff.mpr ⟨hx, hcomps⟩]
      rfl
    · have hnext : x.entry.comps = (y.entry.comps ++ [c]) ++ cs := by rw [hcomps, List.append_assoc]; rfl
      obtain ⟨z, hz, hzc, hzt⟩ := hs.prefix_dir hx hnext hcs
      have hfound : fsFinddir s (y.vnode answers) c = some (z.vnode answers) := by
        rw [fsFinddir_slot hs h hy, if_pos htype, hc, hd.find_iff.mpr ⟨hz, hzc⟩]
        rfl
      have hdir : (s.node (z.vnode answers)).flags = vnFdir := by
        rw [(h.made z hz).flags]
        exact (entryFlags_dir _).mpr hzt
      rw [← hzc] at hnext
      obtain ⟨hfollowed, hlookup⟩ := TarTree.walk hs h hx cs hz hnext hcs
      rw [followed_cons hcs, lookupPath_cons hcs, hfound]
      dsimp only
      rw [if_pos hdir]
      exact ⟨⟨_, rfl, fun _ => hfollowed⟩, hlookup⟩

/-- Resolving an entry's path. -/
theorem TarTree.resolve (hs : Slots answers slots) (h : TarTree answers slots vol s) (hx : x ∈ slots) {volume : List UInt8}
    (h0 : 0 ∉ volume) (hcolon : colon ∉ volume) (hvolume : vfsGetVolume s volume = (s.vol vol).root) (dup : List UInt8) :
    fsResolve dup s (volumePath volume x.entry.path) = .ret (some (x.vnode answers)) := by
  have hcomps := (hs.ok hx).components
  rw [fsResolve_volumePath h0 hcolon (hs.path_no_nul hx), hvolume]
  obtain ⟨r, hr, hrc⟩ := hs.root
  rw [h.root r hr hrc]
  dsimp only
  by_cases hc : x.entry.comps = []
  · have hpath : x.entry.path = [] := (hs.path_eq_nil hx).mpr hc
    rw [hpath, if_neg (fun hne => hne rfl), hs.comps_inj hx hr (hc.trans hrc.symm)]
  · have hhead := hs.headD_path hx hc
    have hpaths : PathComponents x.entry.comps := fun c hm => ⟨(hcomps c hm).no_nul, (hcomps c hm).no_slash⟩
    obtain ⟨hfollowed, hlookup⟩ := h.walk hs hx x.entry.comps hr (by rw [hrc]; rfl) hc
    rw [if_pos hhead, ArchiveEntry.path, (fsFollowPath_eq hc hpaths).1 hfollowed, hlookup]

end

/-! ## The same tree from other images -/

/-- `n` is the vnode of the entry, whose header is in the image at `buf`. -/
def ShowsEntry (s : Fs) (buf : Nat) (es : List ArchiveEntry) (x : ArchiveEntry) (n : NodePtr) : Prop :=
  ((s.tnode (s.node n).payload).block, x) ∈ withHeaders buf es ∧ nodeAt (s.tnode (s.node n).payload).node = some n

/-- Nodes of one entry in two states, with the same flags and with parents of one entry, or none. -/
structure SameEntry (s₁ s₂ : Fs) (shows₁ shows₂ : ArchiveEntry → NodePtr → Prop) (n₁ n₂ : NodePtr) : Prop where
  entry : ∃ x, shows₁ x n₁ ∧ shows₂ x n₂
  flags : (s₁.node n₁).flags = (s₂.node n₂).flags
  parent : Option.Rel (fun q₁ q₂ => ∃ y, shows₁ y q₁ ∧ shows₂ y q₂) (s₁.node n₁).parent (s₂.node n₂).parent

section

variable {answers₁ answers₂ : Nat → VnodeAnswer} {slots₁ slots₂ : List Slot} {vol₁ vol₂ : Nat} {s₁ s₂ : Fs}

/-- Two slots' vnodes, of one entry. -/
def Twins (answers₁ answers₂ : Nat → VnodeAnswer) (slots₁ slots₂ : List Slot) (n₁ n₂ : NodePtr) : Prop :=
  ∃ x₁ ∈ slots₁, ∃ x₂ ∈ slots₂, x₁.entry = x₂.entry ∧ n₁ = x₁.vnode answers₁ ∧ n₂ = x₂.vnode answers₂

theorem find_twins (hs₂ : Slots answers₂ slots₂)
    (hperm : ∀ e, e ∈ slots₁.map (·.entry) ↔ e ∈ slots₂.map (·.entry)) (comps : List (List UInt8)) :
    Option.Rel (Twins answers₁ answers₂ slots₁ slots₂)
      ((Directory.find (fun x => x.entry.comps) slots₁ comps).map (Slot.vnode answers₁))
      ((Directory.find (fun x => x.entry.comps) slots₂ comps).map (Slot.vnode answers₂)) := by
  have htwin : ∀ {slots slots' : List Slot}, (∀ e, e ∈ slots.map (·.entry) ↔ e ∈ slots'.map (·.entry)) →
      ∀ x ∈ slots, ∃ y ∈ slots', y.entry = x.entry := by
    intro slots slots' hiff x hx
    obtain ⟨y, hy, he⟩ := List.mem_map.mp ((hiff _).mp (List.mem_map_of_mem hx))
    exact ⟨y, hy, he⟩
  cases hf : Directory.find (fun x => x.entry.comps) slots₁ comps with
  | none =>
    have hnone : Directory.find (fun x => x.entry.comps) slots₂ comps = none := by
      rw [Directory.find_eq_none] at hf ⊢
      intro x hx
      obtain ⟨y, hy, he⟩ := htwin (fun e => (hperm e).symm) x hx
      rw [← he]
      exact hf y hy
    rw [hnone]
    exact .none
  | some x =>
    obtain ⟨hx, hxc⟩ := Directory.find_mem hf
    obtain ⟨y, hy, he⟩ := htwin hperm x hx
    have hyc : y.entry.comps = comps := by rw [he, hxc]
    rw [hs₂.comps_distinct.find_iff.mpr ⟨hy, hyc⟩]
    exact .some ⟨x, hx, y, hy, he.symm, rfl, rfl⟩

theorem fsFinddir_twins (hs₁ : Slots answers₁ slots₁) (hs₂ : Slots answers₂ slots₂) (h₁ : TarTree answers₁ slots₁ vol₁ s₁)
    (h₂ : TarTree answers₂ slots₂ vol₂ s₂) (hperm : ∀ e, e ∈ slots₁.map (·.entry) ↔ e ∈ slots₂.map (·.entry))
    {n₁ n₂ : NodePtr} (h : Twins answers₁ answers₂ slots₁ slots₂ n₁ n₂) (name : List UInt8) :
    Option.Rel (Twins answers₁ answers₂ slots₁ slots₂) (fsFinddir s₁ n₁ name) (fsFinddir s₂ n₂ name) := by
  obtain ⟨x, hx, y, hy, he, rfl, rfl⟩ := h
  rw [fsFinddir_slot hs₁ h₁ hx, fsFinddir_slot hs₂ h₂ hy, he]
  split
  · exact find_twins hs₂ hperm _
  · exact .none

/-- Any path leads to nodes of one entry, or fails alike. -/
theorem TarTree.resolve_twins (hs₁ : Slots answers₁ slots₁) (hs₂ : Slots answers₂ slots₂)
    (h₁ : TarTree answers₁ slots₁ vol₁ s₁) (h₂ : TarTree answers₂ slots₂ vol₂ s₂)
    (hperm : ∀ e, e ∈ slots₁.map (·.entry) ↔ e ∈ slots₂.map (·.entry)) {volume₁ volume₂ path : List UInt8}
    (h0₁ : 0 ∉ volume₁) (hcolon₁ : colon ∉ volume₁) (hvolume₁ : vfsGetVolume s₁ volume₁ = (s₁.vol vol₁).root)
    (h0₂ : 0 ∉ volume₂) (hcolon₂ : colon ∉ volume₂) (hvolume₂ : vfsGetVolume s₂ volume₂ = (s₂.vol vol₂).root)
    (hpath : 0 ∉ path) (dup₁ dup₂ : List UInt8) :
    (fsResolve dup₁ s₁ (volumePath volume₁ path)).Rel (Twins answers₁ answers₂ slots₁ slots₂)
      (fsResolve dup₂ s₂ (volumePath volume₂ path)) := by
  obtain ⟨r₁, hr₁, hrc₁⟩ := hs₁.root
  obtain ⟨e, he, hrc₂⟩ := hs₂.archive.root
  obtain ⟨r₂, hr₂, rfl⟩ := List.mem_map.mp he
  have hroots : Twins answers₁ answers₂ slots₁ slots₂ (r₁.vnode answers₁) (r₂.vnode answers₂) := by
    obtain ⟨r, hr, hre⟩ := List.mem_map.mp ((hperm _).mp (List.mem_map_of_mem hr₁))
    have hrr : r = r₂ := hs₂.comps_inj hr hr₂ (by rw [hre, hrc₁, hrc₂])
    exact ⟨r₁, hr₁, r₂, hr₂, (hrr ▸ hre).symm, rfl, rfl⟩
  have hflags : ∀ n₁ n₂, Twins answers₁ answers₂ slots₁ slots₂ n₁ n₂ → (s₁.node n₁).flags = (s₂.node n₂).flags := by
    rintro n₁ n₂ ⟨x, hx, y, hy, hxy, rfl, rfl⟩
    rw [(h₁.made x hx).flags, (h₂.made y hy).flags, hxy]
  rw [fsResolve_volumePath h0₁ hcolon₁ hpath, fsResolve_volumePath h0₂ hcolon₂ hpath, hvolume₁, hvolume₂,
    h₁.root r₁ hr₁ hrc₁, h₂.root r₂ hr₂ hrc₂]
  dsimp only
  split
  · exact fsFollowPath_rel hflags (fun _ _ h name => fsFinddir_twins hs₁ hs₂ h₁ h₂ hperm h name) path hroots
  · exact .ret (.some hroots)

end

theorem TarTree.shows {answers : TarfsAnswers} {buf vol : Nat} {es : List ArchiveEntry} {s : Fs} {x : Slot}
    (hs : Slots answers.vnode (slotsAt answers buf es)) (h : TarTree answers.vnode (slotsAt answers buf es) vol s)
    (hx : x ∈ slotsAt answers buf es) : ShowsEntry s buf es x.entry (x.vnode answers.vnode) := by
  have hmade := h.made x hx
  have hmem : (x.block, x.entry) ∈ withHeaders buf es := by
    rw [← slotsFrom_headers es 0 buf]
    exact List.mem_map_of_mem hx
  refine ⟨?_, ?_⟩
  · rw [hmade.payload, h.block x hx]
    exact hmem
  · rw [hmade.payload, hmade.node, nodeAt, if_neg (hs.vnode x hx)]
    rfl

theorem Twins.sameEntry {answers₁ answers₂ : TarfsAnswers} {buf₁ buf₂ vol₁ vol₂ : Nat} {es₁ es₂ : List ArchiveEntry} {s₁ s₂ : Fs}
    (hs₁ : Slots answers₁.vnode (slotsAt answers₁ buf₁ es₁)) (hs₂ : Slots answers₂.vnode (slotsAt answers₂ buf₂ es₂))
    (h₁ : TarTree answers₁.vnode (slotsAt answers₁ buf₁ es₁) vol₁ s₁)
    (h₂ : TarTree answers₂.vnode (slotsAt answers₂ buf₂ es₂) vol₂ s₂)
    (hperm : ∀ e, e ∈ es₁ ↔ e ∈ es₂) {n₁ n₂ : NodePtr}
    (h : Twins answers₁.vnode answers₂.vnode (slotsAt answers₁ buf₁ es₁) (slotsAt answers₂ buf₂ es₂) n₁ n₂) :
    SameEntry s₁ s₂ (ShowsEntry s₁ buf₁ es₁) (ShowsEntry s₂ buf₂ es₂) n₁ n₂ := by
  obtain ⟨x, hx, y, hy, hxy, rfl, rfl⟩ := h
  refine ⟨⟨x.entry, h₁.shows hs₁ hx, ?_⟩, ?_, ?_⟩
  · rw [hxy]
    exact h₂.shows hs₂ hy
  · rw [(h₁.made x hx).flags, (h₂.made y hy).flags, hxy]
  · by_cases hc : x.entry.comps = []
    · rw [(h₁.made x hx).root hc, (h₂.made y hy).root (hxy ▸ hc)]
      exact .none
    · obtain ⟨p, hp, hpc, -⟩ := hs₁.parent hx hc
      obtain ⟨q, hq, hqc, -⟩ := hs₂.parent hy (hxy ▸ hc)
      -- the parents have one path, and so are one entry
      have hpq : p.entry = q.entry := by
        have hmem : p.entry ∈ es₂ := (hperm _).mp (by
          rw [← slotsFrom_entry es₁ 0 buf₁]
          exact List.mem_map_of_mem hp)
        rw [← slotsFrom_entry es₂ 0 buf₂, List.mem_map] at hmem
        obtain ⟨r, hr, hre⟩ := hmem
        rw [← hre, hs₂.comps_inj hr hq (by rw [hre, hpc, hqc, hxy])]
      rw [(h₁.made x hx).parent hc p hp hpc, (h₂.made y hy).parent (hxy ▸ hc) q hq hqc]
      refine .some ⟨p.entry, h₁.shows hs₁ hp, ?_⟩
      rw [hpq]
      exact h₂.shows hs₂ hq

/-! ## Mounting it -/

/-- A new volume under a name of 1 to 16 bytes, for the archive whose image is at `argp`, with
    allocations that succeed and memory that nothing else is in. -/
structure NewTarVolume (answers : MountAnswers) (s : Fs) (name : List UInt8) (argp : Nat) (es : List ArchiveEntry) : Prop where
  archive : Archive es
  image : ArchiveAt s.mem argp es
  fits : argp + imageSize (es.map ArchiveEntry.entry) + 512 ≤ 2 ^ 32
  length : 1 ≤ name.length ∧ name.length ≤ 16
  no_nul : 0 ∉ name
  no_colon : colon ∉ name
  new : findMountpointByName s name = none
  driver : getDriverByName s Family.tarfs.ident = some .tarfs
  volume : answers.volume ≠ 0 ∧ answers.volume ∉ s.volumes
  tar : TarAllocates answers.tar es.length
  rootNode : ∀ i < es.length, VnodesApart answers.rootNode.1 (answers.tar.vnode (answers.tar.entry i).1).vnode

section

variable {answers : MountAnswers} {s : Fs} {name : List UInt8} {argp : Nat} {es : List ArchiveEntry}

theorem NewTarVolume.mount (h : NewTarVolume answers s name argp es) :
    ∃ s', vfsMount answers s Family.tarfs.ident name argp = some (s', 0) ∧
      TarTree answers.tar.vnode (slotsAt answers.tar argp es) answers.volume s' ∧
      vfsGetVolume s' name = (s'.vol answers.volume).root := by
  have hne : name ≠ [] := List.length_pos_iff.mp h.length.1
  have hname : strdup answers.dup name = name := by
    rw [strdup, if_pos (headD_ne_zero hne h.no_nul), cstr_of_no_zero h.no_nul]
  have hs := h.tar.slots argp h.archive
  generalize hs1 : s.setVol answers.volume ⟨name, .tarfs, none, argp⟩ = s1
  have hvol1 : s1.vol answers.volume = ⟨name, .tarfs, none, argp⟩ := by rw [← hs1, Fs.setVol_self]
  have hpayload : (s1.vol answers.volume).payload = argp := by rw [hvol1]
  have hmount := @tarfsMount_makes answers.tar s1 answers.volume es h.archive
  rw [hpayload] at hmount
  have himage1 : ArchiveAt s1.mem argp es := by
    rw [← hs1]
    exact h.image
  obtain ⟨s', hs', hkeeps, hinv, hmade⟩ := hmount himage1 h.fits h.tar
  generalize hm : s'.setVol answers.volume
    { s1.vol answers.volume with root := (s'.tarfs answers.tar.payload).root, payload := answers.tar.payload } = m at hs'
  have hvolm : m.vol answers.volume = ⟨name, .tarfs, (s'.tarfs answers.tar.payload).root, answers.tar.payload⟩ := by
    rw [← hm, Fs.setVol_self, hvol1]
  have htarfs : m.tarfs = s'.tarfs := by rw [← hm]; rfl
  have htnode : m.tnode = s'.tnode := by rw [← hm]; rfl
  have hnode : m.node = s'.node := by rw [← hm]; rfl
  have hfsd : fsdMount answers (s.setVol answers.volume ⟨strdup answers.dup name, .tarfs, none, argp⟩) answers.volume .tarfs =
      some (m, 0) := by
    rw [hname, hs1]
    exact hs'
  rw [vfsMount_mounted h.new h.driver h.volume.1 hfsd (Int.le_refl 0)]
  dsimp only
  generalize hr : rootfsRegisterVolume { m with volumes := m.volumes ++ [answers.volume] } answers.volume answers.rootNode = r
  have hvolr : r.vol = m.vol := by rw [← hr]; rfl
  have htarfsr : r.tarfs = s'.tarfs := by rw [← hr]; exact htarfs
  have htnoder : r.tnode = s'.tnode := by rw [← hr]; exact htnode
  have hnoder : ∀ x ∈ slotsAt answers.tar argp es, r.node (x.vnode answers.tar.vnode) = s'.node (x.vnode answers.tar.vnode) := by
    intro x hx
    obtain ⟨i, hi, ht⟩ := slotsAt_tnode_mem hx
    rw [← hr, ← hnode]
    refine Fs.setNode_ne _ _ fun he => (h.rootNode i hi).ne ?_
    rw [← ht]
    exact (NodePtr.heap.inj he).symm
  refine ⟨r, rfl, ⟨h.volume.1, ?_, ?_, fun x hx => ?_, fun x hx => ?_, fun x hx hc => ?_⟩, ?_⟩
  · rw [hvolr, hvolm]
  · rw [hvolr, hvolm, htarfsr]
    exact hinv.nodes
  · rw [htnoder]
    exact hinv.block x hx
  · refine (hmade x hx).congr ?_ (hnoder x hx)
    rw [htnoder]
  · rw [hvolr, hvolm]
    dsimp only
    rw [hinv.root x hx hc, (hmade x hx).node, if_neg (hs.vnode x hx)]
  · have hvolumes : r.volumes = s.volumes ++ [answers.volume] := by
      rw [← hr, ← hm]
      show s'.volumes ++ _ = _
      rw [hkeeps.volumes, ← hs1]
      rfl
    have hold : ∀ w ∈ s.volumes, volKey r w = volKey s w := by
      intro w hw
      have hne : w ≠ answers.volume := ne_of_mem_of_not_mem hw h.volume.2
      rw [volKey, volKey, hvolr, ← hm, Fs.setVol_ne s' _ hne, hkeeps.vol, ← hs1, Fs.setVol_ne s _ hne]
    have hkey : volKey r answers.volume = (cstr name).take 17 := by rw [volKey, hvolr, hvolm]
    rw [vfsGetVolume, findMountpointByName_snoc h.new hvolumes hold hkey]

/-- The path of every entry resolves to the entry's node, the empty one to the volume's root; a
    node's parent is the node of its path's parent. With the entries in another order, in
    another image, under another name, every path resolves to a node of the same entry. -/
theorem archive_paths_resolve (h : NewTarVolume answers s name argp es) :
    ∃ s', vfsMount answers s Family.tarfs.ident name argp = some (s', 0) ∧
      (∀ x ∈ es, normalize x.entry.name = x.path ∧ ∃ n, (∀ dup, fsResolve dup s' (volumePath name x.path) = .ret (some n)) ∧
        ShowsEntry s' argp es x n ∧
        (x.path = [] → vfsGetVolume s' name = some n ∧ (s'.node n).parent = none) ∧
        (x.path ≠ [] → ∃ y ∈ es, y.path = (splitBasename x.path).1 ∧
          ∃ q, (∀ dup, fsResolve dup s' (volumePath name y.path) = .ret (some q)) ∧ (s'.node n).parent = some q)) ∧
      ∀ answers₂ s₂ name₂ argp₂ es₂ s₂', NewTarVolume answers₂ s₂ name₂ argp₂ es₂ → es₂.Perm es →
        vfsMount answers₂ s₂ Family.tarfs.ident name₂ argp₂ = some (s₂', 0) → ∀ path, 0 ∉ path → ∀ dup dup₂,
        (fsResolve dup s' (volumePath name path)).Rel (SameEntry s' s₂' (ShowsEntry s' argp es) (ShowsEntry s₂' argp₂ es₂))
          (fsResolve dup₂ s₂' (volumePath name₂ path)) := by
  obtain ⟨s', hs', htree, hvolume⟩ := h.mount
  have hs := h.tar.slots argp h.archive
  have hentries : ∀ x ∈ es, ∃ z ∈ slotsAt answers.tar argp es, z.entry = x := by
    intro x hx
    rw [← slotsFrom_entry es 0 argp] at hx
    exact List.mem_map.mp hx
  have hresolve : ∀ z ∈ slotsAt answers.tar argp es, ∀ dup,
      fsResolve dup s' (volumePath name z.entry.path) = .ret (some (z.vnode answers.tar.vnode)) :=
    fun z hz dup => htree.resolve hs hz h.no_nul h.no_colon hvolume dup
  refine ⟨s', hs', ?_, ?_⟩
  · intro x hx
    obtain ⟨z, hz, rfl⟩ := hentries x hx
    have hmade := htree.made z hz
    refine ⟨(hs.ok hz).spells.normalize (hs.ok hz).components, z.vnode answers.tar.vnode, hresolve z hz, htree.shows hs hz, ?_, ?_⟩
    · intro hpath
      have hc := (hs.path_eq_nil hz).mp hpath
      exact ⟨hvolume.trans (htree.root z hz hc), hmade.root hc⟩
    · intro hpath
      have hc : z.entry.comps ≠ [] := fun hc => hpath ((hs.path_eq_nil hz).mpr hc)
      obtain ⟨y, hy, hyc, -⟩ := hs.parent hz hc
      have hye : y.entry ∈ es := by
        rw [← slotsFrom_entry es 0 argp]
        exact List.mem_map_of_mem hy
      refine ⟨y.entry, hye, ?_, y.vnode answers.tar.vnode, hresolve y hy, hmade.parent hc y hy hyc⟩
      rw [hs.split hz hc, ArchiveEntry.path, hyc]
  · intro answers₂ s₂ name₂ argp₂ es₂ s₂' h₂ hperm hmount path hpath dup dup₂
    obtain ⟨t, ht, htree₂, hvolume₂⟩ := h₂.mount
    have hst : s₂' = t := by
      rw [hmount, Option.some.injEq, Prod.mk.injEq] at ht
      exact ht.1
    subst hst
    have hs₂ := h₂.tar.slots argp₂ h₂.archive
    have hmem : ∀ e, e ∈ es ↔ e ∈ es₂ := fun e => hperm.mem_iff.symm
    have hslots : ∀ e, e ∈ (slotsAt answers.tar argp es).map (·.entry) ↔ e ∈ (slotsAt answers₂.tar argp₂ es₂).map (·.entry) := by
      intro e
      rw [slotsAt, slotsAt, slotsFrom_entry, slotsFrom_entry]
      exact hmem e
    have htwins := htree.resolve_twins hs hs₂ htree₂ hslots h.no_nul h.no_colon hvolume h₂.no_nul h₂.no_colon hvolume₂ hpath dup dup₂
    exact htwins.imp fun _ _ hn => hn.sameEntry hs hs₂ htree htree₂ hmem

end

/-! ## A file, then its directory, then the root -/

def fileInDirectory : List ArchiveEntry :=
  [⟨[], [[97], [98]], [], 48, [], []⟩, ⟨[dot, slash], [[97]], [slash], 53, [], []⟩, ⟨[dot, slash], [], [], 53, [], []⟩]

/-- Their image at 1 MiB. -/
def fileInDirectoryImage : Mem :=
  st8 (st8 (st8 (put (put (put ⟨fun _ => 0⟩ 0x100000 [97, slash, 98]) 0x100200 [dot, slash, 97, slash]) 0x100400 [dot, slash])
    0x10009C 48) 0x10029C 53) 0x10049C 53

def tarAnswers : MountAnswers :=
  ⟨16, [], (0x300000, ⟨fun _ => 0⟩), ⟨32, none, ⟨fun _ => ⟨0, 0, 0⟩⟩, upwards, fun t => ⟨[], 2 * t + 1024, ⟨fun _ => 0⟩⟩⟩⟩

theorem fileInDirectory_archive : Archive fileInDirectory := ⟨by decide, by decide, by decide, by decide⟩

theorem fileInDirectory_new :
    NewTarVolume tarAnswers { bareFs with mem := fileInDirectoryImage, drivers := [.tarfs] } [84] 0x100000 fileInDirectory where
  archive := fileInDirectory_archive
  image := by
    refine ⟨⟨by decide, by decide, by decide, ?_⟩, by decide⟩
    refine ⟨by decide, by decide, by decide, by decide, by decide, by decide, ?_⟩
    show fileInDirectoryImage _ = 0
    decide
  fits := by decide
  length := by decide
  no_nul := by decide
  no_colon := by decide
  new := rfl
  driver := rfl
  volume := by decide
  tar := ⟨⟨by decide, by constructor <;> simp only [tarAnswers, upwards] <;> decide, by decide, by decide⟩, rfl⟩
  rootNode := by decide

theorem file_in_directory_resolved : ∃ s' n, vfsMount tarAnswers { bareFs with mem := fileInDirectoryImage, drivers := [.tarfs] }
      Family.tarfs.ident [84] 0x100000 = some (s', 0) ∧
    fsResolve [] s' (volumePath [84] [97, slash, 98]) = .ret (some n) ∧
    ShowsEntry s' 0x100000 fileInDirectory ⟨[], [[97], [98]], [], 48, [], []⟩ n := by
  obtain ⟨s', hmount, hentries, -⟩ := archive_paths_resolve fileInDirectory_new
  obtain ⟨-, n, hresolve, hshows, -⟩ := hentries ⟨[], [[97], [98]], [], 48, [], []⟩ (by decide)
  exact ⟨s', n, hmount, hresolve [], hshows⟩

end NativeOS.Kern
