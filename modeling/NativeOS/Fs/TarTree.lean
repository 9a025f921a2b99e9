/-
  NativeOS.Fs.TarTree — the nodes of an archive are put together.

  A slot is a `tarfs_node`, the header block it points at and the entry there. The
  invariant (`Reassembling`) holds whichever nodes are made already: every header spells
  its entry's path, a node that is made is the entry's own (`Made`), `payload->root` is the
  root's once that is made. Making a node makes its parent's first, and the parent's path
  has one component less, so every recursion ends; nodes once made stay (`Grows`).
-/

import NativeOS.Fs.TarArchive
import NativeOS.Lib.Directory

namespace NativeOS.Fs.Tar

open NativeOS.Lib
open NativeOS.Stdkern
open NativeOS.Kern

/-! ## Slots -/

structure Slot where
  tnode : Nat
  block : Nat
  entry : ArchiveEntry
  deriving DecidableEq

/-- The vnode that is allocated for a slot. -/
def Slot.vnode (answers : Nat → VnodeAnswer) (x : Slot) : NodePtr := .heap (answers x.tnode).vnode

/-- An archive's slots, every header and every allocation apart from the others. -/
structure Slots (answers : Nat → VnodeAnswer) (slots : List Slot) : Prop where
  archive : Archive (slots.map (·.entry))
  tnodes : (slots.map (·.tnode)).Nodup
  vnode : ∀ x ∈ slots, (answers x.tnode).vnode ≠ 0
  vnodes : ∀ x ∈ slots, ∀ y ∈ slots, (answers x.tnode).vnode = (answers y.tnode).vnode → x = y
  blocks : ∀ x ∈ slots, ∀ y ∈ slots, x = y ∨ x.block + 512 ≤ y.block ∨ y.block + 512 ≤ x.block

section

variable {answers : Nat → VnodeAnswer} {slots : List Slot} {x y : Slot} (h : Slots answers slots)
include h

theorem Slots.ok (hx : x ∈ slots) : x.entry.Ok := h.archive.ok _ (List.mem_map_of_mem hx)

theorem Slots.tnode_inj (hx : x ∈ slots) (hy : y ∈ slots) (ht : x.tnode = y.tnode) : x = y :=
  List.inj_on_of_nodup_map h.tnodes hx hy ht

theorem Slots.path_inj (hx : x ∈ slots) (hy : y ∈ slots) (hp : x.entry.path = y.entry.path) : x = y := by
  have hd := h.archive.distinct
  rw [List.map_map] at hd
  exact List.inj_on_of_nodup_map hd hx hy hp

theorem Slots.vnode_inj (hx : x ∈ slots) (hy : y ∈ slots) (hv : x.vnode answers = y.vnode answers) : x = y :=
  h.vnodes x hx y hy (NodePtr.heap.inj hv)

theorem Slots.path_eq_nil (hx : x ∈ slots) : x.entry.path = [] ↔ x.entry.comps = [] := joinSlash_eq_nil (h.ok hx).components

theorem Slots.path_no_nul (hx : x ∈ slots) : 0 ∉ x.entry.path := joinSlash_no_nul (h.ok hx).components

theorem Slots.headD_path (hx : x ∈ slots) (hc : x.entry.comps ≠ []) : x.entry.path.headD 0 ≠ 0 :=
  headD_ne_zero (fun hp => hc ((h.path_eq_nil hx).mp hp)) (h.path_no_nul hx)

theorem Slots.root : ∃ x ∈ slots, x.entry.comps = [] := by
  obtain ⟨e, he, hr⟩ := h.archive.root
  obtain ⟨x, hx, rfl⟩ := List.mem_map.mp he
  exact ⟨x, hx, hr⟩

theorem Slots.parent (hx : x ∈ slots) (hc : x.entry.comps ≠ []) :
    ∃ y ∈ slots, y.entry.comps = x.entry.comps.dropLast ∧ y.entry.type = 53 := by
  obtain ⟨e, he, hp⟩ := h.archive.parent _ (List.mem_map_of_mem hx) hc
  obtain ⟨y, hy, rfl⟩ := List.mem_map.mp he
  exact ⟨y, hy, hp⟩

theorem Slots.comps_inj (hx : x ∈ slots) (hy : y ∈ slots) (hc : x.entry.comps = y.entry.comps) : x = y :=
  h.path_inj hx hy (congrArg joinSlash hc)

theorem Slots.comps_distinct : Directory.Distinct (fun x : Slot => x.entry.comps) slots := by
  have hd := h.archive.distinct
  rw [List.map_map] at hd
  refine List.Nodup.of_map joinSlash ?_
  rw [List.map_map]
  exact hd

/-- The way to an entry is through directories. -/
theorem Slots.prefix_dir {ds : List (List UInt8)}  : ∀ {cs : List (List UInt8)} {x : Slot}, x ∈ slots →
    x.entry.comps = ds ++ cs → cs ≠ [] → ∃ y ∈ slots, y.entry.comps = ds ∧ y.entry.type = 53 := by
  intro cs
  induction cs using List.reverseRecOn with
  | nil => exact fun _ _ hne => absurd rfl hne
  | append_singleton cs c ih =>
    intro x hx hcomps _
    have hne : x.entry.comps ≠ [] := by
      rw [hcomps]
      simp
    obtain ⟨y, hy, hyc, htype⟩ := h.parent hx hne
    rw [hcomps, ← List.append_assoc, List.dropLast_concat] at hyc
    by_cases hcs : cs = []
    · rw [hcs, List.append_nil] at hyc
      exact ⟨y, hy, hyc, htype⟩
    · exact ih hy hyc hcs

/-- What `split_basename` makes of an entry's path. -/
theorem Slots.split (hx : x ∈ slots) (hc : x.entry.comps ≠ []) :
    splitBasename x.entry.path = (joinSlash x.entry.comps.dropLast, x.entry.comps.getLast hc) :=
  splitBasename_joinSlash (h.ok hx).components (List.dropLast_append_getLast hc).symm

theorem Slots.path_length (hx : x ∈ slots) : x.entry.path.length ≤ 99 := by
  have hlen := (h.ok hx).entry.name_le
  rw [ArchiveEntry.entry] at hlen
  simp only [List.length_append] at hlen
  omega

end

/-! ## The invariant -/

/-- The slot's node is made, and is the entry's. -/
structure Made (answers : Nat → VnodeAnswer) (slots : List Slot) (vol : Nat) (s : Fs) (x : Slot) : Prop where
  node : (s.tnode x.tnode).node = (answers x.tnode).vnode
  name : ∀ hc : x.entry.comps ≠ [], ∀ rest, cstr ((s.node (x.vnode answers)).name.bytes ++ rest) = x.entry.comps.getLast hc
  flags : (s.node (x.vnode answers)).flags = entryFlags x.entry.type
  root : x.entry.comps = [] → (s.node (x.vnode answers)).parent = none
  parent : x.entry.comps ≠ [] → ∀ y ∈ slots, y.entry.comps = x.entry.comps.dropLast →
    (s.node (x.vnode answers)).parent = some (y.vnode answers)
  volume : (s.node (x.vnode answers)).volume = vol
  payload : (s.node (x.vnode answers)).payload = x.tnode

/-- The invariant but for `payload->root`, which is set before its node is complete. -/
structure NodesMade (answers : Nat → VnodeAnswer) (slots : List Slot) (tar vol : Nat) (s : Fs) : Prop where
  nodes : (s.tarfs tar).nodes = slots.map (·.tnode)
  volume : (s.tarfs tar).volume = vol
  block : ∀ x ∈ slots, (s.tnode x.tnode).block = x.block
  spelled : ∀ x ∈ slots, ∃ t, x.entry.Spells t ∧ NameAt s.mem x.block t
  type : ∀ x ∈ slots, s.mem (x.block + typeOffset) = x.entry.type
  made : ∀ x ∈ slots, (s.tnode x.tnode).node ≠ 0 → Made answers slots vol s x

structure Reassembling (answers : Nat → VnodeAnswer) (slots : List Slot) (tar vol : Nat) (s : Fs) : Prop
    extends NodesMade answers slots tar vol s where
  root : ∀ x ∈ slots, x.entry.comps = [] →
    (s.tarfs tar).root = if (s.tnode x.tnode).node = 0 then none else some (x.vnode answers)

/-- Nodes once made stay. -/
structure Grows (answers : Nat → VnodeAnswer) (slots : List Slot) (tar vol : Nat) (s s' : Fs) : Prop where
  inv : Reassembling answers slots tar vol s'
  made : ∀ x ∈ slots, (s.tnode x.tnode).node ≠ 0 → (s'.tnode x.tnode).node ≠ 0

section

variable {answers : Nat → VnodeAnswer} {slots : List Slot} {tar vol : Nat} {s s' s'' : Fs} {x : Slot}

theorem Made.congr (h : Made answers slots vol s x) (ht : s'.tnode x.tnode = s.tnode x.tnode)
    (hn : s'.node (x.vnode answers) = s.node (x.vnode answers)) : Made answers slots vol s' x := by
  obtain ⟨hnode, hname, hflags, hroot, hparent, hvolume, hpayload⟩ := h
  rw [← hn] at hname hflags hroot hparent hvolume hpayload
  rw [← ht] at hnode
  exact ⟨hnode, hname, hflags, hroot, hparent, hvolume, hpayload⟩

theorem Grows.refl (h : Reassembling answers slots tar vol s) : Grows answers slots tar vol s s := ⟨h, fun _ _ hx => hx⟩

theorem Grows.trans (h : Grows answers slots tar vol s s') (h' : Grows answers slots tar vol s' s'') :
    Grows answers slots tar vol s s'' := ⟨h'.inv, fun x hx h0 => h'.made x hx (h.made x hx h0)⟩

/-- A turn of the scan. -/
theorem Reassembling.scan (hs : Slots answers slots) (h : Reassembling answers slots tar vol s) (hx : x ∈ slots) :
    strAt (cutKiwi s.mem (kiwiStart s.mem x.block)) (kiwiStart s.mem x.block) = x.entry.path ∧
      Grows answers slots tar vol s { s with mem := cutKiwi s.mem (kiwiStart s.mem x.block) } := by
  obtain ⟨t, ht, hname⟩ := h.spelled x hx
  obtain ⟨hfound, ⟨t', ht', hname'⟩, hsame⟩ := ht.cut (hs.ok hx).components hname
  refine ⟨hfound, ⟨⟨h.nodes, h.volume, h.block, fun y hy => ?_, fun y hy => ?_, fun y hy h0 => (h.made y hy h0).congr rfl rfl⟩,
    h.root⟩, fun _ _ h0 => h0⟩
  · -- the other headers are left alone
    rcases hs.blocks x hx y hy with rfl | hapart
    · exact ⟨t', ht', hname'⟩
    · obtain ⟨u, hu, hyname⟩ := h.spelled y hy
      have hlen : u.length ≤ 99 := by
        obtain ⟨-, -, hlen⟩ := hu
        exact hlen
      exact ⟨u, hu, hyname.congr fun z hl hr => hsame z (by omega)⟩
  · rw [← h.type y hy]
    refine hsame _ ?_
    show y.block + 156 < x.block ∨ x.block + 99 ≤ y.block + 156
    rcases hs.blocks x hx y hy with rfl | hapart
    · omega
    · omega

/-- The node that is filled in at the end of `reassemble_nodes`, with the right parent. -/
theorem NodesMade.made_finish (hs : Slots answers slots) (h : NodesMade answers slots tar vol s) (hx : x ∈ slots)
    {parent : Option NodePtr} (hroot : x.entry.comps = [] → parent = none)
    (hparent : x.entry.comps ≠ [] → ∀ y ∈ slots, y.entry.comps = x.entry.comps.dropLast → parent = some (y.vnode answers)) :
    Made answers slots vol (finishNode (answers x.tnode) tar x.tnode x.entry.path s parent) x := by
  have hnode := @finishNode_node (answers x.tnode) tar x.tnode x.entry.path s parent
  refine ⟨?_, ?_, ?_, ?_, ?_, ?_, ?_⟩
  · rw [finishNode_tnode]
  · intro hc rest
    have hlast := List.getLast_mem hc
    have hcomp := (hs.ok hx).components _ hlast
    have hentry : entryName x.entry.path = x.entry.comps.getLast hc := by
      rw [entryName, if_pos (hs.headD_path hx hc), hs.split hx hc]
    have hcstr := cstr_of_no_zero hcomp.no_nul
    rw [Slot.vnode, hnode, nameEntryNode, hentry]
    dsimp only
    rw [cstr_strcpy _ _ (by rw [hcstr]; exact hcomp.ne_nil) (by
      rw [hcstr]
      exact Nat.lt_succ_of_le ((hs.ok hx).comps _ hlast).2), hcstr]
  · rw [Slot.vnode, hnode, h.block x hx, h.type x hx]
  · intro hc
    rw [Slot.vnode, hnode]
    exact hroot hc
  · intro hc y hy hcomps
    rw [Slot.vnode, hnode]
    exact hparent hc y hy hcomps
  · rw [Slot.vnode, hnode]
    exact h.volume
  · rw [Slot.vnode, hnode]

/-- The end of `reassemble_nodes`. -/
theorem NodesMade.finish (hs : Slots answers slots) (h : NodesMade answers slots tar vol s) (hx : x ∈ slots)
    {parent : Option NodePtr} (hroot : x.entry.comps = [] → parent = none)
    (hparent : x.entry.comps ≠ [] → ∀ y ∈ slots, y.entry.comps = x.entry.comps.dropLast → parent = some (y.vnode answers)) :
    NodesMade answers slots tar vol (finishNode (answers x.tnode) tar x.tnode x.entry.path s parent) ∧
      Made answers slots vol (finishNode (answers x.tnode) tar x.tnode x.entry.path s parent) x := by
  have hmade := h.made_finish hs hx hroot hparent
  refine ⟨⟨h.nodes, h.volume, fun y hy => ?_, h.spelled, h.type, fun y hy h0 => ?_⟩, hmade⟩
  · rw [finishNode_block]
    exact h.block y hy
  · by_cases hyx : y = x
    · rw [hyx]
      exact hmade
    · have ht : (finishNode (answers x.tnode) tar x.tnode x.entry.path s parent).tnode y.tnode = s.tnode y.tnode :=
        finishNode_tnode_ne fun ht => hyx (hs.tnode_inj hy hx ht)
      rw [ht] at h0
      exact (h.made y hy h0).congr ht (finishNode_node_ne fun hv => hyx (hs.vnode_inj hy hx hv))

/-- `payload->root` afterwards. -/
theorem NodesMade.complete (hs : Slots answers slots) (hx : x ∈ slots) {parent : Option NodePtr}
    (h : NodesMade answers slots tar vol (finishNode (answers x.tnode) tar x.tnode x.entry.path s parent))
    (hroot : ∀ y ∈ slots, y.entry.comps = [] →
      (s.tarfs tar).root = if y = x ∨ (s.tnode y.tnode).node ≠ 0 then some (y.vnode answers) else none) :
    Grows answers slots tar vol s (finishNode (answers x.tnode) tar x.tnode x.entry.path s parent) := by
  have hv := hs.vnode x hx
  refine ⟨⟨h, fun y hy hc => ?_⟩, fun y hy h0 => ?_⟩
  · rw [finishNode_tarfs, hroot y hy hc]
    by_cases hyx : y = x
    · rw [hyx, finishNode_tnode, if_pos (.inl rfl), if_neg hv]
    · rw [finishNode_tnode_ne fun ht => hyx (hs.tnode_inj hy hx ht)]
      simp [hyx]
  · by_cases hyx : y = x
    · rw [hyx, finishNode_tnode]
      exact hv
    · rw [finishNode_tnode_ne fun ht => hyx (hs.tnode_inj hy hx ht)]
      exact h0

/-! ## lookup_vnode finds the parent -/

theorem Slots.strncmp_path (hs : Slots answers slots) {y : Slot} (hx : x ∈ slots) (hy : y ∈ slots) :
    strncmp x.entry.path y.entry.path 256 = 0 ↔ x = y := by
  have hxlen := hs.path_length hx
  have hylen := hs.path_length hy
  rw [strncmp_short (hs.path_no_nul hx) (hs.path_no_nul hy) (by omega) (by omega)]
  exact ⟨hs.path_inj hx hy, fun h => h ▸ rfl⟩

theorem lookupLoop_finds (hs : Slots answers slots) {y : Slot} (hy : y ∈ slots) {reassemble : Fs → Nat → Option Fs}
    (hre : ∀ s, Reassembling answers slots tar vol s →
      ∃ s', reassemble s y.tnode = some s' ∧ Grows answers slots tar vol s s' ∧ Made answers slots vol s' y) :
    ∀ (l : List Slot) {s : Fs}, (∀ x ∈ l, x ∈ slots) → y ∈ l → Reassembling answers slots tar vol s →
    ∃ s', lookupLoop reassemble y.entry.path s (l.map (·.tnode)) = some (s', some (y.vnode answers)) ∧
      Grows answers slots tar vol s s'
  | [], _, _, hyl, _ => absurd hyl List.not_mem_nil
  | x :: l, s, hl, hyl, h => by
    have hx := hl x List.mem_cons_self
    obtain ⟨hfound, hscan⟩ := h.scan hs hx
    rw [List.map_cons, lookupLoop, h.block x hx]
    dsimp only
    rw [hfound]
    by_cases hxy : x = y
    · subst hxy
      obtain ⟨s', hs', hgrows, hmade⟩ := hre _ hscan.inv
      rw [if_pos ((hs.strncmp_path hx hx).mpr rfl), hs', Option.bind_eq_bind, Option.bind_some, hmade.node]
      refine ⟨s', ?_, hscan.trans hgrows⟩
      rw [nodeAt, if_neg (hs.vnode x hx)]
      rfl
    · rw [if_neg fun heq => hxy ((hs.strncmp_path hx hy).mp heq)]
      have hmem := (List.mem_cons.mp hyl).resolve_left (Ne.symm hxy)
      obtain ⟨s', hs', hgrows⟩ := lookupLoop_finds hs hy hre l (fun z hz => hl z (List.mem_cons_of_mem _ hz)) hmem hscan.inv
      exact ⟨s', hs', hscan.trans hgrows⟩

/-! ## reassemble_nodes makes the node -/

/-- The copy of the header's name, normalised. -/
theorem Reassembling.normalized (hs : Slots answers slots) (h : Reassembling answers slots tar vol s) (hx : x ∈ slots)
    (dup : List UInt8) : normalize (strdup dup (strAt s.mem (s.tnode x.tnode).block)) = x.entry.path := by
  obtain ⟨t, ht, hname⟩ := h.spelled x hx
  have hcomps := (hs.ok hx).components
  have hlen : t.length ≤ 99 := by
    obtain ⟨-, -, hlen⟩ := ht
    exact hlen
  have hhead := headD_ne_zero (ht.ne_nil hcomps) hname.2
  rw [h.block x hx, strAt_name hname (by omega), strdup, if_pos hhead, cstr_of_no_zero hname.2, ht.normalize hcomps]

/-- The root has no parent, and the payload points at it before it is filled in. -/
theorem Reassembling.makeRoot (hs : Slots answers slots) (h : Reassembling answers slots tar vol s) (hx : x ∈ slots)
    (hc : x.entry.comps = []) (h0 : (s.tnode x.tnode).node = 0) :
    Grows answers slots tar vol s
        (finishNode (answers x.tnode) tar x.tnode x.entry.path (setRoot tar (answers x.tnode).vnode s) none) ∧
      Made answers slots vol
        (finishNode (answers x.tnode) tar x.tnode x.entry.path (setRoot tar (answers x.tnode).vnode s) none) x := by
  have hnone : (s.tarfs tar).root = none := by rw [h.root x hx hc, if_pos h0]
  have hset : setRoot tar (answers x.tnode).vnode s = s.setTarfs tar { s.tarfs tar with root := some (x.vnode answers) } := by
    rw [setRoot, if_pos hnone]
    rfl
  rw [hset]
  generalize hs1 : s.setTarfs tar { s.tarfs tar with root := some (x.vnode answers) } = s1
  have h1 : NodesMade answers slots tar vol s1 := by
    rw [← hs1]
    refine ⟨?_, ?_, h.block, h.spelled, h.type, fun y hy hn => (h.made y hy hn).congr rfl rfl⟩
    · rw [Fs.setTarfs_self]
      exact h.nodes
    · rw [Fs.setTarfs_self]
      exact h.volume
  have hroot1 : (s1.tarfs tar).root = some (x.vnode answers) := by rw [← hs1, Fs.setTarfs_self]
  have htnode1 : s1.tnode = s.tnode := by rw [← hs1]; rfl
  obtain ⟨hnodes, hmade⟩ := h1.finish hs hx (fun _ => rfl) fun hne => absurd hc hne
  have hgrows := hnodes.complete hs hx fun y hy hyc => by
    rw [hroot1, hs.comps_inj hy hx (hyc.trans hc.symm), if_pos (.inl rfl)]
  refine ⟨⟨hgrows.inv, fun y hy hn => ?_⟩, hmade⟩
  rw [← htnode1] at hn
  exact hgrows.made y hy hn

theorem reassembleNodes_makes (hs : Slots answers slots) : ∀ (fuel : Nat) {s : Fs} {x : Slot}, x ∈ slots →
    x.entry.comps.length < fuel → Reassembling answers slots tar vol s →
    ∃ s', reassembleNodes answers tar fuel s x.tnode = some s' ∧ Grows answers slots tar vol s s' ∧
      Made answers slots vol s' x
  | fuel + 1, s, x, hx, hf, h => by
    rw [reassembleNodes]
    by_cases h0 : (s.tnode x.tnode).node = 0
    · rw [if_neg (not_not.mpr h0)]
      dsimp only
      rw [h.normalized hs hx]
      by_cases hc : x.entry.comps = []
      · have hhead : ¬ x.entry.path.headD 0 ≠ 0 := by
          rw [(hs.path_eq_nil hx).mpr hc]
          exact fun hne => hne rfl
        obtain ⟨hgrows, hmade⟩ := h.makeRoot hs hx hc h0
        exact ⟨_, if_neg hhead, hgrows, hmade⟩
      · -- the parent is looked up, and made by a call with a shorter path
        obtain ⟨y, hy, hcomps, -⟩ := hs.parent hx hc
        have hdirname : (splitBasename x.entry.path).1 = y.entry.path := by
          rw [hs.split hx hc, ArchiveEntry.path, hcomps]
        have hshort : y.entry.comps.length < fuel := by
          rw [hcomps, List.length_dropLast]
          have hpos := List.length_pos_iff.mpr hc
          omega
        obtain ⟨s2, hs2, hgrows2⟩ := lookupLoop_finds hs hy (fun s hs' => reassembleNodes_makes hs fuel hy hshort hs') slots
          (fun _ hz => hz) hy h
        rw [if_pos (hs.headD_path hx hc), h.nodes, hdirname, hs2, Option.bind_eq_bind, Option.bind_some]
        obtain ⟨hnodes, hmade⟩ := hgrows2.inv.toNodesMade.finish hs hx (fun hnil => absurd hnil hc) fun _ z hz hzc => by
          rw [hs.comps_inj hz hy (hzc.trans hcomps.symm)]
        have hgrows := hnodes.complete hs hx fun z hz hzc => by
          have hzx : z ≠ x := fun hzx => hc (hzx ▸ hzc)
          rw [hgrows2.inv.root z hz hzc]
          by_cases hz0 : (s2.tnode z.tnode).node = 0
          · rw [if_pos hz0, if_neg (by simp [hzx, hz0])]
          · rw [if_neg hz0, if_pos (.inr hz0)]
        exact ⟨_, rfl, hgrows2.trans hgrows, hmade⟩
    · rw [if_pos h0]
      exact ⟨s, rfl, .refl h, h.made x hx h0⟩

/-- The loop of `init_nodes` makes all. -/
theorem reassembleLoop_makes (hs : Slots answers slots) : ∀ (l : List Slot) {s : Fs}, (∀ x ∈ l, x ∈ slots) →
    Reassembling answers slots tar vol s →
    ∃ s', reassembleLoop answers tar (l.map (·.tnode)) s = some s' ∧ Grows answers slots tar vol s s' ∧
      ∀ x ∈ l, Made answers slots vol s' x
  | [], s, _, h => ⟨s, rfl, .refl h, List.forall_mem_nil _⟩
  | x :: l, s, hl, h => by
    have hx := hl x List.mem_cons_self
    have hcomps : x.entry.comps.length < 4294967296 := by
      have hlen := hs.path_length hx
      have hle := length_le_joinSlash (hs.ok hx).components
      unfold ArchiveEntry.path at hlen
      omega
    obtain ⟨s1, hs1, hgrows1, hmade⟩ := reassembleNodes_makes hs 4294967296 hx hcomps h
    obtain ⟨s', hs', hgrows', hall⟩ := reassembleLoop_makes hs l (fun y hy => hl y (List.mem_cons_of_mem _ hy)) hgrows1.inv
    refine ⟨s', ?_, hgrows1.trans hgrows', List.forall_mem_cons.mpr ⟨?_, hall⟩⟩
    · rw [List.map_cons, reassembleLoop, hs1, Option.bind_eq_bind, Option.bind_some, hs']
    · refine hgrows'.inv.made x hx (hgrows'.made x hx ?_)
      rw [hmade.node]
      exact hs.vnode x hx

end

end NativeOS.Fs.Tar
