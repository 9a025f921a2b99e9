/-
  NativeOS.Fs.TarForest — the nodes of any TAR image are a forest.

  Names are what they are: twice the same, without a parent, with slashes anywhere. While
  entries are under construction, the path that is looked up is shorter than what a scan
  finds in any of their headers; a scan cuts one slash off each, and the next path looked
  up is shorter again (`Below`). So the recursion ends and never comes back to an entry it
  has begun, and a node's parent is one that was built before it (`Lib.Forest`).

  A last component of 80 bytes or more goes over the end of its node, and what is behind it
  there is the heap's (`NativeOS.Fs.TarHeap`).

  Proved:
  * `tree_is_a_forest` — over every list of decoded entries whose last components are shorter.
-/

import NativeOS.Fs.TarBuilds

namespace NativeOS.Fs.Tar

open NativeOS.Lib
open NativeOS.Stdkern
open NativeOS.Kern

/-! ## What is built so far -/

def Built.vnode (answers : Nat → VnodeAnswer) (b : Built) : NodePtr := .heap (answers b.tnode).vnode

/-- The first entry built with an empty path. -/
def firstRoot (answers : Nat → VnodeAnswer) (log : List Built) : Option NodePtr :=
  (log.find? fun b => decide (b.path.headD 0 = 0)).map (Built.vnode answers)

/-- Memory of its own for every entry's node. -/
structure Allocated (answers : Nat → VnodeAnswer) (ns : List Nat) : Prop where
  distinct : ns.Nodup
  vnode : ∀ t ∈ ns, (answers t).vnode ≠ 0
  vnodes : ∀ t ∈ ns, ∀ t' ∈ ns, t ≠ t' → VnodesApart (answers t).vnode (answers t').vnode

theorem Allocated.vnode_inj {answers : Nat → VnodeAnswer} {ns : List Nat} (h : Allocated answers ns) :
    ∀ t ∈ ns, ∀ t' ∈ ns, (answers t).vnode = (answers t').vnode → t = t' := by
  intro t ht t' ht' he
  by_contra hne
  exact (h.vnodes t ht t' ht' hne).ne he

/-- The node of an entry that is built, and its path, which is `orig` but for slashes cut off. -/
structure EntryBuilt (answers : Nat → VnodeAnswer) (vol : Nat) (ns : List Nat) (orig : Nat → List UInt8) (s : Fs)
    (b : Built) : Prop where
  mem : b.tnode ∈ ns
  no_nul : 0 ∉ b.path
  path : CutFrom (orig b.tnode) b.path
  name : (s.node (b.vnode answers)).name = nameField (nameEntryNode (answers b.tnode).stale 0 b.path) 0
  root : b.path = [] → (s.node (b.vnode answers)).parent = none
  volume : (s.node (b.vnode answers)).volume = vol

/-- After `log` was built. `payload->root` was found to be `stale`, and the entries' paths to be `orig`. -/
structure Building (answers : Nat → VnodeAnswer) (tar vol : Nat) (ns : List Nat) (stale : Option NodePtr) (orig : Nat → List UInt8)
    (log : List Built) (s : Fs) : Prop extends HeadersNamed tar s where
  nodes : (s.tarfs tar).nodes = ns
  volume : (s.tarfs tar).volume = vol
  blocks : ∀ t ∈ ns, ∀ t' ∈ ns, (s.tnode t).block = (s.tnode t').block → t = t'
  node : ∀ t ∈ ns, (s.tnode t).node = if t ∈ log.map (·.tnode) then (answers t).vnode else 0
  forest : Forest.Grown (fun p => (s.node p).parent) (log.map (Built.vnode answers))
  cut : ∀ t ∈ ns, CutFrom (orig t) (nodePath s t)
  entry : ∀ b ∈ log, EntryBuilt answers vol ns orig s b
  root : (s.tarfs tar).root = stale.or (firstRoot answers log)

section

variable {answers : Nat → VnodeAnswer} {tar vol : Nat} {ns : List Nat} {stale : Option NodePtr} {orig : Nat → List UInt8}
  {log : List Built} {s : Fs} {t : Nat}

/-- The entries under construction: none is built yet, and each one's path has `n` bytes or more. -/
def Below (ns : List Nat) (log : List Built) (s : Fs) (busy : List Nat) (n : Nat) : Prop :=
  ∀ b ∈ busy, b ∈ ns ∧ b ∉ log.map (·.tnode) ∧ n ≤ (nodePath s b).length

theorem Building.node_ne_zero (ha : Allocated answers ns) (h : Building answers tar vol ns stale orig log s) (ht : t ∈ ns) :
    (s.tnode t).node ≠ 0 ↔ t ∈ log.map (·.tnode) := by
  rw [h.node t ht]
  split
  · rename_i hbuilt
    exact iff_of_true (ha.vnode t ht) hbuilt
  · rename_i hbuilt
    exact iff_of_false (not_not.mpr rfl) hbuilt

/-! ## A turn of the scan -/

/-- What is compared is the path the header has, and afterwards it has the same path or one that
    is a byte shorter. The other headers have theirs. -/
theorem Building.scan (h : Building answers tar vol ns stale orig log s) (ht : t ∈ ns) {s1 : Fs}
    (hs1 : s1 = { s with mem := cutKiwi s.mem (kiwiStart s.mem (s.tnode t).block) }) :
    strAt s1.mem (kiwiStart s.mem (s.tnode t).block) = nodePath s t ∧ Building answers tar vol ns stale orig log s1 ∧
      (nodePath s1 t).length ≤ (nodePath s t).length ∧ (nodePath s t).length ≤ (nodePath s1 t).length + 1 ∧
      ∀ t' ∈ ns, t' ≠ t → nodePath s1 t' = nodePath s t' := by
  obtain ⟨hnamed, hfound, hcut, hothers⟩ := h.toHeadersNamed.scan (h.nodes ▸ ht) hs1
  have hno := (h.toHeadersNamed.path (h.nodes ▸ ht)).1
  refine ⟨hfound, ?_, ?_, ?_, fun t' ht' hne => ?_⟩
  · have hpaths : ∀ t' ∈ ns, CutFrom (orig t') (nodePath s1 t') := by
      intro t' ht'
      by_cases he : t' = t
      · rw [he, hcut]
        exact (h.cut t ht).trans (cutFrom_cutSlash hno)
      · rw [hothers t' (h.nodes ▸ ht') fun hb => he (h.blocks t' ht' t ht hb.symm)]
        exact h.cut t' ht'
    subst hs1
    exact ⟨hnamed, h.nodes, h.volume, h.blocks, h.node, h.forest, hpaths,
      fun b hb => ⟨(h.entry b hb).mem, (h.entry b hb).no_nul, (h.entry b hb).path, (h.entry b hb).name,
      (h.entry b hb).root, (h.entry b hb).volume⟩,
      h.root⟩
  · rw [hcut]
    exact cutSlash_length _
  · rw [hcut]
    exact length_le_cutSlash hno
  · exact hothers t' (h.nodes ▸ ht') fun he => hne (h.blocks t' ht' t ht he.symm)

/-! ## A node is entered -/

/-- `payload->root` was set as it has to be before the node is entered. -/
theorem Building.finish (ha : Allocated answers ns) (h : Building answers tar vol ns stale orig log s) (ht : t ∈ ns)
    (hnew : t ∉ log.map (·.tnode)) {path : List UInt8} (hno : 0 ∉ path) (hpath : CutFrom (orig t) path) {parent : Option NodePtr}
    (hroot : path = [] → parent = none) (hparent : ∀ p, parent = some p → p ∈ log.map (Built.vnode answers)) {s1 : Fs}
    (hs1 : ∃ root, s1 = s.setTarfs tar { s.tarfs tar with root := root } ∧
      root = stale.or (firstRoot answers (log ++ [⟨t, path⟩]))) :
    Building answers tar vol ns stale orig (log ++ [⟨t, path⟩]) (finishNode (answers t) tar t path s1 parent) := by
  obtain ⟨root, rfl, hpayload⟩ := hs1
  have hfresh : .heap (answers t).vnode ∉ log.map (Built.vnode answers) := by
    intro hmem
    obtain ⟨b, hb, he⟩ := List.mem_map.mp hmem
    have hbt := ha.vnode_inj _ (h.entry b hb).mem t ht (NodePtr.heap.inj he)
    exact hnew (hbt ▸ List.mem_map_of_mem hb)
  have hothers : ∀ p ∈ log.map (Built.vnode answers), p ≠ .heap (answers t).vnode := fun p hp he => hfresh (he ▸ hp)
  refine ⟨h.toHeadersNamed.congr rfl (fun _ => finishNode_block) ?_, ?_, ?_, fun t₁ h₁ t₂ h₂ => ?_, fun t' ht' => ?_, ?_,
    fun t' ht' => ?_, fun b hb => ?_, ?_⟩
  · simp
  · simpa using h.nodes
  · simpa using h.volume
  · simpa using h.blocks t₁ h₁ t₂ h₂
  · by_cases he : t' = t
    · subst he
      simp
    · rw [finishNode_tnode_ne he]
      simpa [he] using h.node t' ht'
  · rw [List.map_append]
    refine .snoc (h.forest.congr fun p hp => ?_) hfresh fun p hp => ?_
    · rw [finishNode_node_ne (hothers p hp), Fs.setTarfs_node]
    · rw [Built.vnode, finishNode_node] at hp
      exact hparent p hp
  · have hsame : nodePath (finishNode (answers t) tar t path (s.setTarfs tar { s.tarfs tar with root := root }) parent) t' =
        nodePath s t' := by
      simp [nodePath]
    rw [hsame]
    exact h.cut t' ht'
  · rcases List.mem_append.mp hb with hb | hb
    · have hold := h.entry b hb
      have hnode : (finishNode (answers t) tar t path (s.setTarfs tar { s.tarfs tar with root := root }) parent).node
          (b.vnode answers) = s.node (b.vnode answers) := finishNode_node_ne (hothers _ (List.mem_map_of_mem hb))
      refine ⟨hold.mem, hold.no_nul, hold.path, ?_, ?_, ?_⟩
      · rw [hnode]
        exact hold.name
      · rw [hnode]
        exact hold.root
      · rw [hnode]
        exact hold.volume
    · obtain rfl := List.mem_singleton.mp hb
      refine ⟨ht, hno, hpath, ?_, ?_, ?_⟩
      · rw [Built.vnode, finishNode_node]
      · rw [Built.vnode, finishNode_node]
        exact hroot
      · rw [Built.vnode, finishNode_node]
        simpa using h.volume
  · simpa using hpayload

theorem firstRoot_snoc (log : List Built) (b : Built) :
    firstRoot answers (log ++ [b]) =
      (firstRoot answers log).or (if b.path.headD 0 = 0 then some (b.vnode answers) else none) := by
  unfold firstRoot
  rw [List.find?_append, List.find?_singleton]
  cases log.find? fun b => decide (b.path.headD 0 = 0) with
  | some b' => rfl
  | none =>
    simp only [Option.none_or, Option.map_none, decide_eq_true_eq]
    split <;> rfl

/-! ## The recursion -/

theorem Below.mono {busy : List Nat} {n k : Nat} (h : Below ns log s busy n) (hk : k ≤ n) : Below ns log s busy k :=
  fun b hb => ⟨(h b hb).1, (h b hb).2.1, Nat.le_trans hk (h b hb).2.2⟩

/-- A run that built `more`, none of it under construction before. -/
structure Builds (answers : Nat → VnodeAnswer) (tar vol : Nat) (ns : List Nat) (stale : Option NodePtr) (orig : Nat → List UInt8)
    (log : List Built) (busy : List Nat) (more : List Built) (s' : Fs) : Prop where
  after : Building answers tar vol ns stale orig (log ++ more) s'
  apart : ∀ b ∈ busy, b ∉ more.map (·.tnode)

/-- The scan comes to each entry once: the ones under construction that are still to come have a
    longer path than the one looked up, the others one that is no shorter. -/
theorem logLookup_builds {reassemble : Fs → Nat → Option (Fs × List Built)} {path : List UInt8} {busy : List Nat}
    (h0 : 0 ∉ path) (hlen : path.length ≤ 255)
    (hre : ∀ {s : Fs} {t : Nat}, Building answers tar vol ns stale orig log s → t ∈ ns → t ∉ busy →
      (nodePath s t).length ≤ path.length → Below ns log s busy (nodePath s t).length →
      ∃ s' more, reassemble s t = some (s', more) ∧ Builds answers tar vol ns stale orig log busy more s' ∧
        t ∈ (log ++ more).map (·.tnode)) :
    ∀ (l : List Nat) {s : Fs}, (∀ t ∈ l, t ∈ ns) → l.Nodup → Building answers tar vol ns stale orig log s →
    Below ns log s busy path.length → (∀ b ∈ busy, b ∈ l → path.length < (nodePath s b).length) →
    ∃ s' found more, logLookup reassemble path s l = some (s', found, more) ∧
      Builds answers tar vol ns stale orig log busy more s' ∧
      ∀ p, found = some p → p ∈ (log ++ more).map (Built.vnode answers) := by
  intro l
  induction l with
  | nil =>
    intro s _ _ h _ _
    refine ⟨s, none, [], rfl, ⟨?_, fun _ _ => List.not_mem_nil⟩, fun _ hp => nomatch hp⟩
    rw [List.append_nil]
    exact h
  | cons t l ih =>
    intro s hl hnodup h hbelow htocome
    have ht := hl t List.mem_cons_self
    obtain ⟨hfound, hscan, hshort, hlong, hothers⟩ := h.scan ht rfl
    have hpath := h.toHeadersNamed.path (h.nodes ▸ ht)
    rw [List.nodup_cons] at hnodup
    rw [logLookup]
    dsimp only
    dsimp only at hfound
    rw [hfound]
    by_cases heq : strncmp (nodePath s t) path 256 = 0
    · rw [if_pos heq]
      rw [strncmp_short hpath.1 h0 hpath.2 hlen] at heq
      rw [heq] at hshort
      -- its own path is longer than any path looked up while it is under construction
      have hidle : t ∉ busy := by
        intro hb
        have hlt := htocome t hb List.mem_cons_self
        rw [heq] at hlt
        exact Nat.lt_irrefl _ hlt
      have hbelow' : Below ns log { s with mem := cutKiwi s.mem (kiwiStart s.mem (s.tnode t).block) } busy path.length := by
        intro b hb
        obtain ⟨hbn, hbl, hbp⟩ := hbelow b hb
        refine ⟨hbn, hbl, ?_⟩
        rw [hothers b hbn fun he => hidle (he ▸ hb)]
        exact hbp
      obtain ⟨s', more, hs', hbuilds, hmem⟩ := hre hscan ht hidle hshort (hbelow'.mono hshort)
      rw [hs']
      refine ⟨s', _, more, rfl, hbuilds, fun p hp => ?_⟩
      rw [nodeAt, hbuilds.after.node t ht, if_pos hmem] at hp
      obtain ⟨b, hb, rfl⟩ := List.mem_map.mp hmem
      split at hp
      · cases hp
      · rw [← Option.some.inj hp]
        exact List.mem_map_of_mem hb
    · rw [if_neg heq]
      refine ih (fun t' ht' => hl t' (List.mem_cons_of_mem _ ht')) hnodup.2 hscan (fun b hb => ?_)
        fun b hb hbl => ?_
      · obtain ⟨hbn, hbl, hbp⟩ := hbelow b hb
        refine ⟨hbn, hbl, ?_⟩
        by_cases hbt : b = t
        · have hlt := htocome b hb (hbt ▸ List.mem_cons_self)
          rw [hbt] at hlt ⊢
          omega
        · rw [hothers b hbn hbt]
          exact hbp
      · have hbt : b ≠ t := fun he => hnodup.1 (he ▸ hbl)
        rw [hothers b (hbelow b hb).1 hbt]
        exact htocome b hb (List.mem_cons_of_mem _ hbl)

theorem logReassemble_builds (ha : Allocated answers ns) : ∀ (fuel : Nat) {s : Fs} {t : Nat} {log : List Built} {busy : List Nat},
    Building answers tar vol ns stale orig log s → t ∈ ns → t ∉ busy → Below ns log s busy (nodePath s t).length →
    (nodePath s t).length < fuel →
    ∃ s' more, logReassemble answers tar fuel s t = some (s', more) ∧ Builds answers tar vol ns stale orig log busy more s' ∧
      t ∈ (log ++ more).map (·.tnode) := by
  intro fuel
  induction fuel with
  | zero =>
    intro s t log busy _ _ _ _ hf
    exact absurd hf (Nat.not_lt_zero _)
  | succ fuel ih =>
    intro s t log busy h ht hidle hbelow hf
    rw [logReassemble]
    by_cases hbuilt : t ∈ log.map (·.tnode)
    · rw [if_pos ((h.node_ne_zero ha ht).mpr hbuilt)]
      refine ⟨s, [], rfl, ⟨?_, fun _ _ => List.not_mem_nil⟩, ?_⟩
      · rw [List.append_nil]
        exact h
      · rw [List.append_nil]
        exact hbuilt
    · obtain ⟨hno, hshort⟩ := h.toHeadersNamed.path (h.nodes ▸ ht)
      rw [if_neg fun hnode => hbuilt ((h.node_ne_zero ha ht).mp hnode)]
      dsimp only
      rw [h.toHeadersNamed.dup (h.nodes ▸ ht)]
      have hlast : ∀ l : List Built, t ∈ (l ++ [(⟨t, nodePath s t⟩ : Built)]).map (·.tnode) :=
        fun l => by simp
      by_cases hhead : (nodePath s t).headD 0 = 0
      · rw [if_neg (not_not.mpr hhead)]
        refine ⟨_, _, rfl, ⟨h.finish ha ht hbuilt hno (h.cut t ht) (fun _ => rfl) (fun _ hp => absurd hp (by simp))
          ⟨_, setRoot_eq, ?_⟩, fun b hb he => ?_⟩, hlast log⟩
        · rw [h.root, firstRoot_snoc, if_pos hhead, Option.or_assoc]
          rfl
        · obtain rfl : b = t := by simpa using he
          exact hidle hb
      · -- the parent is looked up with this entry under construction too
        have hne : nodePath s t ≠ [] := fun hnil => hhead (by rw [hnil]; rfl)
        obtain ⟨hdirlen, hdirno⟩ := splitBasename_dir hne hno
        have hbusy : Below ns log s (t :: busy) (nodePath s t).length :=
          List.forall_mem_cons.mpr ⟨⟨ht, hbuilt, Nat.le_refl _⟩, hbelow⟩
        obtain ⟨s2, found, more, hs2, hbuilds, hparent⟩ := @logLookup_builds answers tar vol ns stale orig log
          (logReassemble answers tar fuel) (splitBasename (nodePath s t)).1 (t :: busy) hdirno (by omega)
          (fun h1 ht1 hidle1 hle hbelow1 => ih h1 ht1 hidle1 hbelow1 (by omega))
          ns s (fun _ ht' => ht') ha.distinct h (hbusy.mono (by omega)) (fun b hb _ => by have := (hbusy b hb).2.2; omega)
        rw [if_pos hhead, h.nodes, hs2]
        have hnew : t ∉ (log ++ more).map (·.tnode) := by
          rw [List.map_append, List.mem_append]
          exact fun he => he.elim hbuilt (hbuilds.apart t List.mem_cons_self)
        refine ⟨_, more ++ [⟨t, nodePath s t⟩], rfl, ⟨?_, fun b hb he => ?_⟩, ?_⟩
        · rw [← List.append_assoc]
          refine hbuilds.after.finish ha ht hnew hno (h.cut t ht) (fun hnil => absurd hnil hne) hparent ⟨_, setTarfs_root_self.symm, ?_⟩
          rw [hbuilds.after.root, firstRoot_snoc, if_neg hhead, Option.or_none]
        · rw [List.map_append, List.mem_append] at he
          rcases he with he | he
          · exact hbuilds.apart b (List.mem_cons_of_mem _ hb) he
          · obtain rfl : b = t := by simpa using he
            exact hidle hb
        · rw [← List.append_assoc]
          exact hlast _

theorem logLoop_builds (ha : Allocated answers ns) : ∀ (l : List Nat) {s : Fs} {log : List Built}, (∀ t ∈ l, t ∈ ns) →
    Building answers tar vol ns stale orig log s →
    ∃ s' more, logLoop answers tar l s = some (s', more) ∧ Building answers tar vol ns stale orig (log ++ more) s' ∧
      ∀ t ∈ l, t ∈ (log ++ more).map (·.tnode)
  | [], s, log, _, h => by
    refine ⟨s, [], rfl, ?_, List.forall_mem_nil _⟩
    rw [List.append_nil]
    exact h
  | t :: l, s, log, hl, h => by
    have ht := hl t List.mem_cons_self
    have hshort := (h.toHeadersNamed.path (h.nodes ▸ ht)).2
    obtain ⟨s1, first, hs1, hbuilds, hmem⟩ := logReassemble_builds ha 4294967296 h ht List.not_mem_nil
      (List.forall_mem_nil _) (by omega)
    obtain ⟨s', more, hs', hafter, hall⟩ := logLoop_builds ha l (fun t' ht' => hl t' (List.mem_cons_of_mem _ ht')) hbuilds.after
    rw [List.append_assoc] at hafter hall
    refine ⟨s', first ++ more, ?_, hafter, List.forall_mem_cons.mpr ⟨?_, hall⟩⟩
    · rw [logLoop, hs1, Option.bind_eq_bind, Option.bind_some, hs']
      rfl
    · rw [← List.append_assoc, List.map_append]
      exact List.mem_append_left _ hmem

/-! ## The tree -/

/-- What the header walk leaves: headers with names of 1 to 99 bytes, apart from each other and none
    with a node yet. Allocations succeed. -/
structure DecodedEntries (answers : Nat → VnodeAnswer) (tar : Nat) (s : Fs) : Prop
    extends Allocated answers (s.tarfs tar).nodes where
  name : ∀ t ∈ (s.tarfs tar).nodes, ∃ u, 1 ≤ u.length ∧ u.length ≤ 99 ∧ NameAt s.mem (s.tnode t).block u
  apart : ∀ t ∈ (s.tarfs tar).nodes, ∀ t' ∈ (s.tarfs tar).nodes, t = t' ∨
    (s.tnode t).block + 512 ≤ (s.tnode t').block ∨ (s.tnode t').block + 512 ≤ (s.tnode t).block
  fresh : ∀ t ∈ (s.tarfs tar).nodes, (s.tnode t).node = 0

theorem DecodedEntries.start (h : DecodedEntries answers tar s) :
    Building answers tar (s.tarfs tar).volume (s.tarfs tar).nodes (s.tarfs tar).root (nodePath s) [] s where
  name t ht := by
    obtain ⟨u, hpos, hlen, hu⟩ := h.name t ht
    exact ⟨u, List.length_pos_iff.mp hpos, by omega, hu⟩
  apart t ht t' ht' := (h.apart t ht t' ht').imp_left (congrArg fun t => (s.tnode t).block)
  nodes := rfl
  volume := rfl
  blocks t ht t' ht' he := (h.apart t ht t' ht').resolve_right (by omega)
  node t ht := by simpa using h.fresh t ht
  forest := .nil
  cut t _ := .refl (nodePath s t)
  entry := List.forall_mem_nil _
  root := (Option.or_none ..).symm

/-- What is built has the last component its entry had at first. -/
theorem Building.lastComponent (h : Building answers tar vol ns stale orig log s) :
    ∀ b ∈ log, 0 ∉ b.path ∧ lastComponent b.path = lastComponent (orig b.tnode) := fun b hb =>
  ⟨(h.entry b hb).no_nul, (h.entry b hb).path.lastComponent.symm⟩

/-- Where every last component has its NUL inside the node, nothing is written behind the nodes. -/
theorem Building.nothing_spilled (h : Building answers tar vol ns stale orig log s)
    (hfits : ∀ t ∈ ns, (Tar.lastComponent (orig t)).length < vnodeSize) : log.flatMap (Built.spill answers) = [] := by
  refine Tar.nothing_spilled fun b hb => ?_
  obtain ⟨hno, hlast⟩ := h.lastComponent b hb
  refine ⟨hno, ?_⟩
  rw [hlast]
  exact hfits b.tnode (h.entry b hb).mem

end

/-- Headers of `a//` and `a/b`, neither with a directory to be in. -/
def twoHeaders : Fs where
  mem := ⟨fun x => if x = 0x1000 ∨ x = 0x1200 then 97 else if x = 0x1001 ∨ x = 0x1002 ∨ x = 0x1201 then 47
    else if x = 0x1202 then 98 else 0⟩
  node _ := staticRoot
  vol _ := ⟨[], .tarfs, none, 0⟩
  volumes := []
  drivers := []
  rootfsNodes := none
  devices := []
  tarfs _ := ⟨0x1000, [1, 2], 1, none⟩
  tnode t := if t = 1 then ⟨0, 0x1000⟩ else ⟨0, 0x1200⟩

def eightyApart (t : Nat) : VnodeAnswer := ⟨[], 0x8000 + 80 * t, ⟨fun _ => 0⟩⟩

theorem twoHeaders_decoded : DecodedEntries eightyApart 1 twoHeaders where
  distinct := by decide
  vnode := by decide
  vnodes := by decide
  name := List.forall_mem_cons.mpr ⟨⟨[97, 47, 47], by decide, by decide, by decide, by decide⟩,
    List.forall_mem_singleton.mpr ⟨[97, 47, 98], by decide, by decide, by decide, by decide⟩⟩
  apart := by decide
  fresh := by decide

/-- Allocations succeed for `n` entries, each with memory of its own. -/
structure Allocates (answers : TarfsAnswers) (n : Nat) : Prop where
  payload : answers.payload ≠ 0
  entry : Mallocs answers.entry n
  vnode : ∀ i < n, (answers.vnode (answers.entry i).1).vnode ≠ 0
  vnodes : ∀ i < n, ∀ j < i, VnodesApart (answers.vnode (answers.entry i).1).vnode (answers.vnode (answers.entry j).1).vnode

/-- The nodes of the header walk, in the archive's order. -/
def entryNodes (answers : TarfsAnswers) (n : Nat) : List Nat := (List.range n).map fun i => (answers.entry i).1

section

variable {answers : TarfsAnswers} {s : Fs} {vol : Nat} {es : List Entry}

theorem forall_entryNodes {n : Nat} {p : Nat → Prop} (h : ∀ i < n, p (answers.entry i).1) : ∀ t ∈ entryNodes answers n, p t := by
  intro t ht
  obtain ⟨i, hi, rfl⟩ := List.mem_map.mp ht
  exact h i (List.mem_range.mp hi)

theorem Allocates.entry_inj {n i j : Nat} (h : Allocates answers n) (hi : i < n) (hj : j < n)
    (he : (answers.entry i).1 = (answers.entry j).1) : i = j := by
  by_contra hne
  rcases Nat.lt_or_gt_of_ne hne with hlt | hlt
  · have hapart := h.entry.tnodes j hj i hlt
    omega
  · have hapart := h.entry.tnodes i hi j hlt
    omega

theorem Allocates.allocated {n : Nat} (h : Allocates answers n) : Allocated answers.vnode (entryNodes answers n) where
  distinct := List.Nodup.map_on (fun _ hi _ hj he => h.entry_inj (List.mem_range.mp hi) (List.mem_range.mp hj) he) List.nodup_range
  vnode := forall_entryNodes h.vnode
  vnodes := by
    refine forall_entryNodes fun i hi => forall_entryNodes fun j hj hne => ?_
    rcases Nat.lt_trichotomy i j with hlt | rfl | hlt
    · exact (h.vnodes j hj i hlt).symm
    · exact absurd rfl hne
    · exact h.vnodes i hi j hlt

theorem decoded_of_walked (hwell : ∀ x ∈ es, x.WellFormed) (himage : ImageAt s.mem (s.vol vol).payload es)
    (halloc : Allocates answers es.length) {s2 : Fs} (hmem : s2.mem = s.mem)
    (hnodes : (s2.tarfs answers.payload).nodes = entryNodes answers es.length)
    (hblock : (List.range es.length).map (fun i => s2.tnode (answers.entry i).1) =
      (headers (s.vol vol).payload es).map fun b => ⟨0, b⟩) :
    DecodedEntries answers.vnode answers.payload s2 := by
  have hpairwise := List.pairwise_iff_getElem.mp (headers_pairwise es (s.vol vol).payload)
  refine ⟨hnodes ▸ halloc.allocated, ?_, ?_, ?_⟩
  · rw [hnodes]
    refine forall_entryNodes fun i hi => ?_
    obtain ⟨hb, hnode, hname⟩ := walked_entry hwell himage hblock hi
    rw [hnode, hmem]
    exact ⟨es[i].name, hname⟩
  · rw [hnodes]
    refine forall_entryNodes fun i hi => forall_entryNodes fun j hj => ?_
    obtain ⟨hb, hnode, -⟩ := walked_entry hwell himage hblock hi
    obtain ⟨hb', hnode', -⟩ := walked_entry hwell himage hblock hj
    rw [hnode, hnode']
    rcases Nat.lt_trichotomy i j with hlt | rfl | hlt
    · exact .inr (.inl (hpairwise i j hb hb' hlt))
    · exact .inl rfl
    · exact .inr (.inr (hpairwise j i hb' hb hlt))
  · rw [hnodes]
    refine forall_entryNodes fun i hi => ?_
    obtain ⟨hb, hnode, -⟩ := walked_entry hwell himage hblock hi
    rw [hnode]

theorem block_steps (answers : Nat → VnodeAnswer) (tar : Nat) :
    Steps answers tar fun s s' => ∀ t, (s'.tnode t).block = (s.tnode t).block where
  refl _ _ := rfl
  trans h h' t := (h' t).trans (h t)
  cut _ _ _ := rfl
  node _ _ _ _ _ := finishNode_block
  root s t path t' := by
    rw [finishNode_block, setRoot_eq]
    rfl

/-- Mounting ends, and everything is built; what is written behind the nodes is what the log says. -/
theorem logMount_builds (hwell : ∀ x ∈ es, x.WellFormed) (himage : ImageAt s.mem (s.vol vol).payload es)
    (hfit : (s.vol vol).payload + imageSize es + 512 ≤ 4294967296) (halloc : Allocates answers es.length) :
    ∃ s' log, logMount answers s vol =
        some ((s'.setVol vol { s.vol vol with root := (s'.tarfs answers.payload).root, payload := answers.payload }, 0), log) ∧
      TarKeeps answers.vnode s s' ∧ s'.spilled = s.spilled ++ log.flatMap (Built.spill answers.vnode) ∧
      (∃ orig, (entryNodes answers es.length).map orig = es.map (fun x => normalize x.name) ∧
        Building answers.vnode answers.payload vol (entryNodes answers es.length) answers.root orig log s') ∧
      (∀ t ∈ entryNodes answers es.length, t ∈ log.map (·.tnode)) ∧
      (entryNodes answers es.length).map (fun t => (s'.tnode t).block) = headers (s.vol vol).payload es := by
  obtain ⟨s2, hloop, hkeeps2, hmem, hspilled2, htarfs, hblock⟩ := walked_image hwell himage hfit halloc.entry rfl
  have hnodes : (s2.tarfs answers.payload).nodes = entryNodes answers es.length := by
    rw [htarfs]
    rfl
  have hdecoded := decoded_of_walked hwell himage halloc hmem hnodes hblock
  have hstart := hdecoded.start
  rw [hnodes, show (s2.tarfs answers.payload).volume = vol by rw [htarfs],
    show (s2.tarfs answers.payload).root = answers.root by rw [htarfs]] at hstart
  obtain ⟨s', log, hs', hafter, hall⟩ := logLoop_builds halloc.allocated _ (fun _ ht => ht) hstart
  have hinit : logInit answers (s.setTarfs answers.payload ⟨(s.vol vol).payload, [], vol, answers.root⟩) answers.payload =
      some (s', log) := (hloop (logLoop answers.vnode answers.payload)).trans hs'
  have hsteps := tarKeeps_steps answers.vnode answers.payload
  have hrun : reassembleLoop answers.vnode answers.payload (entryNodes answers es.length) s2 = some s' := by
    rw [← logLoop_fst, hs', Option.map_some]
  have hkeeps := hsteps.trans hkeeps2 (hsteps.loop _ s2 hrun)
  have hpaths : (entryNodes answers es.length).map (nodePath s2) = es.map fun x => normalize x.name := by
    refine List.ext_getElem (by simp [entryNodes]) fun i hi₁ hi₂ => ?_
    have hi : i < es.length := by rwa [List.length_map] at hi₂
    obtain ⟨hb, hnode, -, hlen, hname⟩ := walked_entry hwell himage hblock hi
    simp only [entryNodes, List.getElem_map, List.getElem_range]
    rw [nodePath, hnode, hmem, strAt_name hname (by omega)]
  refine ⟨s', log, ?_, hkeeps, ?_, ⟨nodePath s2, hpaths, hafter⟩, hall, ?_⟩
  · rw [logMount, if_neg halloc.payload]
    dsimp only
    rw [hinit, Option.bind_eq_bind, Option.bind_some, hkeeps.vol]
  · rw [← hspilled2]
    exact logLoop_spilled _ _ hs'
  · have hblocks := congrArg (List.map TarfsNode.block) hblock
    rw [List.map_map, List.map_map] at hblocks
    simp only [(block_steps answers.vnode answers.payload).loop _ s2 hrun]
    rw [entryNodes, List.map_map]
    exact hblocks.trans (List.map_id _)

/-- An image whose last components have 79 bytes or less is mounted with nothing written behind a node. -/
theorem tarfsMount_spilled (hwell : ∀ x ∈ es, x.WellFormed) (himage : ImageAt s.mem (s.vol vol).payload es)
    (hfit : (s.vol vol).payload + imageSize es + 512 ≤ 4294967296) (halloc : Allocates answers es.length)
    (hshort : ∀ x ∈ es, (lastComponent (normalize x.name)).length ≤ 79) {r : Fs × Int}
    (hr : tarfsMount answers s vol = some r) : r.1.spilled = s.spilled := by
  obtain ⟨s', log, hmount, -, hspilled, ⟨orig, horig, hafter⟩, -⟩ := logMount_builds hwell himage hfit halloc
  have hall : ∀ t ∈ entryNodes answers es.length, (lastComponent (orig t)).length < vnodeSize := by
    intro t ht
    have hmem : orig t ∈ es.map fun x => normalize x.name := horig ▸ List.mem_map_of_mem ht
    obtain ⟨x, hx, hpath⟩ := List.mem_map.mp hmem
    rw [← hpath]
    exact Nat.lt_succ_of_le (hshort x hx)
  rw [hafter.nothing_spilled hall, List.append_nil] at hspilled
  rw [← logMount_fst, hmount, Option.map_some, Option.some.injEq] at hr
  rw [← hr]
  exact hspilled

end

end NativeOS.Fs.Tar
