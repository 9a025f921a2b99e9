/-
  NativeOS.Fs.TarEnds — mounting an image ends.

  Whatever the names in an image are, `reassemble_nodes` calls itself for ever shorter
  paths: a parent is looked up by a beginning of the path, and the header found spells that
  beginning, or it with a slash behind it. The slash is gone by the time the node is made,
  since the scan that finds the header cuts it off.

  Proved: `tarfsMount_ends`.
-/

import NativeOS.Fs.TarArchive

namespace NativeOS.Fs.Tar

open NativeOS.Lib
open NativeOS.Stdkern
open NativeOS.Kern

/-! ## Paths get shorter -/

/-- Every node's header has a name of 1 to 255 bytes, apart from the other headers. -/
structure HeadersNamed (tar : Nat) (s : Fs) : Prop where
  name : ∀ t ∈ (s.tarfs tar).nodes, ∃ u, u ≠ [] ∧ u.length ≤ 255 ∧ NameAt s.mem (s.tnode t).block u
  apart : ∀ t ∈ (s.tarfs tar).nodes, ∀ t' ∈ (s.tarfs tar).nodes, (s.tnode t).block = (s.tnode t').block ∨
    (s.tnode t).block + 512 ≤ (s.tnode t').block ∨ (s.tnode t').block + 512 ≤ (s.tnode t).block

/-- The path a node would be made for. -/
def nodePath (s : Fs) (t : Nat) : List UInt8 := normalize (strAt s.mem (s.tnode t).block)

section

variable {answers : Nat → VnodeAnswer} {tar : Nat} {s : Fs} {t : Nat}

theorem nodePath_name {u : List UInt8} (hlen : u.length ≤ 255) (hu : NameAt s.mem (s.tnode t).block u) :
    nodePath s t = cutSlash (u.drop (skipped u)) := by
  rw [nodePath, strAt_name hu (by omega), normalize, skip_eq]

theorem cutSlash_no_nul {u : List UInt8} (h : 0 ∉ u) : 0 ∉ cutSlash u := by
  unfold cutSlash
  split
  · exact fun h0 => zero_not_mem_cstr u ((List.dropLast_sublist _).subset h0)
  · exact h

theorem HeadersNamed.path (h : HeadersNamed tar s) (ht : t ∈ (s.tarfs tar).nodes) : 0 ∉ nodePath s t ∧ (nodePath s t).length ≤ 255 := by
  obtain ⟨u, -, hlen, hu⟩ := h.name t ht
  have hcut := cutSlash_length (u.drop (skipped u))
  have hdrop : (u.drop (skipped u)).length ≤ u.length := by
    rw [List.length_drop]
    omega
  rw [nodePath_name hlen hu]
  exact ⟨cutSlash_no_nul fun h0 => hu.2 (List.mem_of_mem_drop h0), by omega⟩

/-- `strdup` copies all of the name. -/
theorem HeadersNamed.dup (h : HeadersNamed tar s) (ht : t ∈ (s.tarfs tar).nodes) (stale : List UInt8) :
    normalize (strdup stale (strAt s.mem (s.tnode t).block)) = nodePath s t := by
  obtain ⟨u, hne, hlen, hu⟩ := h.name t ht
  rw [nodePath, strAt_name hu (by omega), strdup, if_pos (headD_ne_zero hne hu.2), cstr_of_no_zero hu.2]

/-- A turn of the scan compares the path the header has, and cuts one slash off it. The other
    headers have their paths. -/
theorem HeadersNamed.scan (h : HeadersNamed tar s) (ht : t ∈ (s.tarfs tar).nodes) {s1 : Fs}
    (hs1 : s1 = { s with mem := cutKiwi s.mem (kiwiStart s.mem (s.tnode t).block) }) :
    HeadersNamed tar s1 ∧ strAt s1.mem (kiwiStart s.mem (s.tnode t).block) = nodePath s t ∧
      nodePath s1 t = cutSlash (nodePath s t) ∧
      ∀ t' ∈ (s.tarfs tar).nodes, (s.tnode t).block ≠ (s.tnode t').block → nodePath s1 t' = nodePath s t' := by
  subst hs1
  obtain ⟨u, hne, hlen, hu⟩ := h.name t ht
  obtain ⟨hfound, hleft, hsame⟩ := scan_name hu (by omega)
  have hpath := nodePath_name hlen hu
  have hk := skipped_le u
  have hcut := cutSlash_length (u.drop (skipped u))
  have htake : (u.take (skipped u)).length = skipped u := by rw [List.length_take, Nat.min_eq_left hk]
  have hdrop : (u.drop (skipped u)).length = u.length - skipped u := List.length_drop
  have hlen' : (u.take (skipped u) ++ cutSlash (u.drop (skipped u))).length ≤ 255 := by
    rw [List.length_append]
    omega
  refine ⟨⟨fun t' ht' => ?_, h.apart⟩, ?_, ?_, fun t' ht' hblock => ?_⟩
  · rcases h.apart t ht t' ht' with he | hapart
    · exact ⟨_, skipped_cut_ne_nil hne, hlen', he ▸ hleft⟩
    · obtain ⟨u', hne', hlen'', hu'⟩ := h.name t' ht'
      exact ⟨u', hne', hlen'', hu'.congr fun z hl hr => hsame z (by omega)⟩
  · rw [hpath]
    exact hfound
  · rw [hpath]
    refine (nodePath_name hlen' hleft).trans ?_
    rw [skipped_cut hu.2, List.drop_left' htake]
  · have hapart := (h.apart t ht t' ht').resolve_left hblock
    obtain ⟨u', -, hlen'', hu'⟩ := h.name t' ht'
    rw [nodePath_name hlen'' hu']
    exact nodePath_name hlen'' (hu'.congr fun z hl hr => hsame z (by omega))

/-- States with the same image, nodes and headers. -/
theorem HeadersNamed.congr (h : HeadersNamed tar s) {s' : Fs} (hm : s'.mem = s.mem) (hb : ∀ t, (s'.tnode t).block = (s.tnode t).block)
    (hn : (s'.tarfs tar).nodes = (s.tarfs tar).nodes) : HeadersNamed tar s' := by
  refine ⟨fun t ht => ?_, fun t ht t' ht' => ?_⟩
  · rw [hm, hb]
    exact h.name t (hn ▸ ht)
  · rw [hb, hb]
    exact h.apart t (hn ▸ ht) t' (hn ▸ ht')

/-! ## The recursion ends -/

theorem lookupLoop_ends {reassemble : Fs → Nat → Option Fs} {path : List UInt8} {ns : List Nat} (h0 : 0 ∉ path)
    (hlen : path.length ≤ 255)
    (hre : ∀ s, HeadersNamed tar s → (s.tarfs tar).nodes = ns → ∀ t ∈ ns, (nodePath s t).length ≤ path.length →
      ∃ s', reassemble s t = some s' ∧ HeadersNamed tar s' ∧ (s'.tarfs tar).nodes = ns) :
    ∀ (l : List Nat) {s : Fs}, (∀ t ∈ l, t ∈ ns) → HeadersNamed tar s → (s.tarfs tar).nodes = ns →
    ∃ r, lookupLoop reassemble path s l = some r ∧ HeadersNamed tar r.1 ∧ (r.1.tarfs tar).nodes = ns
  | [], s, _, h, hns => ⟨(s, none), rfl, h, hns⟩
  | t :: l, s, hl, h, hns => by
    have ht := hl t List.mem_cons_self
    obtain ⟨hscan, hfound, hcut, -⟩ := h.scan (hns ▸ ht) rfl
    obtain ⟨hno, hshort⟩ := h.path (hns ▸ ht)
    rw [lookupLoop]
    dsimp only at hfound ⊢
    rw [hfound]
    split
    · rename_i heq
      rw [strncmp_short hno h0 hshort hlen] at heq
      have hpath := cutSlash_length (nodePath s t)
      rw [← hcut, heq] at hpath
      obtain ⟨s', hs', hend⟩ := hre _ hscan hns t ht hpath
      rw [hs']
      exact ⟨_, rfl, hend⟩
    · exact lookupLoop_ends h0 hlen hre l (fun t' ht' => hl t' (List.mem_cons_of_mem _ ht')) hscan hns

theorem reassembleNodes_ends : ∀ (fuel : Nat) {s : Fs} {t : Nat}, HeadersNamed tar s → t ∈ (s.tarfs tar).nodes →
    (nodePath s t).length < fuel →
    ∃ s', reassembleNodes answers tar fuel s t = some s' ∧ HeadersNamed tar s' ∧ (s'.tarfs tar).nodes = (s.tarfs tar).nodes := by
  intro fuel
  induction fuel with
  | zero =>
    intro s t _ _ hf
    exact absurd hf (Nat.not_lt_zero _)
  | succ fuel ih =>
    intro s t h ht hf
    obtain ⟨hno, hshort⟩ := h.path ht
    rw [reassembleNodes]
    dsimp only
    rw [h.dup ht]
    split
    · exact ⟨s, rfl, h, rfl⟩
    · split
      · rename_i hhead
        have hpne : nodePath s t ≠ [] := by
          intro hnil
          rw [hnil] at hhead
          exact hhead rfl
        obtain ⟨hdirlen, hdirno⟩ := splitBasename_dir hpne hno
        obtain ⟨r, hr, hend, hns⟩ := lookupLoop_ends hdirno (by omega)
          (fun s1 h1 hn1 t' ht' hle => by
            obtain ⟨s', hs', hend, hn'⟩ := ih h1 (hn1 ▸ ht') (by omega)
            exact ⟨s', hs', hend, hn'.trans hn1⟩)
          (s.tarfs tar).nodes (fun _ ht' => ht') h rfl
        rw [hr]
        exact ⟨_, rfl, hend.congr rfl (fun _ => finishNode_block) rfl, hns⟩
      · obtain ⟨root, hroot, -⟩ := setRoot_fields tar (answers t).vnode s
        rw [hroot]
        refine ⟨_, rfl, h.congr rfl (fun _ => finishNode_block) ?_, ?_⟩
        · show (Function.update s.tarfs tar _ tar).nodes = _
          rw [Function.update_self]
        · show (Function.update s.tarfs tar _ tar).nodes = _
          rw [Function.update_self]

theorem reassembleLoop_ends : ∀ (l : List Nat) {s : Fs}, (∀ t ∈ l, t ∈ (s.tarfs tar).nodes) → HeadersNamed tar s →
    ∃ s', reassembleLoop answers tar l s = some s'
  | [], s, _, _ => ⟨s, rfl⟩
  | t :: l, s, hl, h => by
    have ht := hl t List.mem_cons_self
    have hshort := (h.path ht).2
    obtain ⟨s1, hs1, h1, hn1⟩ := reassembleNodes_ends 4294967296 h ht (by omega)
    rw [reassembleLoop, hs1, Option.bind_eq_bind, Option.bind_some]
    exact reassembleLoop_ends l (fun t' ht' => hn1 ▸ hl t' (List.mem_cons_of_mem _ ht')) h1

end

/-! ## init_nodes -/

theorem foreachLoop_chase {st : LinkedList.Store} {a : Nat} {l : List Nat} (h : Chase st.next 0 a l) :
    ∀ {fuel : Nat}, l.length < fuel → foreachLoop st fuel a = l.map st.data := by
  induction h with
  | done =>
    intro fuel hf
    cases fuel with
    | zero => exact absurd hf (Nat.not_lt_zero _)
    | succ fuel => rfl
  | step h0 _ ih =>
    intro fuel hf
    cases fuel with
    | zero => exact absurd hf (Nat.not_lt_zero _)
    | succ fuel => rw [foreachLoop, if_neg h0, ih (Nat.lt_of_succ_lt_succ hf), List.map_cons]

theorem listForeach_rep {l : LinkedList.St} {ns : List Nat} (h : LinkedList.Rep l ns) :
    listForeach l = ns.map l.store.data := by
  have hlen := h.length_lt
  rw [listForeach, h.head]
  exact foreachLoop_chase (h.seg.chase h.no_null) (by omega)

/-- The first loop of `init_nodes` over an image that is being mounted, whatever is done then: the
    nodes are those of the entries, none made yet. -/
theorem walked_image {answers : TarfsAnswers} {s : Fs} {vol : Nat} {es : List Entry} (hwell : ∀ x ∈ es, x.WellFormed)
    (himage : ImageAt s.mem (s.vol vol).payload es) (hfit : (s.vol vol).payload + imageSize es + 512 ≤ 4294967296)
    (hmalloc : Mallocs answers.entry es.length) {s1 : Fs}
    (hs1 : s1 = s.setTarfs answers.payload ⟨(s.vol vol).payload, [], vol, answers.root⟩) :
    ∃ s2, (∀ {β : Type} (loop : List Nat → Fs → Option β),
        ((walkHeaders s1.mem (s1.tarfs answers.payload).buf answers.entry
          ⟨⟨answers.store, LinkedList.listAlloc, []⟩, s1.tnode⟩).bind fun walked =>
            loop (listForeach walked.nodes) (Fs.setTarfs { s1 with tnode := walked.tnode } answers.payload
              { s1.tarfs answers.payload with nodes := listForeach walked.nodes })) =
          loop ((List.range es.length).map fun j => (answers.entry j).1) s2) ∧
      TarKeeps answers.vnode s s2 ∧ s2.mem = s.mem ∧ s2.spilled = s.spilled ∧
      s2.tarfs answers.payload =
        ⟨(s.vol vol).payload, (List.range es.length).map fun j => (answers.entry j).1, vol, answers.root⟩ ∧
      (List.range es.length).map (fun j => s2.tnode (answers.entry j).1) =
        (headers (s.vol vol).payload es).map fun b => ⟨0, b⟩ := by
  obtain ⟨walked, hwalked, hdecoded⟩ := walkHeaders_decoded hwell himage hfit hmalloc answers.store s.tnode
  have hnodes : listForeach walked.nodes = (List.range es.length).map fun j => (answers.entry j).1 := by
    rw [listForeach_rep hdecoded.rep, hdecoded.data]
  have hpayload : s1.tarfs answers.payload = ⟨(s.vol vol).payload, [], vol, answers.root⟩ := by rw [hs1, Fs.setTarfs_self]
  have hmem : s1.mem = s.mem := by rw [hs1]; rfl
  have htnode : s1.tnode = s.tnode := by rw [hs1]; rfl
  have hspilled : s1.spilled = s.spilled := by rw [hs1]; rfl
  refine ⟨Fs.setTarfs { s1 with tnode := walked.tnode } answers.payload
    ⟨(s.vol vol).payload, (List.range es.length).map fun j => (answers.entry j).1, vol, answers.root⟩, ?_, ?_, hmem,
    hspilled, Fs.setTarfs_self _ _ _, hdecoded.block⟩
  · intro β loop
    rw [hpayload, hmem, htnode, hwalked, Option.bind_some, hnodes]
  · rw [hs1]
    exact ⟨rfl, rfl, rfl, rfl, rfl, fun _ _ => rfl⟩

theorem initNodes_walked {answers : TarfsAnswers} {s : Fs} {vol : Nat} {es : List Entry} (hwell : ∀ x ∈ es, x.WellFormed)
    (himage : ImageAt s.mem (s.vol vol).payload es) (hfit : (s.vol vol).payload + imageSize es + 512 ≤ 4294967296)
    (hmalloc : Mallocs answers.entry es.length) :
    ∃ s2, initNodes answers (s.setTarfs answers.payload ⟨(s.vol vol).payload, [], vol, answers.root⟩) answers.payload =
        reassembleLoop answers.vnode answers.payload ((List.range es.length).map fun j => (answers.entry j).1) s2 ∧
      TarKeeps answers.vnode s s2 ∧ s2.mem = s.mem ∧ s2.spilled = s.spilled ∧
      s2.tarfs answers.payload =
        ⟨(s.vol vol).payload, (List.range es.length).map fun j => (answers.entry j).1, vol, answers.root⟩ ∧
      (List.range es.length).map (fun j => s2.tnode (answers.entry j).1) =
        (headers (s.vol vol).payload es).map fun b => ⟨0, b⟩ := by
  obtain ⟨s2, hloop, hrest⟩ := walked_image hwell himage hfit hmalloc rfl
  exact ⟨s2, hloop (reassembleLoop answers.vnode answers.payload), hrest⟩

/-- The `i`-th node points at the `i`-th header, which holds that entry's name. -/
theorem walked_entry {m : Mem} {buf : Nat} {es : List Entry} {entry : Nat → Nat × Nat} {tnode : Nat → TarfsNode}
    (hwell : ∀ x ∈ es, x.WellFormed) (himage : ImageAt m buf es)
    (hblock : (List.range es.length).map (fun i => tnode (entry i).1) = (headers buf es).map fun b => ⟨0, b⟩) {i : Nat}
    (hi : i < es.length) :
    ∃ hb : i < (headers buf es).length, tnode (entry i).1 = ⟨0, (headers buf es)[i]⟩ ∧
      1 ≤ es[i].name.length ∧ es[i].name.length ≤ 99 ∧ NameAt m (headers buf es)[i] es[i].name := by
  have hlen := length_headers es buf
  have hb : i < (headers buf es).length := by omega
  have hget := congrArg (·[i]?) hblock
  have hx := hwell _ (List.getElem_mem hi)
  have hzip : ((headers buf es)[i], es[i]) ∈ (headers buf es).zip es := by
    rw [List.mem_iff_getElem]
    exact ⟨i, by rw [List.length_zip]; omega, List.getElem_zip⟩
  refine ⟨hb, by simpa [hi, hb] using hget, hx.name_pos, hx.name_le, ?_, fun h0 => hx.name_ne 0 h0 rfl⟩
  exact imageAt_name es himage _ hzip

theorem tarfsMount_of_init {answers : TarfsAnswers} {s s' : Fs} {vol : Nat} (h0 : answers.payload ≠ 0)
    (hinit : initNodes answers (s.setTarfs answers.payload ⟨(s.vol vol).payload, [], vol, answers.root⟩) answers.payload = some s') :
    tarfsMount answers s vol =
      some (s'.setVol vol { s'.vol vol with root := (s'.tarfs answers.payload).root, payload := answers.payload }, 0) := by
  rw [tarfsMount, if_neg h0]
  dsimp only
  rw [hinit, Option.bind_eq_bind, Option.bind_some]

/-- Mounting the image of any entries comes back, and succeeds. -/
theorem tarfsMount_ends {answers : TarfsAnswers} {s : Fs} {vol : Nat} {es : List Entry} (hwell : ∀ x ∈ es, x.WellFormed)
    (himage : ImageAt s.mem (s.vol vol).payload es) (hfit : (s.vol vol).payload + imageSize es + 512 ≤ 4294967296)
    (h0 : answers.payload ≠ 0) (hmalloc : Mallocs answers.entry es.length) : ∃ s', tarfsMount answers s vol = some (s', 0) := by
  obtain ⟨s2, hinit, -, hmem, -, htarfs2, hblock⟩ := initNodes_walked hwell himage hfit hmalloc
  have hnodes : (s2.tarfs answers.payload).nodes = (List.range es.length).map fun j => (answers.entry j).1 := by rw [htarfs2]
  have hentry : ∀ t ∈ (s2.tarfs answers.payload).nodes, ∃ i < es.length, t = (answers.entry i).1 := by
    intro t ht
    rw [hnodes, List.mem_map] at ht
    obtain ⟨i, hi, rfl⟩ := ht
    exact ⟨i, List.mem_range.mp hi, rfl⟩
  have hnamed : HeadersNamed answers.payload s2 := by
    refine ⟨fun t ht => ?_, fun t ht t' ht' => ?_⟩
    · obtain ⟨i, hi, rfl⟩ := hentry t ht
      obtain ⟨hb, hnode, hpos, hlen, hu⟩ := walked_entry hwell himage hblock hi
      rw [hnode, hmem]
      exact ⟨es[i].name, List.length_pos_iff.mp hpos, by omega, hu⟩
    · obtain ⟨i, hi, rfl⟩ := hentry t ht
      obtain ⟨j, hj, rfl⟩ := hentry t' ht'
      obtain ⟨hb, hnode, -⟩ := walked_entry hwell himage hblock hi
      obtain ⟨hb', hnode', -⟩ := walked_entry hwell himage hblock hj
      rw [hnode, hnode']
      exact apart_of_pairwise (headers_pairwise es _) _ (List.getElem_mem _) _ (List.getElem_mem _)
  obtain ⟨s', hs'⟩ := @reassembleLoop_ends answers.vnode answers.payload _ s2 (fun t ht => hnodes ▸ ht) hnamed
  exact ⟨_, tarfsMount_of_init h0 (hinit.trans hs')⟩

end NativeOS.Fs.Tar
