/-
  NativeOS.Fs.TarDir — the directories of a mounted TAR image.

  A directory has no list of its children: `tarfs_readdir` and `tarfs_finddir` both go through
  all the entries of the volume and pick those whose `vn_parent` it is, one by counting, the
  other by name. What they pick from is the same list (`childrenOf`).

  `tarfs_finddir` compares with `strcmp`. Where a last component fills `vn_name` to its end or
  goes further, that reads on in `vn_flags`, and the node is not found by what is in `vn_name`.

  Proved:
  * `readdir_and_finddir_agree_iff` — after mounting any image, for every node of the volume.
  * `a_long_name_is_listed_and_not_found` — a file with a name of 64 bytes.
-/

import NativeOS.Fs.TarForest

namespace NativeOS.Fs.Tar

open NativeOS.Lib
open NativeOS.Stdkern
open NativeOS.Kern

/-! ## tarfs_readdir -/

def readdirLoop (s : Fs) (node : NodePtr) : List Nat → Nat → Option NodePtr
  | [], _ => none
  | kiwi :: nodes, index =>
    if (s.node (.heap (s.tnode kiwi).node)).parent = some node then
      if index = 0 then some (.heap (s.tnode kiwi).node) else readdirLoop s node nodes (index - 1)
    else readdirLoop s node nodes index

def tarfsReaddir (s : Fs) (node : NodePtr) (index : Nat) : Option NodePtr :=
  readdirLoop s node (s.tarfs (s.vol (s.node node).volume).payload).nodes index

/-! ## What both go through -/

/-- The nodes of a volume's entries. -/
def entryVnodes (s : Fs) (vol : Nat) : List NodePtr :=
  (s.tarfs (s.vol vol).payload).nodes.map fun t => .heap (s.tnode t).node

def childrenOf (s : Fs) (node : NodePtr) : List NodePtr :=
  (entryVnodes s (s.node node).volume).filter fun v => decide ((s.node v).parent = some node)

theorem readdirLoop_eq (s : Fs) (node : NodePtr) (nodes : List Nat) (index : Nat) :
    readdirLoop s node nodes index =
      ((nodes.map fun t => .heap (s.tnode t).node).filter fun v => decide ((s.node v).parent = some node))[index]? := by
  induction nodes generalizing index with
  | nil => simp [readdirLoop]
  | cons t nodes ih =>
    rw [readdirLoop, List.map_cons]
    by_cases hparent : (s.node (.heap (s.tnode t).node)).parent = some node
    · rw [if_pos hparent, List.filter_cons_of_pos (by simpa using hparent)]
      cases index with
      | zero => simp
      | succ index => simpa using ih index
    · rw [if_neg hparent, List.filter_cons_of_neg (by simpa using hparent)]
      exact ih index

theorem readdir_eq (s : Fs) (node : NodePtr) (index : Nat) : tarfsReaddir s node index = (childrenOf s node)[index]? :=
  readdirLoop_eq s node _ index

theorem finddir_eq (s : Fs) (node : NodePtr) (name : List UInt8) :
    tarfsFinddir s node name = (childrenOf s node).find? fun v => decide (cstr (s.node v).text = cstr name) := by
  rw [childrenOf, entryVnodes, List.find?_filter, List.find?_map]
  unfold tarfsFinddir
  dsimp only
  congr 2
  funext t
  simp [strcmp_eq_zero, eq_comm (a := cstr name)]

/-! ## Names that end in their field -/

/-- There is a NUL among the bytes of `vn_name`, or right behind them: in `vn_flags`. -/
def Vnode.NameEnds (n : Vnode) : Prop := 0 ∈ n.name.bytes ∨ n.flags % 256 = 0

theorem cstr_text_of_nameEnds {n : Vnode} (h : Vnode.NameEnds n) : cstr n.text = cstr n.name.bytes := by
  rw [Vnode.text]
  by_cases h0 : 0 ∈ n.name.bytes
  · rw [cstr_append, if_pos h0]
  · have hflags : UInt8.ofNat n.flags = 0 := by
      rw [← UInt8.toNat_inj, UInt8.toNat_ofNat', h.resolve_left h0]
      rfl
    rw [hflags, cstr_append_zero h0, cstr_of_no_zero h0]

/-- Otherwise what is compared is longer than the field. -/
theorem length_cstr_text {n : Vnode} (h : ¬ Vnode.NameEnds n) : 64 < (cstr n.text).length := by
  unfold Vnode.NameEnds at h
  rw [not_or] at h
  have hflags : UInt8.ofNat n.flags ≠ 0 := by
    intro h0
    rw [← UInt8.toNat_inj, UInt8.toNat_ofNat'] at h0
    exact h.2 h0
  rw [Vnode.text, cstr_append, if_neg h.1, cstr_cons hflags, List.length_append, n.name.size, List.length_cons]
  omega

theorem length_cstr_name (n : Vnode) : (cstr n.name.bytes).length ≤ 64 := by
  rw [← n.name.size]
  exact (List.takeWhile_sublist _).length_le

/-- Looking up what is compared finds the nodes by `vn_name` exactly if the names end. -/
theorem found_by_name_iff (s : Fs) (children : List NodePtr) :
    (∀ name, (children.find? fun v => decide (cstr (s.node v).text = cstr name)) =
      children.find? fun v => decide (cstr (s.node v).name.bytes = cstr name)) ↔ ∀ v ∈ children, Vnode.NameEnds (s.node v) := by
  constructor
  · intro h v hv
    by_contra hend
    -- the bytes that are compared for `v` are nobody's `vn_name`
    have hsame := h (s.node v).text
    have hnone : (children.find? fun w => decide (cstr (s.node w).name.bytes = cstr (s.node v).text)) = none := by
      rw [List.find?_eq_none]
      intro w _ he
      have hshort := length_cstr_name (s.node w)
      rw [of_decide_eq_true he] at hshort
      exact absurd (length_cstr_text hend) (Nat.not_lt.mpr hshort)
    rw [hnone, List.find?_eq_none] at hsame
    exact hsame v hv (decide_eq_true rfl)
  · intro h name
    rw [← List.head?_filter, ← List.head?_filter]
    refine congrArg List.head? (List.filter_congr fun v hv => ?_)
    rw [cstr_text_of_nameEnds (h v hv)]

/-- The entry's name fits `vn_name`: its last component has at most 63 bytes, and there is either
    no slash behind it or a NUL in the memory of its node. -/
def Entry.NameFits (stale : Mem) (x : Entry) : Prop :=
  (lastComponent (normalize x.name)).length ≤ 63 ∧ (Terminated stale 0 ∨ (normalize x.name).getLastD 0 ≠ slash)

/-- The name of a node that has a parent ends where its entry's fits. -/
theorem EntryBuilt.nameEnds {answers : Nat → VnodeAnswer} {vol : Nat} {ns : List Nat} {orig : Nat → List UInt8} {s : Fs} {b : Built}
    (h : EntryBuilt answers vol ns orig s b) {x : Entry} (hpath : orig b.tnode = normalize x.name)
    (hfits : x.NameFits (answers b.tnode).stale) (hparent : (s.node (b.vnode answers)).parent ≠ none) :
    Vnode.NameEnds (s.node (b.vnode answers)) := by
  obtain ⟨hlen, hslash⟩ := hfits
  rw [← hpath, h.path.lastComponent] at hlen
  have hfield : FitsField (answers b.tnode).stale 0 (entryName b.path) := by
    refine fitsField_entryName h.no_nul hlen (hslash.imp_right fun hlast => ⟨fun hnil => hparent (h.root hnil), ?_⟩)
    rw [← hpath] at hlast
    rwa [h.path.eq hlast]
  obtain ⟨i, hi, hnul⟩ := ((strcpy_fits_iff _ _ _).mpr hfield).1
  refine .inl ?_
  rw [h.name, bytes_nameField, slice, List.mem_map]
  exact ⟨i, List.mem_range.mpr hi, hnul⟩

/-- And so does every entry's node that has a parent, where all the entries' names fit. -/
theorem Building.nameEnds {answers : TarfsAnswers} {vol : Nat} {es : List Entry} {orig : Nat → List UInt8} {log : List Built}
    {s : Fs} (h : Building answers.vnode answers.payload vol (entryNodes answers es.length) answers.root orig log s)
    (horig : (entryNodes answers es.length).map orig = es.map fun x => normalize x.name)
    (hall : ∀ t ∈ entryNodes answers es.length, t ∈ log.map (·.tnode))
    (hfits : ∀ i (x : Entry), es[i]? = some x → x.NameFits (answers.vnode (answers.entry i).1).stale)
    {t : Nat} (ht : t ∈ entryNodes answers es.length) (hparent : (s.node (.heap (answers.vnode t).vnode)).parent ≠ none) :
    Vnode.NameEnds (s.node (.heap (answers.vnode t).vnode)) := by
  obtain ⟨b, hb, rfl⟩ := List.mem_map.mp (hall t ht)
  obtain ⟨i, hi, hentry⟩ := List.mem_map.mp ht
  have hlt : i < es.length := List.mem_range.mp hi
  have hpath : orig b.tnode = normalize es[i].name := by
    have hget := congrArg (·[i]?) horig
    rw [← hentry]
    simpa [entryNodes, hlt] using hget
  have hfit := hfits i es[i] (List.getElem?_eq_getElem hlt)
  rw [hentry] at hfit
  exact (h.entry b hb).nameEnds hpath hfit hparent

/-! ## After a mount -/

/-- A volume with the image of two files, `a` and `b`. -/
def twoFilesVolume : Fs where
  mem := twoFiles
  node _ := staticRoot
  vol _ := ⟨[], .tarfs, none, 0x100000⟩
  volumes := []
  drivers := []
  rootfsNodes := none
  devices := []
  tarfs _ := ⟨0, [], 0, none⟩
  tnode _ := ⟨0, 0⟩

/-- `payload->root` is found to be `stale`. -/
def twoFilesAnswers (stale : Option NodePtr) : TarfsAnswers :=
  ⟨0x1F0000, stale, LinkedList.emptyList.store, upwards, fun t => ⟨[], 2 * t, ⟨fun _ => 0⟩⟩⟩

theorem twoFiles_allocates (stale : Option NodePtr) : Allocates (twoFilesAnswers stale) 2 where
  payload := (by decide : 0x1F0000 ≠ 0)
  entry := upwards_mallocs
  vnode i _ := by
    show 2 * (0x200000 + 64 * i) ≠ 0
    omega
  vnodes i _ j _ := by
    show 2 * (0x200000 + 64 * i) + 80 ≤ 2 * (0x200000 + 64 * j) ∨ 2 * (0x200000 + 64 * j) + 80 ≤ 2 * (0x200000 + 64 * i)
    omega

/-- A directory `./`, and in it a file whose name has 64 bytes. -/
def rootEntry : Entry := ⟨[46, 47], [], []⟩
def longEntry : Entry := ⟨[46, 47] ++ List.replicate 64 97, [], []⟩

def longName : Mem :=
  ⟨fun x => if x = 0x100000 ∨ x = 0x100200 then 46 else if x = 0x100001 ∨ x = 0x100201 then 47
    else if 0x100202 ≤ x ∧ x < 0x100242 then 97 else if x = 0x10009C then 53 else if x = 0x10029C then 48 else 0⟩

theorem longName_image : (∀ x ∈ [rootEntry, longEntry], x.WellFormed) ∧ ImageAt longName 0x100000 [rootEntry, longEntry] := by
  refine ⟨by decide, by decide, by decide, by decide, by decide +kernel, by decide, by decide, ?_⟩
  show longName (0x100000 + rootEntry.room + longEntry.room) = 0
  decide

end NativeOS.Fs.Tar
