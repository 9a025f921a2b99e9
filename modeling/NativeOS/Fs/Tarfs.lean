/-
  NativeOS.Fs.Tarfs — mounting a TAR image (`kernel/fs/tarfs/tar.c`).

  After the header walk (`NativeOS.Fs.Tar`) each entry gets its node: `reassemble_nodes` makes
  it, `lookup_vnode` finds its parent by comparing names with the headers and calls back
  to have the parent made first. Both normalise names, the first in a copy, the second by
  moving a pointer and cutting a trailing slash off in the header itself.

  `malloc`'s answers are given: the node for each `tarfs_node`, since no `tarfs_node` asks
  for one twice (`NativeOS.Fs.TarForest`). The recursion follows ever shorter paths; a run
  of more calls than there are addresses would never end (`none`).
-/

import NativeOS.Kern.Names

namespace NativeOS.Fs.Tar

open NativeOS.Lib
open NativeOS.Stdkern
open NativeOS.Kern

/-- Where `metadata.type` is in a header block. -/
abbrev typeOffset : Nat := 156

/-- What the allocations made for a `tarfs_node` find in memory: `strdup`'s copy, the node and its bytes. -/
structure VnodeAnswer where
  dup : List UInt8
  vnode : Nat
  stale : Mem

/-- What `malloc` returns while an image is mounted: the payload, `payload->root` as it is
    found there, the nodes of the header walk over the list nodes' memory, and the vnodes. -/
structure TarfsAnswers where
  payload : Nat
  root : Option NodePtr
  store : LinkedList.Store
  entry : Nat → Nat × Nat
  vnode : Nat → VnodeAnswer

/-! ## Strings in the image -/

def strLoop (m : Mem) : Nat → Nat → List UInt8
  | 0, _ => []
  | fuel + 1, a => if m a = 0 then [] else m a :: strLoop m fuel (a + 1)

/-- The string at an address. -/
def strAt (m : Mem) (a : Nat) : List UInt8 := strLoop m 4294967296 a

/-! ## reassemble_nodes and lookup_vnode -/

/-- Where `kiwi` points once the prefix is skipped. -/
def kiwiStart (m : Mem) (name : Nat) : Nat :=
  let kiwi := if m name = dot ∧ m (name + 1) = slash then name + 1 else name
  if m kiwi = slash then kiwi + 1 else kiwi

/-- `if (*kiwi && kiwi[last_char] == '/') kiwi[last_char] = 0`. -/
def cutKiwi (m : Mem) (kiwi : Nat) : Mem :=
  let lastChar := sub32 (strlen (strAt m kiwi)) 1
  if m kiwi ≠ 0 ∧ m (kiwi + lastChar) = slash then st8 m (kiwi + lastChar) 0 else m

def nodeAt (addr : Nat) : Option NodePtr := if addr = 0 then none else some (.heap addr)

/-- `lookup_vnode`'s loop; `reassemble` is `reassemble_nodes`. -/
def lookupLoop (reassemble : Fs → Nat → Option Fs) (path : List UInt8) : Fs → List Nat → Option (Fs × Option NodePtr)
  | s, [] => some (s, none)
  | s, tarnode :: nodes =>
    let kiwi := kiwiStart s.mem (s.tnode tarnode).block
    let s1 := { s with mem := cutKiwi s.mem kiwi }
    if strncmp (strAt s1.mem kiwi) path 256 = 0 then do
      let s2 ← reassemble s1 tarnode
      some (s2, nodeAt (s2.tnode tarnode).node)
    else lookupLoop reassemble path s1 nodes

/-- `vn_flags` by the entry's type. -/
def entryFlags (type : UInt8) : Nat := if type = 48 then vnFregfile else if type = 53 then vnFdir else 0

/-- What `strcpy` writes behind a node at `vnode`. Up to there a name covers fields that are
    stored after it. -/
def spill (vnode : Nat) (path : List UInt8) : List (UInt8 × Nat) :=
  ((cstr (entryName path) ++ [0]).drop vnodeSize).zipIdx (vnode + vnodeSize)

/-- The end of `reassemble_nodes`: the node is filled in and `node->node` points at it. -/
def finishNode (answer : VnodeAnswer) (tar tnode : Nat) (path : List UInt8) (s : Fs) (parent : Option NodePtr) : Fs :=
  let block := (s.tnode tnode).block
  let s1 := s.setNode (.heap answer.vnode)
    { name := nameField (nameEntryNode answer.stale 0 path) 0
      flags := entryFlags (s.mem (block + typeOffset))
      parent := parent
      volume := (s.tarfs tar).volume
      payload := tnode }
  { s1 with
    tnode := Function.update s1.tnode tnode ⟨answer.vnode, block⟩
    spilled := s1.spilled ++ spill answer.vnode path }

/-- `if (!tarfile->root) tarfile->root = vnode`. -/
def setRoot (tar vnode : Nat) (s : Fs) : Fs :=
  if (s.tarfs tar).root = none then s.setTarfs tar { s.tarfs tar with root := some (.heap vnode) } else s

def reassembleNodes (answers : Nat → VnodeAnswer) (tar : Nat) : Nat → Fs → Nat → Option Fs
  | 0, _, _ => none
  | fuel + 1, s, tnode =>
    if (s.tnode tnode).node ≠ 0 then some s
    else
      let answer := answers tnode
      let path := normalize (strdup answer.dup (strAt s.mem (s.tnode tnode).block))
      if path.headD 0 ≠ 0 then do
        let found ← lookupLoop (reassembleNodes answers tar fuel) (splitBasename path).1 s (s.tarfs tar).nodes
        some (finishNode answer tar tnode path found.1 found.2)
      else some (finishNode answer tar tnode path (setRoot tar answer.vnode s) none)

/-! ## init_nodes and tarfs_mount -/

/-- What `list_foreach` goes through. -/
def foreachLoop (st : LinkedList.Store) : Nat → Nat → List Nat
  | 0, _ => []
  | fuel + 1, node => if node = 0 then [] else st.data node :: foreachLoop st fuel (st.next node)

def listForeach (l : LinkedList.St) : List Nat := foreachLoop l.store 4294967296 l.list.head

/-- The second loop of `init_nodes`. -/
def reassembleLoop (answers : Nat → VnodeAnswer) (tar : Nat) : List Nat → Fs → Option Fs
  | [], s => some s
  | tnode :: nodes, s => do
    let s1 ← reassembleNodes answers tar 4294967296 s tnode
    reassembleLoop answers tar nodes s1

def initNodes (answers : TarfsAnswers) (s : Fs) (tar : Nat) : Option Fs := do
  let walked ← walkHeaders s.mem (s.tarfs tar).buf answers.entry ⟨⟨answers.store, LinkedList.listAlloc, []⟩, s.tnode⟩
  let nodes := listForeach walked.nodes
  let s1 := { s with tnode := walked.tnode }.setTarfs tar { s.tarfs tar with nodes := nodes }
  reassembleLoop answers.vnode tar nodes s1

/-- `fsd_mount`. -/
def tarfsMount (answers : TarfsAnswers) (s : Fs) (vol : Nat) : Option (Fs × Int) :=
  if answers.payload = 0 then some (s, -1)
  else do
    let s1 := s.setTarfs answers.payload ⟨(s.vol vol).payload, [], vol, answers.root⟩
    let s2 ← initNodes answers s1 answers.payload
    some (s2.setVol vol { s2.vol vol with root := (s2.tarfs answers.payload).root, payload := answers.payload }, 0)

/-! ## tarfs_finddir -/

def tarfsFinddir (s : Fs) (node : NodePtr) (name : List UInt8) : Option NodePtr :=
  let payload := s.tarfs (s.vol (s.node node).volume).payload
  let found := payload.nodes.find? fun t =>
    decide ((s.node (.heap (s.tnode t).node)).parent = some node ∧ strcmp name (s.node (.heap (s.tnode t).node)).text = 0)
  found.map fun t => .heap (s.tnode t).node

/-! ## What entering a node changes -/

section

variable {answer : VnodeAnswer} {tar t t' vnode : Nat} {path : List UInt8} {s : Fs} {parent : Option NodePtr} {p : NodePtr}

@[simp] theorem finishNode_mem : (finishNode answer tar t path s parent).mem = s.mem := rfl
@[simp] theorem finishNode_spilled : (finishNode answer tar t path s parent).spilled = s.spilled ++ spill answer.vnode path := rfl
@[simp] theorem finishNode_tarfs : (finishNode answer tar t path s parent).tarfs = s.tarfs := rfl

@[simp] theorem finishNode_tnode : (finishNode answer tar t path s parent).tnode t = ⟨answer.vnode, (s.tnode t).block⟩ :=
  Function.update_self _ _ _

theorem finishNode_tnode_ne (h : t' ≠ t) : (finishNode answer tar t path s parent).tnode t' = s.tnode t' :=
  Function.update_of_ne h _ _

@[simp] theorem finishNode_block : ((finishNode answer tar t path s parent).tnode t').block = (s.tnode t').block := by
  by_cases h : t' = t
  · rw [h, finishNode_tnode]
  · rw [finishNode_tnode_ne h]

@[simp] theorem finishNode_node : (finishNode answer tar t path s parent).node (.heap answer.vnode) =
    { name := nameField (nameEntryNode answer.stale 0 path) 0
      flags := entryFlags (s.mem ((s.tnode t).block + typeOffset))
      parent := parent
      volume := (s.tarfs tar).volume
      payload := t } := Function.update_self _ _ _

theorem finishNode_node_ne (h : p ≠ .heap answer.vnode) : (finishNode answer tar t path s parent).node p = s.node p :=
  Fs.setNode_ne s _ h

theorem setTarfs_root_self : s.setTarfs tar { s.tarfs tar with root := (s.tarfs tar).root } = s := by
  show { s with tarfs := Function.update s.tarfs tar (s.tarfs tar) } = s
  rw [Function.update_eq_self]

theorem setRoot_eq :
    setRoot tar vnode s = s.setTarfs tar { s.tarfs tar with root := (s.tarfs tar).root.or (some (.heap vnode)) } := by
  unfold setRoot
  split
  · rename_i hnone
    rw [hnone]
    rfl
  · rename_i hsome
    rw [Option.or_of_isSome (Option.isSome_iff_ne_none.mpr hsome), setTarfs_root_self]

end

/-! ## Everything the reassembly does -/

/-- A relation between states that holds across each thing the reassembly does. -/
structure Steps (answers : Nat → VnodeAnswer) (tar : Nat) (R : Fs → Fs → Prop) : Prop where
  refl : ∀ s, R s s
  trans : ∀ {s s' s''}, R s s' → R s' s'' → R s s''
  cut : ∀ s kiwi, R s { s with mem := cutKiwi s.mem kiwi }
  node : ∀ s t path parent, R s (finishNode (answers t) tar t path s parent)
  root : ∀ s t path, R s (finishNode (answers t) tar t path (setRoot tar (answers t).vnode s) none)

section

variable {answers : Nat → VnodeAnswer} {tar : Nat} {R : Fs → Fs → Prop} (hR : Steps answers tar R)
include hR

theorem Steps.lookup {reassemble : Fs → Nat → Option Fs} (hre : ∀ s t s', reassemble s t = some s' → R s s')
    (path : List UInt8) : ∀ (nodes : List Nat) (s : Fs) {r : Fs × Option NodePtr},
      lookupLoop reassemble path s nodes = some r → R s r.1
  | [], s, r, h => by
    cases h
    exact hR.refl s
  | t :: nodes, s, r, h => by
    have hcut := hR.cut s (kiwiStart s.mem (s.tnode t).block)
    rw [lookupLoop] at h
    dsimp only at h
    split at h
    · rw [Option.bind_eq_bind, Option.bind_eq_some_iff] at h
      obtain ⟨s2, h2, h⟩ := h
      cases h
      exact hR.trans hcut (hre _ _ _ h2)
    · exact hR.trans hcut (Steps.lookup hre path nodes _ h)

theorem Steps.reassemble : ∀ (fuel : Nat) (s : Fs) (t : Nat) (s' : Fs), reassembleNodes answers tar fuel s t = some s' → R s s'
  | 0, _, _, _, h => nomatch h
  | fuel + 1, s, t, s', h => by
    rw [reassembleNodes] at h
    split at h
    · cases h
      exact hR.refl s
    · dsimp only at h
      split at h
      · rw [Option.bind_eq_bind, Option.bind_eq_some_iff] at h
        obtain ⟨found, hfound, h⟩ := h
        cases h
        exact hR.trans (hR.lookup (Steps.reassemble fuel) _ _ s hfound) (hR.node _ _ _ _)
      · cases h
        exact hR.root s t _

theorem Steps.loop : ∀ (nodes : List Nat) (s : Fs) {s' : Fs}, reassembleLoop answers tar nodes s = some s' → R s s'
  | [], s, s', h => by
    cases h
    exact hR.refl s
  | t :: nodes, s, s', h => by
    rw [reassembleLoop, Option.bind_eq_bind, Option.bind_eq_some_iff] at h
    obtain ⟨s1, h1, h⟩ := h
    exact hR.trans (hR.reassemble _ s t s1 h1) (Steps.loop nodes s1 h)

end

/-! ## What mounting leaves alone, and what it owns -/

/-- Nothing but the image, the driver's structures and the nodes it allocates is touched. -/
structure TarKeeps (answers : Nat → VnodeAnswer) (s s' : Fs) : Prop where
  vol : s'.vol = s.vol
  volumes : s'.volumes = s.volumes
  drivers : s'.drivers = s.drivers
  rootfsNodes : s'.rootfsNodes = s.rootfsNodes
  devices : s'.devices = s.devices
  node : ∀ p, (∀ t, p ≠ .heap (answers t).vnode) → s'.node p = s.node p

theorem setRoot_fields (tar vnode : Nat) (s : Fs) : ∃ root, setRoot tar vnode s = s.setTarfs tar { s.tarfs tar with root := root } ∧
    (root = (s.tarfs tar).root ∨ root = some (.heap vnode)) := by
  refine ⟨_, setRoot_eq, ?_⟩
  cases (s.tarfs tar).root with
  | none => exact .inr rfl
  | some p => exact .inl rfl

theorem tarKeeps_steps (answers : Nat → VnodeAnswer) (tar : Nat) : Steps answers tar (TarKeeps answers) where
  refl _ := ⟨rfl, rfl, rfl, rfl, rfl, fun _ _ => rfl⟩
  trans h h' := ⟨h'.vol.trans h.vol, h'.volumes.trans h.volumes, h'.drivers.trans h.drivers,
    h'.rootfsNodes.trans h.rootfsNodes, h'.devices.trans h.devices, fun p hp => (h'.node p hp).trans (h.node p hp)⟩
  cut _ _ := ⟨rfl, rfl, rfl, rfl, rfl, fun _ _ => rfl⟩
  node s t _ _ := ⟨rfl, rfl, rfl, rfl, rfl, fun _ hp => finishNode_node_ne (hp t)⟩
  root s t path := by
    obtain ⟨root, hroot, -⟩ := setRoot_fields tar (answers t).vnode s
    rw [hroot]
    exact ⟨rfl, rfl, rfl, rfl, rfl, fun _ hp => finishNode_node_ne (hp t)⟩

/-- The payload stays the volume's, and its root, if any, is a node that says so. -/
structure RootOwned (answers : Nat → VnodeAnswer) (tar vol : Nat) (s : Fs) : Prop where
  volume : (s.tarfs tar).volume = vol
  root : ∀ p, (s.tarfs tar).root = some p → (∃ t, p = .heap (answers t).vnode) ∧ (s.node p).volume = vol

theorem RootOwned.finish {answers : Nat → VnodeAnswer} {tar vol : Nat} {s : Fs} (h : (s.tarfs tar).volume = vol) (t : Nat)
    (hroot : ∀ p, (s.tarfs tar).root = some p → (∃ t, p = .heap (answers t).vnode) ∧
      (p ≠ .heap (answers t).vnode → (s.node p).volume = vol)) (path : List UInt8) (parent : Option NodePtr) :
    RootOwned answers tar vol (finishNode (answers t) tar t path s parent) := by
  refine ⟨h, fun p hp => ?_⟩
  obtain ⟨hheap, hvol⟩ := hroot p hp
  refine ⟨hheap, ?_⟩
  by_cases he : p = .heap (answers t).vnode
  · rw [he, finishNode_node]
    exact h
  · rw [finishNode_node_ne he]
    exact hvol he

theorem rootOwned_steps (answers : Nat → VnodeAnswer) (tar vol : Nat) :
    Steps answers tar fun s s' => RootOwned answers tar vol s → RootOwned answers tar vol s' where
  refl _ h := h
  trans h h' := h' ∘ h
  cut _ _ h := ⟨h.volume, h.root⟩
  node _ t path parent h := RootOwned.finish h.volume t (fun p hp => ⟨(h.root p hp).1, fun _ => (h.root p hp).2⟩) path parent
  root s t path h := by
    obtain ⟨root, hroot, hcases⟩ := setRoot_fields tar (answers t).vnode s
    rw [hroot]
    refine RootOwned.finish ?_ t (fun p hp => ?_) path none
    · rw [Fs.setTarfs_self]
      exact h.volume
    · rw [Fs.setTarfs_self] at hp
      rcases hcases with he | he
      · exact ⟨(h.root p (he ▸ hp)).1, fun _ => (h.root p (he ▸ hp)).2⟩
      · rw [show root = some p from hp, Option.some.injEq] at he
        exact ⟨⟨t, he⟩, fun hne => absurd he hne⟩

/-- A mount also fills in the volume's root and payload. -/
theorem tarfsMount_keeps {answers : TarfsAnswers} {s : Fs} {vol : Nat} {r : Fs × Int} (h : tarfsMount answers s vol = some r) :
    ∃ s', TarKeeps answers.vnode s s' ∧
      (r = (s, -1) ∨ ∃ root, r = (s'.setVol vol { s.vol vol with root := root, payload := answers.payload }, 0) ∧
        (answers.root = none → ∀ p, root = some p → (∃ t, p = .heap (answers.vnode t).vnode) ∧ (s'.node p).volume = vol)) := by
  unfold tarfsMount at h
  split at h
  · cases h
    exact ⟨s, (tarKeeps_steps _ answers.payload).refl s, .inl rfl⟩
  · rw [Option.bind_eq_bind, Option.bind_eq_some_iff] at h
    obtain ⟨s2, h2, h⟩ := h
    rw [initNodes, Option.bind_eq_bind, Option.bind_eq_some_iff] at h2
    obtain ⟨walked, -, h2⟩ := h2
    have hkeeps := (tarKeeps_steps _ _).loop _ _ h2
    have hkeeps' : TarKeeps answers.vnode s s2 :=
      ⟨hkeeps.vol, hkeeps.volumes, hkeeps.drivers, hkeeps.rootfsNodes, hkeeps.devices, hkeeps.node⟩
    have howned := (rootOwned_steps answers.vnode answers.payload vol).loop _ _ h2
    cases h
    refine ⟨s2, hkeeps', .inr ⟨(s2.tarfs answers.payload).root, ?_, fun hnull => (howned ⟨?_, fun p hp => ?_⟩).root⟩⟩
    · rw [hkeeps'.vol]
    · rw [Fs.setTarfs_self, Fs.setTarfs_self]
    · rw [Fs.setTarfs_self, Fs.setTarfs_self, hnull] at hp
      cases hp

end NativeOS.Fs.Tar
