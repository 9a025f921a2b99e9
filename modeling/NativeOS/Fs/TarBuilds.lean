/-
  NativeOS.Fs.TarBuilds — the order in which a TAR image's nodes are built.

  `reassemble_nodes` asks for memory for a node before it looks up the parent, and enters it in
  the `tarfs_node` only afterwards: a call that came back to the same entry in between would
  build it again. To speak of that the recursion is run with a log of what it builds, each
  entry with its path as it was then. The log changes nothing (`logReassemble_fst`), and it tells
  what the names have left behind the nodes (`logLoop_spilled`).
-/

import NativeOS.Fs.TarEnds
import NativeOS.Lib.Forest

namespace NativeOS.Fs.Tar

open NativeOS.Lib
open NativeOS.Stdkern
open NativeOS.Kern

/-! ## The log -/

/-- An entry that was built, and the path that was split. -/
structure Built where
  tnode : Nat
  path : List UInt8
  deriving DecidableEq

/-- `lookupLoop`, with the log of the call it makes. -/
def logLookup (reassemble : Fs → Nat → Option (Fs × List Built)) (path : List UInt8) :
    Fs → List Nat → Option (Fs × Option NodePtr × List Built)
  | s, [] => some (s, none, [])
  | s, tarnode :: nodes =>
    let kiwi := kiwiStart s.mem (s.tnode tarnode).block
    let s1 := { s with mem := cutKiwi s.mem kiwi }
    if strncmp (strAt s1.mem kiwi) path 256 = 0 then do
      let r ← reassemble s1 tarnode
      some (r.1, nodeAt (r.1.tnode tarnode).node, r.2)
    else logLookup reassemble path s1 nodes

/-- `reassembleNodes`, with the entries it builds, parents first. -/
def logReassemble (answers : Nat → VnodeAnswer) (tar : Nat) : Nat → Fs → Nat → Option (Fs × List Built)
  | 0, _, _ => none
  | fuel + 1, s, tnode =>
    if (s.tnode tnode).node ≠ 0 then some (s, [])
    else
      let answer := answers tnode
      let path := normalize (strdup answer.dup (strAt s.mem (s.tnode tnode).block))
      if path.headD 0 ≠ 0 then do
        let found ← logLookup (logReassemble answers tar fuel) (splitBasename path).1 s (s.tarfs tar).nodes
        some (finishNode answer tar tnode path found.1 found.2.1, found.2.2 ++ [⟨tnode, path⟩])
      else some (finishNode answer tar tnode path (setRoot tar answer.vnode s) none, [⟨tnode, path⟩])

/-- `reassembleLoop`, with everything that is built. -/
def logLoop (answers : Nat → VnodeAnswer) (tar : Nat) : List Nat → Fs → Option (Fs × List Built)
  | [], s => some (s, [])
  | tnode :: nodes, s => do
    let r ← logReassemble answers tar 4294967296 s tnode
    let rest ← logLoop answers tar nodes r.1
    some (rest.1, r.2 ++ rest.2)

/-- `initNodes`, with everything that is built. -/
def logInit (answers : TarfsAnswers) (s : Fs) (tar : Nat) : Option (Fs × List Built) := do
  let walked ← walkHeaders s.mem (s.tarfs tar).buf answers.entry ⟨⟨answers.store, LinkedList.listAlloc, []⟩, s.tnode⟩
  let nodes := listForeach walked.nodes
  let s1 := { s with tnode := walked.tnode }.setTarfs tar { s.tarfs tar with nodes := nodes }
  logLoop answers.vnode tar nodes s1

/-- `tarfsMount`, with everything that is built. -/
def logMount (answers : TarfsAnswers) (s : Fs) (vol : Nat) : Option ((Fs × Int) × List Built) :=
  if answers.payload = 0 then some ((s, -1), [])
  else do
    let s1 := s.setTarfs answers.payload ⟨(s.vol vol).payload, [], vol, answers.root⟩
    let r ← logInit answers s1 answers.payload
    some ((r.1.setVol vol { r.1.vol vol with root := (r.1.tarfs answers.payload).root, payload := answers.payload }, 0), r.2)

section

variable {answers : Nat → VnodeAnswer} {tar : Nat}

theorem logLookup_fst (reassemble : Fs → Nat → Option (Fs × List Built)) (path : List UInt8) (nodes : List Nat) (s : Fs) :
    (logLookup reassemble path s nodes).map (fun r => (r.1, r.2.1)) =
      lookupLoop (fun s t => (reassemble s t).map Prod.fst) path s nodes := by
  induction nodes generalizing s with
  | nil => rfl
  | cons t nodes ih =>
    rw [logLookup, lookupLoop]
    dsimp only
    split
    · cases hre : reassemble { s with mem := cutKiwi s.mem (kiwiStart s.mem (s.tnode t).block) } t with
      | none => simp
      | some r => simp
    · exact ih _

/-- Without the log it is the reassembly. -/
theorem logReassemble_fst (fuel : Nat) (s : Fs) (t : Nat) :
    (logReassemble answers tar fuel s t).map Prod.fst = reassembleNodes answers tar fuel s t := by
  induction fuel generalizing s t with
  | zero => rfl
  | succ fuel ih =>
    have hcalls : (fun s t => (logReassemble answers tar fuel s t).map Prod.fst) = reassembleNodes answers tar fuel := by
      funext s t
      exact ih s t
    rw [logReassemble, reassembleNodes]
    dsimp only
    split
    · rfl
    · split
      · rw [← hcalls, ← logLookup_fst]
        simp only [Option.bind_eq_bind, Option.map_bind, Option.bind_map]
        rfl
      · rfl

theorem logLoop_fst (nodes : List Nat) (s : Fs) :
    (logLoop answers tar nodes s).map Prod.fst = reassembleLoop answers tar nodes s := by
  induction nodes generalizing s with
  | nil => rfl
  | cons t nodes ih =>
    rw [logLoop, reassembleLoop, ← logReassemble_fst]
    cases hre : logReassemble answers tar 4294967296 s t with
    | none => rfl
    | some r =>
      rw [Option.map_some, Option.bind_eq_bind, Option.bind_eq_bind, Option.bind_some, Option.bind_some, ← ih]
      cases logLoop answers tar nodes r.1 with
      | none => rfl
      | some rest => rfl

theorem logInit_fst (answers : TarfsAnswers) (s : Fs) (tar : Nat) :
    (logInit answers s tar).map Prod.fst = initNodes answers s tar := by
  simp only [logInit, initNodes, ← logLoop_fst, Option.bind_eq_bind, Option.map_bind]
  rfl

theorem logMount_fst (answers : TarfsAnswers) (s : Fs) (vol : Nat) :
    (logMount answers s vol).map Prod.fst = tarfsMount answers s vol := by
  rw [logMount, tarfsMount]
  split
  · rfl
  · simp only [← logInit_fst, Option.bind_eq_bind, Option.map_bind, Option.bind_map]
    rfl

/-! ## Behind the nodes -/

/-- What the name of an entry that is built leaves behind its node. -/
def Built.spill (answers : Nat → VnodeAnswer) (b : Built) : List (UInt8 × Nat) := Tar.spill (answers b.tnode).vnode b.path

theorem logLookup_spilled {reassemble : Fs → Nat → Option (Fs × List Built)}
    (hre : ∀ (s : Fs) (t : Nat) (r : Fs × List Built), reassemble s t = some r →
      r.1.spilled = s.spilled ++ r.2.flatMap (Built.spill answers)) (path : List UInt8) :
    ∀ (nodes : List Nat) (s : Fs) {r : Fs × Option NodePtr × List Built}, logLookup reassemble path s nodes = some r →
      r.1.spilled = s.spilled ++ r.2.2.flatMap (Built.spill answers)
  | [], s, r, h => by
    cases h
    exact (List.append_nil _).symm
  | t :: nodes, s, r, h => by
    rw [logLookup] at h
    dsimp only at h
    split at h
    · rw [Option.bind_eq_bind, Option.bind_eq_some_iff] at h
      obtain ⟨built, hbuilt, h⟩ := h
      cases h
      have hspilled := hre _ _ _ hbuilt
      exact hspilled
    · have hspilled := logLookup_spilled hre path nodes _ h
      exact hspilled

theorem setRoot_spilled (tar vnode : Nat) (s : Fs) : (setRoot tar vnode s).spilled = s.spilled := by
  rw [setRoot_eq]
  rfl

theorem logReassemble_spilled : ∀ (fuel : Nat) (s : Fs) (t : Nat) (r : Fs × List Built),
    logReassemble answers tar fuel s t = some r → r.1.spilled = s.spilled ++ r.2.flatMap (Built.spill answers)
  | 0, _, _, _, h => nomatch h
  | fuel + 1, s, t, r, h => by
    rw [logReassemble] at h
    split at h
    · cases h
      exact (List.append_nil _).symm
    · dsimp only at h
      split at h
      · rw [Option.bind_eq_bind, Option.bind_eq_some_iff] at h
        obtain ⟨found, hfound, h⟩ := h
        cases h
        rw [finishNode_spilled, logLookup_spilled (logReassemble_spilled fuel) _ _ s hfound, List.flatMap_append,
          List.flatMap_singleton, List.append_assoc]
        rfl
      · cases h
        rw [finishNode_spilled, setRoot_spilled, List.flatMap_singleton]
        rfl

theorem logLoop_spilled : ∀ (nodes : List Nat) (s : Fs) {r : Fs × List Built}, logLoop answers tar nodes s = some r →
    r.1.spilled = s.spilled ++ r.2.flatMap (Built.spill answers)
  | [], s, r, h => by
    cases h
    exact (List.append_nil _).symm
  | t :: nodes, s, r, h => by
    rw [logLoop, Option.bind_eq_bind, Option.bind_eq_some_iff] at h
    obtain ⟨r₁, h₁, h⟩ := h
    rw [Option.bind_eq_some_iff] at h
    obtain ⟨r₂, h₂, h⟩ := h
    cases h
    rw [logLoop_spilled nodes _ h₂, logReassemble_spilled _ _ _ _ h₁, List.flatMap_append, List.append_assoc]

theorem spill_eq_nil {vnode : Nat} {path : List UInt8} (h0 : 0 ∉ path) (h : (lastComponent path).length < vnodeSize) :
    spill vnode path = [] := by
  have hname := entryName_length_le h0
  have hcstr : (cstr (entryName path)).length ≤ (entryName path).length := (List.takeWhile_sublist _).length_le
  rw [spill, List.drop_of_length_le, List.zipIdx_nil]
  rw [List.length_append, List.length_singleton]
  omega

/-- Names that fit their nodes leave nothing behind them. -/
theorem nothing_spilled {log : List Built} (h : ∀ b ∈ log, 0 ∉ b.path ∧ (lastComponent b.path).length < vnodeSize) :
    log.flatMap (Built.spill answers) = [] :=
  List.flatMap_eq_nil_iff.mpr fun b hb => spill_eq_nil (h b hb).1 (h b hb).2

end

end NativeOS.Fs.Tar
