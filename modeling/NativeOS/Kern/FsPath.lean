/-
  NativeOS.Kern.FsPath — resolving paths (`kernel/kern/fs_path.c`).

  `fs_resolve` cuts a path at the first colon and follows the rest, one component at a time,
  from the volume's root. `fs_follow_path` tests the node it found for `VN_FDIR` before it
  tests it for NULL: where a component that is not the last is missing, it reads the flags
  of a node at address 0 (`nullDeref`). `VN_FDIR` is a bit there and a value in `fs_finddir`,
  so a character device (3) is walked into, and finds nothing.

  Proved:
  * `resolve_is_lookup_iff` — the result is the component-wise lookup exactly when no
    component but the last is found missing, and the root is not asked for.
  * `a_missing_directory_is_dereferenced` — the first path that is not there.
-/

import NativeOS.Kern.VfsProofs
import NativeOS.Fs.TarPaths

namespace NativeOS.Kern

open NativeOS.Lib
open NativeOS.Stdkern
open NativeOS.Fs.Tar (slash joinSlash joinSlash_cons joinSlash_singleton zero_not_mem_joinSlash)

abbrev colon : UInt8 := 58

/-- A node or NULL comes back, or one at NULL is looked at. -/
inductive Resolved where
  | ret (node : Option NodePtr)
  | nullDeref
  deriving DecidableEq

/-! ## fs_path.c -/

theorem strsepLoop_shorter {delimiter path rest : List UInt8} (h : (strsepLoop delimiter path).2 = some rest) :
    rest.length < path.length := by
  rcases strsepLoop_parts delimiter path with ⟨hloop, -⟩ | ⟨t, d, rest', hpath, hloop, -⟩
  · rw [hloop] at h
    cases h
  · rw [hloop] at h
    cases h
    rw [hpath, List.length_append, List.length_cons]
    omega

/-- `path` is not NULL, so `strsep` runs its loop. -/
def fsFollowPath (s : Fs) (root : NodePtr) (path : List UInt8) : Resolved :=
  let node := fsFinddir s root (strsepLoop [slash] path).1
  match _h : (strsepLoop [slash] path).2 with
  | none => .ret node
  | some rest =>
    match node with
    | none => .nullDeref
    | some n => if (s.node n).flags &&& vnFdir = 0 then .ret none else fsFollowPath s n rest
termination_by path.length
decreasing_by exact strsepLoop_shorter _h

/-- `dup`: what `strdup`'s copy held. -/
def fsResolve (dup : List UInt8) (s : Fs) (path : List UInt8) : Resolved :=
  let separated := strsep (some (strdup dup path)) [colon]
  match separated.2 with
  | none => .ret none
  | some strsepIn =>
    match vfsGetVolume s (separated.1.getD []) with
    | none => .ret none
    | some descriptor =>
      if strsepIn.headD 0 ≠ slash then .ret (some descriptor)
      else if strsepIn.tail.headD 0 ≠ 0 then fsFollowPath s descriptor strsepIn.tail
      else .ret (some descriptor)

/-! ## What a path names -/

/-- `fs_finddir` applied to one component after the other, through directories only. -/
def lookupPath (s : Fs) : NodePtr → List (List UInt8) → Option NodePtr
  | node, [] => some node
  | node, [c] => fsFinddir s node c
  | node, c :: cs =>
    match fsFinddir s node c with
    | some next => if (s.node next).flags = vnFdir then lookupPath s next cs else none
    | none => none

/-- No component but the last is missing, up to the first node without the bit `VN_FDIR`. -/
def Followed (s : Fs) : NodePtr → List (List UInt8) → Prop
  | _, [] => True
  | _, [_] => True
  | node, c :: cs => ∃ next, fsFinddir s node c = some next ∧ ((s.node next).flags &&& vnFdir ≠ 0 → Followed s next cs)

/-- Components of a path: no NUL, no slash. -/
def PathComponents (comps : List (List UInt8)) : Prop := ∀ c ∈ comps, 0 ∉ c ∧ slash ∉ c

/-! ## Following a path -/

section

variable {s : Fs} {root : NodePtr} {c : List UInt8} {cs comps : List (List UInt8)}

theorem fsFollowPath_none {path : List UInt8} (h : (strsepLoop [slash] path).2 = none) :
    fsFollowPath s root path = .ret (fsFinddir s root (strsepLoop [slash] path).1) := by
  rw [fsFollowPath]
  split
  · rfl
  · rename_i rest hrest
    rw [h] at hrest
    cases hrest

theorem fsFollowPath_some {path rest : List UInt8} (h : (strsepLoop [slash] path).2 = some rest) :
    fsFollowPath s root path =
      match fsFinddir s root (strsepLoop [slash] path).1 with
      | none => .nullDeref
      | some n => if (s.node n).flags &&& vnFdir = 0 then .ret none else fsFollowPath s n rest := by
  rw [fsFollowPath]
  split
  · rename_i hrest
    rw [h] at hrest
    cases hrest
  · rename_i rest' hrest
    rw [h] at hrest
    cases hrest
    rfl

theorem fsFollowPath_last (h0 : 0 ∉ c) (hc : slash ∉ c) : fsFollowPath s root c = .ret (fsFinddir s root c) := by
  have hsep := strsepLoop_end h0 hc
  have hend := @fsFollowPath_none s root c (congrArg Prod.snd hsep)
  rwa [hsep] at hend

theorem fsFollowPath_step (h0 : 0 ∉ c) (hc : slash ∉ c) (path : List UInt8) :
    fsFollowPath s root (c ++ slash :: path) =
      match fsFinddir s root c with
      | none => .nullDeref
      | some n => if (s.node n).flags &&& vnFdir = 0 then .ret none else fsFollowPath s n path := by
  have hsep := strsepLoop_delimiter h0 hc (by decide) path
  have hstep := @fsFollowPath_some s root _ _ (congrArg Prod.snd hsep)
  rwa [hsep] at hstep

/-- A node that is no directory has nothing in it. -/
theorem fsFinddir_of_flags (h : (s.node root).flags ≠ vnFdir) (name : List UInt8) : fsFinddir s root name = none := by
  rw [fsFinddir, if_neg h, ite_self]

theorem lookupPath_of_flags (h : (s.node root).flags ≠ vnFdir) (hne : comps ≠ []) : lookupPath s root comps = none := by
  cases comps with
  | nil => exact absurd rfl hne
  | cons c cs =>
    cases cs with
    | nil => exact fsFinddir_of_flags h c
    | cons d ds =>
      rw [lookupPath, fsFinddir_of_flags h c]
      exact List.cons_ne_nil _ _

theorem lookupPath_cons (h : cs ≠ []) : lookupPath s root (c :: cs) =
    match fsFinddir s root c with
    | some next => if (s.node next).flags = vnFdir then lookupPath s next cs else none
    | none => none := by
  rw [lookupPath]
  exact h

theorem followed_cons (h : cs ≠ []) : Followed s root (c :: cs) ↔
    ∃ next, fsFinddir s root c = some next ∧ ((s.node next).flags &&& vnFdir ≠ 0 → Followed s next cs) := by
  rw [Followed]
  exact h

/-- The walk is the lookup when it follows, and dereferences NULL when it does not. -/
theorem fsFollowPath_eq (hne : comps ≠ []) (hcomps : PathComponents comps) :
    (Followed s root comps → fsFollowPath s root (joinSlash comps) = .ret (lookupPath s root comps)) ∧
    (¬ Followed s root comps → fsFollowPath s root (joinSlash comps) = .nullDeref) := by
  induction comps generalizing root with
  | nil => exact absurd rfl hne
  | cons c cs ih =>
    obtain ⟨h0, hc⟩ := hcomps c List.mem_cons_self
    have hrest : PathComponents cs := fun d hd => hcomps d (List.mem_cons_of_mem _ hd)
    by_cases hcs : cs = []
    · subst hcs
      rw [joinSlash_singleton, fsFollowPath_last h0 hc]
      exact ⟨fun _ => rfl, fun h => absurd trivial h⟩
    · rw [joinSlash_cons c hcs, fsFollowPath_step h0 hc, lookupPath_cons hcs, followed_cons hcs]
      cases hnode : fsFinddir s root c with
      | none =>
        refine ⟨?_, fun _ => rfl⟩
        intro h
        obtain ⟨next, hnext, -⟩ := h
        cases hnext
      | some next =>
        dsimp only
        by_cases hbit : (s.node next).flags &&& vnFdir = 0
        · have hflags : (s.node next).flags ≠ vnFdir := fun h => absurd (h ▸ hbit) (by decide)
          rw [if_pos hbit, if_neg hflags]
          refine ⟨fun _ => rfl, fun h => ?_⟩
          exact absurd ⟨next, rfl, fun h' => absurd hbit h'⟩ h
        · rw [if_neg hbit]
          have hfollowed : (∃ n, some next = some n ∧ ((s.node n).flags &&& vnFdir ≠ 0 → Followed s n cs)) ↔
              Followed s next cs := by
            constructor
            · intro h
              obtain ⟨n, hn, h⟩ := h
              cases hn
              exact h hbit
            · intro h
              exact ⟨next, rfl, fun _ => h⟩
          have hlookup : (if (s.node next).flags = vnFdir then lookupPath s next cs else none) = lookupPath s next cs := by
            split
            · rfl
            · rename_i hflags
              exact (lookupPath_of_flags hflags hcs).symm
          rw [hfollowed, hlookup]
          exact ih hcs hrest

end

/-! ## Two states that look the same -/

inductive Resolved.Rel (R : NodePtr → NodePtr → Prop) : Resolved → Resolved → Prop
  | ret {a b : Option NodePtr} : Option.Rel R a b → Rel R (.ret a) (.ret b)
  | nullDeref : Rel R .nullDeref .nullDeref

theorem Resolved.Rel.imp {R R' : NodePtr → NodePtr → Prop} (hR : ∀ n₁ n₂, R n₁ n₂ → R' n₁ n₂) {a b : Resolved}
    (h : a.Rel R b) : a.Rel R' b := by
  cases h with
  | ret hab =>
    cases hab with
    | some h => exact .ret (.some (hR _ _ h))
    | none => exact .ret .none
  | nullDeref => exact .nullDeref

/-- Nodes that show the same flags and find related nodes under every name lead to related
    nodes on every path. -/
theorem fsFollowPath_rel {s₁ s₂ : Fs} {R : NodePtr → NodePtr → Prop}
    (hflags : ∀ n₁ n₂, R n₁ n₂ → (s₁.node n₁).flags = (s₂.node n₂).flags)
    (hfind : ∀ n₁ n₂, R n₁ n₂ → ∀ name, Option.Rel R (fsFinddir s₁ n₁ name) (fsFinddir s₂ n₂ name))
    (path : List UInt8) {n₁ n₂ : NodePtr} (h : R n₁ n₂) : (fsFollowPath s₁ n₁ path).Rel R (fsFollowPath s₂ n₂ path) := by
  have hfound := hfind n₁ n₂ h (strsepLoop [slash] path).1
  cases hrest : (strsepLoop [slash] path).2 with
  | none =>
    rw [fsFollowPath_none hrest, fsFollowPath_none hrest]
    exact .ret hfound
  | some rest =>
    have hshorter := strsepLoop_shorter hrest
    rw [fsFollowPath_some hrest, fsFollowPath_some hrest]
    generalize fsFinddir s₁ n₁ (strsepLoop [slash] path).1 = a at hfound
    generalize fsFinddir s₂ n₂ (strsepLoop [slash] path).1 = b at hfound
    cases hfound with
    | none => exact .nullDeref
    | @some m₁ m₂ hm =>
      dsimp only
      rw [hflags m₁ m₂ hm]
      split
      · exact .ret .none
      · exact fsFollowPath_rel hflags hfind rest hm
termination_by path.length

/-! ## Resolving -/

theorem headD_joinSlash {comps : List (List UInt8)} (hne : comps ≠ []) (hcomps : PathComponents comps) :
    (joinSlash comps).headD 0 = 0 ↔ comps = [[]] := by
  cases comps with
  | nil => exact absurd rfl hne
  | cons c cs =>
    have h0 := (hcomps c List.mem_cons_self).1
    by_cases hcs : cs = []
    · subst hcs
      rw [joinSlash_singleton]
      cases c with
      | nil => simp
      | cons b c =>
        have hb : b ≠ 0 := fun h => h0 (h ▸ List.mem_cons_self)
        simp [hb]
    · rw [joinSlash_cons c hcs]
      cases c with
      | nil =>
        have hslash : slash ≠ 0 := by decide
        simp [hcs, hslash]
      | cons b c =>
        have hb : b ≠ 0 := fun h => h0 (h ▸ List.mem_cons_self)
        simp [hb]

/-- `V:/path`. -/
def volumePath (volume path : List UInt8) : List UInt8 := volume ++ colon :: slash :: path

theorem fsResolve_volumePath {s : Fs} {volume path : List UInt8} (h0 : 0 ∉ volume) (hcolon : colon ∉ volume)
    (hpath : 0 ∉ path) (dup : List UInt8) : fsResolve dup s (volumePath volume path) =
      match vfsGetVolume s volume with
      | none => .ret none
      | some descriptor => if path.headD 0 ≠ 0 then fsFollowPath s descriptor path else .ret (some descriptor) := by
  have hmem : 0 ∉ volumePath volume path := by
    rw [volumePath, List.mem_append, List.mem_cons, List.mem_cons]
    intro h
    rcases h with h | h | h | h
    · exact h0 h
    · exact absurd h (by decide)
    · exact absurd h (by decide)
    · exact hpath h
  have hdup : strdup dup (volumePath volume path) = volumePath volume path := by
    have hhead : (volumePath volume path).headD 0 ≠ 0 := by
      unfold volumePath
      cases volume with
      | nil => exact (by decide : colon ≠ 0)
      | cons b volume => exact fun h => h0 (h ▸ List.mem_cons_self)
    rw [strdup, if_pos hhead, cstr_of_no_zero hmem]
  have hsep := strsepLoop_delimiter h0 hcolon (by decide) (slash :: path)
  rw [fsResolve, hdup, volumePath, strsep, hsep]
  simp only [Option.getD_some, List.headD_cons, List.tail_cons, ne_eq, not_true_eq_false, if_false]
  rfl

/-- `V:/c1/…/ck` gives the node that the components lead to, or NULL, when every component
    but the last is found as far as the path is followed, and only then; `V:/` gives the root. -/
theorem resolve_is_lookup_iff (dup : List UInt8) (s : Fs) {volume : List UInt8} {root : NodePtr} {comps : List (List UInt8)}
    (h0 : 0 ∉ volume) (hcolon : colon ∉ volume) (hroot : vfsGetVolume s volume = some root) (hne : comps ≠ [])
    (hcomps : PathComponents comps) :
    fsResolve dup s (volumePath volume (joinSlash comps)) = .ret (lookupPath s root comps) ↔
      Followed s root comps ∧ (comps = [[]] → fsFinddir s root [] = some root) := by
  rw [fsResolve_volumePath h0 hcolon (zero_not_mem_joinSlash fun c hc => (hcomps c hc).1), hroot]
  dsimp only
  by_cases hempty : comps = [[]]
  · rw [if_neg (not_not.mpr ((headD_joinSlash hne hcomps).mpr hempty)), hempty]
    simp [lookupPath, Followed, eq_comm]
  · have hhead : (joinSlash comps).headD 0 ≠ 0 := fun h => hempty ((headD_joinSlash hne hcomps).mp h)
    rw [if_pos hhead]
    obtain ⟨hret, hnull⟩ := @fsFollowPath_eq s root comps hne hcomps
    constructor
    · intro h
      refine ⟨?_, fun h' => absurd h' hempty⟩
      by_contra hnot
      rw [hnull hnot] at h
      cases h
    · intro h
      obtain ⟨hf, -⟩ := h
      exact hret hf

/-- The root file system's own node in its root directory. -/
theorem root_volume_is_resolved : ∃ s, vfsInit (mountAnswers 16) [.devfs] bareFs = some s ∧
    fsResolve [] s (volumePath [82, 79, 79, 84] (joinSlash [[82, 79, 79, 84]])) =
      .ret (lookupPath s .rootfsRoot [[82, 79, 79, 84]]) ∧
    lookupPath s .rootfsRoot [[82, 79, 79, 84]] = some (.heap 256) := by
  have hcomps : PathComponents [[82, 79, 79, 84]] := by
    unfold PathComponents
    decide
  refine ⟨_, rfl, ?_, by decide +kernel⟩
  exact (resolve_is_lookup_iff [] _ (by decide) (by decide) (by decide +kernel) (List.cons_ne_nil _ _) hcomps).mpr
    ⟨trivial, fun h => absurd h (by decide)⟩

/-- `ROOT:/a/b` once the root file system is mounted: there is no `a`. -/
theorem a_missing_directory_is_dereferenced : ∃ s, vfsInit (mountAnswers 16) [.devfs] bareFs = some s ∧
    vfsGetVolume s [82, 79, 79, 84] = some .rootfsRoot ∧ lookupPath s .rootfsRoot [[97], [98]] = none ∧
    fsResolve [] s (volumePath [82, 79, 79, 84] (joinSlash [[97], [98]])) = .nullDeref := by
  have hresolve : ∀ s, vfsGetVolume s [82, 79, 79, 84] = some .rootfsRoot → fsFinddir s .rootfsRoot [97] = none →
      fsResolve [] s (volumePath [82, 79, 79, 84] (joinSlash [[97], [98]])) = .nullDeref := by
    intro s hroot hmissing
    rw [fsResolve_volumePath (by decide) (by decide) (by decide), hroot]
    dsimp only
    rw [if_pos (by decide), joinSlash_cons _ (List.cons_ne_nil _ _), fsFollowPath_step (by decide) (by decide), hmissing]
  exact ⟨_, rfl, by decide +kernel, by decide +kernel, hresolve _ (by decide +kernel) (by decide +kernel)⟩

end NativeOS.Kern
