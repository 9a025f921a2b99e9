/-
  NativeOS.Kern.Malformed — what `fs_resolve` does with a string that is no path.

  A path is `V:/rest` with the name of a mounted volume before the first colon. `fs_resolve`
  looks the volume up into its result, and leaves at its second test with the result set:
  where no slash follows the colon the volume's root is returned. The table is searched with
  seventeen bytes (`volKey`), so a longer string is taken for the volume it begins like. And
  `strdup` copies nothing from an empty string: what is resolved then is whatever the buffer
  held, which may be a path freed a moment ago.

  Proved:
  * `malformed_paths_rejected_iff` — exactly which strings are treated as they should be, in
    any state.
  * `a_path_without_a_slash_is_the_root` — `ROOT:abc`, once the root file system is mounted.
-/

import NativeOS.Kern.FsPath

namespace NativeOS.Kern

open NativeOS.Lib
open NativeOS.Stdkern
open NativeOS.Fs.Tar (slash joinSlash joinSlash_cons joinSlash_singleton)

/-! ## Paths -/

/-- The string is the whole name of a volume in the mount table. -/
def Mounted (s : Fs) (name : List UInt8) : Prop := ∃ v ∈ s.volumes, cstr (s.vol v).name = name

/-- `V:/rest` with a mounted volume `V`. -/
def WellFormed (s : Fs) (p : List UInt8) : Prop :=
  ∃ volume rest, cstr p = volumePath volume rest ∧ colon ∉ volume ∧ Mounted s volume

/-- Whatever the buffer of the copy held: a node only for a path, and NULL for any other string. -/
def RejectsMalformed (s : Fs) (p : List UInt8) : Prop :=
  ∀ dup, (∀ n, fsResolve dup s p = .ret (some n) → WellFormed s p) ∧ (¬ WellFormed s p → fsResolve dup s p = .ret none)

/-- The components after the slash end at one that is not there, or go through a node that is
    no directory. -/
def LeadsNowhere (s : Fs) (root : NodePtr) (rest : List UInt8) : Prop :=
  ∃ comps ≠ [], comps ≠ [[]] ∧ PathComponents comps ∧ rest = joinSlash comps ∧ Followed s root comps ∧
    lookupPath s root comps = none

/-- No name leads to a volume that has a root. -/
def NoVolumes (s : Fs) : Prop := ∀ volume, colon ∉ volume → vfsGetVolume s volume = none

/-- The volume found before the first colon, if it has a root, is followed by a slash, and it
    is the one named or the rest leads nowhere. -/
def NamesItsVolume (s : Fs) (p : List UInt8) : Prop :=
  ∀ volume rest root, cstr p = volume ++ colon :: rest → colon ∉ volume → vfsGetVolume s volume = some root →
    ∃ path, rest = slash :: path ∧ (Mounted s volume ∨ LeadsNowhere s root path)

/-! ## The cut at the colon -/

/-- The string up to its end, or up to the first delimiter. -/
theorem strsepLoop_cases (d : UInt8) (s : List UInt8) :
    ((strsepLoop [d] s).2 = none ∧ ∀ t rest, d ≠ 0 → cstr s ≠ t ++ d :: rest) ∨
    ∃ t rest, strsepLoop [d] s = (t, some rest) ∧ 0 ∉ t ∧ d ∉ t ∧ s = t ++ d :: rest := by
  rcases strsepLoop_parts [d] s with ⟨hloop, hnone⟩ | ⟨t, d', rest, hs, hloop, hd, hnone, h0⟩
  · refine .inl ⟨by rw [hloop], ?_⟩
    intro t rest _ hs
    have hd : d ∈ cstr s := by
      rw [hs]
      simp
    exact hnone d hd List.mem_cons_self
  · rw [List.mem_singleton.mp hd] at hs
    exact .inr ⟨t, rest, hloop, h0, fun hin => hnone d hin List.mem_cons_self, hs⟩

theorem exists_joinSlash {path : List UInt8} (h0 : 0 ∉ path) :
    ∃ comps ≠ [], PathComponents comps ∧ path = joinSlash comps := by
  induction path with
  | nil => exact ⟨[[]], by simp, by simp [PathComponents], (joinSlash_singleton []).symm⟩
  | cons c path ih =>
    rw [List.mem_cons, not_or] at h0
    obtain ⟨comps, hne, hcomps, hjoin⟩ := ih h0.2
    by_cases hc : c = slash
    · -- a slash begins a new, empty component
      refine ⟨[] :: comps, by simp, List.forall_mem_cons.mpr ⟨by simp, hcomps⟩, ?_⟩
      rw [joinSlash_cons [] hne, hc, hjoin, List.nil_append]
    · cases comps with
      | nil => exact absurd rfl hne
      | cons d ds =>
        obtain ⟨hd, hds⟩ := List.forall_mem_cons.mp hcomps
        have hhead : 0 ∉ c :: d ∧ slash ∉ c :: d := by
          simpa [h0.1, Ne.symm hc] using hd
        refine ⟨(c :: d) :: ds, by simp, List.forall_mem_cons.mpr ⟨hhead, hds⟩, ?_⟩
        by_cases hnil : ds = []
        · rw [hnil, joinSlash_singleton]
          rw [hnil, joinSlash_singleton] at hjoin
          rw [hjoin]
        · rw [joinSlash_cons _ hnil, hjoin, joinSlash_cons _ hnil, List.cons_append]

/-- The walk ends at NULL for the paths that lead nowhere, and only for them. -/
theorem fsFollowPath_eq_none {s : Fs} {root : NodePtr} {path : List UInt8} (h0 : 0 ∉ path) (hne : path ≠ []) :
    fsFollowPath s root path = .ret none ↔ LeadsNowhere s root path := by
  constructor
  · intro h
    obtain ⟨comps, hcs, hcomps, rfl⟩ := exists_joinSlash h0
    obtain ⟨hret, hnull⟩ := @fsFollowPath_eq s root comps hcs hcomps
    have hempty : comps ≠ [[]] := fun he => hne (by rw [he, joinSlash_singleton])
    by_cases hf : Followed s root comps
    · rw [hret hf, Resolved.ret.injEq] at h
      exact ⟨comps, hcs, hempty, hcomps, rfl, hf, h⟩
    · rw [hnull hf] at h
      cases h
  · intro h
    obtain ⟨comps, hcs, -, hcomps, rfl, hf, hnone⟩ := h
    rw [(@fsFollowPath_eq s root comps hcs hcomps).1 hf, hnone]

/-! ## Resolving a string -/

theorem vfsGetVolume_cstr (s : Fs) (name : List UInt8) : vfsGetVolume s (cstr name) = vfsGetVolume s name := by
  simp only [vfsGetVolume, findMountpointByName_eq, cstr_cstr]

/-- `fs_resolve` on the copy, cut at its first colon or not. -/
theorem fsResolve_cut {dup p volume rest : List UInt8} (s : Fs)
    (h : strsepLoop [colon] (strdup dup p) = (volume, some rest)) :
    fsResolve dup s p = match vfsGetVolume s volume with
      | none => .ret none
      | some root =>
        if rest.headD 0 ≠ slash then .ret (some root)
        else if rest.tail.headD 0 ≠ 0 then fsFollowPath s root rest.tail
        else .ret (some root) := by
  rw [fsResolve, strsep, h]
  rfl

theorem fsResolve_uncut {dup p : List UInt8} (s : Fs) (h : (strsepLoop [colon] (strdup dup p)).2 = none) :
    fsResolve dup s p = .ret none := by
  simp [fsResolve, strsep, h]

theorem strdup_cstr {p : List UInt8} (h : cstr p ≠ []) (dup : List UInt8) : strdup dup p = cstr p :=
  if_pos fun h0 => h (cstr_eq_nil.mpr h0)

theorem cut_unique {p volume volume' rest rest' : List UInt8} (h : cstr p = volume ++ colon :: rest)
    (hc : colon ∉ volume) (h' : cstr p = volume' ++ colon :: rest') (hc' : colon ∉ volume') :
    volume = volume' ∧ rest = rest' := by
  have h0 := zero_not_mem_cstr p
  have hz : 0 ∉ volume := fun hm => h0 (by rw [h]; exact List.mem_append_left _ hm)
  have hz' : 0 ∉ volume' := fun hm => h0 (by rw [h']; exact List.mem_append_left _ hm)
  have hsep := strsepLoop_delimiter hz hc (by decide) rest
  rw [← h, h', strsepLoop_delimiter hz' hc' (by decide) rest'] at hsep
  simp only [Prod.mk.injEq, Option.some.injEq] at hsep
  exact ⟨hsep.1.symm, hsep.2.symm⟩

theorem rejectsMalformed_of_wellFormed {s : Fs} {p : List UInt8} (h : WellFormed s p) : RejectsMalformed s p :=
  fun _ => ⟨fun _ _ => h, fun hnot => absurd h hnot⟩

theorem rejectsMalformed_iff_of_not {s : Fs} {p : List UInt8} (h : ¬ WellFormed s p) :
    RejectsMalformed s p ↔ ∀ dup, fsResolve dup s p = .ret none := by
  refine ⟨fun hr dup => (hr dup).2 h, fun hr dup => ⟨fun n hn => ?_, fun _ => hr dup⟩⟩
  rw [hr dup] at hn
  cases hn

/-- Nothing is copied from an empty string. -/
theorem empty_rejected_iff {s : Fs} {p : List UInt8} (hp : cstr p = []) : RejectsMalformed s p ↔ NoVolumes s := by
  have hnot : ¬ WellFormed s p := by
    intro h
    obtain ⟨volume, rest, h, -⟩ := h
    simp [hp, volumePath] at h
  have hdup : ∀ dup, strdup dup p = dup := fun dup => if_neg (not_not.mpr (cstr_eq_nil.mp hp))
  rw [rejectsMalformed_iff_of_not hnot]
  constructor
  · intro h volume hcolon
    have hc : colon ∉ cstr volume := fun hm => hcolon (List.takeWhile_sublist _ |>.subset hm)
    -- a buffer that held the name and a colon
    have hres := h (cstr volume ++ colon :: [])
    rw [fsResolve_cut s (by rw [hdup]; exact strsepLoop_delimiter (zero_not_mem_cstr _) hc (by decide) [])] at hres
    rw [vfsGetVolume_cstr] at hres
    cases hroot : vfsGetVolume s volume with
    | none => rfl
    | some root => simp [hroot] at hres
  · intro h dup
    rcases strsepLoop_cases colon (strdup dup p) with ⟨hnone, -⟩ | ⟨volume, rest, hsep, -, hcolon, -⟩
    · exact fsResolve_uncut s hnone
    · rw [fsResolve_cut s hsep, h volume hcolon]

/-- A string that is not empty and has a colon. -/
theorem cut_rejected_iff {s : Fs} {p volume rest : List UInt8} (h : cstr p = volume ++ colon :: rest)
    (hcolon : colon ∉ volume) : RejectsMalformed s p ↔ NamesItsVolume s p := by
  have hp : cstr p ≠ [] := by simp [h]
  have h0 := zero_not_mem_cstr p
  rw [h, List.mem_append, List.mem_cons, not_or, not_or] at h0
  have hres : ∀ dup, fsResolve dup s p = _ := fun dup =>
    fsResolve_cut s (by rw [strdup_cstr hp, h]; exact strsepLoop_delimiter h0.1 hcolon (by decide) rest)
  have hnames : NamesItsVolume s p ↔ ∀ root, vfsGetVolume s volume = some root →
      ∃ path, rest = slash :: path ∧ (Mounted s volume ∨ LeadsNowhere s root path) := by
    refine ⟨fun hn root hroot => hn volume rest root h hcolon hroot, fun hn volume' rest' root h' hc' hroot => ?_⟩
    obtain ⟨rfl, rfl⟩ := cut_unique h hcolon h' hc'
    exact hn root hroot
  have hform : WellFormed s p ↔ (∃ path, rest = slash :: path) ∧ Mounted s volume := by
    constructor
    · intro h
      obtain ⟨volume', rest', h', hc', hm⟩ := h
      obtain ⟨rfl, rfl⟩ := cut_unique h hcolon h' hc'
      exact ⟨⟨rest', rfl⟩, hm⟩
    · intro h
      obtain ⟨⟨path, rfl⟩, hm⟩ := h
      exact ⟨volume, path, h, hcolon, hm⟩
  rw [hnames]
  by_cases hwf : WellFormed s p
  · obtain ⟨⟨path, hpath⟩, hm⟩ := hform.mp hwf
    exact iff_of_true (rejectsMalformed_of_wellFormed hwf) fun _ _ => ⟨path, hpath, .inl hm⟩
  rw [rejectsMalformed_iff_of_not hwf]
  simp only [hres, forall_const]
  cases hroot : vfsGetVolume s volume with
  | none => simp
  | some root =>
    simp only [Option.some.injEq, forall_eq']
    by_cases hslash : rest.headD 0 = slash
    · obtain ⟨path, rfl⟩ : ∃ path, rest = slash :: path := by
        cases rest with
        | nil => exact absurd hslash (by decide)
        | cons c path => exact ⟨path, by rw [show c = slash from hslash]⟩
      have hunknown : ¬ Mounted s volume := fun hm => hwf (hform.mpr ⟨⟨path, rfl⟩, hm⟩)
      rw [if_neg (not_not.mpr hslash), List.tail_cons]
      have hpath0 : 0 ∉ path := fun hm => h0.2.2 (List.mem_cons_of_mem _ hm)
      cases path with
      | nil =>
        have hno : ¬ LeadsNowhere s root [] := by
          intro h
          obtain ⟨comps, hne, hempty, hcomps, hjoin, -⟩ := h
          exact hempty ((headD_joinSlash hne hcomps).mp (by rw [← hjoin]; rfl))
        simp [hunknown, hno]
      | cons c path =>
        have hc : c ≠ 0 := fun hc => hpath0 (hc ▸ List.mem_cons_self)
        have hfollow := @fsFollowPath_eq_none s root (c :: path) hpath0 (List.cons_ne_nil _ _)
        simp [hc, hfollow, hunknown]
    · rw [if_pos hslash]
      refine iff_of_false (by simp) ?_
      intro h
      obtain ⟨path, rfl, -⟩ := h
      exact hslash rfl

/-- A string is resolved only if it is a path, and any other gives NULL, exactly when: it is not
    empty, or no volume has a root; and the volume found before its first colon, if it has a
    root, is followed by a slash and is the one named, or nothing is found there. -/
theorem malformed_paths_rejected_iff (s : Fs) (p : List UInt8) :
    RejectsMalformed s p ↔ (cstr p = [] → NoVolumes s) ∧ NamesItsVolume s p := by
  by_cases hp : cstr p = []
  · have hnames : NamesItsVolume s p := fun volume rest root h => by simp [hp] at h
    rw [empty_rejected_iff hp]
    exact ⟨fun h => ⟨fun _ => h, hnames⟩, fun h => h.1 hp⟩
  · have hskip : (cstr p = [] → NoVolumes s) := fun h => absurd h hp
    rcases strsepLoop_cases colon (cstr p) with ⟨hnone, hno⟩ | ⟨volume, rest, -, -, hcolon, h⟩
    · -- no colon at all
      rw [cstr_cstr] at hno
      have hnot : ¬ WellFormed s p := fun ⟨volume, rest, h, _⟩ => hno volume _ (by decide) h
      have hnames : NamesItsVolume s p := fun volume rest root h => absurd h (hno volume rest (by decide))
      refine iff_of_true ((rejectsMalformed_iff_of_not hnot).mpr fun dup => ?_) ⟨hskip, hnames⟩
      exact fsResolve_uncut s (by rw [strdup_cstr hp]; exact hnone)
    · rw [cut_rejected_iff h hcolon]
      exact ⟨fun h => ⟨hskip, h⟩, fun h => h.2⟩

/-- `ROOT:abc` after `vfs_init`: the root directory comes back. -/
theorem a_path_without_a_slash_is_the_root : ∃ s, vfsInit (mountAnswers 16) [.devfs] bareFs = some s ∧
    fsResolve [] s [82, 79, 79, 84, 58, 97, 98, 99] = .ret (some .rootfsRoot) ∧
    ¬ RejectsMalformed s [82, 79, 79, 84, 58, 97, 98, 99] := by
  have hcut : ∀ volume rest, ([82, 79, 79, 84, 58, 97, 98, 99] : List UInt8) = volumePath volume rest → colon ∉ volume →
      False := by
    intro volume rest h hcolon
    have hz : cstr [82, 79, 79, 84, 58, 97, 98, 99] = [82, 79, 79, 84] ++ colon :: [97, 98, 99] := by decide
    have hz' : cstr [82, 79, 79, 84, 58, 97, 98, 99] = volume ++ colon :: slash :: rest :=
      (cstr_of_no_zero (by decide)).trans h
    obtain ⟨-, hrest⟩ := cut_unique hz (by decide) hz' hcolon
    exact absurd (List.cons.inj hrest).1 (by decide)
  refine ⟨_, rfl, by decide +kernel, fun h => ?_⟩
  obtain ⟨volume, rest, hpath, hcolon, -⟩ := (h []).1 .rootfsRoot (by decide +kernel)
  exact hcut volume rest hpath hcolon

end NativeOS.Kern
