/-
  NativeOS.Fs.TarPaths — the path of a TAR entry (`kernel/fs/tarfs/tar.c`).

  `reassemble_nodes` works on a copy of the header's name: it drops a leading `./` or `/`
  and one trailing slash, and cuts the rest at the last slash. Here that copy is a list of
  bytes (`NativeOS.Stdkern.Strings` says how those stand for strings).

  A path is made of components (`joinSlash`). Those of the entries of an archive are not
  empty and not `.` (`Component`), and then the steps undo the making: `skip_joinSlash`,
  `cutSlash_joinSlash`, `splitBasename_joinSlash`.

  Of any other name the slashes at the end are cut off one at a time (`CutFrom`), and what is
  split off then is its last component or, while there are slashes left, nothing.
-/

import Mathlib.Data.List.DropRight
import NativeOS.Stdkern.Strings

namespace NativeOS.Fs.Tar

open NativeOS.Lib
open NativeOS.Stdkern

abbrev dot : UInt8 := 46
abbrev slash : UInt8 := 47

/-- `if (*path == '.' && *(path + 1) == '/') path++`. -/
def skipDot (path : List UInt8) : List UInt8 := if path.headD 0 = dot ∧ path.tail.headD 0 = slash then path.tail else path

/-- `if (*path == '/') path++`. -/
def skipSlash (path : List UInt8) : List UInt8 := if path.headD 0 = slash then path.tail else path

/-- `if (*path && path[last_char] == '/') path[last_char] = 0`. -/
def cutSlash (path : List UInt8) : List UInt8 :=
  if path.headD 0 ≠ 0 ∧ (cstr path).getLastD 0 = slash then (cstr path).dropLast else path

def normalize (origPath : List UInt8) : List UInt8 := cutSlash (skipSlash (skipDot origPath))

/-- `split_basename`'s loop: where the last slash is. -/
def slashLoop : List UInt8 → Nat → Option Nat → Option Nat
  | [], _, found => found
  | c :: path, ptr, found =>
    if c ≠ 0 then slashLoop path (ptr + 1) (if c = slash then some ptr else found) else found

/-- `*dirname` and `*basename`. -/
def splitBasename (path : List UInt8) : List UInt8 × List UInt8 :=
  match slashLoop path 0 none with
  | some ptr => (path.take ptr, path.drop (ptr + 1))
  | none => ([], path)

/-! ## Splitting -/

theorem slashLoop_append {b : List UInt8} (h0 : 0 ∉ b) (hb : slash ∉ b) (ptr : Nat) (found : Option Nat) :
    slashLoop b ptr found = found := by
  induction b generalizing ptr with
  | nil => rfl
  | cons c b ih =>
    rw [List.mem_cons, not_or] at h0 hb
    rw [slashLoop, if_pos (Ne.symm h0.1), if_neg (Ne.symm hb.1)]
    exact ih h0.2 hb.2 (ptr + 1)

theorem slashLoop_last {b : List UInt8} (h0 : 0 ∉ b) (hb : slash ∉ b) : ∀ {d : List UInt8}, 0 ∉ d → ∀ (ptr : Nat) (found : Option Nat),
    slashLoop (d ++ slash :: b) ptr found = some (ptr + d.length)
  | [], _, ptr, found => by
    rw [List.nil_append, slashLoop, if_pos (by decide), if_pos rfl, slashLoop_append h0 hb]
    rfl
  | c :: d, hd, ptr, found => by
    rw [List.mem_cons, not_or] at hd
    rw [List.cons_append, slashLoop, if_pos (Ne.symm hd.1), slashLoop_last h0 hb hd.2, List.length_cons, Nat.add_assoc,
      Nat.add_comm 1]

theorem splitBasename_slash {d b : List UInt8} (hd : 0 ∉ d) (h0 : 0 ∉ b) (hb : slash ∉ b) :
    splitBasename (d ++ slash :: b) = (d, b) := by
  rw [splitBasename, slashLoop_last h0 hb hd, Nat.zero_add]
  dsimp only
  rw [List.take_left, List.drop_append, List.drop_of_length_le (Nat.le_succ _)]
  simp

theorem splitBasename_plain {b : List UInt8} (h0 : 0 ∉ b) (hb : slash ∉ b) : splitBasename b = ([], b) := by
  rw [splitBasename, slashLoop_append h0 hb]

theorem slashLoop_bound : ∀ (path : List UInt8) (ptr : Nat) (found : Option Nat) {q : Nat}, slashLoop path ptr found = some q →
    found = some q ∨ q < ptr + path.length
  | [], _, _, _, h => .inl h
  | c :: path, ptr, found, q, h => by
    rw [slashLoop] at h
    rw [List.length_cons]
    split at h
    · rcases slashLoop_bound path (ptr + 1) _ h with hq | hq
      · split at hq
        · rw [Option.some.injEq] at hq
          exact .inr (by omega)
        · exact .inl hq
      · exact .inr (by omega)
    · exact .inl h

/-- A dirname is a shorter beginning of the path. -/
theorem splitBasename_shorter {path : List UInt8} (hne : path ≠ []) :
    ∃ k < path.length, (splitBasename path).1 = path.take k := by
  unfold splitBasename
  cases h : slashLoop path 0 none with
  | none => exact ⟨0, List.length_pos_iff.mpr hne, rfl⟩
  | some q =>
    rcases slashLoop_bound path 0 none h with hq | hq
    · cases hq
    · exact ⟨q, by omega, rfl⟩

theorem splitBasename_dir {path : List UInt8} (hne : path ≠ []) (hno : 0 ∉ path) :
    (splitBasename path).1.length < path.length ∧ 0 ∉ (splitBasename path).1 := by
  obtain ⟨k, hk, hdir⟩ := splitBasename_shorter hne
  rw [hdir]
  refine ⟨?_, fun h0 => hno (List.mem_of_mem_take h0)⟩
  rw [List.length_take]
  omega

/-- `lookup_vnode` compares more bytes than a path has. -/
theorem strncmp_short {p q : List UInt8} (hp : 0 ∉ p) (hq : 0 ∉ q) (hplen : p.length ≤ 255) (hqlen : q.length ≤ 255) :
    strncmp p q 256 = 0 ↔ p = q := by
  rw [strncmp_eq_zero (by decide), cstr_of_no_zero hp, cstr_of_no_zero hq, List.take_of_length_le (by omega),
    List.take_of_length_le (by omega)]

theorem headD_ne_zero {p : List UInt8} (hne : p ≠ []) (hno : 0 ∉ p) : p.headD 0 ≠ 0 := by
  cases p with
  | nil => exact absurd rfl hne
  | cons b p => exact fun hb => hno (hb ▸ List.mem_cons_self)

/-! ## What is skipped -/

/-- How many bytes `skipDot` and `skipSlash` drop. -/
def skipped (path : List UInt8) : Nat :=
  if path.headD 0 = dot ∧ path.tail.headD 0 = slash then 2 else if path.headD 0 = slash then 1 else 0

theorem skipped_cons (c : UInt8) (path : List UInt8) :
    skipped (c :: path) = if c = dot ∧ path.headD 0 = slash then 2 else if c = slash then 1 else 0 := rfl

theorem skipped_cases (path : List UInt8) :
    (∃ rest, path = dot :: slash :: rest ∧ skipped path = 2) ∨ (∃ rest, path = slash :: rest ∧ skipped path = 1) ∨
      (skipped path = 0 ∧ skipSlash (skipDot path) = path) := by
  have hzero : (0 : UInt8) ≠ slash := by decide
  cases path with
  | nil => exact .inr (.inr ⟨rfl, rfl⟩)
  | cons c path =>
    by_cases hdot : c = dot ∧ path.headD 0 = slash
    · refine .inl ?_
      cases path with
      | nil => exact absurd hdot.2 hzero
      | cons d rest => exact ⟨rest, by rw [hdot.1, show d = slash from hdot.2], if_pos hdot⟩
    · have hskip : skipDot (c :: path) = c :: path := if_neg hdot
      by_cases hc : c = slash
      · exact .inr (.inl ⟨path, by rw [hc], (if_neg hdot).trans (if_pos hc)⟩)
      · refine .inr (.inr ⟨(if_neg hdot).trans (if_neg hc), ?_⟩)
        rw [hskip]
        exact if_neg hc

theorem skip_eq (path : List UInt8) : skipSlash (skipDot path) = path.drop (skipped path) := by
  rcases skipped_cases path with ⟨rest, rfl, h⟩ | ⟨rest, rfl, h⟩ | ⟨h, hskip⟩
  · rw [h]
    rfl
  · rw [h]
    rfl
  · rw [h, hskip, List.drop_zero]

theorem skipped_le (path : List UInt8) : skipped path ≤ path.length := by
  rcases skipped_cases path with ⟨rest, rfl, h⟩ | ⟨rest, rfl, h⟩ | ⟨h, -⟩ <;> rw [h] <;> simp

/-- Cutting the slash off leaves the beginning as it is: as much is skipped as before. -/
theorem skipped_cut {path : List UInt8} (h0 : 0 ∉ path) :
    skipped (path.take (skipped path) ++ cutSlash (path.drop (skipped path))) = skipped path := by
  rcases skipped_cases path with ⟨tail, rfl, h⟩ | ⟨tail, rfl, h⟩ | ⟨h, -⟩
  · rw [h]
    rfl
  · rw [h]
    rfl
  · rw [h, List.take_zero, List.nil_append, List.drop_zero, cutSlash]
    split
    · rename_i hcut
      rw [cstr_of_no_zero h0] at hcut ⊢
      -- of a name of one or two bytes the first is left, and nothing behind it
      match path, h, hcut with
      | [c], _, _ => rfl
      | [c, d], h, _ =>
        rw [skipped_cons] at h
        split at h
        · cases h
        · split at h
          · cases h
          · rename_i hc
            have hzero : (0 : UInt8) ≠ slash := by decide
            exact (if_neg fun hd => hzero hd.2).trans (if_neg hc)
      | c :: d :: e :: rest, h, _ => exact h
    · exact h

theorem length_le_cutSlash {path : List UInt8} (h0 : 0 ∉ path) : path.length ≤ (cutSlash path).length + 1 := by
  unfold cutSlash
  split
  · rw [cstr_of_no_zero h0, List.length_dropLast]
    omega
  · exact Nat.le_succ _

/-- Only a name's end is cut off. -/
theorem skipped_cut_ne_nil {path : List UInt8} (hne : path ≠ []) :
    path.take (skipped path) ++ cutSlash (path.drop (skipped path)) ≠ [] := by
  rcases skipped_cases path with ⟨tail, rfl, h⟩ | ⟨tail, rfl, h⟩ | ⟨h, hskip⟩
  · rw [h]
    exact List.cons_ne_nil _ _
  · rw [h]
    exact List.cons_ne_nil _ _
  · rw [h, List.take_zero, List.nil_append, List.drop_zero, cutSlash]
    split
    · rename_i hcut
      cases path with
      | nil => exact absurd rfl hne
      | cons c rest =>
        have hc : c ≠ 0 := hcut.1
        rw [cstr_cons hc] at hcut ⊢
        cases hrest : cstr rest with
        | nil =>
          -- the slash would be the first byte, and skipped
          have hslash : c = slash := by simpa [hrest] using hcut.2
          have hone : skipped (slash :: rest) = 1 := rfl
          rw [hslash, hone] at h
          exact absurd h (by decide)
        | cons d r => exact List.cons_ne_nil _ _
    · exact hne

/-! ## Paths of components -/

def joinSlash (comps : List (List UInt8)) : List UInt8 := [slash].intercalate comps

theorem joinSlash_cons (c : List UInt8) {cs : List (List UInt8)} (h : cs ≠ []) :
    joinSlash (c :: cs) = c ++ slash :: joinSlash cs := by
  rw [joinSlash, List.intercalate_cons_of_ne_nil h, List.append_assoc]
  rfl

theorem joinSlash_singleton (c : List UInt8) : joinSlash [c] = c := List.intercalate_singleton

theorem joinSlash_snoc {cs : List (List UInt8)} (h : cs ≠ []) (c : List UInt8) :
    joinSlash (cs ++ [c]) = joinSlash cs ++ slash :: c := by
  induction cs with
  | nil => exact absurd rfl h
  | cons b cs ih =>
    by_cases hcs : cs = []
    · subst hcs
      rw [List.singleton_append, joinSlash_cons b (List.cons_ne_nil _ _), joinSlash_singleton, joinSlash_singleton]
    · have hne : cs ++ [c] ≠ [] := by simp
      rw [List.cons_append, joinSlash_cons b hne, ih hcs, joinSlash_cons b hcs, List.append_assoc]
      rfl

theorem zero_not_mem_joinSlash {comps : List (List UInt8)} (h : ∀ c ∈ comps, 0 ∉ c) : 0 ∉ joinSlash comps := by
  induction comps with
  | nil => exact List.not_mem_nil
  | cons c cs ih =>
    rw [List.forall_mem_cons] at h
    by_cases hcs : cs = []
    · rw [hcs, joinSlash_singleton]
      exact h.1
    · rw [joinSlash_cons c hcs, List.mem_append, List.mem_cons]
      intro h
      rcases h with hc | hc | hc
      · exact h.1 hc
      · exact absurd hc (by decide)
      · exact ih h.2 hc

/-- A component as an entry's path has it. -/
structure Component (c : List UInt8) : Prop where
  ne_nil : c ≠ []
  no_nul : 0 ∉ c
  no_slash : slash ∉ c
  ne_dot : c ≠ [dot]

instance (c : List UInt8) : Decidable (Component c) :=
  decidable_of_iff (c ≠ [] ∧ 0 ∉ c ∧ slash ∉ c ∧ c ≠ [dot])
    ⟨fun h => ⟨h.1, h.2.1, h.2.2.1, h.2.2.2⟩, fun h => ⟨h.ne_nil, h.no_nul, h.no_slash, h.ne_dot⟩⟩

section

variable {comps : List (List UInt8)} (h : ∀ c ∈ comps, Component c)
include h

theorem joinSlash_no_nul : 0 ∉ joinSlash comps := zero_not_mem_joinSlash fun c hc => (h c hc).no_nul

theorem joinSlash_eq_nil : joinSlash comps = [] ↔ comps = [] := by
  refine ⟨fun hj => ?_, fun hc => hc ▸ rfl⟩
  cases comps with
  | nil => rfl
  | cons c cs =>
    by_cases hcs : cs = []
    · rw [hcs, joinSlash_singleton] at hj
      exact absurd hj (h c List.mem_cons_self).ne_nil
    · rw [joinSlash_cons c hcs] at hj
      simp at hj

theorem length_le_joinSlash : comps.length ≤ (joinSlash comps).length := by
  induction comps with
  | nil => exact Nat.le_refl _
  | cons c cs ih =>
    rw [List.forall_mem_cons] at h
    have hc := List.length_pos_iff.mpr h.1.ne_nil
    by_cases hcs : cs = []
    · rw [hcs, joinSlash_singleton]
      exact hc
    · have hrest := ih h.2
      rw [joinSlash_cons c hcs, List.length_cons, List.length_append, List.length_cons]
      omega

/-- Splitting off the basename undoes the last join. -/
theorem splitBasename_joinSlash {cs : List (List UInt8)} {c : List UInt8} (hcs : comps = cs ++ [c]) :
    splitBasename (joinSlash comps) = (joinSlash cs, c) := by
  subst hcs
  have hc := h c (by simp)
  by_cases hnil : cs = []
  · subst hnil
    rw [List.nil_append, joinSlash_singleton, splitBasename_plain hc.no_nul hc.no_slash]
    rfl
  · have hno : 0 ∉ joinSlash cs := zero_not_mem_joinSlash fun d hd => (h d (List.mem_append_left _ hd)).no_nul
    rw [joinSlash_snoc hnil, splitBasename_slash hno hc.no_nul hc.no_slash]

/-- A path starts with neither `/` nor `./`, whatever follows it. -/
theorem skip_joinSlash (hne : comps ≠ []) {tail : List UInt8} (htail : tail = [] ∨ tail = [slash]) :
    skipSlash (skipDot (joinSlash comps ++ tail)) = joinSlash comps ++ tail := by
  cases comps with
  | nil => exact absurd rfl hne
  | cons c cs =>
    have hc := h c List.mem_cons_self
    -- the path goes on with a slash, or ends, behind its first component
    obtain ⟨rest, hrest⟩ : ∃ rest, joinSlash (c :: cs) ++ tail = c ++ rest ∧ (rest = [] ∨ rest.headD 0 = slash) := by
      by_cases hcs : cs = []
      · rw [hcs, joinSlash_singleton]
        rcases htail with rfl | rfl
        · exact ⟨[], rfl, .inl rfl⟩
        · exact ⟨[slash], rfl, .inr rfl⟩
      · rw [joinSlash_cons c hcs, List.append_assoc]
        exact ⟨_, rfl, .inr rfl⟩
    rw [hrest.1]
    cases c with
    | nil => exact absurd rfl hc.ne_nil
    | cons b c =>
      have hb : b ≠ slash := fun hb => hc.no_slash (hb ▸ List.mem_cons_self)
      have hdot : skipDot (b :: c ++ rest) = b :: c ++ rest := by
        rw [skipDot, if_neg]
        intro h
        obtain ⟨hd, hs⟩ := h
        cases c with
        | nil => exact hc.ne_dot (congrArg (fun b => [b]) hd)
        | cons d c => exact hc.no_slash (hs ▸ List.mem_cons_of_mem _ List.mem_cons_self)
      rw [hdot, skipSlash, if_neg]
      exact hb

theorem getLastD_joinSlash (hne : comps ≠ []) : (joinSlash comps).getLastD 0 ≠ slash := by
  obtain ⟨cs, c, rfl⟩ : ∃ cs c, comps = cs ++ [c] := ⟨_, _, (List.dropLast_append_getLast hne).symm⟩
  have hc := h c (by simp)
  obtain ⟨d, b, rfl⟩ : ∃ d b, c = d ++ [b] := ⟨_, _, (List.dropLast_append_getLast hc.ne_nil).symm⟩
  have hb : b ≠ slash := fun hb => hc.no_slash (by simp [hb])
  by_cases hnil : cs = []
  · rw [hnil, List.nil_append, joinSlash_singleton]
    simpa using hb
  · have hlast : joinSlash cs ++ slash :: (d ++ [b]) = (joinSlash cs ++ slash :: d) ++ [b] := by simp
    rw [joinSlash_snoc hnil, hlast, List.getLastD_concat]
    exact hb

/-- One trailing slash is cut off. -/
theorem cutSlash_joinSlash {tail : List UInt8} (htail : tail = [] ∨ tail = [slash]) :
    cutSlash (joinSlash comps ++ tail) = joinSlash comps := by
  have hno := joinSlash_no_nul h
  rcases htail with rfl | rfl
  · rw [List.append_nil, cutSlash, if_neg]
    intro h
    obtain ⟨hhead, hlast⟩ := h
    rw [cstr_of_no_zero hno] at hlast
    refine getLastD_joinSlash h ?_ hlast
    rintro rfl
    exact hhead rfl
  · have hno' : 0 ∉ joinSlash comps ++ [slash] := by
      rw [List.mem_append, List.mem_singleton]
      intro h
      rcases h with h0 | h0
      · exact hno h0
      · exact absurd h0 (by decide)
    have hhead : (joinSlash comps ++ [slash]).headD 0 ≠ 0 := headD_ne_zero (by simp) hno'
    rw [cutSlash, cstr_of_no_zero hno', if_pos ⟨hhead, by simp⟩, List.dropLast_concat]

end

/-! ## Slashes at the end -/

/-- `path` is `orig` without some of the slashes at its end. -/
def CutFrom (orig path : List UInt8) : Prop := ∃ k, orig = path ++ List.replicate k slash

/-- The last component of a path. Slashes at its end are not looked at. -/
def lastComponent (path : List UInt8) : List UInt8 := (path.rdropWhile (· == slash)).rtakeWhile (· != slash)

section

variable {orig path path' : List UInt8}

theorem CutFrom.refl (path : List UInt8) : CutFrom path path := ⟨0, by simp⟩

theorem CutFrom.trans (h : CutFrom orig path) (h' : CutFrom path path') : CutFrom orig path' := by
  obtain ⟨k, rfl⟩ := h
  obtain ⟨l, rfl⟩ := h'
  exact ⟨l + k, by rw [List.append_assoc, List.replicate_append_replicate]⟩

theorem cutFrom_cutSlash (h0 : 0 ∉ path) : CutFrom path (cutSlash path) := by
  unfold cutSlash
  rw [cstr_of_no_zero h0]
  split
  · rename_i hcut
    rcases List.eq_nil_or_concat' path with rfl | ⟨d, b, rfl⟩
    · exact .refl _
    · have hb : b = slash := by simpa using hcut.2
      exact ⟨1, by simp [hb]⟩
  · exact .refl _

theorem CutFrom.lastComponent (h : CutFrom orig path) : lastComponent orig = lastComponent path := by
  obtain ⟨k, rfl⟩ := h
  unfold Tar.lastComponent
  congr 1
  induction k with
  | zero => rw [List.replicate_zero, List.append_nil]
  | succ k ih => rw [List.replicate_succ', ← List.append_assoc, List.rdropWhile_concat_pos _ _ _ (by simp), ih]

/-- Without a slash at its end a path stays. -/
theorem CutFrom.eq (h : CutFrom orig path) (hlast : orig.getLastD 0 ≠ slash) : path = orig := by
  obtain ⟨k, rfl⟩ := h
  cases k with
  | zero => rw [List.replicate_zero, List.append_nil]
  | succ k =>
    rw [List.replicate_succ', ← List.append_assoc, List.getLastD_concat] at hlast
    exact absurd rfl hlast

/-- What `split_basename` splits off. -/
theorem splitBasename_basename (h0 : 0 ∉ path) : (splitBasename path).2 = path.rtakeWhile (· != slash) := by
  have hsplit : path.rdropWhile (· != slash) ++ path.rtakeWhile (· != slash) = path := List.rdropWhile_append_rtakeWhile
  have hname : slash ∉ path.rtakeWhile (· != slash) := fun hmem => by simpa using List.mem_rtakeWhile_imp hmem
  generalize hb : path.rtakeWhile (· != slash) = b at hsplit hname
  rcases List.eq_nil_or_concat' (path.rdropWhile (· != slash)) with hd | ⟨d, c, hd⟩
  · rw [hd, List.nil_append] at hsplit
    rw [← hsplit]
    exact congrArg Prod.snd (splitBasename_plain (hsplit ▸ h0) hname)
  · have hc : c = slash := by
      have hlast := List.rdropWhile_last_not (fun x => x != slash) path (by rw [hd]; simp)
      simpa [hd] using hlast
    rw [hd, hc, List.append_assoc, List.singleton_append] at hsplit
    rw [← hsplit, List.mem_append, List.mem_cons, not_or, not_or] at h0
    rw [← hsplit]
    exact congrArg Prod.snd (splitBasename_slash h0.1 h0.2.2 hname)

/-- It is the last component, or empty because of a slash. -/
theorem basename_cases (h0 : 0 ∉ path) :
    (splitBasename path).2 = lastComponent path ∨ path.getLastD 0 = slash ∧ (splitBasename path).2 = [] := by
  rw [splitBasename_basename h0]
  rcases List.eq_nil_or_concat' path with rfl | ⟨d, c, rfl⟩
  · exact .inl rfl
  · by_cases hc : c = slash
    · exact .inr ⟨by rw [List.getLastD_concat, hc], List.rtakeWhile_concat_neg _ _ _ (by simp [hc])⟩
    · rw [lastComponent, List.rdropWhile_concat_neg _ _ _ (by simpa using hc)]
      exact .inl rfl

theorem basename_ne_nil (h0 : 0 ∉ path) (hne : path ≠ []) (hlast : path.getLastD 0 ≠ slash) : (splitBasename path).2 ≠ [] := by
  obtain ⟨d, c, rfl⟩ := (List.eq_nil_or_concat' path).resolve_left hne
  rw [List.getLastD_concat] at hlast
  rw [splitBasename_basename h0, List.rtakeWhile_concat_pos _ _ _ (by simpa using hlast)]
  simp

end

end NativeOS.Fs.Tar
