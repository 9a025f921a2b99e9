/-
  NativeOS.Lib.Text — texts as lists: what is trimmed off their ends, cutting them up at a
  separator, and the words in them.

  `split sep` cuts a list at each occurrence of `sep`, from the left and without overlaps:
  the separator is looked for behind the last one found. What is left of the first cut has
  no occurrence in it.
-/

import Mathlib.Data.List.DropRight
import Mathlib.Data.List.Infix

namespace NativeOS.Lib

variable {α : Type}

/-! ## Ends -/

theorem rdropWhile_append_of_not_all {p : α → Bool} (l : List α) {l' : List α} (h : ∃ x ∈ l', ¬ p x) :
    (l ++ l').rdropWhile p = l ++ l'.rdropWhile p := by
  induction l' using List.reverseRecOn with
  | nil =>
    obtain ⟨x, hx, -⟩ := h
    exact absurd hx List.not_mem_nil
  | append_singleton l' x ih =>
    rw [← List.append_assoc]
    by_cases hx : p x
    · rw [List.rdropWhile_concat_pos _ _ _ hx, List.rdropWhile_concat_pos _ _ _ hx]
      refine ih ?_
      obtain ⟨y, hy, hpy⟩ := h
      rcases List.mem_append.mp hy with hy | hy
      · exact ⟨y, hy, hpy⟩
      · rw [List.mem_singleton.mp hy] at hpy
        exact absurd hx hpy
    · rw [List.rdropWhile_concat_neg _ _ _ hx, List.rdropWhile_concat_neg _ _ _ hx, List.append_assoc]

/-- Trimming less first changes nothing. -/
theorem rdropWhile_rdropWhile {p q : α → Bool} (h : ∀ x, q x → p x) (l : List α) :
    (l.rdropWhile q).rdropWhile p = l.rdropWhile p := by
  induction l using List.reverseRecOn with
  | nil => rfl
  | append_singleton l x ih =>
    by_cases hx : q x
    · rw [List.rdropWhile_concat_pos _ _ _ hx, List.rdropWhile_concat_pos _ _ _ (h x hx), ih]
    · rw [List.rdropWhile_concat_neg _ _ _ hx]

theorem rdropWhile_getLast? {p : α → Bool} {l : List α} {x : α} (h : (l.rdropWhile p).getLast? = some x) : ¬ p x := by
  have hne : l.rdropWhile p ≠ [] := by
    intro h0
    rw [h0] at h
    cases h
  rw [List.getLast?_eq_getLast_of_ne_nil hne, Option.some.injEq] at h
  rw [← h]
  exact List.rdropWhile_last_not p l hne

/-- A list whose last entry stays is not trimmed. -/
theorem rdropWhile_eq_self {p : α → Bool} {l : List α} (h : ∀ x, l.getLast? = some x → ¬ p x) : l.rdropWhile p = l := by
  rw [List.rdropWhile_eq_self_iff]
  intro hne
  exact h _ (List.getLast?_eq_getLast_of_ne_nil hne)

/-- Where a list ends in entries of one kind, behind one of another. -/
theorem rtakeWhile_append_of {p : α → Bool} {l l' : List α} (hl : ∀ x ∈ l.getLast?, ¬ p x) (hl' : ∀ x ∈ l', p x) :
    (l ++ l').rtakeWhile p = l' := by
  induction l' using List.reverseRecOn with
  | nil =>
    rw [List.append_nil, List.rtakeWhile_eq_nil_iff]
    intro hne
    exact hl _ (List.getLast?_eq_getLast_of_ne_nil hne)
  | append_singleton l' x ih =>
    have hx : p x := hl' x (List.mem_append_right l' List.mem_cons_self)
    rw [← List.append_assoc, List.rtakeWhile_concat_pos _ _ _ hx, ih fun y hy => hl' y (List.mem_append_left [x] hy)]

theorem rdropWhile_append_of {p : α → Bool} {l l' : List α} (hl : ∀ x ∈ l.getLast?, ¬ p x) (hl' : ∀ x ∈ l', p x) :
    (l ++ l').rdropWhile p = l := by
  have h : (l ++ l').rdropWhile p ++ (l ++ l').rtakeWhile p = l ++ l' := List.rdropWhile_append_rtakeWhile
  rw [rtakeWhile_append_of hl hl'] at h
  exact List.append_cancel_right h

theorem dropWhile_eq_self {p : α → Bool} {l : List α} (h : ∀ x, l.head? = some x → ¬ p x) : l.dropWhile p = l := by
  rw [List.dropWhile_eq_self_iff]
  intro hlen
  exact h _ (by rw [List.head?_eq_getElem?, List.getElem?_eq_getElem hlen])

/-- Up to the first entry that fails the test, and from there on. -/
theorem takeWhile_append_of {p : α → Bool} {c : α} {l : List α} (h : ∀ x ∈ l, p x) (hc : ¬ p c) (l' : List α) :
    (l ++ c :: l').takeWhile p = l := by
  rw [List.takeWhile_append_of_pos h, List.takeWhile_cons_of_neg hc, List.append_nil]

theorem dropWhile_append_of {p : α → Bool} {c : α} {l : List α} (h : ∀ x ∈ l, p x) (hc : ¬ p c) (l' : List α) :
    (l ++ c :: l').dropWhile p = c :: l' := by
  rw [List.dropWhile_append_of_pos h, List.dropWhile_cons_of_neg hc]

/-- Up to an entry that does not stand before, and from there on. -/
theorem takeWhile_ne_append [DecidableEq α] {c : α} {l : List α} (h : c ∉ l) (l' : List α) :
    (l ++ c :: l').takeWhile (· ≠ c) = l :=
  takeWhile_append_of (fun x hx => by simpa using ne_of_mem_of_not_mem hx h) (by simp) l'

theorem dropWhile_ne_append [DecidableEq α] {c : α} {l : List α} (h : c ∉ l) (l' : List α) :
    (l ++ c :: l').dropWhile (· ≠ c) = c :: l' :=
  dropWhile_append_of (fun x hx => by simpa using ne_of_mem_of_not_mem hx h) (by simp) l'

/-- What stands in front is left off as a whole exactly if all of it passes the test. -/
theorem dropWhile_append_eq_iff {p : α → Bool} (front l : List α) :
    l.dropWhile p = (front ++ l).dropWhile p ↔ ∀ x ∈ front, p x := by
  constructor
  · intro h
    induction front with
    | nil => simp
    | cons x front ih =>
      rw [List.cons_append] at h
      by_cases hx : p x
      · rw [List.dropWhile_cons_of_pos hx] at h
        exact List.forall_mem_cons.mpr ⟨hx, ih h⟩
      · -- the right side would be longer than the left can be
        rw [List.dropWhile_cons_of_neg hx] at h
        have hle : (l.dropWhile p).length ≤ l.length := List.length_dropWhile_le _ _
        rw [h, List.length_cons, List.length_append] at hle
        omega
  · intro h
    rw [List.dropWhile_append_of_pos h]

theorem head?_append_of {l l' : List α} {x : α} (h : (l ++ l').head? = some x) :
    l.head? = some x ∨ l = [] ∧ l'.head? = some x := by
  cases l with
  | nil => exact .inr ⟨rfl, h⟩
  | cons c l => exact .inl h

/-! ## Joining -/

theorem intercalate_modifyHead (sep l : List α) {parts : List (List α)} (h : parts ≠ []) :
    sep.intercalate (parts.modifyHead (l ++ ·)) = l ++ sep.intercalate parts := by
  cases parts with
  | nil => exact absurd rfl h
  | cons p parts =>
    rw [List.modifyHead_cons]
    cases parts with
    | nil => rw [List.intercalate_singleton, List.intercalate_singleton]
    | cons q parts => simp only [List.intercalate_cons_cons, List.append_assoc]

/-! ## Where nothing begins -/

/-- Among entries that are not the separator's first. -/
theorem not_begins_of_not_mem {sep l : List α} {c : α} (hc : sep.head? = some c) (h : c ∉ l) (l' : List α) :
    ∀ x y, l = x ++ y → y ≠ [] → ¬ sep <+: y ++ l' := by
  intro x y hl hy hpre
  cases y with
  | nil => exact hy rfl
  | cons d y =>
    have hd : sep.head? = some d := by
      obtain ⟨t, ht⟩ := hpre
      cases sep with
      | nil => cases hc
      | cons e sep => exact congrArg some (List.cons.inj ht).1
    rw [hd, Option.some.injEq] at hc
    rw [hl, ← hc] at h
    exact h (List.mem_append_right x List.mem_cons_self)

/-- In a list without an occurrence, before an entry that is in none. -/
theorem not_begins_of_absent {sep l l' : List α} (h : ¬ sep <:+: l) {d : α} (hd : l'.head? = some d) (hnot : d ∉ sep) :
    ∀ x y, l = x ++ y → y ≠ [] → ¬ sep <+: y ++ l' := by
  intro x y hl _ hpre
  by_cases hlen : sep.length ≤ y.length
  · have hin : sep <+: y := List.prefix_of_prefix_length_le hpre (List.prefix_append y _) hlen
    refine h (hin.isInfix.trans ?_)
    rw [hl]
    exact (List.suffix_append x y).isInfix
  · cases l' with
    | nil => cases hd
    | cons e l' =>
      cases hd
      have hover : y ++ [d] <+: sep := by
        refine List.prefix_of_prefix_length_le ⟨l', by simp⟩ hpre ?_
        rw [List.length_append, List.length_singleton]
        omega
      exact hnot (hover.subset (by simp))

/-! ## Cutting up -/

section Split

variable [DecidableEq α]

/-- `skip` entries still belong to the separator found last. -/
def splitLoop (sep : List α) : Nat → List α → List (List α)
  | _, [] => [[]]
  | skip + 1, _ :: l => splitLoop sep skip l
  | 0, c :: l =>
    if sep <+: c :: l then [] :: splitLoop sep (sep.length - 1) l else (splitLoop sep 0 l).modifyHead (c :: ·)

def split (sep l : List α) : List (List α) := splitLoop sep 0 l

/-- Every occurrence of `old` becomes `new`. -/
def replace (old new l : List α) : List α := new.intercalate (split old l)

variable {sep : List α}

theorem splitLoop_skip (skip : Nat) (l : List α) : splitLoop sep skip l = split sep (l.drop skip) := by
  induction skip generalizing l with
  | zero => rfl
  | succ skip ih =>
    cases l with
    | nil => rfl
    | cons c l => exact ih l

theorem split_nil : split sep [] = [[]] := rfl

theorem split_cons {c : α} {l : List α} (h : ¬ sep <+: c :: l) : split sep (c :: l) = (split sep l).modifyHead (c :: ·) :=
  if_neg h

/-- An occurrence at the front. -/
theorem split_front (hsep : sep ≠ []) (l : List α) : split sep (sep ++ l) = [] :: split sep l := by
  cases sep with
  | nil => exact absurd rfl hsep
  | cons c sep =>
    have hcut : split (c :: sep) (c :: sep ++ l) = [] :: splitLoop (c :: sep) sep.length (sep ++ l) :=
      if_pos (List.prefix_append (c :: sep) l)
    rw [hcut, splitLoop_skip, List.drop_left]

theorem split_ne_nil (l : List α) : split sep l ≠ [] := by
  induction l with
  | nil => exact List.cons_ne_nil _ _
  | cons c l ih =>
    by_cases h : sep <+: c :: l
    · unfold split splitLoop
      rw [if_pos h]
      exact List.cons_ne_nil _ _
    · rw [split_cons h]
      simpa using ih

/-- Entries at which no occurrence begins. -/
theorem split_append {l l' : List α} (h : ∀ x y, l = x ++ y → y ≠ [] → ¬ sep <+: y ++ l') :
    split sep (l ++ l') = (split sep l').modifyHead (l ++ ·) := by
  induction l with
  | nil =>
    cases hs : split sep l' with
    | nil => exact absurd hs (split_ne_nil l')
    | cons p ps => rw [List.nil_append, hs]; rfl
  | cons c l ih =>
    have hfront : ¬ sep <+: c :: (l ++ l') := h [] (c :: l) rfl (List.cons_ne_nil c l)
    rw [List.cons_append, split_cons hfront, ih, List.modifyHead_modifyHead]
    · rfl
    · intro x y hl hy
      exact h (c :: x) y (by rw [hl, List.cons_append]) hy

/-- Nothing is found, and nothing cut. -/
theorem split_of_absent {l : List α} (h : ¬ sep <:+: l) : split sep l = [l] := by
  have hbegins : ∀ x y, l = x ++ y → y ≠ [] → ¬ sep <+: y ++ [] := by
    intro x y hl _ hpre
    rw [List.append_nil] at hpre
    refine h (hpre.isInfix.trans ?_)
    rw [hl]
    exact (List.suffix_append x y).isInfix
  have hnone := split_append hbegins
  rw [List.append_nil] at hnone
  rw [hnone, split_nil, List.modifyHead_cons, List.append_nil]

/-- The first cut. -/
theorem split_first (hsep : sep ≠ []) {l l' : List α} (h : ∀ x y, l = x ++ y → y ≠ [] → ¬ sep <+: y ++ (sep ++ l')) :
    split sep (l ++ (sep ++ l')) = l :: split sep l' := by
  rw [split_append h, split_front hsep, List.modifyHead_cons, List.append_nil]

/-- What is found is cut. -/
theorem one_lt_length_split (hsep : sep ≠ []) {l : List α} (h : sep <:+: l) : 1 < (split sep l).length := by
  induction l with
  | nil => exact absurd (List.eq_nil_of_infix_nil h) hsep
  | cons c l ih =>
    by_cases hp : sep <+: c :: l
    · obtain ⟨l', hl'⟩ := hp
      rw [← hl', split_front hsep, List.length_cons]
      have hrest : 0 < (split sep l').length := List.length_pos_of_ne_nil (split_ne_nil l')
      omega
    · rw [split_cons hp, List.length_modifyHead]
      exact ih ((List.infix_cons_iff.mp h).resolve_left hp)

/-! ## Replacing -/

theorem replace_front {new : List α} (hsep : sep ≠ []) (l : List α) : replace sep new (sep ++ l) = new ++ replace sep new l := by
  unfold replace
  rw [split_front hsep, List.intercalate_cons_of_ne_nil (split_ne_nil l)]
  rfl

/-- Entries at which no occurrence begins stay. -/
theorem replace_append {new l l' : List α} (h : ∀ x y, l = x ++ y → y ≠ [] → ¬ sep <+: y ++ l') :
    replace sep new (l ++ l') = l ++ replace sep new l' := by
  unfold replace
  rw [split_append h, intercalate_modifyHead new l (split_ne_nil l')]

theorem replace_of_absent {new l : List α} (h : ¬ sep <:+: l) : replace sep new l = l := by
  unfold replace
  rw [split_of_absent h, List.intercalate_singleton]

end Split

/-! ## Words -/

/-- The longest parts without an entry of `ws`, but the empty ones. -/
def words (ws : α → Bool) (l : List α) : List (List α) := (l.splitOnP ws).filter fun w => !w.isEmpty

section Words

variable {ws : α → Bool} {c : α} {l l' : List α}

theorem words_append_cons (h : ws c) (l l' : List α) : words ws (l ++ c :: l') = words ws l ++ words ws l' := by
  unfold words
  rw [List.splitOnP_append_cons l l' h, List.filter_append]

@[simp] theorem words_nil : words ws [] = [] := by
  unfold words
  rw [List.splitOnP_nil]
  rfl

theorem words_cons (h : ws c) (l : List α) : words ws (c :: l) = words ws l := by
  have hcut := words_append_cons h [] l
  rwa [List.nil_append, words_nil, List.nil_append] at hcut

theorem words_concat (h : ws c) (l : List α) : words ws (l ++ [c]) = words ws l := by
  rw [words_append_cons h, words_nil, List.append_nil]

/-- Where the first list ends between two words. -/
theorem words_append (h : ∀ c ∈ l.getLast?, ws c) (l' : List α) : words ws (l ++ l') = words ws l ++ words ws l' := by
  rcases List.eq_nil_or_concat' l with rfl | ⟨front, c, rfl⟩
  · rw [List.nil_append, words_nil, List.nil_append]
  · have hc : ws c := h c List.getLast?_concat
    rw [← List.append_cons, words_append_cons hc, words_concat hc]

theorem words_of_word (hne : l ≠ []) (h : ∀ c ∈ l, ws c = false) : words ws l = [l] := by
  unfold words
  rw [List.splitOnP_eq_singleton h, List.filter_cons_of_pos (by simpa using hne), List.filter_nil]

end Words

/-! ## Lines -/

section Lines

variable [DecidableEq α] {nl : α} {l : List α}

/-- The parts that end in `nl`, and what is left behind the last one, if anything. -/
def lines (nl : α) (l : List α) : List (List α) :=
  (l.splitOn nl).dropLast ++ (l.splitOn nl).getLast?.toList.filter fun part => !part.isEmpty

@[simp] theorem lines_nil : lines nl [] = [] := by
  unfold lines
  rw [List.splitOn_nil]
  rfl

theorem lines_append_cons (l l' : List α) : lines nl (l ++ nl :: l') = l.splitOn nl ++ lines nl l' := by
  have hne : l'.splitOn nl ≠ [] := List.splitOn_ne_nil nl l'
  have hlast : (l.splitOn nl ++ l'.splitOn nl).getLast? = (l'.splitOn nl).getLast? := by
    rw [List.getLast?_append, List.getLast?_eq_getLast_of_ne_nil hne, Option.some_or]
  unfold lines
  rw [List.splitOn_append_cons_self, List.dropLast_append_of_ne_nil hne, hlast, List.append_assoc]

theorem lines_concat (l : List α) : lines nl (l ++ [nl]) = l.splitOn nl := by
  rw [lines_append_cons, lines_nil, List.append_nil]

/-- One line, and what comes behind it. -/
theorem lines_of_line (h : nl ∉ l) (l' : List α) : lines nl (l ++ nl :: l') = l :: lines nl l' := by
  rw [lines_append_cons, List.splitOn_eq_singleton h, List.singleton_append]

/-- Where the first list ends with a line. -/
theorem lines_append (h : ∀ c ∈ l.getLast?, c = nl) (l' : List α) : lines nl (l ++ l') = lines nl l ++ lines nl l' := by
  rcases List.eq_nil_or_concat' l with rfl | ⟨front, c, rfl⟩
  · rw [List.nil_append, lines_nil, List.nil_append]
  · have hc : c = nl := h c List.getLast?_concat
    rw [hc, ← List.append_cons, lines_append_cons, lines_concat]

/-- Lines written with a newline behind each. -/
theorem lines_flatten {parts : List (List α)} (h : ∀ part ∈ parts, nl ∉ part) :
    lines nl (parts.map (· ++ [nl])).flatten = parts := by
  induction parts with
  | nil => exact lines_nil
  | cons part parts ih =>
    rw [List.forall_mem_cons] at h
    rw [List.map_cons, List.flatten_cons, ← List.append_cons, lines_of_line h.1, ih h.2]

end Lines

end NativeOS.Lib
