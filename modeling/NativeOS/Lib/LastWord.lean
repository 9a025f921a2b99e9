/-
  NativeOS.Lib.LastWord — sequences in which the last entry about something decides.

  `word` tells what an entry says about one thing, if anything. A state that is worked
  through such entries shows what the last of them said, or what it showed before.
-/

import Mathlib.Data.List.Basic

namespace NativeOS.Lib

variable {α β σ χ : Type}

def lastSaid (word : α → Option β) (l : List α) : Option β := (l.filterMap word).getLast?

variable {word : α → Option β} {a : α} {l : List α} {b : β}

@[simp] theorem lastSaid_nil : lastSaid word [] = none := rfl

theorem lastSaid_append (l l' : List α) : lastSaid word (l ++ l') = (lastSaid word l').or (lastSaid word l) := by
  unfold lastSaid
  rw [List.filterMap_append, List.getLast?_append]

theorem lastSaid_cons (a : α) (l : List α) : lastSaid word (a :: l) = (lastSaid word l).or (word a) := by
  have h : lastSaid word [a] = word a := by
    unfold lastSaid
    cases hs : word a with
    | none => rw [List.filterMap_cons_none hs, List.filterMap_nil, List.getLast?_nil]
    | some b => rw [List.filterMap_cons_some hs, List.filterMap_nil, List.getLast?_singleton]
  rw [← List.singleton_append, lastSaid_append, h]

theorem lastSaid_concat (l : List α) (a : α) : lastSaid word (l ++ [a]) = (word a).or (lastSaid word l) := by
  rw [lastSaid_append, lastSaid_cons, lastSaid_nil, Option.none_or]

/-! ## Worked through one after the other -/

/-- The run rule, for steps that can fail, in a run where none does. -/
theorem foldlM_lastSaid {step : σ → α → Except χ σ} (view : σ → Option β)
    (hstep : ∀ s a s', step s a = .ok s' → view s' = (word a).or (view s)) {s s' : σ} {l : List α}
    (h : l.foldlM step s = .ok s') : view s' = (lastSaid word l).or (view s) := by
  induction l generalizing s with
  | nil =>
    cases h
    rfl
  | cons a l ih =>
    rw [List.foldlM_cons] at h
    cases ha : step s a with
    | error x =>
      rw [ha] at h
      cases h
    | ok s1 =>
      rw [ha] at h
      rw [ih h, hstep s a s1 ha, lastSaid_cons, Option.or_assoc]

/-- What each step adds to a record, in order. -/
theorem foldlM_collects {step : σ → α → Except χ σ} (record : σ → List β) {tells : α → Option β}
    (hstep : ∀ s a s', step s a = .ok s' → record s' = record s ++ (tells a).toList) {s s' : σ} {l : List α}
    (h : l.foldlM step s = .ok s') : record s' = record s ++ l.filterMap tells := by
  induction l generalizing s with
  | nil =>
    cases h
    exact (List.append_nil _).symm
  | cons a l ih =>
    rw [List.foldlM_cons] at h
    cases ha : step s a with
    | error x =>
      rw [ha] at h
      cases h
    | ok s1 =>
      rw [ha] at h
      rw [ih h, hstep s a s1 ha, List.append_assoc]
      cases ht : tells a with
      | none => rw [List.filterMap_cons_none ht, Option.toList_none, List.nil_append]
      | some b => rw [List.filterMap_cons_some ht, Option.toList_some, List.singleton_append]

end NativeOS.Lib
