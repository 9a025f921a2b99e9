/-
  NativeOS.Lib.Forest — parent links that are a forest.

  Elements get their parents one after the other, in a sequence: each is new, and its parent,
  if it has one, is there already (`Grown`). So links only lead backwards, and following
  them never comes round.
-/

import Mathlib.Logic.Relation
import Mathlib.Data.List.Nodup

namespace NativeOS.Lib.Forest

variable {α : Type} {parent parent' : α → Option α} {l : List α} {x y z : α}

/-- The sequence in which the elements were linked. -/
inductive Grown (parent : α → Option α) : List α → Prop
  | nil : Grown parent []
  | snoc {l : List α} {x : α} : Grown parent l → x ∉ l → (∀ p, parent x = some p → p ∈ l) → Grown parent (l ++ [x])

/-- One link up. -/
def Under (parent : α → Option α) (x y : α) : Prop := parent x = some y

theorem Grown.nodup (h : Grown parent l) : l.Nodup := by
  induction h with
  | nil => exact List.nodup_nil
  | snoc _ hx _ ih =>
    refine List.nodup_append.mpr ⟨ih, List.nodup_singleton _, ?_⟩
    rintro a ha b hb rfl
    exact hx (List.mem_singleton.mp hb ▸ ha)

theorem Grown.parent_mem (h : Grown parent l) (hx : x ∈ l) (hp : Under parent x y) : y ∈ l := by
  induction h with
  | nil => cases hx
  | snoc _ _ hparent ih =>
    rcases List.mem_append.mp hx with hx | hx
    · exact List.mem_append_left _ (ih hx)
    · rw [List.mem_singleton.mp hx] at hp
      exact List.mem_append_left _ (hparent _ hp)

theorem Grown.ancestor_mem (h : Grown parent l) (hx : x ∈ l) (hy : Relation.TransGen (Under parent) x y) : y ∈ l := by
  induction hy with
  | single hp => exact h.parent_mem hx hp
  | tail _ hp ih => exact h.parent_mem ih hp

/-- Nothing is its own ancestor. -/
theorem Grown.acyclic (h : Grown parent l) (hx : x ∈ l) : ¬ Relation.TransGen (Under parent) x x := by
  induction h with
  | nil => cases hx
  | @snoc l y hgrown hnew hparent ih =>
    rcases List.mem_append.mp hx with hx | hx
    · exact ih hx
    · obtain rfl := List.mem_singleton.mp hx
      intro hcycle
      obtain ⟨p, hp, hrest⟩ := Relation.TransGen.head'_iff.mp hcycle
      -- the ancestors of its parent were all there before it
      rcases Relation.reflTransGen_iff_eq_or_transGen.mp hrest with rfl | hrest
      · exact hnew (hparent _ hp)
      · exact hnew (hgrown.ancestor_mem (hparent _ hp) hrest)

/-- Linking something else leaves a forest as it is. -/
theorem Grown.congr (h : Grown parent l) (hsame : ∀ x ∈ l, parent' x = parent x) : Grown parent' l := by
  induction h with
  | nil => exact .nil
  | snoc _ hnew hparent ih =>
    refine .snoc (ih fun x hx => hsame x (List.mem_append_left _ hx)) hnew fun p hp => ?_
    rw [hsame _ (List.mem_append_right _ (List.mem_singleton_self _))] at hp
    exact hparent p hp

end NativeOS.Lib.Forest
