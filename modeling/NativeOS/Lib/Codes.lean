/-
  NativeOS.Lib.Codes — words of a prefix-free code, one after another.

  A code is a set of words, none empty and none a prefix of another. A stream of whole words
  then falls into words in one way only (`flatten_inj`), so two readers that each took it
  word by word took the same words.
-/

import Mathlib.Data.List.Basic

namespace NativeOS.Lib

structure Code {α : Type} (Word : List α → Prop) : Prop where
  nonempty : ∀ w, Word w → w ≠ []
  prefixFree : ∀ w v, Word w → Word v → w <+: v → w = v

namespace Code

variable {α : Type} {Word : List α → Prop}

theorem flatten_eq_nil (h : Code Word) {ws : List (List α)} (hws : ∀ w ∈ ws, Word w) (he : ws.flatten = []) : ws = [] := by
  cases ws with
  | nil => rfl
  | cons w ws =>
    rw [List.flatten_cons, List.append_eq_nil_iff] at he
    exact absurd he.1 (h.nonempty w (hws w List.mem_cons_self))

theorem head_eq (h : Code Word) {w v s t : List α} (hw : Word w) (hv : Word v) (he : w ++ s = v ++ t) : w = v := by
  have hwp : w <+: v ++ t := ⟨s, he⟩
  have hvp : v <+: v ++ t := ⟨t, rfl⟩
  rcases List.prefix_or_prefix_of_prefix hwp hvp with hp | hp
  · exact h.prefixFree w v hw hv hp
  · exact (h.prefixFree v w hv hw hp).symm

theorem flatten_inj (h : Code Word) : ∀ {ws vs : List (List α)}, (∀ w ∈ ws, Word w) → (∀ v ∈ vs, Word v) →
    ws.flatten = vs.flatten → ws = vs
  | [], _, _, hvs, he => (h.flatten_eq_nil hvs he.symm).symm
  | _ :: _, [], hws, _, he => h.flatten_eq_nil hws he
  | w :: ws, v :: vs, hws, hvs, he => by
    rw [List.forall_mem_cons] at hws hvs
    rw [List.flatten_cons, List.flatten_cons] at he
    have hwv := h.head_eq hws.1 hvs.1 he
    subst hwv
    rw [h.flatten_inj hws.2 hvs.2 (List.append_cancel_left he)]

end Code

end NativeOS.Lib
