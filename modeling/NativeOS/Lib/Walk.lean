/-
  NativeOS.Lib.Walk — following a next-step function until it is done.

  A `Walk` from a place is a finite derivation that carries the places it comes by. There is
  at most one from any place, so no place is on it twice: what is left to do from the second
  visit would be the same as from the first. In a finite space a walk is therefore no longer
  than the space is large.
-/

import Mathlib.Data.List.Perm.Subperm
import Mathlib.Data.List.Nodup
import Mathlib.Data.List.Range

namespace NativeOS.Lib

variable {α : Type} {done : α → Prop} {next : α → Option α} {a b : α} {l k : List α}

/-- From `a` over the places of the list to one that is done. -/
inductive Walk (done : α → Prop) (next : α → Option α) : α → List α → Prop
  | last {a : α} : done a → Walk done next a [a]
  | step {a b : α} {l : List α} : ¬ done a → next a = some b → Walk done next b l → Walk done next a (a :: l)

theorem Walk.unique (h : Walk done next a l) (h' : Walk done next a k) : l = k := by
  induction h generalizing k with
  | last hd =>
    cases h' with
    | last _ => rfl
    | step hd' _ _ => exact absurd hd hd'
  | step hd hn _ ih =>
    cases h' with
    | last hd' => exact absurd hd' hd
    | step _ hn' hw =>
      obtain rfl := Option.some.inj (hn.symm.trans hn')
      rw [ih hw]

theorem Walk.mem_head (h : Walk done next a l) : a ∈ l := by
  cases h <;> simp

/-- Every place of a walk starts one that is no longer. -/
theorem Walk.from_mem (h : Walk done next a l) (hb : b ∈ l) : ∃ k, Walk done next b k ∧ k.length ≤ l.length := by
  induction h with
  | last hd =>
    obtain rfl := List.mem_singleton.mp hb
    exact ⟨_, .last hd, Nat.le_refl _⟩
  | step hd hn hw ih =>
    rcases List.mem_cons.mp hb with rfl | hb
    · exact ⟨_, .step hd hn hw, Nat.le_refl _⟩
    · obtain ⟨k, hk, hle⟩ := ih hb
      exact ⟨k, hk, Nat.le_succ_of_le hle⟩

theorem Walk.nodup (h : Walk done next a l) : l.Nodup := by
  induction h with
  | last _ => exact List.nodup_singleton _
  | step hd hn hw ih =>
    refine List.nodup_cons.mpr ⟨fun hmem => ?_, ih⟩
    obtain ⟨k, hk, hle⟩ := hw.from_mem hmem
    have hsame := hk.unique (.step hd hn hw)
    rw [hsame, List.length_cons] at hle
    omega

theorem Walk.length_le {next : Nat → Option Nat} {done : Nat → Prop} {a n : Nat} {l : List Nat} (h : Walk done next a l)
    (hlt : ∀ b ∈ l, b < n) : l.length ≤ n := by
  have hsub : l ⊆ List.range n := fun b hb => List.mem_range.mpr (hlt b hb)
  have hle := (h.nodup.subperm hsub).length_le
  rwa [List.length_range] at hle

/-- A place that leads back to itself leads nowhere else. -/
theorem Walk.not_loop (hn : next a = some a) (hd : ¬ done a) : ¬ Walk done next a l := by
  intro h
  cases h with
  | last hd' => exact hd hd'
  | step _ hn' hw =>
    obtain rfl := Option.some.inj (hn.symm.trans hn')
    have hnodup := (Walk.step hd hn hw).nodup
    exact (List.nodup_cons.mp hnodup).1 hw.mem_head

end NativeOS.Lib
