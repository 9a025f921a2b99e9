/-
  NativeOS.Lib.Ring — a queue in the cells of a ring.

  `slot n r i` is the cell `i` places after `r` in a ring of `n` cells, for at most one
  turn, so its arithmetic stays linear. `Window` says the queue lies in consecutive cells
  from `r` on: pushing writes the cell behind it, popping moves its start.
-/

import Mathlib.Data.List.Basic

namespace NativeOS.Lib

variable {α : Type} {n r i j : Nat} {cell : Nat → α} {q : List α}

def slot (n r i : Nat) : Nat := if r + i < n then r + i else r + i - n

theorem slot_eq_mod (hr : r < n) (hi : i ≤ n) : slot n r i = (r + i) % n := by
  unfold slot
  split
  · rw [Nat.mod_eq_of_lt ‹_›]
  · rw [Nat.mod_eq_sub_mod (by omega), Nat.mod_eq_of_lt (by omega)]

theorem slot_lt (hr : r < n) (hi : i ≤ n) : slot n r i < n := by
  unfold slot
  split <;> omega

theorem slot_zero (hr : r < n) : slot n r 0 = r := by
  unfold slot
  rw [if_pos (by omega), Nat.add_zero]

/-- A whole turn, and nothing shorter, leads back. -/
theorem slot_eq_self (h0 : 0 < i) : slot n r i = r ↔ i = n := by
  unfold slot
  split <;> omega

theorem slot_inj (hi : i < n) (hj : j < n) (h : slot n r i = slot n r j) : i = j := by
  unfold slot at h
  split at h <;> split at h <;> omega

theorem slot_slot (hr : r < n) (hij : i + j ≤ n) : slot n (slot n r i) j = slot n r (i + j) := by
  unfold slot
  split <;> split <;> split <;> omega

/-- The queue in the ring, oldest first. -/
def Window (cell : Nat → α) (n r : Nat) (q : List α) : Prop := ∀ i (h : i < q.length), cell (slot n r i) = q[i]

theorem window_nil : Window cell n r [] := fun i h => absurd h (Nat.not_lt_zero i)

theorem Window.push {cell' : Nat → α} {b : α} (h : Window cell n r q) (hq : q.length < n)
    (hcell : ∀ x, cell' x = if x = slot n r q.length then b else cell x) : Window cell' n r (q ++ [b]) := by
  intro i hi
  rw [List.length_append, List.length_singleton] at hi
  rw [hcell]
  by_cases he : i = q.length
  · subst he
    rw [if_pos rfl, List.getElem_concat_length rfl]
  · have hlt : i < q.length := by omega
    have hne : slot n r i ≠ slot n r q.length := fun e => he (slot_inj (by omega) hq e)
    rw [if_neg hne, List.getElem_append_left hlt]
    exact h i hlt

theorem Window.pop {a : α} (h : Window cell n r (a :: q)) (hr : r < n) (hq : q.length < n) :
    cell r = a ∧ Window cell n (slot n r 1) q := by
  constructor
  · have h0 := h 0 (Nat.zero_lt_succ _)
    rwa [slot_zero hr] at h0
  · intro i hi
    have hi' := h (i + 1) (Nat.succ_lt_succ hi)
    rwa [slot_slot hr (by omega), Nat.add_comm 1]

end NativeOS.Lib
