/-
  NativeOS.Lib.Dict — a dictionary that remembers the order of insertion.

  Setting a key that is there changes its value in place; a new key comes last. No key
  stands twice, which the structure carries.
-/

import Mathlib.Data.List.Nodup

namespace NativeOS.Lib

structure Dict (κ ν : Type) where
  entries : List (κ × ν)
  nodup : (entries.map Prod.fst).Nodup

namespace Dict

variable {κ ν : Type} [DecidableEq κ]

def setEntry (k : κ) (v : ν) : List (κ × ν) → List (κ × ν)
  | [] => [(k, v)]
  | e :: l => if e.1 = k then (k, v) :: l else e :: setEntry k v l

theorem mem_keys_setEntry {k k' : κ} {v : ν} {l : List (κ × ν)} :
    k' ∈ (setEntry k v l).map Prod.fst ↔ k' = k ∨ k' ∈ l.map Prod.fst := by
  induction l with
  | nil => simp [setEntry]
  | cons e l ih =>
    unfold setEntry
    by_cases h : e.1 = k
    · rw [if_pos h, List.map_cons, List.map_cons, List.mem_cons, List.mem_cons, h]
      simp
    · rw [if_neg h, List.map_cons, List.map_cons, List.mem_cons, List.mem_cons, ih]
      exact or_left_comm

theorem nodup_setEntry (k : κ) (v : ν) {l : List (κ × ν)} (h : (l.map Prod.fst).Nodup) :
    ((setEntry k v l).map Prod.fst).Nodup := by
  induction l with
  | nil => exact List.nodup_singleton k
  | cons e l ih =>
    rw [List.map_cons, List.nodup_cons] at h
    obtain ⟨hout, hrest⟩ := h
    unfold setEntry
    by_cases he : e.1 = k
    · rw [if_pos he, List.map_cons, List.nodup_cons, ← he]
      exact ⟨hout, hrest⟩
    · rw [if_neg he, List.map_cons, List.nodup_cons, mem_keys_setEntry, not_or]
      exact ⟨⟨he, hout⟩, ih hrest⟩

def empty : Dict κ ν := ⟨[], List.nodup_nil⟩

def get? (d : Dict κ ν) (k : κ) : Option ν := d.entries.lookup k

def set (d : Dict κ ν) (k : κ) (v : ν) : Dict κ ν := ⟨setEntry k v d.entries, nodup_setEntry k v d.nodup⟩

def erase (d : Dict κ ν) (k : κ) : Dict κ ν :=
  ⟨d.entries.filter (·.1 ≠ k), d.nodup.sublist (List.filter_sublist.map Prod.fst)⟩

@[simp] theorem get?_empty (k : κ) : (empty : Dict κ ν).get? k = none := rfl

theorem lookup_cons (k' : κ) (v : ν) (l : List (κ × ν)) (k : κ) :
    ((k', v) :: l).lookup k = if k = k' then some v else l.lookup k := by
  by_cases h : k = k'
  · rw [if_pos h, h, List.lookup_cons_self]
  · have hne : (k == k') = false := by simpa using h
    rw [if_neg h, List.lookup_cons, hne]

theorem get?_set (d : Dict κ ν) (k k' : κ) (v : ν) : (d.set k v).get? k' = if k' = k then some v else d.get? k' := by
  show (setEntry k v d.entries).lookup k' = if k' = k then some v else d.entries.lookup k'
  induction d.entries with
  | nil =>
    unfold setEntry
    rw [lookup_cons]
  | cons e l ih =>
    obtain ⟨j, w⟩ := e
    unfold setEntry
    by_cases he : j = k
    · rw [if_pos he, lookup_cons, lookup_cons, he]
      by_cases hk : k' = k
      · rw [if_pos hk, if_pos hk]
      · rw [if_neg hk, if_neg hk, if_neg hk]
    · rw [if_neg he, lookup_cons, lookup_cons, ih]
      by_cases hk : k' = k
      · rw [hk, if_pos rfl, if_pos rfl, if_neg (Ne.symm he)]
      · rw [if_neg hk, if_neg hk]

theorem get?_erase (d : Dict κ ν) (k k' : κ) : (d.erase k).get? k' = if k' = k then none else d.get? k' := by
  show (d.entries.filter (·.1 ≠ k)).lookup k' = if k' = k then none else d.entries.lookup k'
  induction d.entries with
  | nil => exact (ite_self none).symm
  | cons e l ih =>
    obtain ⟨j, w⟩ := e
    by_cases he : j = k
    · rw [List.filter_cons_of_neg (by simpa using he), ih, lookup_cons, he]
      by_cases hk : k' = k
      · rw [if_pos hk, if_pos hk]
      · rw [if_neg hk, if_neg hk, if_neg hk]
    · rw [List.filter_cons_of_pos (by simpa using he), lookup_cons, lookup_cons, ih]
      by_cases hk : k' = k
      · rw [if_pos hk, if_pos hk, hk, if_neg (Ne.symm he)]
      · rw [if_neg hk, if_neg hk]

/-- An entry is what its key has. -/
theorem mem_entries {d : Dict κ ν} {k : κ} {v : ν} : (k, v) ∈ d.entries ↔ d.get? k = some v := by
  unfold get?
  rw [List.lookup_eq_some_iff]
  constructor
  · intro h
    obtain ⟨front, rest, hd⟩ := List.append_of_mem h
    refine ⟨front, rest, hd, ?_⟩
    intro e he
    have hnodup := d.nodup
    rw [hd, List.map_append, List.map_cons, List.nodup_append] at hnodup
    have hne : e.1 ≠ k := hnodup.2.2 e.1 (List.mem_map_of_mem he) k List.mem_cons_self
    simpa using Ne.symm hne
  · intro h
    obtain ⟨front, rest, hd, -⟩ := h
    rw [hd]
    exact List.mem_append_right front List.mem_cons_self

end Dict

end NativeOS.Lib
