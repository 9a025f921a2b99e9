/-
  NativeOS.Lib.Directory — a list that is searched by key.

  Entries have a key each; a search returns the first entry with a given key. While no two
  entries have the same key the list is a finite map from keys to entries: adding an entry
  with a new key at the end, and taking one out, are the map's updates (`find_snoc`,
  `find_erase`).
-/

import Mathlib.Data.List.Forall2
import Mathlib.Data.List.Nodup

namespace NativeOS.Lib.Directory

variable {α κ : Type}

def find [DecidableEq κ] (key : α → κ) (l : List α) (k : κ) : Option α := l.find? fun x => decide (key x = k)

/-- No two entries have the same key. -/
def Distinct (key : α → κ) (l : List α) : Prop := (l.map key).Nodup

section Key

variable {key key' : α → κ} {l : List α} {x : α} {k : κ}

theorem Distinct.congr (hd : Distinct key l) (h : ∀ x ∈ l, key' x = key x) : Distinct key' l := by
  rw [Distinct, List.map_congr_left h]
  exact hd

theorem Distinct.snoc (hd : Distinct key l) (hx : ∀ y ∈ l, key y ≠ key x) : Distinct key (l ++ [x]) := by
  rw [Distinct, List.map_append, List.map_singleton, List.nodup_append]
  refine ⟨hd, List.nodup_singleton _, ?_⟩
  intro a ha b hb
  obtain ⟨y, hy, rfl⟩ := List.mem_map.mp ha
  rw [List.mem_singleton.mp hb]
  exact hx y hy

theorem Distinct.erase [DecidableEq α] (hd : Distinct key l) (x : α) : Distinct key (l.erase x) :=
  List.Nodup.sublist (List.erase_sublist.map key) hd

end Key

section Find

variable [DecidableEq κ] {key key' : α → κ} {l : List α} {x : α} {k : κ}

theorem find_congr (h : ∀ x ∈ l, key' x = key x) (k : κ) : find key' l k = find key l k := by
  induction l with
  | nil => rfl
  | cons a l ih =>
    rw [List.forall_mem_cons] at h
    rw [find, find, List.find?_cons, List.find?_cons, h.1]
    have hrest := ih h.2
    rw [find, find] at hrest
    rw [hrest]

/-- A search by any test that is the comparison of keys. -/
theorem find?_eq_find {p : α → Bool} (h : ∀ x ∈ l, p x = decide (key x = k)) : l.find? p = find key l k := by
  induction l with
  | nil => rfl
  | cons a l ih =>
    rw [List.forall_mem_cons] at h
    have hrest := ih h.2
    rw [find] at hrest ⊢
    rw [List.find?_cons, List.find?_cons, h.1, hrest]

theorem find_eq_none : find key l k = none ↔ ∀ x ∈ l, key x ≠ k := by
  rw [find, List.find?_eq_none]
  simp

theorem find_mem (h : find key l k = some x) : x ∈ l ∧ key x = k :=
  ⟨List.mem_of_find?_eq_some h, by simpa using List.find?_some h⟩

theorem Distinct.find_self (hd : Distinct key l) (hx : x ∈ l) : find key l (key x) = some x := by
  cases hf : find key l (key x) with
  | none => exact absurd rfl (find_eq_none.mp hf x hx)
  | some y =>
    obtain ⟨hy, hk⟩ := find_mem hf
    rw [List.inj_on_of_nodup_map hd hy hx hk]

/-- The entry found is the only one with the key. -/
theorem Distinct.find_iff (hd : Distinct key l) : find key l k = some x ↔ x ∈ l ∧ key x = k := by
  constructor
  · exact find_mem
  · rintro ⟨hx, rfl⟩
    exact hd.find_self hx

theorem find_snoc (hx : ∀ y ∈ l, key y ≠ key x) (k : κ) : find key (l ++ [x]) k = if k = key x then some x else find key l k := by
  rw [find, List.find?_append]
  by_cases hk : k = key x
  · subst hk
    have hnone : find key l (key x) = none := find_eq_none.mpr hx
    rw [find] at hnone
    rw [hnone, if_pos rfl]
    simp
  · have hne : ¬ key x = k := fun h => hk h.symm
    rw [if_neg hk, List.find?_cons, decide_eq_false hne]
    simp [find]

theorem find_erase [DecidableEq α] (hd : Distinct key l) (hx : x ∈ l) (k : κ) :
    find key (l.erase x) k = if k = key x then none else find key l k := by
  have hnd : l.Nodup := List.Nodup.of_map key hd
  by_cases hk : k = key x
  · rw [if_pos hk, find_eq_none]
    intro y hy hyk
    obtain ⟨hne, hmem⟩ := hnd.mem_erase_iff.mp hy
    exact hne (List.inj_on_of_nodup_map hd hmem hx (hyk.trans hk))
  · rw [if_neg hk]
    ext y
    rw [(hd.erase x).find_iff, hd.find_iff, hnd.mem_erase_iff]
    constructor
    · rintro ⟨⟨-, hy⟩, hyk⟩
      exact ⟨hy, hyk⟩
    · rintro ⟨hy, hyk⟩
      exact ⟨⟨fun h => hk (h ▸ hyk.symm), hy⟩, hyk⟩

end Find

/-! ## Enumeration -/

/-- `get` enumerates, without a gap and each once, what `find` finds under some key; every entry
    is found under its own. -/
structure Enumerates (get : Nat → Option α) (find : κ → Option α) (own : α → κ) : Prop where
  count : ∃ n, ∀ i, (get i).isSome ↔ i < n
  sound : ∀ i x, get i = some x → find (own x) = some x
  complete : ∀ k x, find k = some x → ∃! i, get i = some x

theorem enumerates_list {l : List α} {find : κ → Option α} {own : α → κ} (hd : l.Nodup) (hmem : ∀ k x, find k = some x → x ∈ l)
    (hself : ∀ x ∈ l, find (own x) = some x) : Enumerates (fun i => l[i]?) find own := by
  refine ⟨⟨l.length, fun i => ?_⟩, fun i x hx => hself x (List.mem_of_getElem? hx), fun k x hx => ?_⟩
  · simp
  · obtain ⟨i, hi⟩ := List.mem_iff_getElem?.mp (hmem k x hx)
    refine ⟨i, hi, fun j hj => ?_⟩
    obtain ⟨hlt, -⟩ := List.getElem?_eq_some_iff.mp hj
    exact (List.getElem?_inj hlt hd).mp (hj.trans hi.symm)

/-! ## Two lists in step -/

section Paired

variable {β : Type} {R R' : α → β → Prop} {f : α → κ} {g : β → κ} {l : List α} {m : List β}

theorem paired_imp (h : List.Forall₂ R l m) (hR : ∀ a ∈ l, ∀ b ∈ m, R a b → R' a b) : List.Forall₂ R' l m := by
  induction h with
  | nil => exact .nil
  | cons hab _ ih =>
    refine .cons (hR _ List.mem_cons_self _ List.mem_cons_self hab) (ih ?_)
    intro a ha b hb
    exact hR a (List.mem_cons_of_mem _ ha) b (List.mem_cons_of_mem _ hb)

theorem paired_left (h : List.Forall₂ R l m) : ∀ a ∈ l, ∃ b ∈ m, R a b := by
  induction h with
  | nil => exact List.forall_mem_nil _
  | @cons c e _ m hce _ ih =>
    refine List.forall_mem_cons.mpr ⟨⟨e, List.mem_cons_self, hce⟩, fun a ha => ?_⟩
    obtain ⟨b, hb, hab⟩ := ih a ha
    exact ⟨b, List.mem_cons_of_mem _ hb, hab⟩

/-- With a third list beside both. -/
theorem paired_zip {γ : Type} (h : List.Forall₂ R l m) : ∀ (ns : List γ), ∀ na ∈ ns.zip l, ∃ b, R na.2 b ∧ (na.1, b) ∈ ns.zip m := by
  induction h with
  | nil =>
    intro ns na hna
    rw [List.zip_nil_right] at hna
    cases hna
  | @cons c e l m hce _ ih =>
    intro ns na hna
    cases ns with
    | nil => cases hna
    | cons n ns =>
      rw [List.zip_cons_cons] at hna ⊢
      rcases List.mem_cons.mp hna with rfl | hna
      · exact ⟨e, hce, List.mem_cons_self⟩
      · obtain ⟨b, hab, hb⟩ := ih ns na hna
        exact ⟨b, hab, List.mem_cons_of_mem _ hb⟩

theorem paired_snoc (h : List.Forall₂ R l m) {a : α} {b : β} (hab : R a b) : List.Forall₂ R (l ++ [a]) (m ++ [b]) := by
  induction h with
  | nil => exact .cons hab .nil
  | cons hcd _ ih => exact .cons hcd ih

/-- An entry's partner is found by the key they share, and both can be taken out. -/
theorem paired_erase [DecidableEq α] [DecidableEq β] [DecidableEq κ] (h : List.Forall₂ R l m)
    (hR : ∀ a b, R a b → f a = g b) (hd : Distinct g m) {b : β} (hb : b ∈ m) :
    ∃ a, find f l (g b) = some a ∧ R a b ∧ List.Forall₂ R (l.erase a) (m.erase b) := by
  induction h with
  | nil => cases hb
  | @cons c e l m hce hrest ih =>
    have hkey := hR c e hce
    rw [Distinct, List.map_cons, List.nodup_cons] at hd
    by_cases hbe : b = e
    · subst hbe
      refine ⟨c, ?_, hce, ?_⟩
      · rw [find, List.find?_cons, hkey, decide_eq_true rfl]
      · rw [List.erase_cons_head, List.erase_cons_head]
        exact hrest
    · have hmem : b ∈ m := (List.mem_cons.mp hb).resolve_left hbe
      have hne : ¬ f c = g b := fun h => hd.1 (List.mem_map.mpr ⟨b, hmem, h.symm.trans hkey⟩)
      obtain ⟨a, hfind, hab, herase⟩ := ih hd.2 hmem
      have hac : ¬ c = a := fun h => hne (h ▸ hR a b hab)
      refine ⟨a, ?_, hab, ?_⟩
      · rw [find, List.find?_cons, decide_eq_false hne]
        exact hfind
      · rw [List.erase_cons_tail (by simpa using hac), List.erase_cons_tail (by simpa using Ne.symm hbe)]
        exact .cons hce herase

end Paired

end NativeOS.Lib.Directory
