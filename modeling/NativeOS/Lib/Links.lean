/-
  NativeOS.Lib.Links — sequences kept by next and prev links.

  Cells are values of any type with a null among them. `Seg p l q` says that the cells of
  `l` are linked both ways, `p` before the first and `q` after the last. Joining two
  segments writes one next link and one prev link (`Seg.join`); inserting a cell is two
  joins and unlinking one is a split and a join. Whoever follows the next links from the
  first cell, or the prev links from the last, sees the whole sequence (`Seg.chase`,
  `Seg.chase_back`).
-/

import Mathlib.Data.List.Induction
import Mathlib.Data.List.Nodup

namespace NativeOS.Lib

variable {α : Type} {next prev next' prev' : α → α} {p q : α} {xs ys l : List α}

def Seg (next prev : α → α) : α → List α → α → Prop
  | _, [], _ => True
  | p, a :: l, q => prev a = p ∧ next a = l.headD q ∧ Seg next prev a l q

/-- Following `f` from a cell until null visits the cells of the list. -/
inductive Chase (f : α → α) (null : α) : α → List α → Prop
  | done : Chase f null null []
  | step {a : α} {l : List α} : a ≠ null → Chase f null (f a) l → Chase f null a (a :: l)

theorem headD_append (xs ys : List α) (q : α) : (xs ++ ys).headD q = xs.headD (ys.headD q) := by
  cases xs <;> rfl

theorem getLastD_append (p : α) : ∀ xs ys : List α, (xs ++ ys).getLastD p = ys.getLastD (xs.getLastD p)
  | [], _ => rfl
  | a :: xs, ys => by rw [List.cons_append, List.getLastD_cons, List.getLastD_cons, getLastD_append a xs ys]

theorem getLastD_mem {a : α} : ∀ {l : List α}, (a :: l).getLastD p ∈ a :: l
  | l => by
    rw [List.getLastD_cons]
    exact List.getLastD_mem_cons

theorem seg_append : Seg next prev p (xs ++ ys) q ↔
    Seg next prev p xs (ys.headD q) ∧ Seg next prev (xs.getLastD p) ys q := by
  induction xs generalizing p with
  | nil => simp [Seg]
  | cons a xs ih => simp only [List.cons_append, Seg, headD_append, ih, List.getLastD_cons, and_assoc]

/-- A segment only depends on the links of its own cells. -/
theorem Seg.congr (h : Seg next prev p l q) (hn : ∀ a ∈ l, next' a = next a) (hp : ∀ a ∈ l, prev' a = prev a) :
    Seg next' prev' p l q := by
  induction l generalizing p with
  | nil => trivial
  | cons a l ih =>
    obtain ⟨h1, h2, h3⟩ := h
    refine ⟨(hp a List.mem_cons_self).trans h1, (hn a List.mem_cons_self).trans h2, ih h3 ?_ ?_⟩
    · exact fun b hb => hn b (List.mem_cons_of_mem _ hb)
    · exact fun b hb => hp b (List.mem_cons_of_mem _ hb)

/-- Rewriting the last cell's next link. -/
theorem Seg.setLast {q' : α} (h : Seg next prev p l q) (hnd : l.Nodup)
    (hlast : ∀ a ∈ l, a = l.getLastD p → next' a = q') (hn : ∀ a ∈ l, a ≠ l.getLastD p → next' a = next a)
    (hp : ∀ a ∈ l, prev' a = prev a) : Seg next' prev' p l q' := by
  induction l generalizing p with
  | nil => trivial
  | cons a l ih =>
    obtain ⟨h1, h2, h3⟩ := h
    rw [List.getLastD_cons] at hlast hn
    obtain ⟨hal, hnd⟩ := List.nodup_cons.mp hnd
    refine ⟨(hp a List.mem_cons_self).trans h1, ?_, ih h3 hnd ?_ ?_ ?_⟩
    · cases l with
      | nil => exact hlast a List.mem_cons_self rfl
      | cons b l =>
        have hne : a ≠ (b :: l).getLastD a := fun e => hal (e ▸ getLastD_mem)
        exact (hn a List.mem_cons_self hne).trans h2
    · exact fun b hb => hlast b (List.mem_cons_of_mem _ hb)
    · exact fun b hb => hn b (List.mem_cons_of_mem _ hb)
    · exact fun b hb => hp b (List.mem_cons_of_mem _ hb)

/-- Rewriting the first cell's prev link. -/
theorem Seg.setFirst {p' : α} (h : Seg next prev p l q) (hnd : l.Nodup)
    (hfirst : ∀ a ∈ l, a = l.headD q → prev' a = p') (hp : ∀ a ∈ l, a ≠ l.headD q → prev' a = prev a)
    (hn : ∀ a ∈ l, next' a = next a) : Seg next' prev' p' l q := by
  cases l with
  | nil => trivial
  | cons a l =>
    obtain ⟨-, h2, h3⟩ := h
    refine ⟨hfirst a List.mem_cons_self rfl, (hn a List.mem_cons_self).trans h2, h3.congr ?_ ?_⟩
    · exact fun b hb => hn b (List.mem_cons_of_mem _ hb)
    · intro b hb
      refine hp b (List.mem_cons_of_mem _ hb) ?_
      intro e
      have hba : b = a := e
      exact (List.nodup_cons.mp hnd).1 (hba ▸ hb)

section Join

variable [DecidableEq α] {null : α}

/-- `car` and `cdr` are linked to each other, unless they are null; nothing else changes. -/
structure Joined (null : α) (next prev next' prev' : α → α) (car cdr : α) : Prop where
  next : ∀ a, a ≠ null → next' a = if a = car then cdr else next a
  prev : ∀ a, a ≠ null → prev' a = if a = cdr then car else prev a

/-- Joining the last cell of one sequence with the first of the next. -/
theorem Seg.join (hx : Seg next prev null xs q) (hy : Seg next prev p ys null) (hnd : (xs ++ ys).Nodup)
    (h0 : null ∉ xs ++ ys) (hj : Joined null next prev next' prev' (xs.getLastD null) (ys.headD null)) :
    Seg next' prev' null (xs ++ ys) null := by
  obtain ⟨hxs, hys, hapart⟩ := List.nodup_append.mp hnd
  have hne : ∀ a ∈ xs ++ ys, a ≠ null := fun a ha e => h0 (e ▸ ha)
  have hnex : ∀ a ∈ xs, a ≠ null := fun a ha => hne a (List.mem_append_left _ ha)
  have hney : ∀ a ∈ ys, a ≠ null := fun a ha => hne a (List.mem_append_right _ ha)
  -- the ends are cells of their own side, or null
  have hfirst : ∀ a ∈ xs, a ≠ ys.headD null := by
    intro a ha
    cases ys with
    | nil => exact hnex a ha
    | cons b ys => exact hapart a ha b List.mem_cons_self
  have hlast : ∀ a ∈ ys, a ≠ xs.getLastD null := by
    intro a ha
    cases xs with
    | nil => exact hney a ha
    | cons b xs => exact (hapart _ getLastD_mem a ha).symm
  refine seg_append.mpr ⟨hx.setLast hxs ?_ ?_ ?_,
    hy.setFirst hys ?_ ?_ ?_⟩
  · intro a ha e
    rw [hj.next a (hnex a ha), if_pos e]
  · intro a ha e
    rw [hj.next a (hnex a ha), if_neg e]
  · intro a ha
    rw [hj.prev a (hnex a ha), if_neg (hfirst a ha)]
  · intro a ha e
    rw [hj.prev a (hney a ha), if_pos e]
  · intro a ha e
    rw [hj.prev a (hney a ha), if_neg e]
  · intro a ha
    rw [hj.next a (hney a ha), if_neg (hlast a ha)]

end Join

/-! ## Following the links -/

section Follow

variable {null : α}

theorem Seg.chase (h : Seg next prev p l null) (h0 : null ∉ l) : Chase next null (l.headD null) l := by
  induction l generalizing p with
  | nil => exact .done
  | cons a l ih =>
    obtain ⟨-, h2, h3⟩ := h
    obtain ⟨ha, hl⟩ := List.ne_and_not_mem_of_not_mem_cons h0
    refine .step ha.symm ?_
    show Chase next null (next a) l
    rw [h2]
    exact ih h3 hl

theorem Seg.chase_back (h : Seg next prev null l q) (h0 : null ∉ l) : Chase prev null (l.getLastD null) l.reverse := by
  induction l using List.reverseRecOn generalizing q with
  | nil => exact .done
  | append_singleton l a ih =>
    obtain ⟨h1, h2, -⟩ := seg_append.mp h
    rw [List.mem_append, not_or] at h0
    rw [List.getLastD_concat, List.reverse_append]
    refine .step (fun e => h0.2 (e ▸ List.mem_singleton_self a)) ?_
    rw [h2]
    exact ih h1 h0.1

end Follow

end NativeOS.Lib
