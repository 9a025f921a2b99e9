/-
  NativeOS.Stdkern.LinkedListProofs — the doubly linked list is a sequence.

  `Rep` ties a state to the addresses of its nodes in order. `list_append`,
  `list_prepend` and `list_insert` put a node between two parts of that list and
  `list_unchain` takes one out, so every operation is one of those two changes at a place
  its loop finds.

  Proved: `list_refines_sequence`.
-/

import Mathlib.Data.List.Perm.Subperm
import NativeOS.Stdkern.LinkedList

namespace NativeOS.Stdkern.LinkedList

open NativeOS.Lib

/-! ## Stores -/

theorem Store.node_set (st : Store) (a : Nat) (n : ListNode) (x : Nat) :
    (st.set a n).node x = if x = a then n else st.node x := rfl

theorem Store.set_ne (st : Store) {a x : Nat} (n : ListNode) (h : x ≠ a) : (st.set a n).node x = st.node x := by
  rw [st.node_set, if_neg h]

theorem Store.setNext_node (st : Store) (a v x : Nat) :
    (st.setNext a v).node x = { st.node x with next := if x = a then v else st.next x } := by
  unfold Store.setNext
  rw [st.node_set]
  split
  · rename_i h
    rw [h]
  · rfl

theorem Store.setPrev_node (st : Store) (a v x : Nat) :
    (st.setPrev a v).node x = { st.node x with prev := if x = a then v else st.prev x } := by
  unfold Store.setPrev
  rw [st.node_set]
  split
  · rename_i h
    rw [h]
  · rfl

/-- `chain` links two nodes to each other; a NULL on either side is left alone. -/
theorem chain_node (st : Store) (car cdr : Nat) {x : Nat} (hx : x ≠ 0) :
    (chain st car cdr).node x =
      ⟨st.data x, if x = cdr then car else st.prev x, if x = car then cdr else st.next x⟩ := by
  have hfirst : (if car ≠ 0 then st.setNext car cdr else st).node x =
      { st.node x with next := if x = car then cdr else st.next x } := by
    by_cases h : car = 0
    · have hne : x ≠ car := fun e => hx (e.trans h)
      rw [if_neg (not_not_intro h), if_neg hne]
      rfl
    · rw [if_pos h, Store.setNext_node]
  unfold chain
  by_cases h : cdr = 0
  · have hne : x ≠ cdr := fun e => hx (e.trans h)
    simp only [h, ne_eq, not_true, if_false, if_neg hx] at hfirst ⊢
    exact hfirst
  · rw [if_pos h, Store.setPrev_node]
    simp only [Store.prev, hfirst, Store.data]

theorem chain_data (st : Store) (car cdr : Nat) {x : Nat} (hx : x ≠ 0) : (chain st car cdr).data x = st.data x := by
  rw [Store.data, chain_node st car cdr hx]

theorem chain_joined (st : Store) (car cdr : Nat) :
    Joined 0 st.next st.prev (chain st car cdr).next (chain st car cdr).prev car cdr where
  next a ha := by rw [Store.next, chain_node st car cdr ha]
  prev a ha := by rw [Store.prev, chain_node st car cdr ha]

/-! ## The nodes of a list -/

/-- Two nodes that share no byte. -/
def Apart (a b : Nat) : Prop := a + 12 ≤ b ∨ b + 12 ≤ a

/-- The nodes of the list, in order. -/
structure Rep (s : St) (ns : List Nat) : Prop where
  head : s.list.head = ns.headD 0
  tail : s.list.tail = ns.getLastD 0
  seg : Seg s.store.next s.store.prev 0 ns 0
  count : s.list.count = ns.length
  alive : ∀ a, a ∈ s.alive ↔ a ∈ ns
  room : ∀ a ∈ ns, a ≠ 0 ∧ a + 12 ≤ 4294967296
  apart : ns.Pairwise Apart

section Rep

variable {s s' : St} {ns xs ys : List Nat} {node ptr : Nat}

theorem Rep.nodup (h : Rep s ns) : ns.Nodup := h.apart.imp fun hab => by unfold Apart at hab; omega

theorem Rep.no_null (h : Rep s ns) : 0 ∉ ns := fun h0 => (h.room 0 h0).1 rfl

/-- There is no room below 4 GiB for as many nodes as a signed count could not hold. -/
theorem Rep.length_lt (h : Rep s ns) : ns.length < 2 ^ 31 := by
  have hnd : (ns.map (· / 12)).Nodup := by
    refine List.Pairwise.map _ ?_ h.apart
    intro a b hab
    unfold Apart at hab
    omega
  have hsub : ns.map (· / 12) ⊆ List.range 357913942 := by
    intro k hk
    obtain ⟨a, ha, rfl⟩ := List.mem_map.mp hk
    have := (h.room a ha).2
    exact List.mem_range.mpr (by omega)
  have hlen := (hnd.subperm hsub).length_le
  rw [List.length_map, List.length_range] at hlen
  omega

/-- A node put between two parts of the list. -/
theorem Rep.put (h : Rep s (xs ++ ys)) (hf : Fresh s node) (h0 : node ≠ 0)
    (hhead : s'.list.head = (xs ++ node :: ys).headD 0) (htail : s'.list.tail = (xs ++ node :: ys).getLastD 0)
    (hcount : s'.list.count = add32 s.list.count 1) (halive : s'.alive = node :: s.alive)
    (hseg : Seg s'.store.next s'.store.prev 0 (xs ++ node :: ys) 0) : Rep s' (xs ++ node :: ys) where
  head := hhead
  tail := htail
  seg := hseg
  count := by
    have := h.length_lt
    rw [List.length_append] at this
    rw [hcount, h.count, add32_eq (by rw [List.length_append]; omega)]
    simp only [List.length_append, List.length_cons]
    omega
  alive a := by
    rw [halive, List.mem_cons, h.alive, List.mem_append, List.mem_append, List.mem_cons]
    exact or_left_comm
  room a ha := by
    obtain ⟨hroom, -⟩ := hf.resolve_left h0
    rcases List.mem_append.mp ha with ha | ha
    · exact h.room a (List.mem_append_left _ ha)
    · rcases List.mem_cons.mp ha with rfl | ha
      · exact ⟨h0, hroom⟩
      · exact h.room a (List.mem_append_right _ ha)
  apart := by
    obtain ⟨-, hfresh⟩ := hf.resolve_left h0
    refine (List.pairwise_middle fun hab => Or.symm hab).mpr (List.pairwise_cons.mpr ⟨?_, h.apart⟩)
    intro a ha
    exact hfresh a ((h.alive a).mpr ha)

/-- A node that was just allocated is none of the list's. -/
theorem Rep.fresh (h : Rep s (xs ++ ys)) (hf : Fresh s node) (h0 : node ≠ 0) :
    (xs ++ node :: ys).Nodup ∧ 0 ∉ xs ++ node :: ys ∧ node ∉ xs ++ ys := by
  obtain ⟨-, hfresh⟩ := hf.resolve_left h0
  have hnot : node ∉ xs ++ ys := fun hm => by
    have hself : node + 12 ≤ node ∨ node + 12 ≤ node := hfresh node ((h.alive node).mpr hm)
    omega
  refine ⟨List.nodup_middle.mpr (List.nodup_cons.mpr ⟨hnot, h.nodup⟩), ?_, hnot⟩
  intro hm
  rcases List.mem_append.mp hm with hm | hm
  · exact h.no_null (List.mem_append_left _ hm)
  · rcases List.mem_cons.mp hm with hm | hm
    · exact h0 hm.symm
    · exact h.no_null (List.mem_append_right _ hm)

/-- Writing a node that is not in a segment. -/
theorem seg_set {st : Store} {p q a : Nat} {l : List Nat} (n : ListNode) (h : Seg st.next st.prev p l q) (ha : a ∉ l) :
    Seg (st.set a n).next (st.set a n).prev p l q := by
  have hnode : ∀ x ∈ l, (st.set a n).node x = st.node x := fun x hx => st.set_ne n fun e => ha (e ▸ hx)
  apply h.congr
  · intro x hx
    rw [Store.next, hnode x hx, Store.next]
  · intro x hx
    rw [Store.prev, hnode x hx, Store.prev]

/-- Chaining two nodes that are not in a segment. -/
theorem seg_chain {st : Store} {p q car cdr : Nat} {l : List Nat} (h : Seg st.next st.prev p l q) (h0 : 0 ∉ l)
    (hcar : car ∉ l) (hcdr : cdr ∉ l) : Seg (chain st car cdr).next (chain st car cdr).prev p l q := by
  have hj := chain_joined st car cdr
  have hne : ∀ {a x : Nat}, a ∉ l → x ∈ l → x ≠ a := fun ha hx e => ha (e ▸ hx)
  apply h.congr
  · intro x hx
    rw [hj.next x (hne h0 hx), if_neg (hne hcar hx)]
  · intro x hx
    rw [hj.prev x (hne h0 hx), if_neg (hne hcdr hx)]

theorem seg_singleton (st : Store) (node ptr : Nat) :
    Seg (st.set node ⟨ptr, 0, 0⟩).next (st.set node ⟨ptr, 0, 0⟩).prev 0 [node] 0 := by
  have hnode : (st.set node ⟨ptr, 0, 0⟩).node node = ⟨ptr, 0, 0⟩ := if_pos rfl
  refine ⟨?_, ?_, trivial⟩
  · rw [Store.prev, hnode]
  · rw [Store.next, hnode]
    rfl

theorem not_mem_parts {a : Nat} (h : a ∉ xs ++ ys) : a ∉ xs ∧ a ∉ ys := by
  rwa [List.mem_append, not_or] at h

theorem getLastD_not_mem (h0 : 0 ∉ ys) (hd : ∀ a ∈ xs, a ∉ ys) : xs.getLastD 0 ∉ ys := by
  cases xs with
  | nil => exact h0
  | cons b xs => exact hd _ getLastD_mem

/-- A new node between the two parts: `chain` on both sides of it. -/
theorem seg_put {st : Store} (h : Seg st.next st.prev 0 (xs ++ ys) 0) (hnd : (xs ++ node :: ys).Nodup)
    (h0 : 0 ∉ xs ++ node :: ys) (ptr : Nat) :
    let st1 := chain (st.set node ⟨ptr, 0, 0⟩) (xs.getLastD 0) node
    Seg st1.next st1.prev 0 (xs ++ [node]) 0 ∧
      Seg (chain st1 node (ys.headD 0)).next (chain st1 node (ys.headD 0)).prev 0 (xs ++ node :: ys) 0 := by
  intro st1
  obtain ⟨hxs, hys⟩ := seg_append.mp h
  have hmid := List.nodup_middle.mp hnd
  obtain ⟨hnot, hnd'⟩ := List.nodup_cons.mp hmid
  obtain ⟨hnx, hny⟩ := not_mem_parts hnot
  have hsplit : xs ++ node :: ys = (xs ++ [node]) ++ ys := by rw [List.append_assoc, List.singleton_append]
  rw [hsplit] at hnd h0
  obtain ⟨h0x, h0y⟩ := not_mem_parts h0
  have hfirst : Seg st1.next st1.prev 0 (xs ++ [node]) 0 :=
    Seg.join (seg_set _ hxs hnx) (seg_singleton st node ptr) (List.nodup_append.mp hnd).1 h0x
      (chain_joined _ (xs.getLastD 0) node)
  refine ⟨hfirst, ?_⟩
  have hapart : ∀ a ∈ xs, a ∉ ys := fun a ha hb => (List.nodup_append.mp hnd').2.2 a ha a hb rfl
  have hrest := seg_chain (seg_set ⟨ptr, 0, 0⟩ hys hny) h0y (getLastD_not_mem h0y hapart) hny
  have hj := chain_joined st1 node (ys.headD 0)
  rw [hsplit]
  refine Seg.join hfirst hrest hnd h0 ?_
  rwa [List.getLastD_concat]

/-- A node taken out: its neighbours are chained. -/
theorem seg_take {st : Store} (h : Seg st.next st.prev 0 (xs ++ node :: ys) 0) (hnd : (xs ++ node :: ys).Nodup)
    (h0 : 0 ∉ xs ++ node :: ys) (n : ListNode) :
    Seg ((chain st (xs.getLastD 0) (ys.headD 0)).set node n).next ((chain st (xs.getLastD 0) (ys.headD 0)).set node n).prev
      0 (xs ++ ys) 0 := by
  obtain ⟨hxs, -, -, hys⟩ := seg_append.mp h
  obtain ⟨hnot, hnd'⟩ := List.nodup_cons.mp (List.nodup_middle.mp hnd)
  have h0' : 0 ∉ xs ++ ys := fun hm => h0 <| by
    rcases List.mem_append.mp hm with hm | hm
    · exact List.mem_append_left _ hm
    · exact List.mem_append_right _ (List.mem_cons_of_mem _ hm)
  exact seg_set n (Seg.join hxs hys hnd' h0' (chain_joined st _ _)) hnot

/-! ## Putting a node in -/

/-- Relinking leaves the data of the old nodes as it was. -/
theorem map_data_put {st st' : Store} (hd : ∀ a, a ≠ 0 → st'.data a = (st.set node ⟨ptr, 0, 0⟩).data a)
    (h0 : 0 ∉ xs ++ node :: ys) (hnot : node ∉ xs ++ ys) :
    (xs ++ node :: ys).map st'.data = xs.map st.data ++ ptr :: ys.map st.data := by
  have hne : ∀ a ∈ xs ++ node :: ys, a ≠ 0 := fun a ha e => h0 (e ▸ ha)
  have hnode : st'.data node = ptr := by
    rw [hd node (hne node (by simp)), Store.data, st.node_set, if_pos rfl]
  have hold : ∀ a ∈ xs ++ ys, a ≠ 0 → st'.data a = st.data a := by
    intro a ha ha0
    have hne' : a ≠ node := fun e => hnot (e ▸ ha)
    rw [hd a ha0, Store.data, st.set_ne _ hne', Store.data]
  have hx : ∀ a ∈ xs, st'.data a = st.data a := fun a ha =>
    hold a (List.mem_append_left _ ha) (hne a (List.mem_append_left _ ha))
  have hy : ∀ a ∈ ys, st'.data a = st.data a := fun a ha =>
    hold a (List.mem_append_right _ ha) (hne a (List.mem_append_right _ (List.mem_cons_of_mem _ ha)))
  rw [List.map_append, List.map_cons, hnode, List.map_congr_left hx, List.map_congr_left hy]

theorem listAppend_rep (h : Rep s ns) (hf : Fresh s node) (h0 : node ≠ 0) (ptr : Nat) :
    Rep (listAppend s ptr node).1 (ns ++ [node]) ∧
      (ns ++ [node]).map (listAppend s ptr node).1.store.data = ns.map s.store.data ++ [ptr] := by
  have h' : Rep s (ns ++ []) := by rwa [List.append_nil]
  obtain ⟨hnd, hnull, hnot⟩ := h'.fresh hf h0
  unfold listAppend listnodeAlloc
  simp only [if_pos h0, h.tail]
  refine ⟨h'.put hf h0 ?_ ?_ rfl rfl (seg_put h'.seg hnd hnull ptr).1, ?_⟩
  · -- the head is the new node exactly when there was none
    show (if s.list.head = 0 then node else s.list.head) = _
    rw [h.head, headD_append]
    cases ns with
    | nil => rfl
    | cons a ns => exact if_neg (h.room a List.mem_cons_self).1
  · show node = _
    rw [List.getLastD_concat]
  · exact map_data_put (fun a ha => chain_data _ _ _ ha) hnull hnot

theorem listPrepend_rep (h : Rep s ns) (hf : Fresh s node) (h0 : node ≠ 0) (ptr : Nat) :
    Rep (listPrepend s ptr node).1 (node :: ns) ∧
      (node :: ns).map (listPrepend s ptr node).1.store.data = ptr :: ns.map s.store.data := by
  have h' : Rep s ([] ++ ns) := h
  obtain ⟨hnd, hnull, hnot⟩ := h'.fresh hf h0
  unfold listPrepend listnodeAlloc
  simp only [if_pos h0, h.head]
  have hseg : Seg _ _ 0 ([node] ++ ns) 0 := Seg.join (seg_singleton s.store node ptr) (seg_set _ h.seg hnot) hnd hnull
    (chain_joined (s.store.set node ⟨ptr, 0, 0⟩) node (ns.headD 0))
  refine ⟨h'.put hf h0 rfl ?_ rfl rfl hseg, ?_⟩
  · show (if s.list.tail = 0 then node else s.list.tail) = (node :: ns).getLastD 0
    rw [h.tail, List.getLastD_cons]
    cases ns with
    | nil => rfl
    | cons a ns =>
      rw [List.getLastD_cons, List.getLastD_cons, if_neg]
      exact (h.room _ List.getLastD_mem_cons).1
  · show ([] ++ node :: ns).map _ = [].map s.store.data ++ ptr :: ns.map s.store.data
    exact map_data_put (fun a ha => chain_data _ _ _ ha) hnull hnot

/-- `cur = cur->next` as often as there are nodes before the one wanted. -/
theorem advance_seg {st : Store} {p x : Nat} : ∀ {xs : List Nat}, Seg st.next st.prev p (xs ++ x :: ys) 0 →
    0 ∉ xs → advance st xs.length ((xs ++ x :: ys).headD 0) = some x
  | [], _, _ => rfl
  | a :: xs, ⟨_, hnext, hrest⟩, h0 => by
    obtain ⟨ha, hxs⟩ := List.ne_and_not_mem_of_not_mem_cons h0
    show advance st (xs.length + 1) a = some x
    rw [advance, if_neg ha.symm, hnext]
    exact advance_seg hrest hxs

theorem split_at {l : List Nat} {n : Nat} (h : n < l.length) : ∃ xs x ys, l = xs ++ x :: ys ∧ xs.length = n := by
  refine ⟨l.take n, l[n], l.drop (n + 1), ?_, ?_⟩
  · rw [List.getElem_cons_drop, List.take_append_drop]
  · rw [List.length_take]
    omega

theorem insertIdx_middle (ptr : Nat) (ys : List Nat) : ∀ xs : List Nat, (xs ++ ys).insertIdx xs.length ptr = xs ++ ptr :: ys
  | [] => List.insertIdx_zero
  | a :: xs => by
    rw [List.cons_append, List.length_cons, List.insertIdx_succ_cons, insertIdx_middle ptr ys xs, List.cons_append]

/-- `list_insert` goes past its shortcuts and finds the node to insert before. -/
theorem listInsert_cur {x : Nat} (h : Rep s (xs ++ x :: ys)) (hx : xs ≠ []) :
    xs.length ≠ 0 ∧ ¬ s.list.count ≤ xs.length ∧ advance s.store xs.length s.list.head = some x := by
  refine ⟨fun e => hx (List.length_eq_zero_iff.mp e), ?_, ?_⟩
  · rw [h.count, List.length_append, List.length_cons]
    omega
  · rw [h.head]
    exact advance_seg h.seg fun hm => h.no_null (List.mem_append_left _ hm)

/-- `list_insert` in front of a node that is not the first. -/
theorem listInsert_rep {x : Nat} (h : Rep s (xs ++ x :: ys)) (hx : xs ≠ []) (hf : Fresh s node) (h0 : node ≠ 0) (ptr : Nat) :
    ∃ s', listInsert s ptr xs.length node = some (s', node) ∧ Rep s' (xs ++ node :: x :: ys) ∧
      (xs ++ node :: x :: ys).map s'.store.data = xs.map s.store.data ++ ptr :: (x :: ys).map s.store.data := by
  obtain ⟨hnd, hnull, hnot⟩ := h.fresh hf h0
  obtain ⟨hlen, hcount, hcur⟩ := listInsert_cur h hx
  have hx0 : x ≠ 0 := (h.room x (by simp)).1
  -- the node found is an old one, so its prev link is what it was before the allocation
  have hprev : (s.store.set node ⟨ptr, 0, 0⟩).prev x = xs.getLastD 0 := by
    have hne : x ≠ node := fun e => hnot (e ▸ by simp)
    rw [Store.prev, Store.set_ne _ _ hne]
    exact (seg_append.mp h.seg).2.1
  have hput := (seg_put h.seg hnd hnull ptr).2
  unfold listInsert
  simp only [if_neg hlen, if_neg hcount, hcur, listnodeAlloc, if_pos h0, if_neg h0, if_neg hx0, hprev, Option.bind_eq_bind,
    Option.bind_some, Option.some_inj, Prod.mk.injEq, and_true]
  refine ⟨_, rfl, h.put hf h0 ?_ ?_ rfl rfl hput, ?_⟩
  · show s.list.head = _
    rw [h.head, headD_append, headD_append]
    cases xs with
    | nil => exact absurd rfl hx
    | cons a xs => rfl
  · show s.list.tail = _
    rw [h.tail, getLastD_append, getLastD_append, List.getLastD_cons, List.getLastD_cons, List.getLastD_cons]
  · refine map_data_put ?_ hnull hnot
    intro a ha
    rw [chain_data _ _ _ ha, chain_data _ _ _ ha]

/-! ## Taking a node out -/

theorem listUnchain_eq {p q : Nat} (hp : s.store.prev node = p) (hq : s.store.next node = q) (h0 : node ≠ 0) :
    listUnchain s node =
      (⟨(chain s.store p q).set node ⟨0, 0, 0⟩,
        ⟨if p = 0 then q else s.list.head, if q = 0 then p else s.list.tail, sub32 s.list.count 1⟩,
        s.alive.filter (· != node)⟩, s.store.data node) := by
  have hdata := chain_data s.store p q h0
  have hprev : (s.store.setNext p q).prev node = p := by rw [Store.prev, Store.setNext_node]; exact hp
  unfold listUnchain listnodeFree
  unfold chain at hdata ⊢
  by_cases hp0 : p = 0 <;> by_cases hq0 : q = 0 <;> simp_all

theorem Rep.unchain {x : Nat} (h : Rep s (xs ++ x :: ys)) :
    (listUnchain s x).2 = s.store.data x ∧ Rep (listUnchain s x).1 (xs ++ ys) ∧
      (xs ++ ys).map (listUnchain s x).1.store.data = xs.map s.store.data ++ ys.map s.store.data := by
  obtain ⟨-, hp, hq, -⟩ := seg_append.mp h.seg
  have hx0 : x ≠ 0 := (h.room x (by simp)).1
  have hmid := List.nodup_cons.mp (List.nodup_middle.mp h.nodup)
  have hmem : ∀ a ∈ xs ++ ys, a ∈ xs ++ x :: ys := fun a ha => by
    rcases List.mem_append.mp ha with ha | ha
    · exact List.mem_append_left _ ha
    · exact List.mem_append_right _ (List.mem_cons_of_mem _ ha)
  rw [listUnchain_eq hp hq hx0]
  refine ⟨rfl, ⟨?_, ?_, seg_take h.seg h.nodup h.no_null _, ?_, ?_, fun a ha => h.room a (hmem a ha), ?_⟩, ?_⟩
  · show (if xs.getLastD 0 = 0 then ys.headD 0 else s.list.head) = _
    rw [h.head, headD_append, headD_append]
    cases xs with
    | nil => rfl
    | cons a xs =>
      rw [if_neg (h.room _ (List.mem_append_left _ getLastD_mem)).1]
      rfl
  · show (if ys.headD 0 = 0 then xs.getLastD 0 else s.list.tail) = _
    rw [h.tail, getLastD_append, getLastD_append, List.getLastD_cons]
    cases ys with
    | nil => rfl
    | cons b ys =>
      have hb : ¬ (b :: ys).headD 0 = 0 := (h.room b (by simp)).1
      rw [if_neg hb, List.getLastD_cons, List.getLastD_cons]
  · show sub32 s.list.count 1 = _
    have hlt := h.length_lt
    rw [List.length_append, List.length_cons] at hlt
    rw [h.count, List.length_append, List.length_cons, sub32_eq (by omega) (by omega), List.length_append]
    omega
  · intro a
    show a ∈ s.alive.filter (· != x) ↔ _
    rw [List.mem_filter, h.alive, bne_iff_ne]
    constructor
    · intro ⟨ha, hne⟩
      rcases List.mem_append.mp ha with ha | ha
      · exact List.mem_append_left _ ha
      · exact List.mem_append_right _ ((List.mem_cons.mp ha).resolve_left hne)
    · intro ha
      exact ⟨hmem a ha, fun e => hmid.1 (e ▸ ha)⟩
  · exact (List.pairwise_cons.mp ((List.pairwise_middle fun hab => Or.symm hab).mp h.apart)).2
  · rw [← List.map_append]
    apply List.map_congr_left
    intro a ha
    have hne : a ≠ x := fun e => hmid.1 (e ▸ ha)
    show ((chain s.store _ _).set x ⟨0, 0, 0⟩).data a = _
    rw [Store.data, Store.set_ne _ _ hne]
    exact chain_data _ _ _ (h.room a (hmem a ha)).1

/-! ## Finding a node -/

theorem removeLoop_seg {st : Store} {p x : Nat} : ∀ {xs : List Nat}, Seg st.next st.prev p (xs ++ x :: ys) 0 →
    0 ∉ xs → x ≠ 0 → removeLoop st xs.length ((xs ++ x :: ys).headD 0) = x
  | [], _, _, _ => rfl
  | a :: xs, h, h0, hx => by
    have hnext : st.next a = (xs ++ x :: ys).headD 0 := h.2.1
    obtain ⟨-, hxs⟩ := List.ne_and_not_mem_of_not_mem_cons h0
    have hne : st.next a ≠ 0 := by
      rw [hnext, headD_append]
      cases xs with
      | nil => exact hx
      | cons b xs => exact (List.ne_and_not_mem_of_not_mem_cons hxs).1.symm
    show removeLoop st (xs.length + 1) a = x
    rw [removeLoop, if_neg hne, hnext]
    exact removeLoop_seg h.2.2 hxs hx

/-- The first node that holds a data pointer, if one does. -/
theorem find_data (st : Store) (ptr : Nat) : ∀ ns : List Nat, ptr ∉ ns.map st.data ∨
    ∃ xs x ys, ns = xs ++ x :: ys ∧ st.data x = ptr ∧ ptr ∉ xs.map st.data
  | [] => .inl (List.not_mem_nil)
  | a :: ns => by
    by_cases ha : st.data a = ptr
    · exact .inr ⟨[], a, ns, rfl, ha, List.not_mem_nil⟩
    · rcases find_data st ptr ns with h | ⟨xs, x, ys, rfl, hx, hxs⟩
      · refine .inl ?_
        intro hm
        rcases List.mem_cons.mp hm with e | hm
        · exact ha e.symm
        · exact h hm
      · refine .inr ⟨a :: xs, x, ys, rfl, hx, ?_⟩
        intro hm
        rcases List.mem_cons.mp hm with e | hm
        · exact ha e.symm
        · exact hxs hm

/-- `list_delete` and `list_index` walk past the nodes that do not hold the data pointer. -/
theorem deleteLoop_skip {p : Nat} : ∀ {xs : List Nat} (fuel : Nat), Seg s.store.next s.store.prev p (xs ++ ys) 0 →
    0 ∉ xs → ptr ∉ xs.map s.store.data →
    deleteLoop s ptr (fuel + xs.length) ((xs ++ ys).headD 0) = deleteLoop s ptr fuel (ys.headD 0)
  | [], _, _, _, _ => rfl
  | a :: xs, fuel, h, h0, hd => by
    have hnext : s.store.next a = (xs ++ ys).headD 0 := h.2.1
    obtain ⟨ha, hxs⟩ := List.ne_and_not_mem_of_not_mem_cons h0
    obtain ⟨hda, hdxs⟩ := List.ne_and_not_mem_of_not_mem_cons hd
    show deleteLoop s ptr (fuel + xs.length + 1) a = _
    rw [deleteLoop, if_neg ha.symm, if_neg hda.symm, hnext]
    exact deleteLoop_skip fuel h.2.2 hxs hdxs

theorem indexLoop_skip {st : Store} {p : Nat} : ∀ {xs : List Nat} (fuel i : Nat), Seg st.next st.prev p (xs ++ ys) 0 →
    0 ∉ xs → ptr ∉ xs.map st.data → i + xs.length < 4294967296 →
    indexLoop st ptr (fuel + xs.length) ((xs ++ ys).headD 0) i = indexLoop st ptr fuel (ys.headD 0) (i + xs.length)
  | [], _, _, _, _, _, _ => rfl
  | a :: xs, fuel, i, h, h0, hd, hi => by
    have hnext : st.next a = (xs ++ ys).headD 0 := h.2.1
    obtain ⟨ha, hxs⟩ := List.ne_and_not_mem_of_not_mem_cons h0
    obtain ⟨hda, hdxs⟩ := List.ne_and_not_mem_of_not_mem_cons hd
    rw [List.length_cons] at hi
    show indexLoop st ptr (fuel + xs.length + 1) a i = _
    rw [indexLoop, if_neg ha.symm, if_neg hda.symm, hnext, add32_eq (by omega),
      indexLoop_skip fuel (i + 1) h.2.2 hxs hdxs (by omega), List.length_cons, Nat.add_assoc, Nat.add_comm 1]

theorem Rep.null_left (h : Rep s (xs ++ ys)) : 0 ∉ xs := fun hm => h.no_null (List.mem_append_left _ hm)

/-- A prefix of the list leaves fuel for one turn more. -/
theorem Rep.fuel (h : Rep s (xs ++ ys)) : ∃ k, chainFuel = k + 1 + xs.length := by
  have hlt := h.length_lt
  rw [List.length_append] at hlt
  exact ⟨4294967295 - xs.length, by unfold chainFuel; omega⟩

theorem listDelete_rep (h : Rep s ns) (ptr : Nat) :
    (ptr ∉ ns.map s.store.data ∧ listDelete s ptr = some (s, 0)) ∨
    ∃ xs x ys, ns = xs ++ x :: ys ∧ s.store.data x = ptr ∧ ptr ∉ xs.map s.store.data ∧
      listDelete s ptr = some (listUnchain s x) := by
  unfold listDelete
  rw [h.head]
  rcases find_data s.store ptr ns with hno | ⟨xs, x, ys, rfl, hx, hxs⟩
  · refine .inl ⟨hno, ?_⟩
    rw [← List.append_nil ns] at h ⊢
    obtain ⟨k, hk⟩ := h.fuel
    rw [hk, deleteLoop_skip (k + 1) h.seg h.null_left hno]
    rfl
  · refine .inr ⟨xs, x, ys, rfl, hx, hxs, ?_⟩
    obtain ⟨k, hk⟩ := h.fuel
    have hx0 : x ≠ 0 := (h.room x (by simp)).1
    rw [hk, deleteLoop_skip (k + 1) h.seg h.null_left hxs]
    show deleteLoop s ptr (k + 1) x = _
    rw [deleteLoop, if_neg hx0, if_pos hx]

theorem listIndex_rep (h : Rep s ns) (ptr : Nat) :
    listIndex s ptr =
      some (if ptr ∈ ns.map s.store.data then (ns.map s.store.data).idxOf ptr else 0xFFFFFFFF) := by
  have hlt := h.length_lt
  unfold listIndex
  rw [h.head]
  rcases find_data s.store ptr ns with hno | ⟨xs, x, ys, rfl, hx, hxs⟩
  · rw [if_neg hno]
    rw [← List.append_nil ns] at h ⊢
    obtain ⟨k, hk⟩ := h.fuel
    rw [hk, indexLoop_skip (k + 1) 0 h.seg h.null_left hno (by omega)]
    rfl
  · obtain ⟨k, hk⟩ := h.fuel
    have hx0 : x ≠ 0 := (h.room x (by simp)).1
    have hmem : ptr ∈ (xs ++ x :: ys).map s.store.data := List.mem_map.mpr ⟨x, by simp, hx⟩
    rw [List.length_append] at hlt
    rw [hk, indexLoop_skip (k + 1) 0 h.seg h.null_left hxs (by omega), if_pos hmem]
    show indexLoop s.store ptr (k + 1) x (0 + xs.length) = _
    rw [indexLoop, if_neg hx0, if_pos hx, List.map_append, List.idxOf_append, if_neg hxs, List.map_cons, hx,
      List.idxOf_cons_self, List.length_map]

/-! ## One operation -/

theorem listInsert_null {x : Nat} (h : Rep s (xs ++ x :: ys)) (hx : xs ≠ []) (ptr : Nat) :
    listInsert s ptr xs.length 0 = some (s, 0) := by
  obtain ⟨hlen, hcount, hcur⟩ := listInsert_cur h hx
  unfold listInsert
  rw [if_neg hlen, if_neg hcount, hcur]
  rfl

/-- The operation returns, and does to the data pointers what it means for a sequence. -/
def Does (s : St) (ns : List Nat) (op : Op) : Prop :=
  ∃ s' ns', step s op = some (s', op.result (ns.map s.store.data)) ∧ Rep s' ns' ∧
    ns'.map s'.store.data = op.apply (ns.map s.store.data)

/-- An operation that changes nothing. -/
theorem Rep.idle (h : Rep s ns) {op : Op} (hs : step s op = some (s, op.result (ns.map s.store.data)))
    (ha : op.apply (ns.map s.store.data) = ns.map s.store.data) : Does s ns op := ⟨s, ns, hs, h, ha.symm⟩

theorem append_does (h : Rep s ns) (hf : Fresh s node) (ptr : Nat) : Does s ns (.append ptr node) := by
  by_cases h0 : node = 0
  · subst h0
    exact h.idle rfl rfl
  · obtain ⟨hrep, hdata⟩ := listAppend_rep h hf h0 ptr
    refine ⟨_, _, ?_, hrep, ?_⟩
    · simp only [step, listAppend, if_pos h0, Op.result]
    · rw [hdata, Op.apply, if_neg h0]

theorem prepend_does (h : Rep s ns) (hf : Fresh s node) (ptr : Nat) : Does s ns (.prepend ptr node) := by
  by_cases h0 : node = 0
  · subst h0
    exact h.idle rfl rfl
  · obtain ⟨hrep, hdata⟩ := listPrepend_rep h hf h0 ptr
    refine ⟨_, _, ?_, hrep, ?_⟩
    · simp only [step, listPrepend, if_pos h0, Op.result]
    · rw [hdata, Op.apply, if_neg h0]

theorem insert_does (h : Rep s ns) (hf : Fresh s node) (ptr before : Nat) : Does s ns (.insert ptr before node) := by
  by_cases hfirst : before = 0
  · -- the shortcut for the head
    obtain ⟨s', ns', h1, h2, h3⟩ := prepend_does h hf ptr
    refine ⟨s', ns', ?_, h2, ?_⟩
    · rw [step, listInsert, if_pos hfirst]
      exact h1
    · rw [h3, Op.apply, Op.apply, hfirst, Nat.zero_min, List.insertIdx_zero]
  · by_cases hlast : ns.length ≤ before
    · -- the shortcut for the tail
      obtain ⟨s', ns', h1, h2, h3⟩ := append_does h hf ptr
      refine ⟨s', ns', ?_, h2, ?_⟩
      · rw [step, listInsert, if_neg hfirst, if_pos (by rwa [h.count])]
        exact h1
      · have hmin : min before (ns.map s.store.data).length = (ns.map s.store.data).length :=
          Nat.min_eq_right (by rwa [List.length_map])
        rw [h3, Op.apply, Op.apply, hmin, List.insertIdx_length_self]
    · obtain ⟨xs, x, ys, rfl, hlen⟩ := split_at (Nat.lt_of_not_le hlast)
      have hx : xs ≠ [] := fun e => hfirst (by rw [← hlen, e]; rfl)
      subst hlen
      by_cases h0 : node = 0
      · subst h0
        exact h.idle (listInsert_null h hx ptr) rfl
      · obtain ⟨s', h1, h2, h3⟩ := listInsert_rep h hx hf h0 ptr
        refine ⟨s', _, h1, h2, ?_⟩
        have hmin : min xs.length ((xs ++ x :: ys).map s.store.data).length = (xs.map s.store.data).length := by
          simp
        rw [h3, Op.apply, if_neg h0, hmin, List.map_append, insertIdx_middle]

theorem remove_does (h : Rep s ns) (idx : Nat) : Does s ns (.remove idx) := by
  by_cases hidx : ns.length ≤ idx
  · have hlen : (ns.map s.store.data).length ≤ idx := by rwa [List.length_map]
    refine h.idle ?_ (List.eraseIdx_of_length_le hlen)
    rw [step, listRemove, if_pos (.inr (by rwa [h.count])), Op.result, List.getD_eq_getElem?_getD,
      List.getElem?_eq_none hlen, Option.getD_none]
  · obtain ⟨xs, x, ys, rfl, rfl⟩ := split_at (Nat.lt_of_not_le hidx)
    have hx0 : x ≠ 0 := (h.room x (by simp)).1
    have hhead : s.list.head ≠ 0 := by
      rw [h.head, headD_append]
      cases xs with
      | nil => exact hx0
      | cons a xs => exact (h.room a (by simp)).1
    obtain ⟨hret, hrep, hdata⟩ := h.unchain
    refine ⟨_, _, ?_, hrep, ?_⟩
    · have hgo : ¬ (s.list.head = 0 ∨ s.list.count ≤ xs.length) := by
        rw [h.count]
        omega
      have hget : ((xs ++ x :: ys).map s.store.data).getD xs.length 0 = s.store.data x := by simp
      rw [step, listRemove, if_neg hgo, h.head, removeLoop_seg h.seg h.null_left hx0, Op.result, hget]
      show some (if x = 0 then (s, 0) else listUnchain s x) = _
      rw [if_neg hx0, ← hret]
    · have hlen : (xs.map s.store.data).length ≤ xs.length := Nat.le_of_eq (List.length_map _)
      rw [hdata, Op.apply, List.map_append, List.eraseIdx_append_of_length_le hlen, List.length_map, Nat.sub_self,
        List.map_cons, List.eraseIdx_cons_zero]

theorem delete_does (h : Rep s ns) (ptr : Nat) : Does s ns (.delete ptr) := by
  rcases listDelete_rep h ptr with ⟨hno, hs⟩ | ⟨xs, x, ys, rfl, hx, hxs, hs⟩
  · refine h.idle ?_ (List.erase_of_not_mem hno)
    rw [step, hs, Op.result, if_neg hno]
  · obtain ⟨hret, hrep, hdata⟩ := h.unchain
    have hmem : ptr ∈ (xs ++ x :: ys).map s.store.data := List.mem_map.mpr ⟨x, by simp, hx⟩
    refine ⟨_, _, ?_, hrep, ?_⟩
    · rw [step, hs, Op.result, if_pos hmem, ← hx, ← hret]
    · rw [hdata, Op.apply, List.map_append, List.erase_append_right _ hxs, List.map_cons, hx, List.erase_cons_head]

theorem popHead_does (h : Rep s ns) : Does s ns .popHead := by
  cases ns with
  | nil =>
    have hhead : s.list.head = 0 := h.head
    refine h.idle ?_ rfl
    rw [step, listPopHead, if_neg (not_not_intro hhead)]
    rfl
  | cons x ns =>
    have h' : Rep s ([] ++ x :: ns) := h
    obtain ⟨hret, hrep, hdata⟩ := h'.unchain
    have hx0 : x ≠ 0 := (h.room x (by simp)).1
    have hhead : s.list.head = x := h.head
    refine ⟨_, _, ?_, hrep, hdata⟩
    rw [step, listPopHead, hhead, if_pos hx0]
    exact congrArg some (Prod.ext rfl hret)

theorem popTail_does (h : Rep s ns) : Does s ns .popTail := by
  rcases List.eq_nil_or_concat ns with rfl | ⟨xs, x, rfl⟩
  · have htail : s.list.tail = 0 := h.tail
    refine h.idle ?_ rfl
    rw [step, listPopTail, if_neg (not_not_intro htail)]
    rfl
  · rw [List.concat_eq_append] at h ⊢
    obtain ⟨hret, hrep, hdata⟩ := h.unchain
    have hx0 : x ≠ 0 := (h.room x (by simp)).1
    have htail : s.list.tail = x := by rw [h.tail, List.getLastD_concat]
    refine ⟨_, _, ?_, hrep, ?_⟩
    · rw [step, listPopTail, htail, if_pos hx0, Op.result, List.map_append, List.map_singleton, List.getLastD_concat]
      exact congrArg some (Prod.ext rfl hret)
    · rw [hdata, Op.apply, List.map_append, List.map_singleton, List.dropLast_concat, List.map_nil, List.append_nil]

theorem step_does {op : Op} (h : Rep s ns) (ha : Allowed s op) : Does s ns op := by
  cases op with
  | append ptr node => exact append_does h ha ptr
  | prepend ptr node => exact prepend_does h ha ptr
  | insert ptr before node => exact insert_does h ha ptr before
  | remove idx => exact remove_does h idx
  | delete ptr => exact delete_does h ptr
  | popHead => exact popHead_does h
  | popTail => exact popTail_does h

/-! ## What the list shows -/

theorem Rep.shows (h : Rep s ns) : Shows s (ns.map s.store.data) := by
  refine ⟨ns, ?_, ?_, rfl, ?_, ?_⟩
  · rw [h.head]
    exact h.seg.chase h.no_null
  · rw [h.tail]
    exact h.seg.chase_back h.no_null
  · rw [h.count, List.length_map]
  · rw [List.length_map]
    exact h.length_lt

theorem listAt_rep (h : Rep s ns) (idx : Nat) : listAt s idx = some ((ns.map s.store.data).getD idx 0) := by
  unfold listAt
  rw [h.count]
  by_cases hidx : ns.length ≤ idx
  · have hlen : (ns.map s.store.data).length ≤ idx := by rwa [List.length_map]
    rw [if_pos hidx, List.getD_eq_getElem?_getD, List.getElem?_eq_none hlen, Option.getD_none]
  · obtain ⟨xs, x, ys, rfl, rfl⟩ := split_at (Nat.lt_of_not_le hidx)
    have hx0 : x ≠ 0 := (h.room x (by simp)).1
    have hget : ((xs ++ x :: ys).map s.store.data).getD xs.length 0 = s.store.data x := by simp
    rw [if_neg hidx, h.head, advance_seg h.seg h.null_left, hget]
    exact if_neg hx0

theorem Rep.reads (h : Rep s ns) : Reads s (ns.map s.store.data) where
  count := by rw [listCount, h.count, List.length_map]
  first := by
    rw [listFirst, h.head]
    cases ns with
    | nil => rfl
    | cons a ns => exact if_pos (h.room a List.mem_cons_self).1
  last := by
    rw [listLast, h.tail]
    cases ns with
    | nil => rfl
    | cons a ns =>
      have h0 : (a :: ns).getLastD 0 ≠ 0 := (h.room _ getLastD_mem).1
      rw [if_pos h0, List.getLastD_cons, List.map_cons, List.getLastD_cons, List.getLastD_map]
  nth := listAt_rep h
  index := listIndex_rep h

end Rep

theorem sequence_snoc (ops : List Op) (op : Op) : sequence (ops ++ [op]) = op.apply (sequence ops) := by
  unfold sequence
  rw [List.foldl_append]
  rfl

theorem run_rep {ops : List Op} {s : St} (hr : Run ops s) : ∃ ns, Rep s ns ∧ ns.map s.store.data = sequence ops := by
  induction hr with
  | alloc st =>
    refine ⟨[], ⟨rfl, rfl, trivial, rfl, fun a => Iff.rfl, ?_, List.Pairwise.nil⟩, rfl⟩
    intro a ha
    cases ha
  | @step ops s s' op r _ ha hs ih =>
    obtain ⟨ns, h, hd⟩ := ih
    obtain ⟨s'', ns', h1, h2, h3⟩ := step_does h ha
    rw [hs] at h1
    cases h1
    exact ⟨ns', h2, by rw [h3, hd, sequence_snoc]⟩

theorem Op.apply_of_fails {op : Op} {l : List Nat} (h : op.Fails l) : op.apply l = l := by
  cases op with
  | append ptr node => exact if_pos h
  | prepend ptr node => exact if_pos h
  | insert ptr before node => exact if_pos h
  | remove idx => exact List.eraseIdx_of_length_le h
  | delete ptr => exact List.erase_of_not_mem h
  | popHead => rw [show l = [] from h]; rfl
  | popTail => rw [show l = [] from h]; rfl

/-- Whatever operations ran, with whatever answers from `malloc`: the list shows the
    sequence they mean, the functions that read it agree, and so does whatever comes next. -/
theorem list_refines_sequence {ops : List Op} {s : St} (hr : Run ops s) :
    Shows s (sequence ops) ∧ Reads s (sequence ops) ∧
    ∀ op, Allowed s op → ∃ s', step s op = some (s', op.result (sequence ops)) ∧
      Shows s' (op.apply (sequence ops)) ∧ (op.Fails (sequence ops) → Shows s' (sequence ops)) := by
  obtain ⟨ns, h, hd⟩ := run_rep hr
  rw [← hd]
  refine ⟨h.shows, h.reads, ?_⟩
  intro op ha
  obtain ⟨s', ns', h1, h2, h3⟩ := step_does h ha
  refine ⟨s', h1, by rw [← h3]; exact h2.shows, ?_⟩
  intro hf
  rw [← Op.apply_of_fails hf, ← h3]
  exact h2.shows

/-- The state after some operations, if all are allowed and return. -/
def exec : St → List Op → Option St
  | s, [] => some s
  | s, op :: ops =>
    if Allowed s op then
      match step s op with
      | some (s', _) => exec s' ops
      | none => none
    else none

theorem exec_run : ∀ {ops done : List Op} {s s' : St}, Run done s → exec s ops = some s' → Run (done ++ ops) s'
  | [], done, s, s', hr, h => by
    cases h
    rwa [List.append_nil]
  | op :: ops, done, s, s', hr, h => by
    unfold exec at h
    split at h
    · rename_i ha
      cases hs : step s op with
      | none => rw [hs] at h; cases h
      | some r =>
        rw [hs] at h
        have := exec_run (hr.step ha hs) h
        rwa [List.append_assoc] at this
    · cases h

/-- Seven operations, one allocation among them failing. -/
def sevenOps : List Op :=
  [.append 5 0x1000, .prepend 6 0x2000, .insert 7 1 0x3000, .append 8 0, .delete 6, .insert 9 7 0x4000, .remove 1]

def emptyList : St := ⟨⟨fun _ => ⟨0, 0, 0⟩⟩, listAlloc, []⟩

theorem seven_ops_shown : ∃ s, Run sevenOps s ∧ sequence sevenOps = [7, 9] ∧ Shows s (sequence sevenOps) := by
  have hsome : (exec emptyList sevenOps).isSome = true := by decide +kernel
  have hr : Run ([] ++ sevenOps) _ := exec_run (.alloc _) (Option.some_get hsome).symm
  exact ⟨_, hr, by decide, (list_refines_sequence hr).1⟩

end NativeOS.Stdkern.LinkedList
