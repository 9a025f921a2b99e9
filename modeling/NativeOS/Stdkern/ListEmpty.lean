/-
  NativeOS.Stdkern.ListEmpty — emptying and freeing a list (`list_empty`, `list_free`).

  `list_empty` hands the node it stands on to `listnode_free` and then takes the next one
  from it. `listnode_free` has cleared the link, and `free` leaves the bytes of a block as
  they are, so the freed node reads as the last one: the walk ends there.

  Proved:
  * `listEmpty_cons` — one node is freed, the others stay allocated, and the list is empty.
  * `list_released_iff` — everything is freed, and nothing read afterwards, exactly for the
    empty list; leaving out the late read, exactly for at most one node.
-/

import NativeOS.Stdkern.LinkedListProofs

namespace NativeOS.Stdkern.LinkedList

open NativeOS.Lib

/-! ## list.c -/

/-- What happens to the memory of the list, in order. -/
inductive MemEv where
  | read (node : Nat)
  | free (node : Nat)
  | freeList
  deriving DecidableEq

/-- A chain with more turns than there are addresses never ends. -/
def emptyLoop : Nat → St → Nat → Option (St × List MemEv)
  | 0, _, _ => none
  | fuel + 1, s, cur =>
    if cur = 0 then some (s, [])
    else do
      let s1 := (listnodeFree s cur).1
      let rest ← emptyLoop fuel s1 (s1.store.next cur)
      some (rest.1, .read cur :: .free cur :: .read cur :: rest.2)

def listEmpty (s : St) : Option (St × List MemEv) :=
  if s.list.count ≠ 0 then do
    let done ← emptyLoop chainFuel s s.list.head
    some ({ done.1 with list := ⟨0, 0, 0⟩ }, done.2)
  else some (s, [])

def listFree (s : St) : Option (St × List MemEv) := do
  let done ← listEmpty s
  some (done.1, done.2 ++ [.freeList])

/-! ## What they should do -/

/-- Every node freed once, nothing of the list still allocated, and the list empty. -/
structure AllFreed (ns : List Nat) (s' : St) (trace : List MemEv) : Prop where
  once : ∀ node ∈ ns, trace.count (.free node) = 1
  gone : s'.alive = []
  empty : s'.list = listAlloc

/-- No node is read once it is freed. -/
def NoLateRead (trace : List MemEv) : Prop :=
  ∀ node earlier later, trace = earlier ++ .free node :: later → .read node ∉ later

/-- `list_empty` does all of that. -/
def Releases (s : St) (ns : List Nat) : Prop :=
  ∃ s' trace, listEmpty s = some (s', trace) ∧ AllFreed ns s' trace ∧ NoLateRead trace

/-- So does `list_free`, and the list itself goes last. -/
def ReleasesList (s : St) (ns : List Nat) : Prop :=
  ∃ s' trace, listFree s = some (s', trace ++ [.freeList]) ∧ .freeList ∉ trace ∧ AllFreed ns s' trace ∧ NoLateRead trace

/-! ## What they do -/

section Empty

variable {s : St} {ns : List Nat} {a : Nat}

theorem next_listnodeFree (s : St) (node : Nat) : (listnodeFree s node).1.store.next node = 0 := by
  simp [listnodeFree, Store.next, Store.set]

theorem emptyLoop_null (fuel : Nat) (s : St) : emptyLoop (fuel + 1) s 0 = some (s, []) := if_pos rfl

/-- Whatever the list, the loop takes one turn. -/
theorem emptyLoop_node (fuel : Nat) (s : St) {node : Nat} (h0 : node ≠ 0) :
    emptyLoop (fuel + 2) s node = some ((listnodeFree s node).1, [.read node, .free node, .read node]) := by
  rw [emptyLoop, if_neg h0]
  simp only [next_listnodeFree, emptyLoop_null]
  rfl

theorem listEmpty_nil (h : Rep s []) : listEmpty s = some (s, []) := by
  have hcount : ¬ s.list.count ≠ 0 := fun hne => hne h.count
  exact if_neg hcount

/-- The nodes behind the first are lost: still allocated, and on no list. -/
theorem listEmpty_cons (h : Rep s (a :: ns)) : ∃ s', listEmpty s = some (s', [.read a, .free a, .read a]) ∧
    s'.list = listAlloc ∧ ∀ b, b ∈ s'.alive ↔ b ∈ ns := by
  have hcount : s.list.count ≠ 0 := by
    rw [h.count]
    exact Nat.succ_ne_zero _
  have h0 : a ≠ 0 := (h.room a List.mem_cons_self).1
  have hhead : s.list.head = a := h.head
  obtain ⟨k, hk⟩ : ∃ k, chainFuel = k + 2 := ⟨4294967294, rfl⟩
  refine ⟨{ (listnodeFree s a).1 with list := ⟨0, 0, 0⟩ }, ?_, rfl, ?_⟩
  · rw [listEmpty, if_pos hcount, hhead, hk, emptyLoop_node k s h0]
    rfl
  · intro b
    have hmem : b ∈ (listnodeFree s a).1.alive ↔ b ∈ s.alive ∧ b ≠ a := by simp [listnodeFree]
    have hnot : a ∉ ns := (List.nodup_cons.mp h.nodup).1
    refine hmem.trans ?_
    rw [h.alive, List.mem_cons]
    constructor
    · intro h
      obtain ⟨rfl | hb, hne⟩ := h
      · exact absurd rfl hne
      · exact hb
    · intro hb
      exact ⟨.inr hb, fun he => hnot (he ▸ hb)⟩

theorem listFree_eq {s' : St} {trace : List MemEv} (h : listEmpty s = some (s', trace)) :
    listFree s = some (s', trace ++ [.freeList]) := by
  rw [listFree, h]
  rfl

/-- `list_free` releases the list exactly if `list_empty` releases the nodes. -/
theorem releasesList_iff (h : Rep s ns) : ReleasesList s ns ↔ Releases s ns := by
  unfold ReleasesList Releases
  constructor
  · intro h
    obtain ⟨s', trace, hf, -, hall, hlate⟩ := h
    cases he : listEmpty s with
    | none =>
      rw [listFree, he] at hf
      cases hf
    | some r =>
      obtain ⟨s'', trace''⟩ := r
      rw [listFree_eq he] at hf
      obtain ⟨hs, ht⟩ := Prod.mk.inj (Option.some.inj hf)
      obtain ⟨rfl, -⟩ := List.append_inj' ht rfl
      subst hs
      exact ⟨_, _, rfl, hall, hlate⟩
  · intro h
    obtain ⟨s', trace, he, hall, hlate⟩ := h
    refine ⟨s', trace, listFree_eq he, ?_, hall, hlate⟩
    cases ns with
    | nil =>
      rw [listEmpty_nil h] at he
      cases he
      simp
    | cons a ns =>
      obtain ⟨_, he', -, -⟩ := listEmpty_cons h
      rw [he'] at he
      cases he
      simp

theorem releases_iff (h : Rep s ns) : Releases s ns ↔ ns = [] := by
  constructor
  · intro h
    obtain ⟨s', trace, he, -, hlate⟩ := h
    cases ns with
    | nil => rfl
    | cons a ns =>
      obtain ⟨_, he', -, -⟩ := listEmpty_cons h
      rw [he'] at he
      cases he
      exact absurd (by simp) (hlate a [.read a] [.read a] rfl)
  · rintro rfl
    refine ⟨s, [], listEmpty_nil h, ⟨by simp, ?_, ?_⟩, ?_⟩
    · refine List.eq_nil_iff_forall_not_mem.mpr ?_
      intro b hb
      exact absurd ((h.alive b).mp hb) (by simp)
    · have hl : s.list = ⟨s.list.head, s.list.tail, s.list.count⟩ := rfl
      rw [hl, h.head, h.tail, h.count]
      rfl
    · intro node earlier later he
      simp at he

/-- Without the late read: one node is freed whatever the length. -/
theorem allFreed_iff (h : Rep s ns) :
    (∃ s' trace, listEmpty s = some (s', trace) ∧ AllFreed ns s' trace) ↔ ns.length ≤ 1 := by
  cases ns with
  | nil =>
    obtain ⟨s', trace, he, hall, -⟩ := (releases_iff h).mpr rfl
    exact ⟨fun _ => by simp, fun _ => ⟨s', trace, he, hall⟩⟩
  | cons a ns =>
    obtain ⟨s', he, hlist, halive⟩ := listEmpty_cons h
    rw [he]
    constructor
    · intro h
      obtain ⟨_, _, heq, hall⟩ := h
      cases heq
      have hns : ns = [] := by
        refine List.eq_nil_iff_forall_not_mem.mpr ?_
        intro b hb
        have hb' := (halive b).mpr hb
        rw [hall.gone] at hb'
        cases hb'
      simp [hns]
    · intro hlen
      have hns : ns = [] := by
        simpa using hlen
      subst hns
      refine ⟨s', _, rfl, ?_, ?_, hlist⟩
      · intro node hn
        obtain rfl := List.mem_singleton.mp hn
        simp
      · refine List.eq_nil_iff_forall_not_mem.mpr ?_
        intro b hb
        exact absurd ((halive b).mp hb) (by simp)

end Empty

/-- Any well-formed list, `ns` its nodes in order. -/
theorem list_released_iff {s : St} {ns : List Nat} (h : Rep s ns) :
    (Releases s ns ↔ ns = []) ∧ (ReleasesList s ns ↔ ns = []) ∧
    ((∃ s' trace, listEmpty s = some (s', trace) ∧ AllFreed ns s' trace) ↔ ns.length ≤ 1) :=
  ⟨releases_iff h, (releasesList_iff h).trans (releases_iff h), allFreed_iff h⟩

theorem emptyList_rep : Rep emptyList [] := by
  refine ⟨rfl, rfl, trivial, rfl, fun a => Iff.rfl, ?_, List.Pairwise.nil⟩
  intro a ha
  cases ha

theorem an_empty_list_is_released : Releases emptyList [] ∧ ReleasesList emptyList [] := by
  obtain ⟨h1, h2, -⟩ := list_released_iff emptyList_rep
  exact ⟨h1.mpr rfl, h2.mpr rfl⟩

def twoNodes : St := (listAppend (listAppend emptyList 7 100).1 8 200).1

theorem twoNodes_rep : Rep twoNodes [100, 200] := by
  obtain ⟨h1, -⟩ := listAppend_rep emptyList_rep (show Fresh emptyList 100 by decide) (by simp) 7
  obtain ⟨h2, -⟩ := listAppend_rep h1 (show Fresh (listAppend emptyList 7 100).1 200 by decide) (by simp) 8
  exact h2

/-- Two nodes appended: the second is never freed, the first is read after it was. -/
theorem the_second_node_leaks : Run [.append 7 100, .append 8 200] twoNodes ∧
    (∃ s', listEmpty twoNodes = some (s', [.read 100, .free 100, .read 100]) ∧ s'.list = listAlloc ∧ 200 ∈ s'.alive) ∧
    ¬ Releases twoNodes [100, 200] ∧ ¬ ReleasesList twoNodes [100, 200] := by
  refine ⟨?_, ?_, ?_, ?_⟩
  · have hr : Run ([] ++ [.append 7 100] ++ [.append 8 200]) twoNodes :=
      .step (.step (.alloc _) (show Fresh emptyList 100 by decide) rfl)
        (show Fresh (listAppend emptyList 7 100).1 200 by decide) rfl
    exact hr
  · obtain ⟨s', he, hlist, halive⟩ := listEmpty_cons twoNodes_rep
    exact ⟨s', he, hlist, (halive 200).mpr (by simp)⟩
  · intro hr
    have hnil := (releases_iff twoNodes_rep).mp hr
    simp at hnil
  · intro hr
    have hnil := (releases_iff twoNodes_rep).mp ((releasesList_iff twoNodes_rep).mp hr)
    simp at hnil

end NativeOS.Stdkern.LinkedList
