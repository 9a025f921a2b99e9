/-
  NativeOS.Mem.HeapBlocks — the allocator on lists of blocks.

  What `heap_alloc` and `heap_free` mean, without the memory: the heap is a list of
  blocks in address order, each with the prev link its control block holds. `BStep` has
  one rule per outcome: an allocation fails, takes the first block that fits whole or
  cuts it in two; a freed block joins the next block if that one is free and links back
  to it, and then the previous one if its own prev link names that; or its prev link is
  stale and the bytes it points at pass the checks (`ghost`), which rewrites the prev
  link of the following block.

  Cutting a block rewrites no other prev link, so it leaves a wrong one behind exactly
  when the block is not the last (`InnerSplit`). Without such cuts all prev links stay
  right (`BStep.linked`) and no two free blocks are neighbours (`BStep.coalesced`); the
  first such cut breaks the links (`BStep.not_linked`).
-/

import Mathlib.Data.List.Chain
import NativeOS.Mem.Heap

namespace NativeOS.Mem.Heap

structure Blk where
  addr : Nat
  size : Nat
  prev : Nat
  used : Bool
  deriving DecidableEq, Repr

def Blk.status (b : Blk) : Nat := if b.used then heapMagicUsed else heapMagicFree

/-! ## The operations -/

/-- `b` with its status word rewritten. -/
def Blk.mark (b : Blk) (u : Bool) : Blk := { b with used := u }

/-- The two blocks a split leaves. -/
def Blk.low (b : Blk) (size : Nat) : Blk := { b with size := size, used := true }

def Blk.high (b : Blk) (size : Nat) : Blk := ⟨b.addr + 20 + size, b.size - size - 20, b.addr, false⟩

/-- A block `heap_alloc` can use. -/
def Blk.fits (size : Nat) (b : Blk) : Bool := !b.used && size ≤ b.size

/-- `a` with the room of the next block `b`. -/
def Blk.absorb (a b : Blk) : Blk := { a with size := a.size + 20 + b.size }

/-- Rewriting the prev link of the first block of a list. -/
def relink (p : Nat) : List Blk → List Blk
  | [] => []
  | c :: cs => { c with prev := p } :: cs

/-- Whether the first merge of `heap_free` is made. -/
def joinsNext (b : Blk) : List Blk → Bool
  | [] => false
  | c :: _ => !c.used && c.prev == b.addr

/-- The freed block and the blocks after it, once the first merge was tried. -/
def mergeNext (b : Blk) (post : List Blk) : Blk × List Blk :=
  match post with
  | [] => (b, [])
  | c :: rest => if joinsNext b post then (b.absorb c, relink b.addr rest) else (b, post)

inductive BStep : List Blk → Ev → List Blk → Prop
  | full {bs : List Blk} {size : Nat} : (∀ c ∈ bs, c.fits size = false) → BStep bs (.alloc size) bs
  | whole {pre post : List Blk} {b : Blk} {size : Nat} : (∀ c ∈ pre, c.fits size = false) → b.fits size = true →
      b.size ≤ size + 21 → BStep (pre ++ b :: post) (.alloc size) (pre ++ b.mark true :: post)
  | split {pre post : List Blk} {b : Blk} {size : Nat} : (∀ c ∈ pre, c.fits size = false) → b.fits size = true →
      size + 21 < b.size → BStep (pre ++ b :: post) (.alloc size) (pre ++ b.low size :: b.high size :: post)
  | joined {pre post : List Blk} {a b : Blk} : b.used = true → a.used = false → a.addr = b.prev →
      BStep (pre ++ a :: b :: post) (.free (b.addr + 20))
        (pre ++ a.absorb (mergeNext (b.mark false) post).1 :: relink a.addr (mergeNext (b.mark false) post).2)
  | kept {pre post : List Blk} {b : Blk} : b.used = true →
      (∀ pre' a, pre = pre' ++ [a] → a.addr = b.prev → a.used = true) →
      BStep (pre ++ b :: post) (.free (b.addr + 20))
        (pre ++ (mergeNext (b.mark false) post).1 :: (mergeNext (b.mark false) post).2)
  | ghost {pre post : List Blk} {b : Blk} : b.used = true → b.prev ≠ 0 → (∀ d ∈ pre, d.addr ≠ b.prev) →
      BStep (pre ++ b :: post) (.free (b.addr + 20))
        (pre ++ (mergeNext (b.mark false) post).1 :: relink b.prev (mergeNext (b.mark false) post).2)
  | write {bs : List Blk} {p off : Nat} {v : UInt8} : BStep bs (.write p off v) bs

/-- The allocation cuts a block that has a successor. -/
def InnerSplit (bs : List Blk) (e : Ev) : Prop :=
  ∃ size pre b post, e = .alloc size ∧ bs = pre ++ b :: post ∧ (∀ c ∈ pre, c.fits size = false) ∧
    b.fits size = true ∧ size + 21 < b.size ∧ post ≠ []

/-! ## Small facts -/

theorem mergeNext_blk (b : Blk) (post : List Blk) :
    (mergeNext b post).1.addr = b.addr ∧ (mergeNext b post).1.prev = b.prev ∧ (mergeNext b post).1.used = b.used := by
  unfold mergeNext
  split
  · exact ⟨rfl, rfl, rfl⟩
  · split <;> exact ⟨rfl, rfl, rfl⟩

theorem relink_mem {p : Nat} {b : Blk} {post : List Blk} (hb : b ∈ post) :
    ∃ d ∈ relink p post, d.addr = b.addr ∧ d.size = b.size := by
  cases post with
  | nil => cases hb
  | cons c post =>
    rcases List.mem_cons.mp hb with rfl | hb
    · exact ⟨_, List.mem_cons_self, rfl, rfl⟩
    · exact ⟨b, List.mem_cons_of_mem _ hb, rfl, rfl⟩

theorem mem_relink {p : Nat} {c : Blk} {post : List Blk} (hc : c ∈ relink p post) : ∃ d ∈ post, d.addr = c.addr := by
  cases post with
  | nil => cases hc
  | cons e post =>
    rcases List.mem_cons.mp hc with rfl | hc
    · exact ⟨e, List.mem_cons_self, rfl⟩
    · exact ⟨c, List.mem_cons_of_mem _ hc, rfl⟩

theorem mark_sub (b : Blk) (u : Bool) (pre post : List Blk) :
    ∀ c ∈ pre ++ b.mark u :: post, ∃ d ∈ pre ++ b :: post, d.addr = c.addr := by
  intro c hc
  simp only [List.mem_append, List.mem_cons] at hc ⊢
  rcases hc with hc | rfl | hc
  · exact ⟨c, .inl hc, rfl⟩
  · exact ⟨b, .inr (.inl rfl), rfl⟩
  · exact ⟨c, .inr (.inr hc), rfl⟩

theorem mergeNext_sub (b : Blk) (u : Bool) (pre post : List Blk) :
    ∀ c ∈ pre ++ (mergeNext (b.mark u) post).1 :: (mergeNext (b.mark u) post).2,
      ∃ d ∈ pre ++ b :: post, d.addr = c.addr := by
  intro c hc
  simp only [List.mem_append, List.mem_cons] at hc ⊢
  rcases hc with hc | rfl | hc
  · exact ⟨c, .inl hc, rfl⟩
  · exact ⟨b, .inr (.inl rfl), (mergeNext_blk (b.mark u) post).1.symm⟩
  · unfold mergeNext at hc
    split at hc
    · cases hc
    · split at hc
      · obtain ⟨d, hd, e⟩ := mem_relink hc
        exact ⟨d, .inr (.inr (List.mem_cons_of_mem _ hd)), e⟩
      · exact ⟨c, .inr (.inr hc), rfl⟩

/-- There is one first block that fits. -/
theorem first_fit_unique {size : Nat} {b b' : Blk} : ∀ {pre pre' post post' : List Blk},
    pre ++ b :: post = pre' ++ b' :: post' → (∀ c ∈ pre, c.fits size = false) → (∀ c ∈ pre', c.fits size = false) →
    b.fits size = true → b'.fits size = true → pre = pre' ∧ b = b' ∧ post = post'
  | [], [], post, post', e, _, _, _, _ => by simpa using e
  | [], c :: pre', post, post', e, _, h', hb, _ => by
    obtain ⟨rfl, -⟩ := List.cons.inj e
    rw [h' b List.mem_cons_self] at hb
    cases hb
  | c :: pre, [], post, post', e, h, _, _, hb' => by
    obtain ⟨rfl, -⟩ := List.cons.inj e
    rw [h c List.mem_cons_self] at hb'
    cases hb'
  | c :: pre, c' :: pre', post, post', e, h, h', hb, hb' => by
    simp only [List.cons_append, List.cons.injEq] at e
    obtain ⟨rfl, e⟩ := e
    obtain ⟨rfl, e1, e2⟩ := first_fit_unique e (fun d hd => h d (List.mem_cons_of_mem _ hd))
      (fun d hd => h' d (List.mem_cons_of_mem _ hd)) hb hb'
    exact ⟨rfl, e1, e2⟩

/-! ## Prev links -/

/-- Each prev link names the block before, `p` before the first. -/
def Linked (p : Nat) : List Blk → Prop
  | [] => True
  | b :: bs => b.prev = p ∧ Linked b.addr bs

/-- The address of the last block, `p` if there is none. -/
def lastAddr (p : Nat) : List Blk → Nat
  | [] => p
  | b :: bs => lastAddr b.addr bs

theorem linked_append {p : Nat} {xs ys : List Blk} :
    Linked p (xs ++ ys) ↔ Linked p xs ∧ Linked (lastAddr p xs) ys := by
  induction xs generalizing p with
  | nil => simp [Linked, lastAddr]
  | cons b xs ih => simp only [List.cons_append, Linked, lastAddr, ih, and_assoc]

theorem lastAddr_snoc (p : Nat) (pre : List Blk) (a : Blk) : lastAddr p (pre ++ [a]) = a.addr := by
  induction pre generalizing p with
  | nil => rfl
  | cons b pre ih => exact ih b.addr

/-- A list is empty or has a last block. -/
theorem last_cases (pre : List Blk) : pre = [] ∨ ∃ pre' a, pre = pre' ++ [a] := by
  induction pre with
  | nil => exact .inl rfl
  | cons b pre ih =>
    rcases ih with rfl | ⟨pre', a, rfl⟩
    · exact .inr ⟨[], b, rfl⟩
    · exact .inr ⟨b :: pre', a, rfl⟩

theorem Linked.relink {p q : Nat} {bs : List Blk} (h : Linked q bs) : Linked p (relink p bs) := by
  cases bs with
  | nil => trivial
  | cons b bs => exact ⟨rfl, h.2⟩

theorem Linked.mergeNext {p : Nat} {b : Blk} {post : List Blk} (h : Linked p (b :: post)) :
    Linked p ((mergeNext b post).1 :: (mergeNext b post).2) := by
  unfold Heap.mergeNext
  split
  · exact h
  · split
    · exact ⟨h.1, h.2.2.relink⟩
    · exact h

section Step

variable {bs bs' : List Blk} {e : Ev}

/-- The prev link of a block whose list is linked. -/
theorem Linked.prev {pre post : List Blk} {b : Blk} (h : Linked 0 (pre ++ b :: post)) :
    pre = [] ∧ b.prev = 0 ∨ ∃ pre' a, pre = pre' ++ [a] ∧ b.prev = a.addr := by
  have hb := (linked_append.mp h).2.1
  rcases last_cases pre with rfl | ⟨pre', a, rfl⟩
  · exact .inl ⟨rfl, hb⟩
  · rw [lastAddr_snoc] at hb
    exact .inr ⟨pre', a, rfl, hb⟩

theorem BStep.linked (h : BStep bs e bs') (hl : Linked 0 bs) (hs : ¬ InnerSplit bs e) : Linked 0 bs' := by
  cases h with
  | full _ => exact hl
  | write => exact hl
  | whole _ _ _ =>
    obtain ⟨l1, l2⟩ := linked_append.mp hl
    exact linked_append.mpr ⟨l1, l2⟩
  | @split pre post b size h1 h2 h3 =>
    obtain ⟨l1, l2, l3⟩ := linked_append.mp hl
    cases post with
    | nil => exact linked_append.mpr ⟨l1, l2, rfl, trivial⟩
    | cons c post => exact absurd ⟨size, pre, b, c :: post, rfl, rfl, h1, h2, h3, by simp⟩ hs
  | @joined pre post a b _ _ _ =>
    obtain ⟨l1, l2, l3⟩ := linked_append.mp hl
    exact linked_append.mpr ⟨l1, l2, (Linked.mergeNext (b := b.mark false) l3).2.relink⟩
  | @kept pre post b _ _ =>
    obtain ⟨l1, l2⟩ := linked_append.mp hl
    exact linked_append.mpr ⟨l1, Linked.mergeNext (b := b.mark false) l2⟩
  | ghost _ h0 hne =>
    -- a linked block's prev link is null or names a block before it
    rcases hl.prev with ⟨-, h'⟩ | ⟨pre', a, rfl, h'⟩
    · exact absurd h' h0
    · exact absurd h'.symm (hne a (by simp))

theorem BStep.not_linked (h : BStep bs e bs') (hl : Linked 0 bs) (hs : InnerSplit bs e) : ¬ Linked 0 bs' := by
  obtain ⟨size, pre, b, post, rfl, rfl, h1, h2, h3, h4⟩ := hs
  intro hl'
  cases post with
  | nil => exact h4 rfl
  | cons c post =>
    have hc : c.prev = b.addr := (linked_append.mp hl).2.2.1
    generalize hbs : pre ++ b :: c :: post = bs at h
    cases h with
    | full hf => rw [hf b (by simp [← hbs])] at h2; cases h2
    | whole g1 g2 g3 =>
      obtain ⟨-, rfl, -⟩ := first_fit_unique hbs h1 g1 h2 g2
      omega
    | split g1 g2 g3 =>
      obtain ⟨rfl, rfl, rfl⟩ := first_fit_unique hbs h1 g1 h2 g2
      have hc' : c.prev = (b.high size).addr := (linked_append.mp hl').2.2.2.1
      simp only [Blk.high] at hc'
      omega

end Step

/-! ## Coalescing -/

/-- Not both free. -/
def OneUsed (a b : Blk) : Prop := a.used = true ∨ b.used = true

/-- No two neighbours are both free. -/
def Coalesced (bs : List Blk) : Prop := bs.IsChain OneUsed

theorem coalesced_append {xs ys : List Blk} :
    Coalesced (xs ++ ys) ↔ Coalesced xs ∧ Coalesced ys ∧ ∀ x ∈ xs.getLast?, ∀ y ∈ ys.head?, OneUsed x y :=
  List.isChain_append

theorem coalesced_cons {b : Blk} {bs : List Blk} :
    Coalesced (b :: bs) ↔ (∀ y ∈ bs.head?, OneUsed b y) ∧ Coalesced bs := List.isChain_cons

theorem coalesced_relink {p : Nat} {bs : List Blk} (h : Coalesced bs) : Coalesced (relink p bs) := by
  cases bs with
  | nil => exact h
  | cons b bs =>
    obtain ⟨h1, h2⟩ := coalesced_cons.mp h
    exact coalesced_cons.mpr ⟨h1, h2⟩

/-- A used block may stand anywhere. -/
theorem Coalesced.put {pre post : List Blk} {b c : Blk} (h : Coalesced (pre ++ b :: post)) (hc : c.used = true) :
    Coalesced (pre ++ c :: post) := by
  obtain ⟨h1, h2, -⟩ := coalesced_append.mp h
  refine coalesced_append.mpr ⟨h1, coalesced_cons.mpr ⟨fun _ _ => .inl hc, (coalesced_cons.mp h2).2⟩, ?_⟩
  intro x _ y hy
  cases hy
  exact .inr hc

/-- A free block may stand where its neighbours are used. -/
theorem Coalesced.join {pre post : List Blk} {b : Blk} (h1 : Coalesced pre) (h2 : Coalesced post)
    (hl : ∀ x ∈ pre.getLast?, x.used = true) (hr : ∀ y ∈ post.head?, y.used = true) : Coalesced (pre ++ b :: post) := by
  refine coalesced_append.mpr ⟨h1, coalesced_cons.mpr ⟨fun y hy => .inr (hr y hy), h2⟩, ?_⟩
  intro x hx y _
  exact .inl (hl x hx)

/-- After the first merge, a block that was linked back is followed by a used one. -/
theorem Coalesced.mergeNext {p : Nat} {b : Blk} {post : List Blk} (hl : Linked p (b :: post)) (h : Coalesced post) :
    Coalesced (mergeNext b post).2 ∧ ∀ y ∈ (mergeNext b post).2.head?, y.used = true := by
  cases post with
  | nil => exact ⟨h, fun y hy => by cases hy⟩
  | cons c rest =>
    have hc : c.prev = b.addr := hl.2.1
    cases hu : c.used with
    | true =>
      have hj : joinsNext b (c :: rest) = false := by simp [joinsNext, hu]
      simp only [Heap.mergeNext, hj]
      exact ⟨h, fun y hy => by cases hy; exact hu⟩
    | false =>
      have hj : joinsNext b (c :: rest) = true := by simp [joinsNext, hu, hc]
      simp only [Heap.mergeNext, hj, if_true]
      obtain ⟨h1, h2⟩ := coalesced_cons.mp h
      refine ⟨coalesced_relink h2, ?_⟩
      intro y hy
      cases rest with
      | nil => cases hy
      | cons d rest =>
        cases hy
        have := h1 d rfl
        simpa [OneUsed, hu] using this

theorem BStep.coalesced {bs bs' : List Blk} {e : Ev} (h : BStep bs e bs') (hl : Linked 0 bs) (hs : ¬ InnerSplit bs e)
    (hc : Coalesced bs) : Coalesced bs' := by
  cases h with
  | full _ => exact hc
  | write => exact hc
  | whole _ _ _ => exact hc.put rfl
  | @split pre post b size h1 h2 h3 =>
    cases post with
    | nil =>
      have hlow : Coalesced (pre ++ [b.low size]) := hc.put rfl
      obtain ⟨c1, -, c3⟩ := coalesced_append.mp hlow
      refine coalesced_append.mpr ⟨c1, coalesced_cons.mpr ⟨fun _ _ => .inl rfl, List.isChain_singleton _⟩, ?_⟩
      intro x _ y hy
      cases hy
      exact .inr rfl
    | cons c post => exact absurd ⟨size, pre, b, c :: post, rfl, rfl, h1, h2, h3, by simp⟩ hs
  | @joined pre post a b _ ha _ =>
    obtain ⟨-, -, l3⟩ := linked_append.mp hl
    obtain ⟨c1, c2, c3⟩ := coalesced_append.mp hc
    obtain ⟨g1, g2⟩ := Coalesced.mergeNext (b := b.mark false) l3 (coalesced_cons.mp (coalesced_cons.mp c2).2).2
    refine c1.join (coalesced_relink g1) ?_ ?_
    · intro x hx
      have := c3 x hx a rfl
      simpa [OneUsed, ha] using this
    · intro y hy
      generalize (Heap.mergeNext (b.mark false) post).2 = q at g2 hy
      cases q with
      | nil => cases hy
      | cons d q => cases hy; exact g2 d rfl
  | @kept pre post b _ hk =>
    obtain ⟨-, l2⟩ := linked_append.mp hl
    obtain ⟨c1, c2, -⟩ := coalesced_append.mp hc
    obtain ⟨g1, g2⟩ := Coalesced.mergeNext (b := b.mark false) l2 (coalesced_cons.mp c2).2
    refine c1.join g1 ?_ g2
    intro x hx
    rcases hl.prev with ⟨rfl, -⟩ | ⟨pre', a, rfl, h'⟩
    · cases hx
    · have e : a = x := by simpa using hx
      rw [← e]
      exact hk pre' a rfl h'.symm
  | ghost _ h0 hne =>
    rcases hl.prev with ⟨-, h'⟩ | ⟨pre', a, rfl, h'⟩
    · exact absurd h' h0
    · exact absurd h'.symm (hne a (by simp))

end NativeOS.Mem.Heap
