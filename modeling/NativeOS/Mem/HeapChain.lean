/-
  NativeOS.Mem.HeapChain — the heap as a list of blocks.

  `Blk` is a control block read off the memory, `Chain` says the blocks of a list are
  linked through next in the list's order, and `Rep` that they also tile the heap and
  that every prev link is null or the address of room for a control block in the heap.
  Nothing is said about where a prev link points: it may be stale.

  Each operation of `heap.c` is then a change of the list: taking a block whole, cutting
  it in two, marking it free, absorbing the next block. A merge through a stale prev
  link is the remaining case. The checks of `heap_merge` never pass on twenty bytes
  that overlap a control block without being one (`no_straddle`), so such a merge
  writes inside a block's data and the list keeps its blocks, sizes and links.
-/

import Mathlib.Tactic.IntervalCases
import NativeOS.Lib.Tiling
import NativeOS.Mem.HeapBlocks

namespace NativeOS.Mem.Heap

open NativeOS.Lib

/-- The control block of `b` in memory, its next link holding `n`. -/
structure Hdr (m : Mem) (b : Blk) (n : Nat) : Prop where
  magic : hMagic m b.addr = heapMagicHead
  status : hStatus m b.addr = b.status
  next : hNext m b.addr = n
  prev : hPrev m b.addr = b.prev
  size : hSize m b.addr = b.size

/-- The address of the first block, `n` if there is none. -/
def first (n : Nat) : List Blk → Nat
  | [] => n
  | b :: _ => b.addr

def Chain (m : Mem) (n : Nat) : List Blk → Prop
  | [] => True
  | b :: bs => Hdr m b (first n bs) ∧ Chain m n bs

/-- A prev link the allocator may have stored: null, or room for a control block. -/
def PrevOk (L : Layout) (p : Nat) : Prop := p = 0 ∨ L.bottom ≤ p ∧ p + 20 ≤ L.top

structure Rep (L : Layout) (m : Mem) (bs : List Blk) : Prop where
  tiles : Tiles 20 Blk.addr Blk.size L.bottom L.top bs
  chain : Chain m 0 bs
  prevs : ∀ b ∈ bs, PrevOk L b.prev

/-! ## Chains -/

theorem first_append (n : Nat) (xs ys : List Blk) : first n (xs ++ ys) = first (first n ys) xs := by
  cases xs <;> rfl

theorem chain_append {m : Mem} {n : Nat} {xs ys : List Blk} :
    Chain m n (xs ++ ys) ↔ Chain m (first n ys) xs ∧ Chain m n ys := by
  induction xs with
  | nil => simp [Chain]
  | cons b xs ih => simp only [List.cons_append, Chain, first_append, ih, and_assoc]

theorem Hdr.same {m m' : Mem} {b : Blk} {n : Nat} (h : Hdr m b n) (hs : Same m m' b.addr (b.addr + 20)) :
    Hdr m' b n := by
  have word : ∀ a, b.addr ≤ a → a + 4 ≤ b.addr + 20 → ld32 m' a = ld32 m a :=
    fun a h1 h2 => ld32_same (hs.mono h1 h2)
  exact ⟨(word _ (by omega) (by omega)).trans h.magic, (word _ (by omega) (by omega)).trans h.status,
    (word _ (by omega) (by omega)).trans h.next, (word _ (by omega) (by omega)).trans h.prev,
    (word _ (by omega) (by omega)).trans h.size⟩

theorem Chain.same {m m' : Mem} {n : Nat} {bs : List Blk} (h : Chain m n bs)
    (hs : ∀ b ∈ bs, Same m m' b.addr (b.addr + 20)) : Chain m' n bs := by
  induction bs with
  | nil => trivial
  | cons b bs ih =>
    exact ⟨h.1.same (hs b List.mem_cons_self), ih h.2 fun c hc => hs c (List.mem_cons_of_mem _ hc)⟩

/-- The control block of a block inside a chain. -/
theorem Chain.hdr {m : Mem} {n : Nat} {pre post : List Blk} {b : Blk} (h : Chain m n (pre ++ b :: post)) :
    Hdr m b (first n post) := (chain_append.mp h).2.1

theorem Chain.mem {m : Mem} {n : Nat} {bs : List Blk} (h : Chain m n bs) {b : Blk} (hb : b ∈ bs) :
    ∃ k, Hdr m b k := by
  obtain ⟨pre, post, rfl⟩ := List.append_of_mem hb
  exact ⟨_, h.hdr⟩

/-! ## Where blocks are -/

section Rep

variable {L : Layout} {m : Mem} {bs pre post : List Blk} {b c : Blk}

theorem Rep.bounds (h : Rep L m bs) (hb : b ∈ bs) : L.bottom ≤ b.addr ∧ b.addr + 20 + b.size ≤ L.top :=
  tiles_mem h.tiles hb

theorem Layout.bound (L : Layout) : 0x100000 < L.bottom ∧ L.top = L.bottom + 0x100000 ∧ L.top ≤ 0x49000000 :=
  ⟨L.afterImage, rfl, L.lowMemory⟩

theorem Rep.first_lt (h : Rep L m (pre ++ post)) : first 0 post < 4294967296 := by
  have hL := L.bound
  cases post with
  | nil => exact Nat.zero_lt_succ _
  | cons c post =>
    have := h.bounds (b := c) (by simp)
    simp only [first]
    omega

/-- The heap is never without blocks, and the first one is at its bottom. -/
theorem Rep.root (h : Rep L m bs) : ∃ b rest, bs = b :: rest ∧ b.addr = L.bottom := by
  cases bs with
  | nil => have := h.tiles; have := L.bound; simp only [Tiles] at *; omega
  | cons b rest => exact ⟨b, rest, rfl, h.tiles.1⟩

theorem Rep.assoc (h : Rep L m (pre ++ b :: c :: post)) : Rep L m ((pre ++ [b]) ++ c :: post) := by simpa using h

theorem Rep.next_cons (h : Rep L m (pre ++ b :: c :: post)) : b.addr + 20 + b.size = c.addr :=
  (tiles_split.mp h.tiles).2.1.symm

/-- Replacing consecutive blocks by blocks that tile the same room, by a change inside it. -/
theorem Rep.replace (old new : List Blk) (h : Rep L m (pre ++ (old ++ post))) {m' : Mem} {lo hi : Nat} (hlt : lo < hi)
    (ht : Tiles 20 Blk.addr Blk.size lo hi old) (ho : Only m m' lo hi) (ht' : Tiles 20 Blk.addr Blk.size lo hi new)
    (hc : Chain m' (first 0 post) new) (hp : ∀ c ∈ new, PrevOk L c.prev) : Rep L m' (pre ++ (new ++ post)) := by
  obtain ⟨x, h1, h23⟩ := tiles_append.mp h.tiles
  obtain ⟨y, h2, h3⟩ := tiles_append.mp h23
  obtain ⟨rfl, rfl⟩ := tiles_unique h2 ht (tiles_ne_nil ht hlt)
  have hf : ∀ xs, Tiles 20 Blk.addr Blk.size x y xs → first 0 (xs ++ post) = x := by
    intro xs hxs
    cases xs with
    | nil => simp only [Tiles] at hxs; omega
    | cons c xs => exact hxs.1
  obtain ⟨c1, c23⟩ := chain_append.mp h.chain
  obtain ⟨-, c3⟩ := chain_append.mp c23
  rw [hf old ht] at c1
  refine ⟨tiles_append.mpr ⟨_, h1, tiles_append.mpr ⟨_, ht', h3⟩⟩,
    chain_append.mpr ⟨?_, chain_append.mpr ⟨hc, ?_⟩⟩, ?_⟩
  · rw [hf new ht']
    exact c1.same fun c hm => ho.same (.inl (by have := (tiles_mem h1 hm).2; omega))
  · exact c3.same fun c hm => ho.same (.inr (tiles_mem h3 hm).1)
  · intro c hm
    have hold := h.prevs c
    simp only [List.mem_append] at hm hold
    rcases hm with hm | hm | hm
    · exact hold (.inl hm)
    · exact hp c hm
    · exact hold (.inr (.inr hm))

/-- The same for one block. -/
theorem Rep.replace_one (new : List Blk) (h : Rep L m (pre ++ b :: post)) {m' : Mem}
    (ho : Only m m' b.addr (b.addr + 20 + b.size))
    (ht : Tiles 20 Blk.addr Blk.size b.addr (b.addr + 20 + b.size) new)
    (hc : Chain m' (first 0 post) new) (hp : ∀ c ∈ new, PrevOk L c.prev) : Rep L m' (pre ++ (new ++ post)) :=
  Rep.replace [b] new h (by omega) ⟨rfl, rfl⟩ ho ht hc hp

/-- A change inside one block's data leaves every control block alone. -/
theorem Rep.data (h : Rep L m bs) {m' : Mem} (lo hi : Nat) (hb : b ∈ bs) (hl : b.addr + 20 ≤ lo)
    (hr : hi ≤ b.addr + 20 + b.size) (ho : Only m m' lo hi) : Rep L m' bs := by
  refine ⟨h.tiles, h.chain.same fun c hc => ho.same ?_, h.prevs⟩
  rcases tiles_apart h.tiles hb hc with rfl | h1 | h1 <;> omega

end Rep

/-! ## Taking a block -/

section Take

variable {L : Layout} {m : Mem} {pre post : List Blk} {b : Blk}

theorem status_lt (b : Blk) : b.status < 4294967296 := by
  unfold Blk.status
  split <;> decide

theorem Rep.mark (h : Rep L m (pre ++ b :: post)) (u : Bool) :
    Rep L (setStatus m b.addr (b.mark u).status) (pre ++ b.mark u :: post) := by
  have hd := h.chain.hdr
  refine h.replace_one [b.mark u] (Only.st32 _ _ (by omega) (by omega)) ⟨rfl, rfl⟩ ⟨?_, trivial⟩ ?_
  · have word : ∀ a, Apart4 (b.addr + 4) a → ld32 (setStatus m b.addr (b.mark u).status) a = ld32 m a :=
      fun a ha => ld32_st32_ne m _ ha
    exact ⟨(word b.addr (by omega)).trans hd.magic, ld32_st32_same _ _ (status_lt _),
      (word (b.addr + 8) (by omega)).trans hd.next, (word (b.addr + 12) (by omega)).trans hd.prev,
      (word (b.addr + 16) (by omega)).trans hd.size⟩
  · intro c hc
    rw [List.mem_singleton.mp hc]
    exact h.prevs b (by simp)

/-- The words `takeBlock` reads and computes, when the block is in the heap. -/
theorem take_words (h : Rep L m (pre ++ b :: post)) (size : Nat) (hsz : size ≤ b.size) :
    add32 b.addr 20 = b.addr + 20 ∧ add32 (add32 size 20) 1 = size + 21 ∧
      add32 (b.addr + 20) size = b.addr + 20 + size := by
  have hb := h.bounds (b := b) (by simp)
  have hL := L.bound
  unfold add32
  omega

theorem takeBlock_whole (h : Rep L m (pre ++ b :: post)) {size : Nat} (hsz : size ≤ b.size)
    (hs : b.size ≤ size + 21) :
    takeBlock m b.addr size = (setStatus m b.addr (b.mark true).status, b.addr + 20) := by
  obtain ⟨e1, e2, -⟩ := take_words h size hsz
  have e : hSize (setStatus m b.addr heapMagicUsed) b.addr = b.size :=
    (ld32_st32_ne m _ (by omega)).trans h.chain.hdr.size
  simp only [takeBlock, hdr, e, e1, e2, hs, if_true]
  rfl

/-- The memory a split leaves, its words written in the source's order. -/
def splitMem (m : Mem) (b : Blk) (size n : Nat) : Mem :=
  let m1 := setStatus m b.addr heapMagicUsed
  let m2 := setMagic m1 (b.high size).addr heapMagicHead
  let m3 := setStatus m2 (b.high size).addr heapMagicFree
  let m4 := setSize m3 (b.high size).addr (b.high size).size
  let m5 := setPrev m4 (b.high size).addr b.addr
  let m6 := setNext m5 (b.high size).addr n
  setNext (setSize m6 b.addr size) b.addr (b.high size).addr

theorem takeBlock_split (h : Rep L m (pre ++ b :: post)) {size : Nat} (hs : size + 21 < b.size) :
    takeBlock m b.addr size = (splitMem m b size (first 0 post), b.addr + 20) := by
  obtain ⟨e1, e2, e3⟩ := take_words h size (by omega)
  have hd := h.chain.hdr
  have hsize : ld32 m (b.addr + 16) = b.size := hd.size
  have hnext : ld32 m (b.addr + 8) = first 0 post := hd.next
  have hb := h.bounds (b := b) (by simp)
  have hL := L.bound
  have e4 : sub32 (sub32 b.size size) 20 = b.size - size - 20 := by unfold sub32; omega
  have hn : ¬ b.size ≤ size + 21 := by omega
  simp (disch := omega) only [takeBlock, splitMem, Blk.high, hdr, e1, e2, e3, hSize, hNext, setStatus, setMagic,
    setSize, setPrev, setNext, ld32_st32_ne, hsize, hnext, hn, if_false, e4]

theorem splitMem_only {size : Nat} (n : Nat) (hs : size + 21 < b.size) :
    Only m (splitMem m b size n) b.addr (b.addr + 20 + b.size) := by
  intro x hx
  simp (disch := omega) only [splitMem, Blk.high, setStatus, setMagic, setSize, setPrev, setNext, st32_ne]

theorem splitMem_low {size n k : Nat} (hd : Hdr m b k) (hs : size + 21 < b.size) (hsz : b.addr + b.size < 4294967296) :
    Hdr (splitMem m b size n) (b.low size) (b.high size).addr := by
  have hmagic : ld32 m b.addr = heapMagicHead := hd.magic
  have hprev : ld32 m (b.addr + 12) = b.prev := hd.prev
  constructor <;>
    simp (disch := first | omega | decide) only [splitMem, Blk.low, Blk.high, Blk.status, hMagic, hStatus, hNext,
      hPrev, hSize, setStatus, setMagic, setSize, setPrev, setNext, ld32_st32_ne, ld32_st32_same, hmagic, hprev, if_true]

theorem splitMem_high {size n : Nat} (hn : n < 4294967296) (hs : size + 21 < b.size)
    (hsz : b.addr + b.size < 4294967296) : Hdr (splitMem m b size n) (b.high size) n := by
  constructor <;>
    simp (disch := first | omega | decide) only [splitMem, Blk.high, Blk.status, hMagic, hStatus, hNext,
      hPrev, hSize, setStatus, setMagic, setSize, setPrev, setNext, ld32_st32_ne, ld32_st32_same, if_false,
      Bool.false_eq_true]

theorem Rep.split (h : Rep L m (pre ++ b :: post)) {size : Nat} (hs : size + 21 < b.size) :
    Rep L (splitMem m b size (first 0 post)) (pre ++ b.low size :: b.high size :: post) := by
  have hd := h.chain.hdr
  have hb := h.bounds (b := b) (by simp)
  have hL := L.bound
  have hn : first 0 post < 4294967296 := (by simpa using h : Rep L m ((pre ++ [b]) ++ post)).first_lt
  refine h.replace_one [b.low size, b.high size] (splitMem_only _ hs) ⟨rfl, rfl, ?_⟩
    ⟨splitMem_low hd hs (by omega), splitMem_high hn hs (by omega), trivial⟩ ?_
  · simp only [Tiles, Blk.low, Blk.high]; omega
  · intro c hc
    simp only [List.mem_cons, List.not_mem_nil, or_false] at hc
    rcases hc with rfl | rfl
    · exact h.prevs b (by simp)
    · exact .inr (by simp only [Blk.high]; omega)

end Take

/-! ## Searching -/

section Search

variable {L : Layout} {m : Mem} {pre bs : List Blk}

theorem allocLoop_find {size : Nat} : ∀ (bs : List Blk) {fuel : Nat}, Chain m 0 bs → (∀ b ∈ bs, b.addr ≠ 0) →
    bs.length < fuel → allocLoop m size fuel (first 0 bs) =
      match bs.find? (Blk.fits size) with
      | none => some (m, 0)
      | some b => some (takeBlock m b.addr size) := by
  intro bs
  induction bs with
  | nil => intro fuel _ _ hf; cases fuel with
    | zero => simp at hf
    | succ fuel => rfl
  | cons b bs ih =>
    intro fuel hc hne hf
    cases fuel with
    | zero => simp at hf
    | succ fuel =>
      obtain ⟨hd, hc⟩ := hc
      have h0 : b.addr ≠ 0 := hne b List.mem_cons_self
      have hrec := ih hc (fun c hm => hne c (List.mem_cons_of_mem _ hm)) (Nat.lt_of_succ_lt_succ hf)
      show allocLoop m size (fuel + 1) b.addr = _
      simp only [allocLoop, h0, if_false, hd.magic, ne_eq, not_true, hd.status, hd.next, hd.size, hrec,
        List.find?_cons, Blk.fits]
      cases hu : b.used with
      | true => simp [Blk.status, hu, heapMagicUsed, heapMagicFree]
      | false =>
        by_cases hs : b.size < size
        · have : ¬ size ≤ b.size := by omega
          simp [Blk.status, hu, hs, this]
        · have : size ≤ b.size := by omega
          simp [Blk.status, hu, hs, this]

/-- `heap_alloc` always returns; it takes the first block that fits. -/
theorem heapAlloc_find (h : Rep L m bs) (size : Nat) :
    heapAlloc m L.bottom size =
      match bs.find? (Blk.fits size) with
      | none => some (m, 0)
      | some b => some (takeBlock m b.addr size) := by
  have hL := L.bound
  have hlen := tiles_length h.tiles
  obtain ⟨b, rest, e, hb⟩ := h.root
  have hroot : first 0 bs = L.bottom := by rw [e]; exact hb
  rw [heapAlloc, ← hroot]
  refine allocLoop_find bs h.chain ?_ (by unfold walkFuel heapSize; omega)
  intro c hc
  have := (h.bounds hc).1
  omega

end Search

/-! ## Merging -/

section Merge

variable {L : Layout} {m : Mem} {bs pre post : List Blk} {a b c : Blk}

/-- The four checks of `heap_merge`. -/
structure Mergeable (m : Mem) (head tail : Nat) : Prop where
  magic : hMagic m head = heapMagicHead
  magic' : hMagic m tail = heapMagicHead
  free : hStatus m head = heapMagicFree
  free' : hStatus m tail = heapMagicFree
  next : hNext m head = tail
  prev : hPrev m tail = head
  consecutive : add32 (add32 head 20) (hSize m head) = tail

theorem heapMerge_pos {head tail : Nat} (h : Mergeable m head tail) :
    (heapMerge m head tail).1 = unlinkTail m head tail := by
  simp [heapMerge, h.magic, h.magic', h.free, h.free', h.next, h.prev, h.consecutive]

theorem heapMerge_neg {head tail : Nat} (h : ¬ Mergeable m head tail) : (heapMerge m head tail).1 = m := by
  simp only [heapMerge]
  split
  · rfl
  split
  · rfl
  split
  · rfl
  split
  · rfl
  rename_i h1 h2 h3 h4
  simp only [not_or, ne_eq, Decidable.not_not] at h1 h2 h3 h4
  exact absurd ⟨h1.1, h1.2.symm.trans h1.1, h2.1, h2.2.symm.trans h2.1, h3.1, h3.2, h4⟩ h

@[simp] theorem first_relink (n p : Nat) (bs : List Blk) : first n (relink p bs) = first n bs := by
  cases bs <;> rfl

def relinkMem (m : Mem) (n p : Nat) : Mem := if n ≠ 0 then setPrev m n p else m

theorem PrevOk.lt {p : Nat} (h : PrevOk L p) : p < 4294967296 := by
  have hL := L.bound
  unfold PrevOk at h
  omega

theorem Rep.relink (h : Rep L m (pre ++ post)) {p : Nat} (hp : PrevOk L p) :
    Rep L (relinkMem m (first 0 post) p) (pre ++ relink p post) := by
  cases post with
  | nil => simpa [first, Heap.relink, relinkMem] using h
  | cons c post =>
    have hd := h.chain.hdr
    have hb := (h.bounds (b := c) (by simp)).1
    have hL := L.bound
    have h0 : first 0 (c :: post) ≠ 0 := by simp only [first]; omega
    rw [relinkMem, if_pos h0]
    refine h.replace_one [{ c with prev := p }] (Only.st32 _ _ (by simp only [first]; omega)
      (by simp only [first]; omega)) ⟨rfl, rfl⟩ ⟨?_, trivial⟩ ?_
    · have word : ∀ x, Apart4 (c.addr + 12) x → ld32 (setPrev m c.addr p) x = ld32 m x :=
        fun x hx => ld32_st32_ne m _ hx
      exact ⟨(word c.addr (by omega)).trans hd.magic, (word (c.addr + 4) (by omega)).trans hd.status,
        (word (c.addr + 8) (by omega)).trans hd.next, ld32_st32_same _ _ hp.lt,
        (word (c.addr + 16) (by omega)).trans hd.size⟩
    · intro d hd'
      rw [List.mem_singleton.mp hd']
      exact hp

/-- What unlinking writes, once the block after `b` is relinked to `p`. -/
theorem unlinkTail_eq (h : Rep L m (pre ++ b :: post)) {p : Nat} (hp : PrevOk L p)
    (ha : p + 20 ≤ b.addr ∨ b.addr + 20 ≤ p) :
    let m1 := relinkMem m (first 0 post) p
    Rep L m1 (pre ++ b :: Heap.relink p post) ∧
      unlinkTail m p b.addr = setSize (setNext m1 p (first 0 post)) p
        (add32 (hSize m1 p) (add32 20 b.size)) := by
  intro m1
  have hr : Rep L m1 (pre ++ b :: Heap.relink p post) := by
    have h' : Rep L m ((pre ++ [b]) ++ post) := by simpa using h
    simpa using h'.relink hp
  have hd := hr.chain.hdr
  rw [first_relink] at hd
  have e1 : hSize (setNext m1 p (first 0 post)) p = hSize m1 p := ld32_st32_ne _ _ (by omega)
  have e2 : hSize (setNext m1 p (first 0 post)) b.addr = b.size := (ld32_st32_ne _ _ (by omega)).trans hd.size
  have hu : unlinkTail m p b.addr = setSize (setNext m1 p (hNext m1 b.addr)) p
      (add32 (hSize (setNext m1 p (hNext m1 b.addr)) p)
        (add32 20 (hSize (setNext m1 p (hNext m1 b.addr)) b.addr))) := by
    simp only [unlinkTail, h.chain.hdr.next, hdr]
    rfl
  refine ⟨hr, ?_⟩
  rw [hu, hd.next, e1, e2]

theorem Rep.prevOk (h : Rep L m bs) (hb : b ∈ bs) : PrevOk L b.addr := .inr (by have := h.bounds hb; omega)

theorem Rep.merge (h : Rep L m (pre ++ a :: b :: post)) :
    Rep L (unlinkTail m a.addr b.addr) (pre ++ a.absorb b :: Heap.relink a.addr post) := by
  have hab := h.next_cons
  have hbb := h.bounds (b := b) (by simp)
  have hL := L.bound
  obtain ⟨hr, hu⟩ := unlinkTail_eq h.assoc (h.prevOk (b := a) (by simp))
    (.inl (by omega))
  rw [hu]
  generalize relinkMem m (first 0 post) a.addr = m1 at hr ⊢
  replace hr : Rep L m1 (pre ++ ([a, b] ++ Heap.relink a.addr post)) := by simpa using hr
  have hd := hr.chain.hdr
  have hn : first 0 post < 4294967296 := (by simpa using h : Rep L m ((pre ++ [a, b]) ++ post)).first_lt
  have e : add32 (hSize m1 a.addr) (add32 20 b.size) = a.size + 20 + b.size := by
    rw [hd.size]; unfold add32; omega
  rw [e]
  have ht : Tiles 20 Blk.addr Blk.size a.addr (b.addr + 20 + b.size) [a, b] := ⟨rfl, hab.symm, by simp only [Tiles]; omega⟩
  refine Rep.replace [a, b] [a.absorb b] hr (by omega) ht ?_ ⟨rfl, by simp only [Tiles, Blk.absorb]; omega⟩ ⟨?_, trivial⟩ ?_
  · exact (Only.st32 _ _ (by omega) (by omega)).trans (Only.st32 _ _ (by omega) (by omega))
  · show Hdr _ (a.absorb b) (first 0 (Heap.relink a.addr post))
    rw [first_relink]
    have word : ∀ x, Apart4 (a.addr + 8) x → Apart4 (a.addr + 16) x →
        ld32 (setSize (setNext m1 a.addr (first 0 post)) a.addr (a.size + 20 + b.size)) x = ld32 m1 x :=
      fun x h1 h2 => (ld32_st32_ne _ _ h2).trans (ld32_st32_ne _ _ h1)
    exact ⟨(word a.addr (by omega) (by omega)).trans hd.magic,
      (word (a.addr + 4) (by omega) (by omega)).trans hd.status,
      (ld32_st32_ne _ _ (by simp only [Blk.absorb]; omega)).trans (ld32_st32_same _ _ hn),
      (word (a.addr + 12) (by omega) (by omega)).trans hd.prev, ld32_st32_same _ _ (by omega)⟩
  · intro d hd'
    rw [List.mem_singleton.mp hd']
    exact h.prevs a (by simp)

/-- A merge with twenty bytes `p` inside the data of a block: the list is only relinked. -/
theorem Rep.ghost (h : Rep L m (pre ++ b :: post)) {p : Nat} (hp : PrevOk L p) (hc : c ∈ pre ++ b :: post)
    (hl : c.addr + 20 ≤ p) (hr : p + 20 ≤ c.addr + 20 + c.size) :
    Rep L (unlinkTail m p b.addr) (pre ++ b :: Heap.relink p post) := by
  have ha : p + 20 ≤ b.addr ∨ b.addr + 20 ≤ p := by
    rcases tiles_apart h.tiles hc (c := b) (by simp) with rfl | h1 | h1 <;> omega
  obtain ⟨hrep, hu⟩ := unlinkTail_eq h hp ha
  rw [hu]
  obtain ⟨d, hd, e1, e2⟩ : ∃ d ∈ pre ++ b :: Heap.relink p post, d.addr = c.addr ∧ d.size = c.size := by
    simp only [List.mem_append, List.mem_cons] at hc ⊢
    rcases hc with hc | rfl | hc
    · exact ⟨c, .inl hc, rfl, rfl⟩
    · exact ⟨c, .inr (.inl rfl), rfl, rfl⟩
    · obtain ⟨d, hd, e⟩ := relink_mem (p := p) hc
      exact ⟨d, .inr (.inr hd), e.1, e.2⟩
  refine hrep.data p (p + 20) hd (by omega) (by omega) ?_
  exact (Only.st32 _ _ (by omega) (by omega)).trans (Only.st32 _ _ (by omega) (by omega))

/-! ## No straddling -/

/-- The bytes of a control block of the chain. -/
theorem Rep.bytes (h : Rep L m bs) (hb : b ∈ bs) :
    ((m b.addr).toNat = 0x49 ∧ (m (b.addr + 1)).toNat = 0x49 ∧ (m (b.addr + 2)).toNat = 0x51 ∧
      (m (b.addr + 3)).toNat = 0x51) ∧
    ((m (b.addr + 4)).toNat = 0x40 ∧ (m (b.addr + 5)).toNat = 0x40 ∧ (m (b.addr + 6)).toNat = 0x40 ∧
        (m (b.addr + 7)).toNat = 0x40 ∨
      (m (b.addr + 4)).toNat = 0xEF ∧ (m (b.addr + 5)).toNat = 0xEF ∧ (m (b.addr + 6)).toNat = 0xEF ∧
        (m (b.addr + 7)).toNat = 0xEF) ∧
    (m (b.addr + 11)).toNat < 0x49 ∧ (m (b.addr + 15)).toNat < 0x49 ∧ (m (b.addr + 19)).toNat = 0 := by
  have hL := L.bound
  have hbb := h.bounds hb
  have hprev := h.prevs b hb
  obtain ⟨pre, post, rfl⟩ := List.append_of_mem hb
  have hd := h.chain.hdr
  have hmagic := ld32_bytes hd.magic
  have hstatus := ld32_bytes hd.status
  have hnext : (m (b.addr + 11)).toNat = first 0 post / 16777216 := (ld32_bytes hd.next).2.2.2
  have hpb : (m (b.addr + 15)).toNat = b.prev / 16777216 := (ld32_bytes hd.prev).2.2.2
  have hsize : (m (b.addr + 19)).toNat = b.size / 16777216 := (ld32_bytes hd.size).2.2.2
  have hn : first 0 post < 0x49000000 := by
    cases post with
    | nil => exact Nat.zero_lt_succ _
    | cons c post => have := h.bounds (b := c) (by simp); simp only [first]; omega
  have hp : b.prev < 0x49000000 := by unfold PrevOk at hprev; omega
  refine ⟨by simpa [heapMagicHead] using hmagic, ?_, by omega, by omega, by omega⟩
  unfold Blk.status at hstatus
  cases hu : b.used with
  | true => right; simpa [hu, heapMagicUsed, Nat.add_assoc] using hstatus
  | false => left; simpa [hu, heapMagicFree, Nat.add_assoc] using hstatus

/-- The bytes `heap_merge` requires of its first block. -/
theorem Mergeable.bytes {p t : Nat} (h : Mergeable m p t) (hp : L.bottom ≤ p ∧ p + 20 ≤ L.top)
    (ht : L.bottom ≤ t ∧ t + 20 ≤ L.top) :
    ((m p).toNat = 0x49 ∧ (m (p + 1)).toNat = 0x49 ∧ (m (p + 2)).toNat = 0x51 ∧ (m (p + 3)).toNat = 0x51) ∧
    (m (p + 7)).toNat = 0x40 ∧ (m (p + 11)).toNat < 0x49 ∧ ((m (p + 19)).toNat = 0 ∨ (m (p + 19)).toNat = 255) := by
  have hL := L.bound
  have hmagic := ld32_bytes h.magic
  have hstatus := (ld32_bytes h.free).2.2.2
  have hnext : (m (p + 11)).toNat = t / 16777216 := (ld32_bytes h.next).2.2.2
  have hsize : (m (p + 19)).toNat = ld32 m (p + 16) / 16777216 := (ld32_bytes rfl).2.2.2
  have hc := h.consecutive
  have hlt := ld32_lt m (p + 16)
  refine ⟨by simpa [heapMagicHead] using hmagic, by simpa [heapMagicFree, Nat.add_assoc] using hstatus,
    by omega, ?_⟩
  simp only [hSize, add32] at hc
  omega

/-- Twenty bytes that pass `heap_merge`'s checks are a control block of the chain or
    apart from all of them: no byte of the magic, of a status or of an address of the
    heap falls where the checks would want another. -/
theorem no_straddle (h : Rep L m bs) (hb : b ∈ bs) {p t : Nat} (hm : Mergeable m p t)
    (hp : L.bottom ≤ p ∧ p + 20 ≤ L.top) (ht : L.bottom ≤ t ∧ t + 20 ≤ L.top) :
    p = b.addr ∨ p + 20 ≤ b.addr ∨ b.addr + 20 ≤ p := by
  obtain ⟨⟨a0, a1, a2, a3⟩, hs, a11, a15, a19⟩ := h.bytes hb
  obtain ⟨⟨p0, p1, p2, p3⟩, p7, p11, p19⟩ := hm.bytes hp ht
  by_cases hne : p = b.addr ∨ p + 20 ≤ b.addr ∨ b.addr + 20 ≤ p
  · exact hne
  exfalso
  rcases Nat.lt_or_ge p b.addr with hlt | hge
  · obtain ⟨k, hk⟩ := Nat.exists_eq_add_of_lt hlt
    rw [hk] at a0 a1 a2 a3 hs
    have hk' : k < 19 := by omega
    clear hne hp ht hm hb h a11 a15 a19
    interval_cases k <;> simp only [Nat.add_assoc, Nat.reduceAdd] at a0 a1 a2 a3 hs <;> omega
  · obtain ⟨k, hk⟩ := Nat.exists_eq_add_of_le hge
    rw [hk] at p0 p1 p2 p3
    have hk' : 1 ≤ k ∧ k < 20 := by omega
    obtain ⟨hk1, hk2⟩ := hk'
    clear hne hp ht hm hb h
    interval_cases k <;> simp only [Nat.add_assoc, Nat.reduceAdd] at p0 p1 p2 p3 <;> omega

/-- The block a chain links to `b` is the one right before it. -/
theorem Rep.pred_of_next (h : Rep L m (pre ++ b :: post)) (hc : c ∈ pre ++ b :: post)
    (hn : hNext m c.addr = b.addr) : ∃ pre', pre = pre' ++ [c] := by
  have hL := L.bound
  have hb := (h.bounds (b := b) (by simp)).1
  -- a block at or after `b` links to 0 or further up
  have up : ∀ mid rest, b :: post = mid ++ c :: rest → False := by
    intro mid rest e
    have h' : Rep L m ((pre ++ mid) ++ c :: rest) := by simpa [e] using h
    rw [h'.chain.hdr.next] at hn
    have hbc : b.addr ≤ c.addr := by
      cases mid with
      | nil => simp only [List.nil_append, List.cons.injEq] at e; rw [e.1]
      | cons d mid =>
        simp only [List.cons_append, List.cons.injEq] at e
        have := tiles_after h.tiles (c := c) (by rw [e.2]; simp)
        omega
    cases rest with
    | nil => simp only [first] at hn; omega
    | cons d rest => have := tiles_after h'.tiles (c := d) (by simp); simp only [first] at hn; omega
  rcases List.mem_append.mp hc with hc | hc
  · obtain ⟨p1, p2, rfl⟩ := List.append_of_mem hc
    have h' : Rep L m (p1 ++ c :: (p2 ++ b :: post)) := by simpa using h
    rw [h'.chain.hdr.next] at hn
    cases p2 with
    | nil => exact ⟨p1, rfl⟩
    | cons d p2 =>
      have := tiles_before h.tiles (c := d) (by simp)
      simp only [List.cons_append, first] at hn
      omega
  · obtain ⟨mid, rest, e⟩ := List.append_of_mem hc
    exact (up mid rest e).elim

/-- What twenty bytes that pass the checks can be: the block right before `b`, or bytes
    inside the data of one block. -/
theorem Rep.mergeable_cases (h : Rep L m (pre ++ b :: post)) {p : Nat} (hp : PrevOk L p) (h0 : p ≠ 0)
    (hm : Mergeable m p b.addr) :
    (∃ pre' a, pre = pre' ++ [a] ∧ a.addr = p) ∨
      ∃ c ∈ pre ++ b :: post, c.addr + 20 ≤ p ∧ p + 20 ≤ c.addr + 20 + c.size := by
  have hp' : L.bottom ≤ p ∧ p + 20 ≤ L.top := hp.resolve_left h0
  have hb := h.bounds (b := b) (by simp)
  have sep : ∀ c ∈ pre ++ b :: post, p = c.addr ∨ p + 20 ≤ c.addr ∨ c.addr + 20 ≤ p :=
    fun c hc => no_straddle h hc hm hp' (by omega)
  obtain ⟨c, hc, hcl, hcr⟩ := tiles_cover (x := p) h.tiles (by omega) (by omega)
  obtain ⟨d, hd, hdl, hdr⟩ := tiles_cover (x := p + 19) h.tiles (by omega) (by omega)
  by_cases e : p = c.addr
  · obtain ⟨pre', hpre⟩ := h.pred_of_next hc (by rw [← e]; exact hm.next)
    exact .inl ⟨pre', c, hpre, e.symm⟩
  · refine .inr ⟨c, hc, ?_, ?_⟩
    · have := sep c hc; omega
    · have := sep d hd
      rcases tiles_apart h.tiles hc hd with rfl | h1 | h1 <;> omega

theorem Rep.mergeable_iff (h : Rep L m (pre ++ a :: b :: post)) :
    Mergeable m a.addr b.addr ↔ a.used = false ∧ b.used = false ∧ b.prev = a.addr := by
  have hL := L.bound
  have ha := h.chain.hdr
  have hb : Hdr m b (first 0 post) := h.assoc.chain.hdr
  have hab := h.next_cons
  have hbb := h.bounds (b := b) (by simp)
  have free : ∀ c : Blk, c.status = heapMagicFree ↔ c.used = false := by
    intro c
    cases hu : c.used <;> simp [Blk.status, hu, heapMagicUsed, heapMagicFree]
  constructor
  · intro hm
    exact ⟨(free a).mp (ha.status.symm.trans hm.free), (free b).mp (hb.status.symm.trans hm.free'),
      hb.prev.symm.trans hm.prev⟩
  · intro ⟨h1, h2, h3⟩
    refine ⟨ha.magic, hb.magic, ha.status.trans ((free a).mpr h1), hb.status.trans ((free b).mpr h2), ha.next,
      hb.prev.trans h3, ?_⟩
    rw [ha.size]
    unfold add32
    omega

end Merge

/-! ## Freeing -/

section Free

variable {L : Layout} {m m' m'' : Mem} {bs pre post : List Blk} {a b : Blk}

/-- Every byte outside the control blocks of `bs` is kept. -/
def HdrOnly (bs : List Blk) (m m' : Mem) : Prop :=
  ∀ x, (∀ c ∈ bs, x < c.addr ∨ c.addr + 20 ≤ x) → m' x = m x

theorem HdrOnly.trans {bs' : List Blk} (h : HdrOnly bs m m') (h' : HdrOnly bs' m' m'')
    (hsub : ∀ c ∈ bs', ∃ d ∈ bs, d.addr = c.addr) : HdrOnly bs m m'' := by
  intro x hx
  refine (h' x ?_).trans (h x hx)
  intro c hc
  obtain ⟨d, hd, e⟩ := hsub c hc
  rw [← e]
  exact hx d hd

theorem HdrOnly.st32 {k w : Nat} (hb : b ∈ bs) (hk : k ≤ 16) : HdrOnly bs m (st32 m (b.addr + k) w) := by
  intro x hx
  have := hx b hb
  exact st32_ne m w (by omega)

theorem HdrOnly.unlinkTail (h : Rep L m (pre ++ a :: b :: post)) :
    HdrOnly (pre ++ a :: b :: post) m (unlinkTail m a.addr b.addr) := by
  have hab := h.next_cons
  obtain ⟨-, hu⟩ := unlinkTail_eq h.assoc (h.prevOk (b := a) (by simp))
    (.inl (by omega))
  rw [hu]
  have h1 : HdrOnly (pre ++ a :: b :: post) m (relinkMem m (first 0 post) a.addr) := by
    unfold relinkMem
    split
    · cases post with
      | nil => rename_i hn; exact absurd rfl hn
      | cons c post => exact HdrOnly.st32 (b := c) (by simp) (by omega)
    · exact fun _ _ => rfl
  have sub : ∀ c ∈ pre ++ a :: b :: post, ∃ d ∈ pre ++ a :: b :: post, d.addr = c.addr := fun c hc => ⟨c, hc, rfl⟩
  exact (h1.trans (HdrOnly.st32 (b := a) (by simp) (by omega)) sub).trans (HdrOnly.st32 (b := a) (by simp) (by omega)) sub

theorem Rep.mergeNext (h : Rep L m (pre ++ b :: post)) (hu : b.used = false) :
    let m' := if hNext m b.addr ≠ 0 then (heapMerge m b.addr (hNext m b.addr)).1 else m
    Rep L m' (pre ++ (mergeNext b post).1 :: (mergeNext b post).2) ∧ HdrOnly (pre ++ b :: post) m m' := by
  intro m'
  have hL := L.bound
  have hn := h.chain.hdr.next
  cases post with
  | nil =>
    have e : m' = m := if_neg (by rw [hn]; exact fun h => h rfl)
    rw [e]
    exact ⟨h, fun _ _ => rfl⟩
  | cons c rest =>
    have hc := (h.bounds (b := c) (by simp)).1
    have e : m' = (heapMerge m b.addr c.addr).1 := by
      have h0 : hNext m b.addr ≠ 0 := by rw [hn]; simp only [first]; omega
      simp only [m', if_pos h0]
      rw [hn, first]
    rw [e]
    by_cases hj : joinsNext b (c :: rest) = true
    · have hm : Mergeable m b.addr c.addr := by
        refine h.mergeable_iff.mpr ⟨hu, ?_⟩
        simpa [joinsNext] using hj
      rw [heapMerge_pos hm]
      simp only [Heap.mergeNext, hj, if_true]
      exact ⟨h.merge, HdrOnly.unlinkTail h⟩
    · have hm : ¬ Mergeable m b.addr c.addr := by
        intro hm
        have := (h.mergeable_iff.mp hm).2
        exact hj (by simpa [joinsNext] using this)
      rw [heapMerge_neg hm]
      simp only [Heap.mergeNext, hj]
      exact ⟨h, fun _ _ => rfl⟩

/-- What the second merge of `heap_free` can do, through the prev link of `b`. -/
inductive PrevOut (L : Layout) (m m' : Mem) (pre : List Blk) (b : Blk) (post : List Blk) : Prop
  | joined (pre' : List Blk) (a : Blk) : pre = pre' ++ [a] → a.used = false → a.addr = b.prev →
      Rep L m' (pre' ++ a.absorb b :: relink a.addr post) → HdrOnly (pre ++ b :: post) m m' → PrevOut L m m' pre b post
  | kept : (∀ pre' a, pre = pre' ++ [a] → a.addr = b.prev → a.used = true) → m' = m → PrevOut L m m' pre b post
  /-- The link was stale and the bytes there passed the checks. -/
  | ghost (c : Blk) : c ∈ pre ++ b :: post → c.addr + 20 ≤ b.prev → b.prev + 20 ≤ c.addr + 20 + c.size →
      Rep L m' (pre ++ b :: relink b.prev post) → PrevOut L m m' pre b post

theorem Rep.mergePrev (h : Rep L m (pre ++ b :: post)) (hu : b.used = false) :
    PrevOut L m (if hPrev m b.addr ≠ 0 then (heapMerge m (hPrev m b.addr) b.addr).1 else m) pre b post := by
  have hL := L.bound
  have hpok := h.prevs b (by simp)
  rw [h.chain.hdr.prev]
  have step : ∀ pre' a, pre = pre' ++ [a] → Rep L m (pre' ++ a :: b :: post) := by
    intro pre' a hpre
    subst hpre
    simpa using h
  by_cases hm : b.prev ≠ 0 ∧ Mergeable m b.prev b.addr
  · rw [if_pos hm.1, heapMerge_pos hm.2]
    rcases h.mergeable_cases hpok hm.1 hm.2 with ⟨pre', a, hpre, e⟩ | ⟨c, hc, h1, h2⟩
    · have h' := step pre' a hpre
      have hfree := (h'.mergeable_iff.mp (e ▸ hm.2)).1
      refine .joined pre' a hpre hfree e ?_ ?_
      · rw [← e]; exact h'.merge
      · have := HdrOnly.unlinkTail h'
        rw [← e, hpre]
        simpa using this
    · exact .ghost c hc h1 h2 (h.ghost hpok hc h1 h2)
  · refine .kept ?_ ?_
    · intro pre' a hpre e
      have h' := step pre' a hpre
      have ha := h'.bounds (b := a) (by simp)
      cases hau : a.used with
      | true => rfl
      | false => exact absurd ⟨by omega, e ▸ h'.mergeable_iff.mpr ⟨hau, hu, e.symm⟩⟩ hm
    · split
      · rename_i h0
        exact heapMerge_neg fun h' => hm ⟨h0, h'⟩
      · rfl

/-- `heap_free` of a used block of the chain: it is marked free, the block after it is
    joined if it is free and linked back, and then the prev link is followed. -/
theorem heapFree_out (h : Rep L m (pre ++ b :: post)) (hu : b.used = true) :
    let r := mergeNext (b.mark false) post
    ∃ m2, HdrOnly (pre ++ b :: post) m m2 ∧ Rep L m2 (pre ++ r.1 :: r.2) ∧
      PrevOut L m2 (heapFree m (b.addr + 20)) pre r.1 r.2 := by
  intro r
  have hL := L.bound
  have hb := h.bounds (b := b) (by simp)
  have hd := h.chain.hdr
  have h1 := h.mark false
  obtain ⟨h2, ho⟩ := Rep.mergeNext h1 rfl
  obtain ⟨ea, -, eu⟩ := mergeNext_blk (b.mark false) post
  have h3 := h2.mergePrev eu
  have hsub : sub32 (b.addr + 20) hdr = b.addr := by unfold sub32 hdr; omega
  have hst : hStatus m b.addr = heapMagicUsed := by rw [hd.status, Blk.status, if_pos hu]
  have hmark : (b.mark false).status = heapMagicFree := rfl
  refine ⟨_, ?_, h2, ?_⟩
  · exact HdrOnly.trans (HdrOnly.st32 (b := b) (by simp) (by omega)) ho (mark_sub b false pre post)
  · rw [ea] at h3
    simp only [heapFree, hsub, hd.magic, ne_eq, not_true, if_false, hst]
    exact h3

end Free

end NativeOS.Mem.Heap
