/-
  NativeOS.Mem.HeapFit — `heap_alloc` is an exact first fit.

  The loop passes used blocks and blocks that are too small, and stops at the first block
  that is neither. The block is cut when more than 21 bytes would be left over: a control
  block and two bytes of data. `size + 21` is compared in 32 bits, but only with a block
  of at least `size` bytes in a heap of 1 MiB, so it does not wrap where it is used.

  Proved:
  * `heap_alloc_first_fit` — in every reachable state and for every request: NULL exactly if
    no free block is large enough, and else the lowest such block, cut or whole, with every
    other block as it was.
-/

import NativeOS.Mem.HeapProofs

namespace NativeOS.Mem.Heap

open NativeOS.Lib

/-! ## What an allocation does -/

/-- A free block with room for the request. -/
def Fits (m : Mem) (size b : Nat) : Prop := hStatus m b = heapMagicFree ∧ size ≤ hSize m b

/-- The block is what it was, but for its links. -/
structure BlockKept (m m' : Mem) (b : Nat) : Prop where
  magic : hMagic m' b = hMagic m b
  status : hStatus m' b = hStatus m b
  size : hSize m' b = hSize m b

/-- The block is taken as it is. -/
def TakenWhole (m m' : Mem) (root size : Nat) (pre : List Nat) (b : Nat) (post : List Nat) : Prop :=
  hSize m b ≤ size + 21 ∧ hSize m' b = hSize m b ∧ Walk m' root (pre ++ b :: post)

/-- The block is cut behind the request: the rest is one free block, right after it. -/
def Cut (m m' : Mem) (root size : Nat) (pre : List Nat) (b : Nat) (post : List Nat) : Prop :=
  size + 21 < hSize m b ∧ hSize m' b = size ∧ Walk m' root (pre ++ b :: (b + hdr + size) :: post) ∧
    hMagic m' (b + hdr + size) = heapMagicHead ∧ hStatus m' (b + hdr + size) = heapMagicFree ∧
    2 ≤ hSize m' (b + hdr + size) ∧ size + hdr + hSize m' (b + hdr + size) = hSize m b

/-- Block `b` of the chain `pre ++ b :: post` serves the request. -/
structure Serves (m m' : Mem) (root size : Nat) (pre : List Nat) (b : Nat) (post : List Nat) : Prop where
  fits : Fits m size b
  lowest : ∀ c ∈ pre ++ b :: post, Fits m size c → b ≤ c
  used : hStatus m' b = heapMagicUsed
  atLeast : size ≤ hSize m' b
  atMost : hSize m' b ≤ size + 21
  taken : TakenWhole m m' root size pre b post ∨ Cut m m' root size pre b post
  kept : ∀ c ∈ pre ++ post, BlockKept m m' c

/-! ## Blocks and their control blocks -/

section Blocks

variable {L : Layout} {m m' : Mem} {bs pre post : List Blk} {b : Blk}

theorem Rep.hdr (h : Rep L m bs) (hb : b ∈ bs) : ∃ k, Hdr m b k := h.chain.mem hb

theorem Rep.fits_iff (h : Rep L m bs) (hb : b ∈ bs) (size : Nat) : Fits m size b.addr ↔ b.fits size = true := by
  obtain ⟨k, hd⟩ := h.hdr hb
  unfold Fits
  rw [hd.status, hd.size]
  cases hu : b.used with
  | true => simp [Blk.status, Blk.fits, hu, heapMagicUsed, heapMagicFree]
  | false => simp [Blk.status, Blk.fits, hu]

theorem Rep.kept (h : Rep L m bs) {bs' : List Blk} (h' : Rep L m' bs') (hb : b ∈ bs) (hb' : b ∈ bs') :
    BlockKept m m' b.addr := by
  obtain ⟨k, hd⟩ := h.hdr hb
  obtain ⟨k', hd'⟩ := h'.hdr hb'
  exact ⟨hd'.magic.trans hd.magic.symm, hd'.status.trans hd.status.symm, hd'.size.trans hd.size.symm⟩

/-- The blocks of a chain are in the order of their addresses. -/
theorem Rep.lowest (h : Rep L m (pre ++ b :: post)) {size : Nat} (hpre : ∀ c ∈ pre, c.fits size = false) :
    ∀ c ∈ (pre ++ b :: post).map Blk.addr, Fits m size c → b.addr ≤ c := by
  intro a ha hfit
  obtain ⟨c, hc, rfl⟩ := List.mem_map.mp ha
  have hf := (h.fits_iff hc size).mp hfit
  rcases List.mem_append.mp hc with hp | hp
  · rw [hpre c hp] at hf
    cases hf
  · rcases List.mem_cons.mp hp with rfl | hp
    · exact Nat.le_refl _
    · have hafter := tiles_after h.tiles hp
      omega

/-- The blocks before and after the one that is replaced. -/
theorem Rep.others_kept (h : Rep L m (pre ++ b :: post)) {new : List Blk} (h' : Rep L m' (pre ++ (new ++ post))) :
    ∀ c ∈ pre.map Blk.addr ++ post.map Blk.addr, BlockKept m m' c := by
  intro a ha
  rw [← List.map_append] at ha
  obtain ⟨c, hc, rfl⟩ := List.mem_map.mp ha
  rcases List.mem_append.mp hc with hc | hc
  · exact h.kept h' (by simp [hc]) (by simp [hc])
  · exact h.kept h' (by simp [hc]) (by simp [hc])

theorem Rep.serves_whole (h : Rep L m (pre ++ b :: post)) (h' : Rep L m' (pre ++ b.mark true :: post)) {size : Nat}
    (hpre : ∀ c ∈ pre, c.fits size = false) (hfit : b.fits size = true) (hsz : size ≤ b.size) (hs : b.size ≤ size + 21) :
    Serves m m' L.bottom size (pre.map Blk.addr) b.addr (post.map Blk.addr) := by
  obtain ⟨k, hd⟩ := h.hdr (b := b) (by simp)
  obtain ⟨k', hd'⟩ := h'.hdr (b := b.mark true) (by simp)
  have hsize : hSize m' b.addr = b.size := hd'.size
  have hstatus : hStatus m' b.addr = heapMagicUsed := hd'.status
  have hwalk := h'.walk
  have hlow := h.lowest hpre
  rw [List.map_append, List.map_cons] at hwalk hlow
  refine ⟨(h.fits_iff (by simp) size).mpr hfit, hlow, hstatus, by omega, by omega, .inl ⟨?_, ?_, hwalk⟩, ?_⟩
  · rwa [hd.size]
  · rw [hsize, hd.size]
  · have hone : Rep L m' (pre ++ ([b.mark true] ++ post)) := h'
    exact h.others_kept hone

theorem Rep.serves_cut (h : Rep L m (pre ++ b :: post)) {size : Nat} (h' : Rep L m' (pre ++ b.low size :: b.high size :: post))
    (hpre : ∀ c ∈ pre, c.fits size = false) (hfit : b.fits size = true) (hs : size + 21 < b.size) :
    Serves m m' L.bottom size (pre.map Blk.addr) b.addr (post.map Blk.addr) := by
  obtain ⟨k, hd⟩ := h.hdr (b := b) (by simp)
  obtain ⟨k₁, hlow'⟩ := h'.hdr (b := b.low size) (by simp)
  obtain ⟨k₂, hhigh⟩ := h'.hdr (b := b.high size) (by simp)
  have hsize : hSize m' b.addr = size := hlow'.size
  have hstatus : hStatus m' b.addr = heapMagicUsed := hlow'.status
  have hrest : hSize m' (b.addr + 20 + size) = b.size - size - 20 := hhigh.size
  have hwalk := h'.walk
  have hlow := h.lowest hpre
  rw [List.map_append, List.map_cons, List.map_cons] at hwalk
  rw [List.map_append, List.map_cons] at hlow
  refine ⟨(h.fits_iff (by simp) size).mpr hfit, hlow, hstatus, by omega, by omega,
    .inr ⟨?_, hsize, hwalk, hhigh.magic, hhigh.status, ?_, ?_⟩, ?_⟩
  · rwa [hd.size]
  · rw [hrest]
    omega
  · rw [hrest, hd.size]
    show size + 20 + (b.size - size - 20) = b.size
    omega
  · have htwo : Rep L m' (pre ++ ([b.low size, b.high size] ++ post)) := h'
    exact h.others_kept htwo

end Blocks

/-! ## Every request, in every state -/

/-- The chain tiles the heap; the request is served by its lowest block that fits, or, with
    no block that fits, refused with the memory as it was. -/
theorem heap_alloc_first_fit {L : Layout} {h : List (St × Ev)} {s : St} (hr : Run L h s) (size : Nat) :
    ∃ l, Tiled L s l ∧ ∃ m' p, heapAlloc s.mem s.root size = some (m', p) ∧
      (p = 0 ↔ ∀ b ∈ l, ¬ Fits s.mem size b) ∧ (p = 0 → m' = s.mem) ∧
      (p ≠ 0 → ∃ pre b post, l = pre ++ b :: post ∧ p = b + hdr ∧ Serves s.mem m' s.root size pre b post) := by
  obtain ⟨bs, hi⟩ := run_inv hr
  have hrep := hi.rep
  have hfind := heapAlloc_find hrep size
  rw [← hi.root] at hfind
  refine ⟨bs.map Blk.addr, hi.tiled, ?_⟩
  cases hf : bs.find? (Blk.fits size) with
  | none =>
    rw [hf] at hfind
    refine ⟨s.mem, 0, hfind, iff_of_true rfl ?_, fun _ => rfl, fun h0 => absurd rfl h0⟩
    intro a ha hfit
    obtain ⟨c, hc, rfl⟩ := List.mem_map.mp ha
    exact absurd ((hrep.fits_iff hc size).mp hfit) (List.find?_eq_none.mp hf c hc)
  | some b =>
    rw [hf] at hfind
    obtain ⟨hfit, pre, post, rfl, hpre⟩ := List.find?_eq_some_iff_append.mp hf
    have hpre' : ∀ c ∈ pre, c.fits size = false := fun c hc => by simpa using hpre c hc
    have hfits : b.used = false ∧ size ≤ b.size := by simpa [Blk.fits] using hfit
    have hsz : size ≤ b.size := hfits.2
    obtain ⟨m', htake, hserves⟩ : ∃ m', takeBlock s.mem b.addr size = (m', b.addr + 20) ∧
        Serves s.mem m' s.root size (pre.map Blk.addr) b.addr (post.map Blk.addr) := by
      rw [hi.root]
      by_cases hs : b.size ≤ size + 21
      · exact ⟨_, takeBlock_whole hrep hsz hs, hrep.serves_whole (hrep.mark true) hpre' hfit hsz hs⟩
      · exact ⟨_, takeBlock_split hrep (by omega), hrep.serves_cut (hrep.split (by omega)) hpre' hfit (by omega)⟩
    have hne : b.addr + 20 ≠ 0 := by omega
    simp only [htake] at hfind
    refine ⟨m', b.addr + 20, hfind, iff_of_false hne ?_, fun h0 => absurd h0 hne, ?_⟩
    · intro hall
      exact hall b.addr (List.mem_map_of_mem (by simp)) hserves.fits
    · intro _
      exact ⟨pre.map Blk.addr, b.addr, post.map Blk.addr, by simp, rfl, hserves⟩

/-- Two buffers, the first one freed, and a request for one byte more than it had. -/
theorem a_small_block_is_passed_by : ∃ h s, Run heap2M h s ∧ ∃ l, Tiled heap2M s l ∧ ∃ m' p,
    heapAlloc s.mem s.root 101 = some (m', p) ∧ (p = 0 ↔ ∀ b ∈ l, ¬ Fits s.mem 101 b) ∧ (p = 0 → m' = s.mem) ∧
    (p ≠ 0 → ∃ pre b post, l = pre ++ b :: post ∧ p = b + hdr ∧ Serves s.mem m' s.root 101 pre b post) :=
  ⟨_, _, fromZero_run twoBuffers (by decide +kernel), heap_alloc_first_fit (fromZero_run twoBuffers (by decide +kernel)) 101⟩

end NativeOS.Mem.Heap
