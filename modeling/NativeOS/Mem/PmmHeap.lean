/-
  NativeOS.Mem.PmmHeap — the frame bitmap in its heap buffer.

  `kernel_bootstrap` calls `pmm_init` right after `heap_init`, so `heap_alloc` cuts the
  buffer off the one free block and puts the next control block right behind it.
  `allocate_frames` counts the bitmap in words and asks for that many bytes: three
  quarters of the words it then uses lie behind the buffer, the first of them on the next
  control block. It also counts the memory: `mem_upper` leaves out the first MiB, and its
  comment adds the 1024 KiB where its code adds 1.

  Proved:
  * `first_megabyte_never_counted` — on no machine is `frames_count` the number of its frames.
  * `bitmap_in_buffer_iff` — every word used for a frame lies in the buffer, and no control
    block changes, exactly on the machines for which `frames_count` comes out as 0.
  * `a_four_megabyte_machine_loses_the_heap` — there `pmm_init` alone overwrites the magic
    of the free block, and the heap has nothing left to allocate.
-/

import NativeOS.Mem.HeapProofs
import NativeOS.Mem.PmmReserve

namespace NativeOS.Mem.Pmm

open NativeOS.Lib

/-! ## The buffer -/

/-- The words used for the frames of the machine lie in the bytes `allocate_frames` asked for. -/
def InBuffer (s : Frames) : Prop :=
  ∀ f < s.framesCount, s.framesMap ≤ wordAddr s f ∧ wordAddr s f + 4 ≤ s.framesMap + mapSize s.framesCount

/-- Every control block on the chain of `m` has the same bytes in `m'`. -/
def HeadersKept (root : Nat) (m m' : Mem) : Prop :=
  ∀ l, Heap.Walk m root l → ∀ b ∈ l, Same m m' b (b + Heap.hdr)

theorem framesOf_eq_zero (memUpper : Nat) : framesOf memUpper = 0 ↔ (memUpper + 1) % 2 ^ 22 < 4 := by
  have h : add32 memUpper 1 <<< 10 = add32 memUpper 1 * 1024 := Nat.shiftLeft_eq _ _
  unfold framesOf
  rw [frameNumber_eq, h]
  unfold add32
  omega

/-- Up to 4 GiB nothing wraps: the count is right for a machine with 1023 KiB less. -/
theorem framesOf_eq {memUpper : Nat} (h : 1024 + memUpper ≤ 4194304) : framesOf memUpper = (memUpper + 1) / 4 := by
  have hsh : add32 memUpper 1 <<< 10 = add32 memUpper 1 * 1024 := Nat.shiftLeft_eq _ _
  unfold framesOf
  rw [frameNumber_eq, hsh, add32_eq (by omega)]
  omega

/-- The shortfall: 1023 KiB are 255 frames, and 256 unless the odd KiB completes another. -/
theorem framesOf_shortfall {memUpper : Nat} (h : 1024 + memUpper ≤ 4194304) :
    framesOf memUpper + (if memUpper % 4 = 3 then 255 else 256) = (1024 + memUpper) / 4 := by
  rw [framesOf_eq h]
  split <;> omega

theorem framesCount_allocateFrames {m : Mem} {root memUpper : Nat} {s : Frames}
    (h : allocateFrames m root memUpper = some s) : s.framesCount = framesOf memUpper := by
  unfold allocateFrames at h
  cases ha : Heap.heapAlloc m root (mapSize (framesOf memUpper)) with
  | none =>
    rw [ha] at h
    cases h
  | some r =>
    rw [ha] at h
    cases h
    rfl

/-- Whatever `mem_upper` a machine of at most 4 GiB reports, and whatever the heap does,
    `frames_count` falls short of the frames there are. -/
theorem first_megabyte_never_counted {memUpper : Nat} (h : 1024 + memUpper ≤ 4194304) :
    framesOf memUpper < (1024 + memUpper) / 4 ∧
    ∀ m root s, allocateFrames m root memUpper = some s → s.framesCount < (1024 + memUpper) / 4 := by
  have hlt : framesOf memUpper < (1024 + memUpper) / 4 := by
    have hs := framesOf_shortfall h
    split at hs <;> omega
  refine ⟨hlt, ?_⟩
  intro m root s hs
  rwa [framesCount_allocateFrames hs]

theorem full_machine_is_short : framesOf 4193280 < (1024 + 4193280) / 4 ∧
    ∀ m root s, allocateFrames m root 4193280 = some s → s.framesCount < (1024 + 4193280) / 4 :=
  first_megabyte_never_counted (by simp)

/-- 64 MiB: 16384 frames, 16128 of them counted. -/
theorem sixty_four_megabytes_counted_short :
    framesOf 64512 = 16128 ∧ framesOf 64512 ≠ (1024 + 64512) / 4 := by decide

theorem mapSize_framesOf_lt (memUpper : Nat) : mapSize (framesOf memUpper) ≤ 32768 := by
  have h := framesOf_lt memUpper
  rw [mapSize_eq (by omega)]
  omega

/-- A word is four bytes and the buffer has one byte per word: not even the first fits. -/
theorem inBuffer_iff {s : Frames} (hc : s.framesCount < 1048576) : InBuffer s ↔ s.framesCount = 0 := by
  constructor
  · intro h
    by_contra h0
    -- the word of the last frame ends three bytes or more behind the buffer
    have hlast := (h (s.framesCount - 1) (by omega)).2
    rw [mapSize_eq (by omega), wordAddr, bitIndex_eq] at hlast
    omega
  · intro h f hf
    omega

/-- `heap_alloc` on a fresh heap: the buffer follows the root's control block, and the rest
    of the heap follows the buffer. -/
theorem heapAlloc_boot (L : Heap.Layout) (m : Mem) {size : Nat} (hs : size ≤ 32768) :
    ∃ m', Heap.heapAlloc (Heap.boot L m).mem L.bottom size = some (m', L.bottom + 20) ∧
      Heap.Walk m' L.bottom [L.bottom, L.bottom + 20 + size] := by
  have hL := L.bound
  let b : Heap.Blk := ⟨L.bottom, 0x100000 - 20, 0, false⟩
  have hb : b.size = 0x100000 - 20 := rfl
  have hrep : Heap.Rep L (Heap.boot L m).mem ([] ++ b :: []) := (Heap.boot_inv L m).rep
  have hfit : List.find? (Heap.Blk.fits size) [b] = some b := by
    rw [List.find?_cons_of_pos]
    simp only [Heap.Blk.fits, b, Bool.not_false, Bool.true_and, decide_eq_true_iff]
    omega
  have hfind := Heap.heapAlloc_find hrep size
  rw [List.nil_append, hfit] at hfind
  have hs' : size + 21 < b.size := by omega
  refine ⟨_, hfind.trans (congrArg some (Heap.takeBlock_split hrep hs')), ?_⟩
  have hsplit := hrep.split hs'
  refine Heap.walk_chain hsplit.chain ?_
  intro c hc
  have := hsplit.bounds hc
  omega

theorem allocateFrames_boot (L : Heap.Layout) (m : Mem) (memUpper : Nat) :
    ∃ m', allocateFrames (Heap.boot L m).mem L.bottom memUpper = some ⟨m', L.bottom + 20, framesOf memUpper⟩ ∧
      Heap.Walk m' L.bottom [L.bottom, L.bottom + 20 + mapSize (framesOf memUpper)] := by
  obtain ⟨m', h1, h2⟩ := heapAlloc_boot L m (mapSize_framesOf_lt memUpper)
  exact ⟨m', by rw [allocateFrames, h1], h2⟩

/-! ## A machine without frames -/

theorem mmapLoop_idle {info : Mem} {e : Nat} : ∀ {fuel a : Nat} {s s' : Frames}, s.framesCount = 0 →
    mmapLoop info e fuel a s = some s' → s' = s
  | 0, _, _, _, _, h => by cases h
  | fuel + 1, a, s, s', hc, h => by
    have hblock : reserveSystemBlock info a s = s := by rw [reserveSystemBlock, hc]; rfl
    unfold mmapLoop at h
    rw [hblock, ite_self] at h
    split at h
    · exact mmapLoop_idle hc h
    · cases h
      rfl

/-- The kernel's frames only touch words from its first frame's on. -/
theorem kernelLoop_same {kernelAfter hi : Nat} (lo : Nat) : ∀ {fuel addr frame : Nat} {s s' : Frames},
    frame + fuel < 4294967296 → hi ≤ wordAddr s frame → kernelLoop kernelAfter fuel addr frame s = some s' →
    s'.framesCount = s.framesCount ∧ Same s.mem s'.mem lo hi
  | 0, _, _, _, _, _, _, h => by cases h
  | fuel + 1, addr, frame, s, s', hf, hhi, h => by
    unfold kernelLoop at h
    split at h
    · have hnext : add32 frame 1 = frame + 1 := add32_eq (by omega)
      have hword : wordAddr s frame ≤ wordAddr (frameSet s frame) (frame + 1) := by
        simp only [wordAddr, bitIndex_eq, framesMap_frameSet]
        omega
      rw [hnext] at h
      obtain ⟨h1, h2⟩ := kernelLoop_same lo (by omega) (Nat.le_trans hhi hword) h
      exact ⟨h1, ((frameSet_only s frame).same (.inl hhi)).trans h2⟩
    · cases h
      exact ⟨rfl, Same.refl _ _ _⟩

theorem run_idle {s₁ : Frames} (hc : s₁.framesCount = 0) {s : St} (hr : Run true s₁ s) : s = ⟨s₁, [], []⟩ := by
  have hcap : capacity s₁.framesCount = 0 := by rw [hc]; rfl
  induction hr with
  | start => rfl
  | @step s e _ ha ih =>
    subst ih
    rcases step_cases (by rw [hc]; omega) ha with ⟨-, -, h⟩ | ⟨f, hf, -⟩ | ⟨page, hp, -⟩
    · exact h
    · rw [hcap] at hf
      omega
    · cases hp

/-- On every machine with a frame to its name the bitmap leaves its buffer; without one the
    control blocks are safe from `pmm_init` and from every later call. -/
theorem bitmap_in_buffer_iff (L : Heap.Layout) (m : Mem) (mb : MultibootInfo) (info : Mem) (kernelAfter : Nat) :
    (∃ s₀, allocateFrames (Heap.boot L m).mem L.bottom mb.memUpper = some s₀ ∧ InBuffer s₀ ∧
      ∀ s₁, pmmInit mb info 0x100000 kernelAfter (Heap.boot L m).mem L.bottom = some s₁ →
        ∀ s, Run true s₁ s → HeadersKept L.bottom s₀.mem s.pmm.mem) ↔
    (mb.memUpper + 1) % 2 ^ 22 < 4 := by
  obtain ⟨m', halloc, hwalk⟩ := allocateFrames_boot L m mb.memUpper
  have hinb := inBuffer_iff (s := ⟨m', L.bottom + 20, framesOf mb.memUpper⟩) (framesOf_lt _)
  rw [← framesOf_eq_zero]
  constructor
  · intro ⟨s₀, h1, h2, _⟩
    rw [halloc] at h1
    cases h1
    exact hinb.mp h2
  · intro h0
    refine ⟨_, halloc, hinb.mpr h0, ?_⟩
    intro s₁ hinit s hr l hl b hb
    rw [pmmInit, halloc, Option.bind_some, reserve] at hinit
    obtain ⟨s', hsys, hker⟩ := Option.bind_eq_some_iff.mp hinit
    have hs' : s' = ⟨m', L.bottom + 20, framesOf mb.memUpper⟩ := by
      unfold reserveSystem at hsys
      split at hsys
      · exact mmapLoop_idle h0 hsys
      · cases hsys
        rfl
    subst hs'
    -- the image starts at 1 MiB, so its first word is the ninth; both control blocks end before it
    have hfirst : L.bottom + 40 ≤ wordAddr ⟨m', L.bottom + 20, framesOf mb.memUpper⟩ 256 := by
      simp only [wordAddr, bitIndex_eq]
      omega
    have hk : kernelLoop kernelAfter 1048577 0x100000 256 ⟨m', L.bottom + 20, framesOf mb.memUpper⟩ = some s₁ := hker
    obtain ⟨hcount, hsame⟩ := kernelLoop_same L.bottom (by decide) hfirst hk
    rw [run_idle (hcount.trans h0) hr]
    have hb' : b = L.bottom ∨ b = L.bottom + 20 := by
      rw [hl.unique hwalk, h0] at hb
      simpa [mapSize, bitOffset, bitIndex] using hb
    refine hsame.mono (by omega) ?_
    show b + 20 ≤ L.bottom + 40
    omega

def heap1M : Heap.Layout := ⟨0x101000, by decide, by decide⟩

/-- A boot loader that reports 4 MiB and no memory map. -/
def fourMegabytes : MultibootInfo := ⟨0, 4095, 0, 0⟩

/-- The heap of an image of one page of code and data, over zeroed memory. -/
def freshHeap : Mem := (Heap.boot heap1M ⟨fun _ => 0⟩).mem

def fourMegabyteBoot : Option Frames := pmmInit fourMegabytes ⟨fun _ => 0⟩ 0x100000 0x202000 freshHeap 0x101000

/-- The image's own frames are marked on top of the control block behind the bitmap. The
    heap then ends there for `heap_alloc`, with almost all of its room unused. -/
theorem a_four_megabyte_machine_loses_the_heap :
    ∃ s₀ s₁, allocateFrames freshHeap 0x101000 fourMegabytes.memUpper = some s₀ ∧ ¬ InBuffer s₀ ∧
      pmmInit fourMegabytes ⟨fun _ => 0⟩ 0x100000 0x202000 freshHeap 0x101000 = some s₁ ∧
      ¬ HeadersKept 0x101000 s₀.mem s₁.mem ∧ ∃ m, Heap.heapAlloc s₁.mem 0x101000 1 = some (m, 0) := by
  obtain ⟨m', halloc, hwalk⟩ := allocateFrames_boot heap1M ⟨fun _ => 0⟩ fourMegabytes.memUpper
  have hsome : fourMegabyteBoot.isSome = true := by decide +kernel
  have hbefore : (allocateFrames freshHeap 0x101000 4095).map (fun s => Heap.hMagic s.mem 0x101034) =
      some Heap.heapMagicHead := by decide +kernel
  have hafter : fourMegabyteBoot.map (fun s => Heap.hMagic s.mem 0x101034) = some 0xFFFFFFFF := by decide +kernel
  have hnull : (fourMegabyteBoot.bind fun s => Heap.heapAlloc s.mem 0x101000 1).map Prod.snd = some 0 := by
    decide +kernel
  obtain ⟨s₁, hs₁⟩ := Option.isSome_iff_exists.mp hsome
  rw [show allocateFrames freshHeap 0x101000 4095 = _ from halloc, Option.map_some, Option.some_inj] at hbefore
  rw [hs₁, Option.map_some, Option.some_inj] at hafter
  rw [hs₁, Option.bind_some] at hnull
  refine ⟨_, s₁, halloc, ?_, hs₁, ?_, ?_⟩
  · rw [inBuffer_iff (framesOf_lt _)]
    show framesOf 4095 ≠ 0
    decide
  · intro h
    have hkept := h _ hwalk 0x101034 (by decide)
    have hmagic : Heap.hMagic s₁.mem 0x101034 = Heap.hMagic m' 0x101034 :=
      ld32_same (hkept.mono (Nat.le_refl _) (by decide))
    rw [hafter, hbefore] at hmagic
    revert hmagic
    decide
  · obtain ⟨⟨m, p⟩, hm, hp⟩ := Option.map_eq_some_iff.mp hnull
    exact ⟨m, by rw [hm, ← hp]⟩

end NativeOS.Mem.Pmm
