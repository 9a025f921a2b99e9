/-
  NativeOS.Mem.PmmSurplus — the bits of the last word beyond `frames_count`.

  `frame_find_free` stops at the first word that starts beyond `frames_count`, but looks at
  all thirty-two bits of the words before it. When the number of frames is not a multiple
  of thirty-two the last word has bits for frames the machine does not have, and nothing
  sets them: a clear one is returned once the real frames are taken.

  Proved:
  * `allocated_frames_exist_iff` — every page returned is a frame of the machine exactly when
    `frames_count` is a multiple of thirty-two; for clients that free only pages they got,
    exactly when `pmm_init` leaves every surplus bit set.
  * `thirty_three_frames_return_a_thirty_fourth` — 132 KiB of memory, and the page behind it.
-/

import NativeOS.Mem.PmmHeap

namespace NativeOS.Mem.Pmm

open NativeOS.Lib

/-- The bitmaps the two calls lead to when `pmm_free_page` is given any address. -/
inductive Reached (s₁ : Frames) : Frames → Prop
  | init : Reached s₁ s₁
  | alloc {s : Frames} : Reached s₁ s → Reached s₁ (pmmAllocPage s).1
  | free {s : Frames} (page : Nat) : Reached s₁ s → page < 4294967296 → Reached s₁ (pmmFreePage s page)

/-- If the next `pmm_alloc_page` succeeds, it returns a frame below `frames_count`. -/
def BelowCount (s : Frames) : Prop :=
  (pmmAllocPage s).2 ≠ 0 → ∃ f < s.framesCount, (pmmAllocPage s).2 = 4096 * f

/-! ## frames_count is set once -/

theorem framesCount_blockLoop (length : Nat) : ∀ fuel f page s,
    (blockLoop length fuel f page s).framesCount = s.framesCount
  | 0, _, _, _ => rfl
  | fuel + 1, f, page, s => by
    unfold blockLoop
    split
    · exact framesCount_blockLoop length fuel _ _ _
    · rfl

theorem framesCount_mmapLoop {info : Mem} {e : Nat} : ∀ {fuel a : Nat} {s s' : Frames},
    mmapLoop info e fuel a s = some s' → s'.framesCount = s.framesCount
  | 0, _, _, _, h => by cases h
  | fuel + 1, a, s, s', h => by
    unfold mmapLoop at h
    split at h
    · refine (framesCount_mmapLoop h).trans ?_
      split
      · exact framesCount_blockLoop _ _ _ _ _
      · rfl
    · cases h
      rfl

theorem framesCount_kernelLoop {kernelAfter : Nat} : ∀ {fuel addr frame : Nat} {s s' : Frames},
    kernelLoop kernelAfter fuel addr frame s = some s' → s'.framesCount = s.framesCount
  | 0, _, _, _, _, h => by cases h
  | fuel + 1, addr, frame, s, s', h => by
    unfold kernelLoop at h
    split at h
    · exact (framesCount_kernelLoop h).trans (framesCount_frameSet s frame)
    · cases h
      rfl

theorem framesCount_pmmInit {mb : MultibootInfo} {info m : Mem} {kernelStart kernelAfter root : Nat} {s₁ : Frames}
    (h : pmmInit mb info kernelStart kernelAfter m root = some s₁) : s₁.framesCount = framesOf mb.memUpper := by
  obtain ⟨s₀, halloc, hres⟩ := Option.bind_eq_some_iff.mp h
  obtain ⟨s, hsys, hker⟩ := Option.bind_eq_some_iff.mp hres
  have h0 : s₀.framesCount = framesOf mb.memUpper := framesCount_allocateFrames halloc
  have h1 : s.framesCount = s₀.framesCount := by
    unfold reserveSystem at hsys
    split at hsys
    · exact framesCount_mmapLoop hsys
    · cases hsys
      rfl
  rw [framesCount_kernelLoop hker, h1, h0]

/-! ## Surplus frames -/

theorem framesCount_pmmAllocPage (s : Frames) : (pmmAllocPage s).1.framesCount = s.framesCount := by
  unfold pmmAllocPage
  dsimp only
  split <;> rfl

theorem reached_count {s₁ s : Frames} (h : Reached s₁ s) : s.framesCount = s₁.framesCount := by
  induction h with
  | init => rfl
  | alloc _ ih => exact (framesCount_pmmAllocPage _).trans ih
  | free page _ _ ih => exact ih

theorem step_pmm {s : St} : (step s .alloc).pmm = (pmmAllocPage s.pmm).1 := by
  simp only [step]
  split <;> rfl

theorem Reached.trans {s₁ s₂ s₃ : Frames} (h : Reached s₁ s₂) (h' : Reached s₂ s₃) : Reached s₁ s₃ := by
  induction h' with
  | init => exact h
  | alloc _ ih => exact ih.alloc
  | free page _ hp ih => exact ih.free page hp

theorem run_reached {s₁ : Frames} (hc : s₁.framesCount ≤ 1048576) {s : St} (hr : Run true s₁ s) : Reached s₁ s.pmm := by
  induction hr with
  | start => exact .init
  | @step s e hr ha ih =>
    cases e with
    | alloc =>
      rw [step_pmm]
      exact ih.alloc
    | free page =>
      obtain ⟨f, -, hf, hpage, -⟩ := (run_kept hc hr).returned page ha
      have hcap := capacity_bounds hc
      exact ih.free page (by omega)

/-- When every page was below `frames_count` at its turn, so is every page returned. -/
theorem returned_below {s₁ : Frames} (hb : ∀ s, Run true s₁ s → BelowCount s.pmm) (hc : s₁.framesCount ≤ 1048576)
    {s : St} (hr : Run true s₁ s) : ∀ p ∈ s.ret, ∃ f < s₁.framesCount, p = 4096 * f := by
  induction hr with
  | start => exact fun p hp => absurd hp List.not_mem_nil
  | @step s e hr ha ih =>
    cases e with
    | alloc =>
      intro p hp
      simp only [step] at hp
      split at hp
      · exact ih p hp
      · rcases List.mem_cons.mp hp with rfl | hp
        · rw [← (run_kept hc hr).count]
          exact hb s hr ‹_›
        · exact ih p hp
    | free page => exact ih

/-- A clear surplus frame is returned sooner or later. -/
theorem surplus_returned {s₁ : Frames} (hc : s₁.framesCount ≤ 1048576) {f : Nat} (h0 : 0 < f)
    (hlo : s₁.framesCount ≤ f) (hhi : f < capacity s₁.framesCount) (hclear : marked s₁ f = false) :
    ∃ s, Run true s₁ s ∧ ¬ BelowCount s.pmm := by
  by_contra hno
  have hb : ∀ s, Run true s₁ s → BelowCount s.pmm := fun s hr => by
    by_contra h
    exact hno ⟨s, hr, h⟩
  obtain ⟨s, hr, hmem⟩ := returns_every_clear hc h0 hhi (f + 1) 0 _ (by omega) .start
    (fun g hg => absurd hg (Nat.not_lt_zero g)) hclear
  obtain ⟨g, hg, hpage⟩ := returned_below hb hc hr _ hmem
  omega

/-- With no surplus frame to find, every bitmap is fine. -/
theorem below_of_full {s : Frames} (hc : s.framesCount ≤ 1048576)
    (h : ∀ f, s.framesCount ≤ f → f < capacity s.framesCount → marked s f = true) : BelowCount s := by
  intro h0
  rcases pmmAllocPage_cases hc with ⟨hnone, -⟩ | ⟨f, hlt, hsome, hclear, -⟩
  · rw [hnone] at h0
    exact absurd rfl h0
  · refine ⟨f, ?_, by rw [hsome]⟩
    by_contra hge
    rw [h f (by omega) hlt] at hclear
    cases hclear

theorem capacity_eq_iff {count : Nat} (hc : count ≤ 1048576) : capacity count = count ↔ 32 ∣ count := by
  unfold capacity
  rw [mapSize_eq hc]
  omega

/-- Every page returned is a frame of the machine: for clients that may free any address,
    when `frames_count` is a multiple of 32 and only then; for clients that free what they
    were given, when `pmm_init` ends with every surplus bit set and only then. -/
theorem allocated_frames_exist_iff {mb : MultibootInfo} {info m : Mem} {kernelStart kernelAfter root : Nat} {s₁ : Frames}
    (hinit : pmmInit mb info kernelStart kernelAfter m root = some s₁) :
    ((∀ s, Reached s₁ s → BelowCount s) ↔ 32 ∣ framesOf mb.memUpper) ∧
    ((∀ s, Run true s₁ s → BelowCount s.pmm) ↔
      ∀ f, framesOf mb.memUpper ≤ f → f < capacity (framesOf mb.memUpper) → frameTest s₁ f ≠ 0) := by
  have hcount := framesCount_pmmInit hinit
  have hlt := framesOf_lt mb.memUpper
  rw [← hcount] at hlt ⊢
  have hc : s₁.framesCount ≤ 1048576 := by omega
  have hcap := capacity_bounds hc
  have hmarked : ∀ f, frameTest s₁ f ≠ 0 ↔ marked s₁ f = true := fun f => by
    rw [ne_eq, frameTest_eq_zero, Bool.not_eq_false]
  constructor
  · rw [← capacity_eq_iff hc]
    constructor
    · intro hb
      by_contra hne
      -- the first surplus frame is freed, whoever had it, and then asked for
      let s₂ := pmmFreePage s₁ (4096 * s₁.framesCount)
      have hclear : marked s₂ s₁.framesCount = false := by
        show marked (frameClear s₁ _) _ = false
        rw [frameNumber_page, marked_frameClear, decide_eq_true rfl]
        rfl
      have hpos : 0 < s₁.framesCount := by
        by_contra h0
        rw [show s₁.framesCount = 0 by omega] at hne
        exact hne rfl
      have hreach : Reached s₁ s₂ := Reached.init.free _ (by omega)
      have hc₂ : s₂.framesCount ≤ 1048576 := hc
      obtain ⟨s, hr, hnot⟩ := surplus_returned hc₂ hpos (Nat.le_refl _)
        (show s₁.framesCount < capacity s₁.framesCount by omega) hclear
      exact hnot (hb _ (hreach.trans (run_reached hc₂ hr)))
    · intro heq s hr
      have hs := reached_count hr
      refine below_of_full (by omega) ?_
      intro f hlo hhi
      rw [hs] at hlo hhi
      omega
  · constructor
    · intro hb f hlo hhi
      rw [hmarked]
      by_contra hm
      by_cases h0 : 0 < f
      · obtain ⟨s, hr, hnot⟩ := surplus_returned hc h0 hlo hhi (by simpa using hm)
        exact hnot (hb s hr)
      · have hempty : capacity 0 = 0 := rfl
        rw [show s₁.framesCount = 0 by omega] at hhi
        omega
    · intro hset s hr
      have hk := run_kept hc hr
      refine below_of_full (by rw [hk.count]; exact hc) ?_
      intro f hlo hhi
      rw [hk.count] at hlo hhi
      exact hk.old f ((hmarked f).mp (hset f hlo hhi))

/-- The 1024 frames of the four megabyte machine fill their words. -/
theorem four_megabytes_have_no_surplus : ∃ s₁, fourMegabyteBoot = some s₁ ∧ ∀ s, Reached s₁ s → BelowCount s := by
  have hsome : fourMegabyteBoot.isSome = true := by decide +kernel
  have hs₁ := (Option.some_get hsome).symm
  exact ⟨_, hs₁, (allocated_frames_exist_iff hs₁).1.mpr (by decide)⟩

/-- A boot loader that reports 132 KiB, and no memory map. -/
def oddMachine : MultibootInfo := ⟨0, 131, 0, 0⟩

def oddBoot : Option Frames := pmmInit oddMachine ⟨fun _ => 0⟩ 0x100000 0x102000 freshHeap 0x101000

/-- Thirty-three frames, and a run that only allocates is given the page of a thirty-fourth. -/
theorem thirty_three_frames_return_a_thirty_fourth : ∃ s₁, oddBoot = some s₁ ∧ s₁.framesCount = 33 ∧
    ∃ s, Run true s₁ s ∧ ¬ BelowCount s.pmm := by
  have hsome : oddBoot.isSome = true := by decide +kernel
  have hs₁ := (Option.some_get hsome).symm
  have hclear : (oddBoot.map fun s => frameTest s 33) = some 0 := by decide +kernel
  rw [hs₁, Option.map_some, Option.some_inj, frameTest_eq_zero] at hclear
  have hcount : (oddBoot.get hsome).framesCount = 33 := framesCount_pmmInit hs₁
  refine ⟨_, hs₁, hcount, surplus_returned (f := 33) ?_ (by decide) ?_ ?_ hclear⟩
  · rw [hcount]
    decide
  · rw [hcount]
  · rw [hcount]
    decide

end NativeOS.Mem.Pmm
