/-
  NativeOS.Mem.PmmExhaust — what the answer 0 of `pmm_alloc_page` says.

  0 is the answer for a full bitmap, and the address of frame 0. A clear frame 0 is the
  least one, so the call takes it and answers 0 all the same: the frame is lost, and the
  caller is told that there is no memory. `pmm_init` marks frame 0 only where the memory
  map or the kernel image covers it. The other way round, a clear bit beyond
  `frames_count` is an answer other than 0 once every frame is taken.

  Proved:
  * `exhaustion_reported_iff` — the answer is exact in a reachable bitmap when frame 0 is
    taken and a full machine has no clear surplus bit, and only then; in every run of a
    client that frees what it got, when `pmm_init` leaves frame 0 and the surplus bits set.
  * `the_first_page_is_reported_as_exhaustion` — a four megabyte machine right after boot.
-/

import NativeOS.Mem.PmmSurplus

namespace NativeOS.Mem.Pmm

open NativeOS.Lib

/-- Every frame the machine has is taken. -/
def Exhausted (s : Frames) : Prop := ∀ f < s.framesCount, frameTest s f ≠ 0

/-- `pmm_alloc_page` answers 0 when there is no frame left and only then, and leaves the
    bitmap as it is when it does. -/
def ReportsExhaustion (s : Frames) : Prop :=
  ((pmmAllocPage s).2 = 0 ↔ Exhausted s) ∧ ((pmmAllocPage s).2 = 0 → (pmmAllocPage s).1 = s)

/-- Frame 0 is taken, or the machine has none. -/
def ZeroTaken (s : Frames) : Prop := s.framesCount = 0 ∨ frameTest s 0 ≠ 0

/-- Every bit of the bitmap beyond `frames_count` is set. -/
def SurplusTaken (s : Frames) : Prop := ∀ f, s.framesCount ≤ f → f < capacity s.framesCount → frameTest s f ≠ 0

theorem frameTest_ne_zero {s : Frames} {f : Nat} : frameTest s f ≠ 0 ↔ marked s f = true := by
  simp [frameTest_eq_zero]

theorem exhausted_iff {s : Frames} : Exhausted s ↔ ∀ f < s.framesCount, marked s f = true := by
  simp only [Exhausted, frameTest_ne_zero]

theorem zeroTaken_iff {s : Frames} : ZeroTaken s ↔ s.framesCount = 0 ∨ marked s 0 = true := by
  simp only [ZeroTaken, frameTest_ne_zero]

theorem capacity_zero : capacity 0 = 0 := rfl

/-! ## One call -/

/-- The three outcomes: none left, frame 0 taken for a failure, another frame returned. -/
theorem pmmAllocPage_answer {s : Frames} (hc : s.framesCount ≤ 1048576) :
    (pmmAllocPage s = (s, 0) ∧ ∀ g < capacity s.framesCount, marked s g = true) ∨
    ((pmmAllocPage s).2 = 0 ∧ 0 < s.framesCount ∧ marked s 0 = false) ∨
    ((pmmAllocPage s).2 ≠ 0 ∧ marked s 0 = true ∧ ∃ f < capacity s.framesCount, marked s f = false) := by
  rcases pmmAllocPage_cases hc with h | ⟨f, hlt, hsome, hclear, hleast⟩
  · exact .inl h
  · rcases Nat.eq_zero_or_pos f with rfl | hpos
    · have hcount : s.framesCount ≠ 0 := fun h => by simp [h, capacity_zero] at hlt
      exact .inr (.inl ⟨by simp [hsome], by omega, hclear⟩)
    · exact .inr (.inr ⟨by simp [hsome]; omega, hleast 0 hpos, f, hlt, hclear⟩)

/-- In any bitmap the answer is exact when frame 0 is taken and, with every frame taken,
    no surplus bit is clear. -/
theorem reportsExhaustion_iff {s : Frames} (hc : s.framesCount ≤ 1048576) :
    ReportsExhaustion s ↔ ZeroTaken s ∧ (Exhausted s → SurplusTaken s) := by
  have hcap := capacity_bounds hc
  simp only [ReportsExhaustion, SurplusTaken, exhausted_iff, zeroTaken_iff, frameTest_ne_zero]
  rcases pmmAllocPage_answer hc with ⟨hnone, hfull⟩ | ⟨hzero, hpos, hclear⟩ | ⟨hne, hset, f, hlt, hclear⟩
  · have hall : ∀ f < s.framesCount, marked s f = true := fun f hf => hfull f (by omega)
    have h0 : s.framesCount = 0 ∨ marked s 0 = true := by
      rcases Nat.eq_zero_or_pos s.framesCount with h0 | h0
      · exact .inl h0
      · exact .inr (hall 0 h0)
    rw [hnone]
    exact ⟨fun _ => ⟨h0, fun _ f _ hf => hfull f hf⟩, fun _ => ⟨⟨fun _ => hall, fun _ => rfl⟩, fun _ => rfl⟩⟩
  · -- frame 0 was free and the answer is 0
    have hnot : ¬ (s.framesCount = 0 ∨ marked s 0 = true) := by
      rw [hclear]
      intro h
      rcases h with h | h
      · omega
      · cases h
    have hfree : ¬ ∀ f < s.framesCount, marked s f = true := fun h => by
      have h0 := h 0 hpos
      rw [hclear] at h0
      cases h0
    exact ⟨fun h => absurd (h.1.mp hzero) hfree, fun h => absurd h.1 hnot⟩
  · constructor
    · intro h
      refine ⟨.inr hset, fun hall => absurd (h.1.mpr hall) hne⟩
    · intro h
      obtain ⟨-, hsurplus⟩ := h
      refine ⟨⟨fun h => absurd h hne, fun hall => ?_⟩, fun h => absurd h hne⟩
      -- every frame is taken, so the clear bit would be a surplus one
      exfalso
      have hf : marked s f = true := by
        rcases Nat.lt_or_ge f s.framesCount with hf | hf
        · exact hall f hf
        · exact hsurplus hall f hf hlt
      rw [hclear] at hf
      cases hf

/-! ## Runs -/

theorem ZeroTaken.run {s₁ : Frames} {s : St} (hk : Kept s₁ s) (h : ZeroTaken s₁) : ZeroTaken s.pmm := by
  rw [zeroTaken_iff] at h ⊢
  rw [hk.count]
  exact h.imp id (hk.old 0)

theorem SurplusTaken.run {s₁ : Frames} {s : St} (hk : Kept s₁ s) (h : SurplusTaken s₁) : SurplusTaken s.pmm := by
  intro f hlo hhi
  rw [hk.count] at hlo hhi
  exact frameTest_ne_zero.mpr (hk.old f (frameTest_ne_zero.mp (h f hlo hhi)))

/-- Where the answer is exact, a page returned is one of the machine's frames. -/
theorem ReportsExhaustion.belowCount {s : Frames} (hc : s.framesCount ≤ 1048576) (h : ReportsExhaustion s) :
    BelowCount s := by
  intro hne
  rcases pmmAllocPage_cases hc with ⟨hnone, -⟩ | ⟨f, hlt, hsome, hclear, hleast⟩
  · exact absurd (by rw [hnone]) hne
  · refine ⟨f, ?_, by rw [hsome]⟩
    by_contra hge
    -- all frames below `f` are taken, and `f` is none of the machine's
    exact hne (h.1.mpr (exhausted_iff.mpr fun g hg => hleast g (by omega)))

theorem runs_report_iff {s₁ : Frames} (hc : s₁.framesCount ≤ 1048576) :
    (∀ s, Run true s₁ s → ReportsExhaustion s.pmm) ↔ ZeroTaken s₁ ∧ SurplusTaken s₁ := by
  constructor
  · intro h
    have hzero : ZeroTaken s₁ := ((reportsExhaustion_iff hc).mp (h _ .start)).1
    refine ⟨hzero, fun f hlo hhi => ?_⟩
    by_contra hclear
    have hcount : s₁.framesCount ≠ 0 := fun h0 => by simp [h0, capacity_zero] at hhi
    obtain ⟨s, hr, hnot⟩ := surplus_returned hc (by omega) hlo hhi (frameTest_eq_zero.mp hclear)
    exact hnot ((h s hr).belowCount (by rw [(run_kept hc hr).count]; exact hc))
  · intro h s hr
    obtain ⟨hzero, hsurplus⟩ := h
    have hk := run_kept hc hr
    exact (reportsExhaustion_iff (by rw [hk.count]; exact hc)).mpr ⟨hzero.run hk, fun _ => hsurplus.run hk⟩

/-- After any boot. In a bitmap the two calls lead to, whatever addresses are freed, the
    answer 0 is exact when frame 0 is taken and a machine with every frame taken has no clear
    surplus bit, and only then. A client that frees only pages it got is told the truth in
    all its runs when `pmm_init` ends with frame 0 and every surplus bit set, and only then. -/
theorem exhaustion_reported_iff {mb : MultibootInfo} {info m : Mem} {kernelStart kernelAfter root : Nat} {s₁ : Frames}
    (hinit : pmmInit mb info kernelStart kernelAfter m root = some s₁) :
    (∀ s, Reached s₁ s → (ReportsExhaustion s ↔ ZeroTaken s ∧ (Exhausted s → SurplusTaken s))) ∧
    ((∀ s, Run true s₁ s → ReportsExhaustion s.pmm) ↔ ZeroTaken s₁ ∧ SurplusTaken s₁) := by
  have hcount := framesCount_pmmInit hinit
  have hlt := framesOf_lt mb.memUpper
  have hc : s₁.framesCount ≤ 1048576 := by omega
  refine ⟨fun s hr => reportsExhaustion_iff ?_, runs_report_iff hc⟩
  rw [reached_count hr]
  exact hc

theorem fourMegabyteBoot_zero : ∃ s₁, fourMegabyteBoot = some s₁ ∧ s₁.framesCount = 1024 ∧ frameTest s₁ 0 = 0 := by
  have hsome : fourMegabyteBoot.isSome = true := by decide +kernel
  have hs₁ := (Option.some_get hsome).symm
  have hclear : (fourMegabyteBoot.map fun s => frameTest s 0) = some 0 := by decide +kernel
  rw [hs₁, Option.map_some, Option.some_inj] at hclear
  exact ⟨_, hs₁, framesCount_pmmInit hs₁, hclear⟩

theorem a_four_megabyte_machine_misreports : ∃ s₁, fourMegabyteBoot = some s₁ ∧
    ¬ ∀ s, Run true s₁ s → ReportsExhaustion s.pmm := by
  obtain ⟨s₁, hs₁, hcount, hclear⟩ := fourMegabyteBoot_zero
  refine ⟨s₁, hs₁, fun h => ?_⟩
  rcases ((exhaustion_reported_iff hs₁).2.mp h).1 with h0 | h0
  · omega
  · exact h0 hclear

/-- No memory map covers frame 0 of the four megabyte machine. Its first `pmm_alloc_page`
    answers 0 with the frame free, and marks it. -/
theorem the_first_page_is_reported_as_exhaustion : ∃ s₁, fourMegabyteBoot = some s₁ ∧ ¬ Exhausted s₁ ∧
    (pmmAllocPage s₁).2 = 0 ∧ frameTest s₁ 0 = 0 ∧ frameTest (pmmAllocPage s₁).1 0 ≠ 0 ∧ ¬ ReportsExhaustion s₁ := by
  obtain ⟨s₁, hs₁, hcount, hclear⟩ := fourMegabyteBoot_zero
  have hc : s₁.framesCount ≤ 1048576 := by omega
  have hm := frameTest_eq_zero.mp hclear
  have hfree : ¬ Exhausted s₁ := fun h => h 0 (by omega) hclear
  rcases pmmAllocPage_cases hc with ⟨-, hfull⟩ | ⟨f, hlt, hsome, hcl, hleast⟩
  · rw [hfull 0 (by rw [hcount]; decide)] at hm
    cases hm
  · have h0 : f = 0 := by
      by_contra hne
      rw [hleast 0 (by omega)] at hm
      cases hm
    subst h0
    refine ⟨s₁, hs₁, hfree, by simp [hsome], hclear, ?_, fun h => hfree (h.1.mp (by simp [hsome]))⟩
    rw [hsome, frameTest_ne_zero]
    simp

end NativeOS.Mem.Pmm
