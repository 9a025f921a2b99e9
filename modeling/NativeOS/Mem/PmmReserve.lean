/-
  NativeOS.Mem.PmmReserve — which frames `pmm_init` sets aside.

  `reserve_system_block` counts frames off from the region's first one, a frame for each
  started 4 KiB of the length; a region that does not start on a page boundary can reach
  one frame further. It also stops at `frames_count`, while the last word of the bitmap has
  bits, and so pages to hand out, beyond it. A reserved frame left out in either way is
  handed out sooner or later unless another region or the kernel image covers it.

  Proved:
  * `reserved_memory_iff` — no run returns a page with a reserved byte exactly when every
    frame a reserved entry reaches is counted off by some entry or lies in the kernel
    image (or `pmm_init` never gets there: an image ending in the last page of memory
    keeps `reserve_kernel` looping).
  * `a_region_across_a_page_boundary_is_handed_out` — one unaligned region, and its last
    frame is returned by the second call.
-/

import NativeOS.Mem.PmmProofs

namespace NativeOS.Mem.Pmm

open NativeOS.Lib

/-! ## The loops -/

/-- `s'` is `s` with the frames of `P` marked as well. -/
structure Marks (s s' : Frames) (P : Nat → Prop) : Prop where
  map : s'.framesMap = s.framesMap
  count : s'.framesCount = s.framesCount
  bits : ∀ g, marked s' g = true ↔ marked s g = true ∨ P g

theorem Marks.none {s : Frames} {P : Nat → Prop} (h : ∀ g, ¬ P g) : Marks s s P :=
  ⟨rfl, rfl, fun g => (or_iff_left (h g)).symm⟩

theorem Marks.trans {s s' s'' : Frames} {P Q : Nat → Prop} (h : Marks s s' P) (h' : Marks s' s'' Q) :
    Marks s s'' fun g => P g ∨ Q g where
  map := h'.map.trans h.map
  count := h'.count.trans h.count
  bits g := by rw [h'.bits, h.bits, or_assoc]

theorem Marks.congr {s s' : Frames} {P Q : Nat → Prop} (h : Marks s s' P) (hpq : ∀ g, P g ↔ Q g) : Marks s s' Q :=
  ⟨h.map, h.count, fun g => by rw [h.bits, hpq]⟩

theorem frameSet_marks (s : Frames) (f : Nat) : Marks s (frameSet s f) (· = f) where
  map := rfl
  count := rfl
  bits g := by rw [marked_frameSet, Bool.or_eq_true, decide_eq_true_iff, or_comm]

theorem blockLoop_marks (length : Nat) : ∀ fuel f i s, s.framesCount ≤ f + fuel →
    s.framesCount < 1048576 → (f < s.framesCount → i ≤ f) →
    Marks s (blockLoop length fuel f (4096 * i) s) fun g => g < s.framesCount ∧ f ≤ g ∧ 4096 * (i + (g - f)) < length
  | 0, f, i, s, hf, hc, hi => Marks.none fun g hg => by omega
  | fuel + 1, f, i, s, hf, hc, hi => by
    unfold blockLoop
    by_cases h : f < s.framesCount ∧ 4096 * i < length
    · have hf' : add32 f 1 = f + 1 := add32_eq (by omega)
      have hp' : add32 (4096 * i) 0x1000 = 4096 * (i + 1) := by
        have := hi h.1
        rw [add32_eq (by omega)]
        omega
      rw [if_pos h, hf', hp']
      have ih := blockLoop_marks length fuel (f + 1) (i + 1) (frameSet s f) (by simp; omega) hc (by simp; omega)
      refine ((frameSet_marks s f).trans ih).congr ?_
      intro g
      rw [framesCount_frameSet]
      omega
    · rw [if_neg h]
      exact Marks.none fun g hg => by omega

theorem reserveSystemBlock_marks {info : Mem} {a : Nat} {x : Entry}
    (hx : x = ⟨mmapSize info a, mmapBase info a, mmapLen info a, mmapType info a⟩) {s : Frames}
    (hc : s.framesCount < 1048576) : Marks s (reserveSystemBlock info a s) (CountedOff s.framesCount x) := by
  refine (blockLoop_marks _ s.framesCount _ 0 s (by omega) hc fun _ => Nat.zero_le _).congr ?_
  intro g
  rw [hx, CountedOff, Entry.firstFrame, Nat.zero_add]

/-- The entries lie one after the other in `[a, e)`, twenty-four bytes each at least. -/
theorem MmapAt.le {info : Mem} : ∀ {es : List Entry} {a e : Nat}, MmapAt info a e es → a + 24 * es.length ≤ e
  | [], _, _, h => Nat.le_of_eq h
  | x :: es, a, e, ⟨_, hsize, _, hm⟩ => by
    have := hm.le
    rw [List.length_cons]
    omega

theorem mmapLoop_marks {info : Mem} {e : Nat} (he : e < 4294967296) : ∀ es fuel a s, MmapAt info a e es →
    es.length < fuel → s.framesCount < 1048576 →
    ∃ s', mmapLoop info e fuel a s = some s' ∧
      Marks s s' fun g => ∃ x ∈ es, x.type ≠ 1 ∧ CountedOff s.framesCount x g
  | [], fuel + 1, a, s, hm, hf, hc => by
    have hae : a = e := hm
    refine ⟨s, ?_, Marks.none fun g hg => by simp at hg⟩
    rw [mmapLoop, if_neg (by omega)]
  | x :: es, fuel + 1, a, s, ⟨hae, hsize, hx, hm⟩, hf, hc => by
    have hfields : mmapSize info a = x.size ∧ mmapType info a = x.type := by rw [hx]; exact ⟨rfl, rfl⟩
    have hend := hm.le
    have hnext : add32 (add32 a x.size) 4 = a + x.size + 4 := by
      rw [add32_eq (a := a) (by omega), add32_eq (by omega)]
    rw [mmapLoop, if_pos hae, hfields.1, hfields.2, hnext]
    have hhead : Marks s (if x.type ≠ 1 then reserveSystemBlock info a s else s)
        fun g => x.type ≠ 1 ∧ CountedOff s.framesCount x g := by
      by_cases ht : x.type ≠ 1
      · rw [if_pos ht]
        exact (reserveSystemBlock_marks hx hc).congr fun g => by simp [ht]
      · rw [if_neg ht]
        exact Marks.none fun g hg => ht hg.1
    obtain ⟨s', h1, h2⟩ := mmapLoop_marks he es fuel _ _ hm (by simpa using hf) (by rw [hhead.count]; exact hc)
    refine ⟨s', h1, (hhead.trans h2).congr ?_⟩
    intro g
    simp only [hhead.count, List.mem_cons, exists_eq_or_imp]

theorem kernelLoop_marks {kernelAfter : Nat} (hk : kernelAfter ≤ 0xFFFFF000) : ∀ fuel f s,
    kernelAfter ≤ 4096 * f + 4096 * fuel →
    ∃ s', kernelLoop kernelAfter (fuel + 1) (4096 * f) f s = some s' ∧
      Marks s s' fun g => f ≤ g ∧ 4096 * g < kernelAfter
  | fuel, f, s, hf => by
    unfold kernelLoop
    by_cases h : 4096 * f < kernelAfter
    · have ha : add32 (4096 * f) 4096 = 4096 * (f + 1) := by rw [add32_eq (by omega)]; omega
      have hfr : add32 f 1 = f + 1 := add32_eq (by omega)
      rw [if_pos h, ha, hfr]
      cases fuel with
      | zero => omega
      | succ fuel =>
        obtain ⟨s', h1, h2⟩ := kernelLoop_marks hk fuel (f + 1) (frameSet s f) (by omega)
        refine ⟨s', h1, ((frameSet_marks s f).trans h2).congr ?_⟩
        intro g
        omega
    · rw [if_neg h]
      exact ⟨s, rfl, Marks.none fun g hg => by omega⟩

/-- An image that ends in the last page: the address wraps and the loop goes on. -/
theorem kernelLoop_forever {kernelAfter : Nat} (hk : 0xFFFFF000 < kernelAfter) : ∀ fuel addr frame s,
    4096 ∣ addr → addr < 4294967296 → kernelLoop kernelAfter fuel addr frame s = none
  | 0, _, _, _, _, _ => rfl
  | fuel + 1, addr, frame, s, hd, hlt => by
    rw [kernelLoop, if_pos (by omega)]
    apply kernelLoop_forever hk fuel
    · unfold add32
      omega
    · exact Nat.mod_lt _ (by decide)

theorem page_of {a : Nat} (ha : a < 4294967296) : a &&& 0xFFFFF000 = 4096 * frameNumber a := by
  have hmask : (0xFFFFF000 : Nat) = (2 ^ 20 - 1) <<< 12 := by decide
  have hpage : 4096 * frameNumber a = (a >>> 12) <<< 12 := by rw [Nat.shiftLeft_eq, Nat.mul_comm]; rfl
  rw [hmask, hpage]
  apply Nat.eq_of_testBit_eq
  intro k
  rw [Nat.testBit_and, Nat.testBit_shiftLeft, Nat.testBit_shiftLeft, Nat.testBit_two_pow_sub_one,
    Nat.testBit_shiftRight]
  by_cases hlow : 12 ≤ k
  · rw [decide_eq_true hlow, Bool.true_and, Bool.true_and, Nat.add_sub_cancel' hlow]
    by_cases hhigh : k < 32
    · rw [decide_eq_true (by omega), Bool.and_true]
    · have hpow : 2 ^ 32 ≤ 2 ^ k := Nat.pow_le_pow_right (by decide) (by omega)
      rw [Nat.testBit_lt_two_pow (Nat.lt_of_lt_of_le ha hpow), Bool.false_and]
  · rw [decide_eq_false hlow, Bool.false_and, Bool.and_false, Bool.false_and]

theorem framesOf_lt (memUpper : Nat) : framesOf memUpper < 1048576 := by
  unfold framesOf
  rw [frameNumber_eq]
  omega

/-! ## pmm_init on an empty bitmap -/

section Reserve

variable {mb : MultibootInfo} {info : Mem} {es : List Entry} {kernelStart kernelAfter : Nat} {s₀ : Frames}

/-- The frames `pmm_init` marks. -/
def SetAside (count : Nat) (es : List Entry) (kernelStart kernelAfter f : Nat) : Prop :=
  (∃ x ∈ es, x.type ≠ 1 ∧ CountedOff count x f) ∨ KernelFrame kernelStart kernelAfter f

-- a boot loader that passed a well-formed memory map
variable (hflag : mb.flags &&& 0x40 ≠ 0) (hend : mb.mmapAddr + mb.mmapLength < 4294967296)
  (hmap : MmapAt info mb.mmapAddr (mb.mmapAddr + mb.mmapLength) es) (hc : s₀.framesCount < 1048576)

include hflag hend hmap hc

theorem reserveSystem_marks : ∃ s, reserveSystem mb info s₀ = some s ∧
    Marks s₀ s fun g => ∃ x ∈ es, x.type ≠ 1 ∧ CountedOff s₀.framesCount x g := by
  have hlen := hmap.le
  rw [reserveSystem, if_pos hflag, add32_eq hend]
  exact mmapLoop_marks hend es _ _ s₀ hmap (by omega) hc

theorem reserve_marks (hks : kernelStart < 4294967296) (hk : kernelAfter ≤ 0xFFFFF000) :
    ∃ s, reserve mb info kernelStart kernelAfter s₀ = some s ∧
      Marks s₀ s (SetAside s₀.framesCount es kernelStart kernelAfter) := by
  obtain ⟨s, h1, h2⟩ := reserveSystem_marks hflag hend hmap hc
  have hfuel : kernelAfter ≤ 4096 * frameNumber kernelStart + 4096 * 1048576 :=
    Nat.le_add_left_of_le (Nat.le_trans hk (by decide))
  obtain ⟨s', h3, h4⟩ := kernelLoop_marks hk 1048576 (frameNumber kernelStart) s hfuel
  refine ⟨s', ?_, h2.trans h4⟩
  rw [reserve, h1, Option.bind_some, reserveKernel, page_of hks, frameNumber_page]
  exact h3

theorem reserve_forever (hks : kernelStart < 4294967296) (hk : 0xFFFFF000 < kernelAfter) :
    reserve mb info kernelStart kernelAfter s₀ = none := by
  obtain ⟨s, h1, -⟩ := reserveSystem_marks hflag hend hmap hc
  rw [reserve, h1, Option.bind_some, reserveKernel, page_of hks]
  apply kernelLoop_forever hk _ _ _ _ (Nat.dvd_mul_right _ _)
  rw [frameNumber_eq]
  omega

end Reserve

/-! ## Runs -/

/-- What was marked at the start stays marked, and only frames clear at the start are returned. -/
structure Kept (s₁ : Frames) (s : St) : Prop where
  count : s.pmm.framesCount = s₁.framesCount
  old : ∀ g, marked s₁ g = true → marked s.pmm g = true
  returned : ∀ p ∈ s.ret, ∃ f, 0 < f ∧ f < capacity s₁.framesCount ∧ p = 4096 * f ∧ marked s₁ f = false

theorem Kept.step {s₁ : Frames} {s : St} {e : Ev} (hc : s₁.framesCount ≤ 1048576) (hi : Kept s₁ s)
    (ha : Allowed true s e) : Kept s₁ (step s e) := by
  have hc' : s.pmm.framesCount ≤ 1048576 := by rw [hi.count]; exact hc
  rcases step_cases hc' ha with ⟨-, -, hsame⟩ | ⟨f, hlt, hclear, -, -, hs⟩ | ⟨page, hmem, -, hs⟩
  · rwa [hsame]
  · have hold : ∀ g, marked s₁ g = true → marked (frameSet s.pmm f) g = true := by
      intro g hg
      rw [marked_frameSet, hi.old g hg, Bool.or_true]
    rw [hs]
    split
    · exact ⟨hi.count, hold, hi.returned⟩
    · refine ⟨hi.count, hold, List.forall_mem_cons.mpr ⟨?_, hi.returned⟩⟩
      have hclear₁ : marked s₁ f = false := by
        by_contra hm
        rw [hi.old f (by simpa using hm)] at hclear
        exact Bool.false_ne_true hclear.symm
      exact ⟨f, by omega, by rw [← hi.count]; exact hlt, rfl, hclear₁⟩
  · rw [hs]
    refine ⟨hi.count, ?_, hi.returned⟩
    intro g hg
    -- the page given back was clear at the start, so its bit is none of those to keep
    obtain ⟨f, -, -, hpage, hm⟩ := hi.returned page hmem
    have hne : g ≠ f := fun hgf => by
      rw [hgf, hm] at hg
      exact Bool.false_ne_true hg
    rw [marked_frameClear, hpage, frameNumber_page, hi.old g hg, decide_eq_false hne]
    rfl

theorem run_kept {s₁ : Frames} (hc : s₁.framesCount ≤ 1048576) {s : St} (hr : Run true s₁ s) : Kept s₁ s := by
  induction hr with
  | start => exact ⟨rfl, fun _ h => h, fun p hp => by cases hp⟩
  | step _ ha ih => exact ih.step hc ha

/-- Calling for pages often enough returns any clear frame but frame 0: each call takes the
    least clear one. -/
theorem returns_every_clear {s₁ : Frames} (hc : s₁.framesCount ≤ 1048576) {f : Nat} (h0 : 0 < f)
    (hf : f < capacity s₁.framesCount) : ∀ n k s, f < k + n → Run true s₁ s →
    (∀ g < k, marked s.pmm g = true) → marked s.pmm f = false → ∃ s', Run true s₁ s' ∧ 4096 * f ∈ s'.ret
  | 0, k, s, hlt, _, hk, hclear => by
    rw [hk f hlt] at hclear
    cases hclear
  | n + 1, k, s, hlt, hr, hk, hclear => by
    have hcount := (run_kept hc hr).count
    have ha : Allowed true s .alloc := trivial
    have hr' := hr.step ha
    rcases step_cases (by rw [hcount]; exact hc) ha with
      ⟨-, hfull, -⟩ | ⟨g, -, hg, hleast, -, hs⟩ | ⟨_, _, he, _⟩
    · rw [hfull f (by rwa [hcount])] at hclear
      cases hclear
    · rw [hs] at hr'
      rcases Nat.lt_trichotomy f g with hfg | hfg | hfg
      · rw [hleast f hfg] at hclear
        cases hclear
      · rw [if_neg (by omega)] at hr'
        exact ⟨_, hr', by rw [hfg]; exact List.mem_cons_self⟩
      · have hkg : k ≤ g := by
          by_contra hlt'
          rw [hk g (by omega)] at hg
          cases hg
        have hbelow : ∀ x < g + 1, marked (frameSet s.pmm g) x = true := by
          intro x hx
          rw [marked_frameSet]
          by_cases hxg : x = g
          · rw [decide_eq_true hxg, Bool.true_or]
          · rw [hleast x (by omega), Bool.or_true]
        have hstill : marked (frameSet s.pmm g) f = false := by
          rw [marked_frameSet, hclear, decide_eq_false (by omega)]
          rfl
        by_cases hg0 : g = 0
        · rw [if_pos hg0] at hr'
          exact returns_every_clear hc h0 hf n (g + 1) _ (by omega) hr' hbelow hstill
        · rw [if_neg hg0] at hr'
          exact returns_every_clear hc h0 hf n (g + 1) _ (by omega) hr' hbelow hstill
    · cases he

/-- No page with a reserved byte is ever returned exactly when every frame (frame 0 apart)
    that a reserved entry reaches was set aside. -/
theorem reserved_memory_iff {mb : MultibootInfo} {info : Mem} {es : List Entry} {kernelStart kernelAfter : Nat}
    {s₀ : Frames} (hflag : mb.flags &&& 0x40 ≠ 0) (hend : mb.mmapAddr + mb.mmapLength < 2 ^ 32)
    (hmap : MmapAt info mb.mmapAddr (mb.mmapAddr + mb.mmapLength) es) (hks : kernelStart < 2 ^ 32)
    (hcount : s₀.framesCount = framesOf mb.memUpper)
    (hzero : ∀ f < capacity s₀.framesCount, frameWord s₀ f = 0) :
    (∀ s₁, reserve mb info kernelStart kernelAfter s₀ = some s₁ → ∀ s, Run true s₁ s →
      ∀ p ∈ s.ret, Unreserved es kernelStart kernelAfter p) ↔
    (kernelAfter ≤ 0xFFFFF000 → ∀ x ∈ es, x.type ≠ 1 → ∀ f, 0 < f → f < capacity (framesOf mb.memUpper) →
      Overlaps (4096 * f) x.base (x.base + x.length) →
      SetAside (framesOf mb.memUpper) es kernelStart kernelAfter f) := by
  have hc : s₀.framesCount < 1048576 := by rw [hcount]; exact framesOf_lt _
  have hclear : ∀ f < capacity s₀.framesCount, marked s₀ f = false := by
    intro f hf
    rw [← frameTest_eq_zero, frameTest, hzero f hf, Nat.zero_and]
  rw [← hcount]
  constructor
  · intro hsafe hk x hx hres f h0 hf hover
    obtain ⟨s₁, hs₁, hm⟩ := reserve_marks hflag hend hmap hc hks hk
    by_contra hno
    have hc₁ : s₁.framesCount ≤ 1048576 := by rw [hm.count]; omega
    have hnot : marked s₁ f = false := by
      rw [← Bool.not_eq_true, hm.bits, hclear f hf]
      simpa using hno
    obtain ⟨s, hr, hmem⟩ := returns_every_clear hc₁ h0 (by rwa [hm.count]) (f + 1) 0 _ (by omega) .start
      (fun g hg => absurd hg (Nat.not_lt_zero g)) hnot
    exact (hsafe s₁ hs₁ s hr _ hmem).1 x hx hres hover
  · intro hcov s₁ hs₁ s hr p hp
    by_cases hk : kernelAfter ≤ 0xFFFFF000
    · obtain ⟨s', hs', hm⟩ := reserve_marks hflag hend hmap hc hks hk
      rw [hs₁] at hs'
      cases hs'
      obtain ⟨f, h0, hf, hpf, hnot⟩ := (run_kept (by rw [hm.count]; omega) hr).returned p hp
      rw [hm.count] at hf
      have hfree : ¬ SetAside s₀.framesCount es kernelStart kernelAfter f := fun hset => by
        rw [(hm.bits f).mpr (.inr hset)] at hnot
        cases hnot
      rw [hpf]
      refine ⟨fun x hx hres hover => hfree (hcov hk x hx hres f h0 hf hover), ?_⟩
      rintro ⟨a, h1, h2, h3, h4⟩
      refine hfree (.inr ⟨?_, by omega⟩)
      rw [frameNumber_eq]
      omega
    · rw [reserve_forever hflag hend hmap hc hks (by omega)] at hs₁
      cases hs₁

/-- A memory map of one entry, at 0x9000. -/
def mapOfOne (x : Entry) : Mem :=
  let m1 := st32 ⟨fun _ => 0⟩ 0x9000 x.size
  let m2 := st32 (st32 m1 0x9004 x.base) 0x9008 (x.base / 4294967296)
  let m3 := st32 (st32 m2 0x900C x.length) 0x9010 (x.length / 4294967296)
  st32 m3 0x9014 x.type

def oneEntryMap : MultibootInfo := ⟨0x40, 1023, 24, 0x9000⟩

/-- The empty bitmap of a machine with 1 MiB. -/
def blank256 : Frames := ⟨⟨fun _ => 0⟩, 0x200014, 256⟩

theorem blank256_zero : ∀ f < capacity blank256.framesCount, frameWord blank256 f = 0 := fun _ _ => rfl

/-- An aligned region of one page. -/
def videoMemory : Entry := ⟨20, 0xA0000, 0x1000, 2⟩

theorem videoMemory_map : MmapAt (mapOfOne videoMemory) 0x9000 0x9018 [videoMemory] :=
  ⟨by decide, by decide, by decide +kernel, rfl⟩

theorem an_aligned_region_is_kept : ∃ s₁, reserve oneEntryMap (mapOfOne videoMemory) 0x100000 0x102000 blank256 = some s₁ ∧
    ∀ s, Run true s₁ s → ∀ p ∈ s.ret, Unreserved [videoMemory] 0x100000 0x102000 p := by
  have hflag : oneEntryMap.flags &&& 0x40 ≠ 0 := by decide
  have hsome : (reserve oneEntryMap (mapOfOne videoMemory) 0x100000 0x102000 blank256).isSome = true := by decide +kernel
  have hs₁ := (Option.some_get hsome).symm
  refine ⟨_, hs₁, (reserved_memory_iff hflag (by decide) videoMemory_map (by decide) rfl blank256_zero).mpr
    ?_ _ hs₁⟩
  intro _ x hx hres f _ _ hover
  rw [List.mem_singleton] at hx
  subst hx
  obtain ⟨a, h1, h2, h3, h4⟩ := hover
  have hf : f = 0xA0 := by
    simp only [videoMemory] at h3 h4
    omega
  subst hf
  exact .inl ⟨videoMemory, List.mem_singleton_self _, hres, by decide, by decide, by decide⟩

/-- A page-long region across a page boundary. -/
def straddling : Entry := ⟨20, 0x1800, 0x1000, 2⟩

/-- Its second frame is not marked, and the second call returns it. -/
theorem a_region_across_a_page_boundary_is_handed_out :
    oneEntryMap.flags &&& 0x40 ≠ 0 ∧ MmapAt (mapOfOne straddling) 0x9000 0x9018 [straddling] ∧
    (∀ f < capacity blank256.framesCount, frameWord blank256 f = 0) ∧
    ∃ s₁ s, reserve oneEntryMap (mapOfOne straddling) 0x100000 0x102000 blank256 = some s₁ ∧ Run true s₁ s ∧
      0x2000 ∈ s.ret ∧ ¬ Unreserved [straddling] 0x100000 0x102000 0x2000 := by
  refine ⟨by decide, ⟨by decide, by decide, by decide +kernel, rfl⟩, blank256_zero, _, _,
    (Option.some_get (x := reserve oneEntryMap (mapOfOne straddling) 0x100000 0x102000 blank256)
      (by decide +kernel)).symm, exec_start [.alloc, .alloc] (by decide +kernel), by decide +kernel, ?_⟩
  intro h
  exact h.1 straddling (List.mem_singleton_self _) (by decide) ⟨0x2000, by decide, by decide, by decide, by decide⟩

end NativeOS.Mem.Pmm
