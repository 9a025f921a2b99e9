/-
  NativeOS.Mem.PmmProofs — what the frame bitmap guarantees.

  The shifts and masks are the library's packed bitmap (`frameSet_eq`, `frameClear_eq`), and
  the two nested loops of `frame_find_free` find the least clear bit of it
  (`frameFindFree_spec`). A call then does one of three things (`step_cases`), and every
  fact about runs is read off that.

  Proved: `pages_never_handed_out_twice` — outstanding pages are distinct, and each call
  takes one frame out of the clear ones or gives one back.
-/

import NativeOS.Mem.Pmm

namespace NativeOS.Mem.Pmm

open NativeOS.Lib

/-! ## The packed bitmap -/

/-- Frame `f`'s bit. -/
def marked (s : Frames) (f : Nat) : Bool := bitAt s.mem s.framesMap f

theorem frameNumber_eq (a : Nat) : frameNumber a = a / 4096 := Nat.shiftRight_eq_div_pow a 12

theorem bitIndex_eq (idx : Nat) : bitIndex idx = idx / 32 := Nat.shiftRight_eq_div_pow idx 5

theorem bitOffset_eq (idx : Nat) : bitOffset idx = idx % 32 := Nat.and_two_pow_sub_one_eq_mod idx 5

theorem offsetMask_eq (k : Nat) : offsetMask k = 2 ^ k := Nat.one_shiftLeft k

theorem physicalAddr_eq {f : Nat} (hf : f < 1048576) : physicalAddr f = 4096 * f := by
  have h : f <<< 12 = f * 4096 := Nat.shiftLeft_eq f 12
  unfold physicalAddr
  omega

theorem frameSet_eq (s : Frames) (f : Nat) : frameSet s f = { s with mem := setBit s.mem s.framesMap f } := by
  simp only [frameSet, frameWord, wordAddr, setBit, bitIndex_eq, bitOffset_eq, offsetMask_eq]

theorem frameClear_eq (s : Frames) (f : Nat) : frameClear s f = { s with mem := clearBit s.mem s.framesMap f } := by
  simp only [frameClear, frameWord, wordAddr, clearBit, bitIndex_eq, bitOffset_eq, offsetMask_eq]

@[simp] theorem framesCount_frameSet (s : Frames) (f : Nat) : (frameSet s f).framesCount = s.framesCount := rfl

@[simp] theorem framesMap_frameSet (s : Frames) (f : Nat) : (frameSet s f).framesMap = s.framesMap := rfl

theorem frameWord_testBit (s : Frames) (f k : Nat) (hk : k < 32) :
    (frameWord s (32 * f)).testBit k = marked s (32 * f + k) := by
  have hi : (32 * f + k) / 32 = 32 * f / 32 := by omega
  have ho : (32 * f + k) % 32 = k := by omega
  simp only [frameWord, wordAddr, marked, bitAt, bitIndex_eq, hi, ho]

theorem frameTest_eq_zero {s : Frames} {f : Nat} : frameTest s f = 0 ↔ marked s f = false := by
  simp only [frameTest, frameWord, wordAddr, marked, bitAt, bitIndex_eq, bitOffset_eq, offsetMask_eq]
  exact and_two_pow_eq_zero

@[simp] theorem marked_frameSet (s : Frames) (f g : Nat) : marked (frameSet s f) g = (decide (g = f) || marked s g) := by
  rw [frameSet_eq]
  exact bitAt_setBit s.mem s.framesMap f g

theorem marked_frameClear (s : Frames) (f g : Nat) : marked (frameClear s f) g = (!decide (g = f) && marked s g) := by
  rw [frameClear_eq]
  exact bitAt_clearBit s.mem s.framesMap f g

theorem takenFrames_eq (s : Frames) : takenFrames s = taken s.mem s.framesMap (capacity s.framesCount) := by
  ext f
  rw [mem_taken, takenFrames, Finset.mem_filter, Finset.mem_range, ne_eq, frameTest_eq_zero, Bool.not_eq_false]
  rfl

theorem mem_takenFrames {s : Frames} {f : Nat} :
    f ∈ takenFrames s ↔ f < capacity s.framesCount ∧ marked s f = true := by
  rw [takenFrames_eq, mem_taken]
  rfl

theorem takenFrames_frameSet {s : Frames} {f : Nat} (hf : f < capacity s.framesCount) :
    takenFrames (frameSet s f) = insert f (takenFrames s) := by
  rw [takenFrames_eq, takenFrames_eq, frameSet_eq]
  exact taken_setBit s.mem hf

theorem takenFrames_frameClear (s : Frames) (f : Nat) : takenFrames (frameClear s f) = (takenFrames s).erase f := by
  rw [takenFrames_eq, takenFrames_eq, frameClear_eq]
  exact taken_clearBit s.mem s.framesMap (capacity s.framesCount) f

/-! ## The search -/

theorem mapSize_eq {count : Nat} (h : count ≤ 1048576) : mapSize count = (count + 31) / 32 := by
  unfold mapSize
  rw [bitIndex_eq, bitOffset_eq]
  split
  · rw [add32_eq (by omega)]
    omega
  · omega

theorem capacity_bounds {count : Nat} (h : count ≤ 1048576) :
    count ≤ capacity count ∧ capacity count < count + 32 ∧ capacity count ≤ 1048576 := by
  unfold capacity
  rw [mapSize_eq h]
  omega

theorem scanWord_spec (map : Nat) : ∀ n offset, offset + n = 32 →
    (∃ k, scanWord map n offset = some k ∧ offset ≤ k ∧ k < 32 ∧ map.testBit k = false ∧
      ∀ j, offset ≤ j → j < k → map.testBit j = true) ∨
    (scanWord map n offset = none ∧ ∀ j, offset ≤ j → j < 32 → map.testBit j = true)
  | 0, offset, h => .inr ⟨rfl, fun j h1 h2 => by omega⟩
  | n + 1, offset, h => by
    have hmask : offsetMask (bitOffset offset) = 2 ^ offset := by
      rw [offsetMask_eq, bitOffset_eq, Nat.mod_eq_of_lt (by omega)]
    unfold scanWord
    rw [hmask]
    by_cases hb : map.testBit offset = false
    · rw [if_pos (and_two_pow_eq_zero.mpr hb)]
      exact .inl ⟨offset, rfl, Nat.le_refl _, by omega, hb, fun j h1 h2 => by omega⟩
    · rw [if_neg fun h0 => hb (and_two_pow_eq_zero.mp h0)]
      have hset : map.testBit offset = true := by simpa using hb
      -- the offset just passed joins the ones already seen to be set
      have hnext : ∀ {p : Nat → Prop}, (∀ j, offset + 1 ≤ j → p j → map.testBit j = true) →
          ∀ j, offset ≤ j → p j → map.testBit j = true := by
        intro p hp j hj hpj
        rcases Nat.lt_or_ge offset j with hlt | hge
        · exact hp j hlt hpj
        · rwa [show j = offset by omega]
      rcases scanWord_spec map n (offset + 1) (by omega) with ⟨k, h1, h2, h3, h4, h5⟩ | ⟨h1, h2⟩
      · exact .inl ⟨k, h1, by omega, h3, h4, hnext h5⟩
      · exact .inr ⟨h1, hnext h2⟩

/-- The least clear frame, or none in the whole bitmap. -/
def FoundFree (s : Frames) (r : Nat) : Prop :=
  (r < capacity s.framesCount ∧ marked s r = false ∧ ∀ g < r, marked s g = true) ∨
    (r = 0xFFFFFFFF ∧ ∀ g < capacity s.framesCount, marked s g = true)

/-- Frames below a word and the first `n` of the word's own. -/
theorem marked_below_add {s : Frames} {k n : Nat} (hn : n ≤ 32) (hk : ∀ g < 32 * k, marked s g = true)
    (hw : ∀ j, 0 ≤ j → j < n → (frameWord s (32 * k)).testBit j = true) : ∀ g < 32 * k + n, marked s g = true := by
  intro g hg
  by_cases hgk : g < 32 * k
  · exact hk g hgk
  · have hj := hw (g - 32 * k) (by omega) (by omega)
    rwa [frameWord_testBit s k _ (by omega), show 32 * k + (g - 32 * k) = g by omega] at hj

theorem findLoop_spec {s : Frames} (hc : s.framesCount ≤ 1048576) : ∀ fuel k,
    s.framesCount ≤ 32 * k + 32 * fuel → (∀ g < 32 * k, marked s g = true) → FoundFree s (findLoop s fuel (32 * k))
  | 0, k, hf, hk => by
    have hcap := capacity_bounds hc
    have hwords : 32 ∣ capacity s.framesCount := ⟨_, rfl⟩
    exact .inr ⟨rfl, fun g hg => hk g (by omega)⟩
  | fuel + 1, k, hf, hk => by
    have hcap := capacity_bounds hc
    have hwords : 32 ∣ capacity s.framesCount := ⟨_, rfl⟩
    unfold findLoop
    by_cases hlt : 32 * k < s.framesCount
    · have hstep : add32 (32 * k) 32 = 32 * (k + 1) := by rw [add32_eq (by omega)]; omega
      rw [if_pos hlt, hstep]
      have hfull : (∀ j, 0 ≤ j → j < 32 → (frameWord s (32 * k)).testBit j = true) →
          FoundFree s (findLoop s fuel (32 * (k + 1))) := fun h =>
        findLoop_spec hc fuel (k + 1) (by omega) (marked_below_add (Nat.le_refl _) hk h)
      by_cases hw : frameWord s (32 * k) ≠ 0xFFFFFFFF
      · rw [if_pos hw]
        rcases scanWord_spec (frameWord s (32 * k)) 32 0 rfl with ⟨j, h1, -, h3, h4, h5⟩ | ⟨h1, h2⟩
        · rw [h1]
          show FoundFree s (32 * k ||| j)
          rw [← Nat.two_pow_add_eq_or_of_lt (i := 5) h3 k]
          rw [frameWord_testBit s k j h3] at h4
          exact .inl ⟨by omega, h4, marked_below_add (by omega) hk h5⟩
        · rw [h1]
          exact hfull h2
      · rw [if_neg hw]
        have hones : frameWord s (32 * k) = 0xFFFFFFFF := by simpa using hw
        exact hfull fun j _ hj => (word_full (ld32_lt _ _)).mp hones j hj
    · rw [if_neg hlt]
      exact .inr ⟨rfl, fun g hg => hk g (by omega)⟩

theorem frameFindFree_spec {s : Frames} (hc : s.framesCount ≤ 1048576) : FoundFree s (frameFindFree s) :=
  findLoop_spec hc s.framesCount 0 (by omega) fun g hg => by omega

/-! ## The two calls -/

/-- `pmm_alloc_page` on a full bitmap, and on one with a clear bit. -/
theorem pmmAllocPage_cases {s : Frames} (hc : s.framesCount ≤ 1048576) :
    (pmmAllocPage s = (s, 0) ∧ ∀ g < capacity s.framesCount, marked s g = true) ∨
    ∃ f < capacity s.framesCount, pmmAllocPage s = (frameSet s f, 4096 * f) ∧ marked s f = false ∧
      ∀ g < f, marked s g = true := by
  have hcap := capacity_bounds hc
  unfold pmmAllocPage
  rcases frameFindFree_spec hc with ⟨hlt, hclear, hleast⟩ | ⟨hnone, hfull⟩
  · refine .inr ⟨frameFindFree s, hlt, ?_, hclear, hleast⟩
    rw [if_neg (by omega), physicalAddr_eq (by omega)]
  · exact .inl ⟨if_pos hnone, hfull⟩

theorem frameNumber_page (f : Nat) : frameNumber (4096 * f) = f := by
  rw [frameNumber_eq]
  omega

theorem frameSet_only (s : Frames) (f : Nat) : Only s.mem (frameSet s f).mem (wordAddr s f) (wordAddr s f + 4) :=
  Only.st32 s.mem _ (Nat.le_refl _) (Nat.le_refl _)

theorem frameClear_only (s : Frames) (f : Nat) : Only s.mem (frameClear s f).mem (wordAddr s f) (wordAddr s f + 4) :=
  Only.st32 s.mem _ (Nat.le_refl _) (Nat.le_refl _)

/-- A step of a run: nothing, a clear frame taken and returned (page 0 as a failure), or a
    page given back. -/
theorem step_cases {again : Bool} {s : St} {e : Ev} (hc : s.pmm.framesCount ≤ 1048576) (ha : Allowed again s e) :
    (e = .alloc ∧ (∀ g < capacity s.pmm.framesCount, marked s.pmm g = true) ∧ step s e = s) ∨
    (∃ f < capacity s.pmm.framesCount, marked s.pmm f = false ∧ (∀ g < f, marked s.pmm g = true) ∧ e = .alloc ∧
      step s e = if f = 0 then { s with pmm := frameSet s.pmm f } else
        ⟨frameSet s.pmm f, 4096 * f :: s.out, 4096 * f :: s.ret⟩) ∨
    ∃ page, page ∈ (if again then s.ret else s.out) ∧ e = .free page ∧
      step s e = { s with pmm := frameClear s.pmm (frameNumber page), out := s.out.erase page } := by
  cases e with
  | alloc =>
    rcases pmmAllocPage_cases hc with ⟨hnone, hfull⟩ | ⟨f, hlt, hsome, hclear, hleast⟩
    · refine .inl ⟨rfl, hfull, ?_⟩
      simp only [step, hnone, if_pos]
    · refine .inr (.inl ⟨f, hlt, hclear, hleast, rfl, ?_⟩)
      simp only [step, hsome]
      by_cases h0 : f = 0
      · rw [if_pos h0, if_pos (by omega)]
      · rw [if_neg h0, if_neg (by omega)]
  | free page => exact .inr (.inr ⟨page, ha, rfl, rfl⟩)

/-! ## Exclusive pages -/

/-- Every outstanding page is a taken frame other than frame 0, and none is listed twice. -/
structure Exclusive (s₀ : Frames) (s : St) : Prop where
  count : s.pmm.framesCount = s₀.framesCount
  once : s.out.Nodup
  held : ∀ p ∈ s.out, p ≠ 0 ∧ ∃ f < capacity s₀.framesCount, p = 4096 * f ∧ marked s.pmm f = true

theorem Exclusive.step {s₀ : Frames} {s : St} {e : Ev} (hc : s₀.framesCount ≤ 1048576) (hi : Exclusive s₀ s)
    (ha : Allowed false s e) : Exclusive s₀ (step s e) := by
  have hc' : s.pmm.framesCount ≤ 1048576 := by rw [hi.count]; exact hc
  rcases step_cases hc' ha with ⟨-, -, hsame⟩ | ⟨f, hlt, hclear, -, -, hs⟩ | ⟨page, hmem, -, hs⟩
  · rwa [hsame]
  · have hkeep : ∀ p ∈ s.out, p ≠ 0 ∧ ∃ g < capacity s₀.framesCount, p = 4096 * g ∧
        marked (frameSet s.pmm f) g = true := by
      intro p hp
      obtain ⟨h0, g, hg, hpg, hm⟩ := hi.held p hp
      exact ⟨h0, g, hg, hpg, by rw [marked_frameSet, hm, Bool.or_true]⟩
    rw [hs]
    split
    · exact ⟨hi.count, hi.once, hkeep⟩
    · refine ⟨hi.count, List.nodup_cons.mpr ⟨?_, hi.once⟩, List.forall_mem_cons.mpr ⟨?_, hkeep⟩⟩
      · -- an outstanding page's bit is set, the bit just found was clear
        intro hp
        obtain ⟨-, g, -, hpg, hm⟩ := hi.held _ hp
        rw [show g = f by omega, hclear] at hm
        exact Bool.false_ne_true hm
      · exact ⟨by omega, f, by rw [← hi.count]; exact hlt, rfl, by simp⟩
  · rw [hs]
    refine ⟨hi.count, hi.once.erase page, ?_⟩
    intro p hp
    obtain ⟨hne, hp⟩ := hi.once.mem_erase_iff.mp hp
    obtain ⟨h0, g, hg, hpg, hm⟩ := hi.held p hp
    obtain ⟨-, f, -, hpage, -⟩ := hi.held page hmem
    refine ⟨h0, g, hg, hpg, ?_⟩
    rw [marked_frameClear, hm, hpage, frameNumber_page, decide_eq_false (by omega)]
    rfl

theorem run_exclusive {s₀ : Frames} (hc : s₀.framesCount ≤ 1048576) {s : St} (hr : Run false s₀ s) : Exclusive s₀ s := by
  induction hr with
  | start => exact ⟨rfl, List.nodup_nil, fun p hp => by cases hp⟩
  | step _ ha ih => exact ih.step hc ha

/-- `pmm_alloc_page` took a frame that was not taken, and nothing else changed. -/
def TakesFrame (s s' : Frames) (page : Nat) : Prop :=
  ∃ f, f < capacity s.framesCount ∧ f ∉ takenFrames s ∧ takenFrames s' = insert f (takenFrames s) ∧
    page = 4096 * f ∧ Only s.mem s'.mem (wordAddr s f) (wordAddr s f + 4)

/-- `pmm_free_page` gave a taken frame back, and nothing else changed. -/
def GivesFrame (s s' : Frames) (page : Nat) : Prop :=
  frameNumber page ∈ takenFrames s ∧ takenFrames s' = (takenFrames s).erase (frameNumber page) ∧
    Only s.mem s'.mem (wordAddr s (frameNumber page)) (wordAddr s (frameNumber page) + 4)

/-- A run given by its events; `none` when one of them is not allowed. -/
def exec (again : Bool) : St → List Ev → Option St
  | s, [] => some s
  | s, e :: es => if Allowed again s e then exec again (step s e) es else none

theorem exec_run {again : Bool} {s₀ : Frames} : ∀ {es : List Ev} {s s' : St}, Run again s₀ s →
    exec again s es = some s' → Run again s₀ s'
  | [], s, s', hr, h => by
    cases h
    exact hr
  | e :: es, s, s', hr, h => by
    unfold exec at h
    split at h
    · exact exec_run (hr.step ‹_›) h
    · cases h

theorem exec_start {again : Bool} {s₀ : Frames} (es : List Ev) (h : (exec again ⟨s₀, [], []⟩ es).isSome = true) :
    Run again s₀ ((exec again ⟨s₀, [], []⟩ es).get h) := exec_run .start (Option.some_get h).symm

/-- From any bitmap, whatever order pages are taken and given back in: the outstanding pages
    are distinct, and each call moves one frame in or out of the set the bitmap stands for. -/
theorem pages_never_handed_out_twice {s₀ : Frames} (hc : s₀.framesCount ≤ 2 ^ 20) {s : St} (hr : Run false s₀ s) :
    s.out.Nodup ∧ (∀ p ∈ s.out, p ≠ 0 ∧ 4096 ∣ p) ∧
    (∀ s' p, pmmAllocPage s.pmm = (s', p) → (p ≠ 0 → frameTest s.pmm (frameNumber p) = 0) ∧
      ((p = 0 ∧ s' = s.pmm ∧ takenFrames s.pmm = Finset.range (capacity s₀.framesCount)) ∨ TakesFrame s.pmm s' p)) ∧
    (∀ p ∈ s.out, GivesFrame s.pmm (pmmFreePage s.pmm p) p) := by
  have hi := run_exclusive hc hr
  have hc' : s.pmm.framesCount ≤ 1048576 := by rw [hi.count]; exact hc
  refine ⟨hi.once, ?_, ?_, ?_⟩
  · intro p hp
    obtain ⟨h0, f, -, hpf, -⟩ := hi.held p hp
    exact ⟨h0, f, hpf⟩
  · intro s' p hal
    rcases pmmAllocPage_cases hc' with ⟨hnone, hfull⟩ | ⟨f, hlt, hsome, hclear, -⟩
    · rw [hnone] at hal
      cases hal
      refine ⟨fun h0 => absurd rfl h0, .inl ⟨rfl, rfl, ?_⟩⟩
      ext g
      rw [mem_takenFrames, Finset.mem_range, hi.count]
      exact ⟨fun h => h.1, fun h => ⟨h, hfull g (by rwa [hi.count])⟩⟩
    · rw [hsome] at hal
      cases hal
      refine ⟨?_, .inr ⟨f, hlt, ?_, takenFrames_frameSet hlt, rfl, frameSet_only s.pmm f⟩⟩
      · intro _
        rw [frameNumber_page]
        exact frameTest_eq_zero.mpr hclear
      · intro hmem
        rw [mem_takenFrames, hclear] at hmem
        exact Bool.false_ne_true hmem.2
  · intro p hp
    obtain ⟨-, f, hlt, hpf, hm⟩ := hi.held p hp
    have hf : frameNumber p = f := by rw [hpf, frameNumber_page]
    refine ⟨?_, takenFrames_frameClear s.pmm _, frameClear_only s.pmm _⟩
    rw [mem_takenFrames, hf, hi.count]
    exact ⟨hlt, hm⟩

/-- An empty bitmap of 64 frames. -/
def blank64 : Frames := ⟨⟨fun _ => 0⟩, 0x200014, 64⟩

def threeThenOneBack : List Ev := [.alloc, .alloc, .alloc, .free 0x1000, .alloc]

theorem two_pages_out : ∃ s, Run false blank64 s ∧ s.out = [0x1000, 0x2000] ∧ s.out.Nodup :=
  ⟨_, exec_start threeThenOneBack (by decide +kernel), by decide +kernel,
    (pages_never_handed_out_twice (by decide) (exec_start threeThenOneBack (by decide +kernel))).1⟩

end NativeOS.Mem.Pmm
