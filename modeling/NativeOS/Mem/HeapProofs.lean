/-
  NativeOS.Mem.HeapProofs — what holds in every run of the heap (see `NativeOS.Mem.Heap`).

  Every call of the allocator is a step of the block lists (`sim`), for whatever bytes
  the clients wrote, so:
  - `heap_tiled`: the chain from `heap_root` always tiles the heap, and live buffers lie
    inside it, apart from each other and from every control block. A stale prev link
    never damages the chain.
  - `back_links_iff`: the prev links are right in every state of a run exactly when no
    allocation of the run cuts a block that has a successor (`splitsInside`).
  - `complete_coalescing`, `calls_keep_live_data`: in runs without such cuts no two free
    blocks are neighbours, freeing everything restores the initial heap, and no call
    changes a byte of a live buffer.
  A cut inside the chain leaves a stale prev link (`a_recycled_split_breaks_a_back_link`),
  which loses a merge (`a_stale_link_loses_a_merge`) and lets a later free write into a
  live buffer (`a_free_writes_into_a_live_buffer`).
-/

import NativeOS.Mem.HeapChain

namespace NativeOS.Mem.Heap

open NativeOS.Lib

/-! ## The invariant -/

/-- `bs` has a used block of size `y` at `x`. -/
def Holds (bs : List Blk) (x y : Nat) : Prop := ∃ c ∈ bs, c.used = true ∧ c.addr = x ∧ c.size = y

/-- The memory represents `bs`, and the used blocks are those of the live buffers. -/
structure Inv (L : Layout) (s : St) (bs : List Blk) : Prop where
  rep : Rep L s.mem bs
  root : s.root = L.bottom
  live : ∀ v ∈ s.live, ∃ x y, Holds bs x y ∧ v.ptr = x + 20 ∧ v.len ≤ y
  used : ∀ x y, Holds bs x y → ∃ v ∈ s.live, v.ptr = x + 20
  nodup : (s.live.map Buf.ptr).Nodup

@[simp] theorem holds_nil {x y : Nat} : ¬ Holds [] x y := fun ⟨_, h, _⟩ => by cases h

@[simp] theorem holds_cons {b : Blk} {bs : List Blk} {x y : Nat} :
    Holds (b :: bs) x y ↔ b.used = true ∧ b.addr = x ∧ b.size = y ∨ Holds bs x y := by
  simp [Holds]

@[simp] theorem holds_append {xs ys : List Blk} {x y : Nat} : Holds (xs ++ ys) x y ↔ Holds xs x y ∨ Holds ys x y := by
  simp [Holds, or_and_right, exists_or]

@[simp] theorem holds_relink {p : Nat} {bs : List Blk} {x y : Nat} : Holds (relink p bs) x y ↔ Holds bs x y := by
  cases bs <;> simp [relink]

/-- Freeing a block takes it, and no other used block, out of the list. -/
theorem holds_mergeNext {b : Blk} {post : List Blk} {x y : Nat} :
    Holds (mergeNext (b.mark false) post).2 x y ↔ Holds post x y := by
  cases post with
  | nil => simp [mergeNext]
  | cons c rest =>
    simp only [mergeNext]
    split
    · rename_i hj
      have hc : c.used = false := by simp only [joinsNext, Bool.and_eq_true, Bool.not_eq_true'] at hj; exact hj.1
      simp [hc]
    · rfl

theorem Holds.apart {L : Layout} {m : Mem} {bs : List Blk} (h : Rep L m bs) {x y : Nat} (hx : Holds bs x y) {c : Blk}
    (hc : c ∈ bs) : c.used = true ∧ c.addr = x ∧ c.size = y ∨ x + 20 + y ≤ c.addr ∨ c.addr + 20 + c.size ≤ x := by
  obtain ⟨d, hd, hu, rfl, rfl⟩ := hx
  rcases tiles_apart h.tiles hd hc with rfl | h1 | h1
  · exact .inl ⟨hu, rfl, rfl⟩
  · exact .inr (.inl h1)
  · exact .inr (.inr h1)

/-- A call of the allocator, not a client's write. -/
def Ev.isCall : Ev → Bool
  | .write _ _ _ => false
  | _ => true

/-- The call keeps the data of every used block but the one it frees. -/
def Kept (bs : List Blk) (e : Ev) (m m' : Mem) : Prop :=
  ∀ x y, Holds bs x y → e ≠ .free (x + 20) → Same m m' (x + 20) (x + 20 + y)

/-! ## Allocating -/

section Alloc

variable {L : Layout} {s : St} {pre post new bs : List Blk} {b : Blk}

theorem Inv.not_live (hi : Inv L s (pre ++ b :: post)) (hu : b.used = false) : b.addr + 20 ∉ s.live.map Buf.ptr := by
  intro hm
  obtain ⟨v, hv, e⟩ := List.mem_map.mp hm
  obtain ⟨x, y, hx, hp, -⟩ := hi.live v hv
  rcases hx.apart hi.rep (c := b) (by simp) with ⟨h, -⟩ | h | h
  · rw [hu] at h; cases h
  · omega
  · omega

/-- The new block's owner joins the live buffers. -/
theorem Inv.alloc (hi : Inv L s (pre ++ b :: post)) (hu : b.used = false) {m' : Mem} {size z : Nat}
    (hr : Rep L m' (pre ++ (new ++ post))) (hnew : ∀ x y, Holds new x y ↔ x = b.addr ∧ y = z) (hz : size ≤ z) :
    Inv L { s with mem := m', live := ⟨b.addr + 20, size⟩ :: s.live } (pre ++ (new ++ post)) := by
  have old : ∀ x y, Holds (pre ++ b :: post) x y → Holds (pre ++ (new ++ post)) x y := by
    intro x y h
    simp only [holds_append, holds_cons, hu, Bool.false_eq_true, false_and, false_or] at h ⊢
    exact h.imp_right .inr
  refine ⟨hr, hi.root, ?_, ?_, List.nodup_cons.mpr ⟨hi.not_live hu, hi.nodup⟩⟩
  · intro v hv
    rcases List.mem_cons.mp hv with rfl | hv
    · exact ⟨b.addr, z, by simp [hnew], rfl, hz⟩
    · obtain ⟨x, y, hx, h1, h2⟩ := hi.live v hv
      exact ⟨x, y, old x y hx, h1, h2⟩
  · intro x y h
    simp only [holds_append, hnew] at h
    rcases h with h | ⟨rfl, -⟩ | h
    · obtain ⟨v, hv, e⟩ := hi.used x y (by simp [h])
      exact ⟨v, List.mem_cons_of_mem _ hv, e⟩
    · exact ⟨_, List.mem_cons_self, rfl⟩
    · obtain ⟨v, hv, e⟩ := hi.used x y (by simp [h])
      exact ⟨v, List.mem_cons_of_mem _ hv, e⟩

/-- A change inside a free block keeps every used block's data. -/
theorem Inv.only_kept (hi : Inv L s (pre ++ b :: post)) (hu : b.used = false) {m' : Mem} {e : Ev}
    (ho : Only s.mem m' b.addr (b.addr + 20 + b.size)) : Kept (pre ++ b :: post) e s.mem m' := by
  intro x y hx _
  rcases hx.apart hi.rep (c := b) (by simp) with ⟨h, -⟩ | h | h
  · rw [hu] at h; cases h
  · exact ho.same (by omega)
  · exact ho.same (by omega)

theorem sim_alloc (hi : Inv L s bs) (size : Nat) : ∃ s' bs', step s (.alloc size) = some s' ∧
    BStep bs (.alloc size) bs' ∧ Inv L s' bs' ∧ Kept bs (.alloc size) s.mem s'.mem := by
  have hfind := heapAlloc_find hi.rep size
  rw [← hi.root] at hfind
  cases hf : bs.find? (Blk.fits size) with
  | none =>
    simp only [hf] at hfind
    refine ⟨s, bs, by simp [step, hfind], .full ?_, hi, fun x y _ _ => Same.refl _ _ _⟩
    intro c hc
    simpa using List.find?_eq_none.mp hf c hc
  | some b =>
    simp only [hf] at hfind
    obtain ⟨hfit, pre, post, rfl, hpre⟩ := List.find?_eq_some_iff_append.mp hf
    have hfits : b.used = false ∧ size ≤ b.size := by simpa [Blk.fits] using hfit
    have hpre' : ∀ c ∈ pre, c.fits size = false := fun c hc => by simpa using hpre c hc
    by_cases hs : b.size ≤ size + 21
    · rw [takeBlock_whole hi.rep hfits.2 hs] at hfind
      have hr : Rep L _ (pre ++ ([b.mark true] ++ post)) := hi.rep.mark true
      have hinv := hi.alloc hfits.1 hr (by simp [Blk.mark, eq_comm]) hfits.2
      refine ⟨_, _, by simp [step, hfind], .whole hpre' hfit hs, hinv, ?_⟩
      exact hi.only_kept hfits.1 (Only.st32 _ _ (by omega) (by omega))
    · have hs' : size + 21 < b.size := by omega
      rw [takeBlock_split hi.rep hs'] at hfind
      have hr : Rep L _ (pre ++ ([b.low size, b.high size] ++ post)) := hi.rep.split hs'
      have hinv := hi.alloc hfits.1 hr (by simp [Blk.low, Blk.high, eq_comm]) (Nat.le_refl size)
      refine ⟨_, _, by simp [step, hfind], .split hpre' hfit hs', hinv, ?_⟩
      exact hi.only_kept hfits.1 (splitMem_only _ hs')

end Alloc

/-! ## Freeing and writing -/

section Free

variable {L : Layout} {s : St} {pre post bs bs' : List Blk} {b : Blk}

/-- The freed block's owner leaves the live buffers. -/
theorem Inv.free (hi : Inv L s (pre ++ b :: post)) {m' : Mem} (hr : Rep L m' bs')
    (hh : ∀ x y, Holds bs' x y ↔ Holds (pre ++ post) x y) :
    Inv L { s with mem := m', live := s.live.filter (·.ptr != b.addr + 20) } bs' := by
  refine ⟨hr, hi.root, ?_, ?_, ?_⟩
  · intro v hv
    obtain ⟨hv, hne⟩ := List.mem_filter.mp hv
    obtain ⟨x, y, hx, h1, h2⟩ := hi.live v hv
    have hxb : x ≠ b.addr := fun e => by simp [h1, e] at hne
    refine ⟨x, y, (hh x y).mpr ?_, h1, h2⟩
    simp only [holds_append, holds_cons] at hx ⊢
    rcases hx with hx | ⟨-, h, -⟩ | hx
    · exact .inl hx
    · exact absurd h.symm hxb
    · exact .inr hx
  · intro x y hx
    rw [hh] at hx
    have hxb : x ≠ b.addr := by
      obtain ⟨c, hc, -, rfl, -⟩ := hx
      rcases List.mem_append.mp hc with hc | hc
      · have := tiles_before hi.rep.tiles hc; omega
      · have := tiles_after hi.rep.tiles hc; omega
    obtain ⟨v, hv, e⟩ := hi.used x y (by simp only [holds_append, holds_cons] at hx ⊢; tauto)
    exact ⟨v, List.mem_filter.mpr ⟨hv, by simp [e, hxb]⟩, e⟩
  · exact hi.nodup.sublist (List.filter_sublist.map _)

/-- A change of control blocks only keeps every used block's data. -/
theorem Inv.hdrOnly_kept (hi : Inv L s bs) {m' : Mem} {e : Ev} (ho : HdrOnly bs s.mem m') : Kept bs e s.mem m' := by
  intro x y hx _ z h1 h2
  refine ho z ?_
  intro c hc
  rcases hx.apart hi.rep hc with ⟨-, h, -⟩ | h | h <;> omega

theorem sim_free (hi : Inv L s bs) {ptr : Nat} (ha : Allowed s (.free ptr)) : ∃ s' bs', step s (.free ptr) = some s' ∧
    BStep bs (.free ptr) bs' ∧ Inv L s' bs' ∧ (Linked 0 bs → Kept bs (.free ptr) s.mem s'.mem) := by
  obtain ⟨v, hv, rfl⟩ := ha
  obtain ⟨x, y, ⟨b, hb, hu, rfl, rfl⟩, hp, -⟩ := hi.live v hv
  rw [hp]
  obtain ⟨pre, post, rfl⟩ := List.append_of_mem hb
  obtain ⟨m2, ho, hr2, hout⟩ := heapFree_out hi.rep hu
  obtain ⟨ea, ep, eu⟩ := mergeNext_blk (b.mark false) post
  have hh : ∀ x y, Holds ((mergeNext (b.mark false) post).1 :: (mergeNext (b.mark false) post).2) x y ↔
      Holds post x y := by
    intro x y
    have eu' : (mergeNext (b.mark false) post).1.used = false := eu
    simp [eu', holds_mergeNext]
  cases hout with
  | joined pre' a hpre hau ha hr hm =>
    subst hpre
    have hinv := hi.free hr fun x y => by
      simp only [holds_append, holds_cons, holds_relink, holds_mergeNext, Blk.absorb, hau, Bool.false_eq_true, false_and,
        false_or, holds_nil, or_false]
    refine ⟨_, _, rfl, ?_, hinv, ?_⟩
    · rw [List.append_assoc]
      exact .joined hu hau (ha.trans ep)
    · intro _
      exact hi.hdrOnly_kept (ho.trans hm (mergeNext_sub b false _ post))
  | kept hk hm =>
    have hinv := hi.free (hm ▸ hr2) fun x y => by simp only [holds_append, hh]
    refine ⟨_, _, rfl, .kept hu fun pre' a h1 h2 => hk pre' a h1 (h2.trans ep.symm), hinv, ?_⟩
    intro _
    exact hi.hdrOnly_kept (hm ▸ ho)
  | ghost c hc h1 h2 hr =>
    rw [ep] at h1 h2 hr
    have hinv := hi.free hr fun x y => by
      have := hh x y
      simp only [holds_append, holds_cons, holds_relink] at this ⊢
      rw [this]
    have hne : ∀ d ∈ pre, d.addr ≠ (b.mark false).prev := by
      intro d hd e
      rcases tiles_apart hr2.tiles hc (c := d) (by simp [hd]) with rfl | h | h <;> omega
    refine ⟨_, _, rfl, .ghost hu ?_ hne, hinv, ?_⟩
    · intro h0
      have : (b.mark false).prev = 0 := h0
      omega
    · intro hl
      rcases hl.prev with ⟨-, h'⟩ | ⟨pre', a, rfl, h'⟩
      · have : (b.mark false).prev = 0 := h'
        omega
      · exact absurd h'.symm (hne a (by simp))

theorem sim_write (hi : Inv L s bs) {ptr off : Nat} {v : UInt8} (ha : Allowed s (.write ptr off v)) :
    ∃ s' bs', step s (.write ptr off v) = some s' ∧ BStep bs (.write ptr off v) bs' ∧ Inv L s' bs' := by
  obtain ⟨w, hw, rfl, hoff⟩ := ha
  obtain ⟨x, y, ⟨b, hb, hu, rfl, rfl⟩, hp, hlen⟩ := hi.live w hw
  refine ⟨_, bs, rfl, .write, ?_, hi.root, hi.live, hi.used, hi.nodup⟩
  refine hi.rep.data (w.ptr + off) (w.ptr + off + 1) hb (by omega) (by omega) ?_
  intro z hz
  exact st8_ne _ _ (by omega)

end Free

/-! ## Every run -/

theorem boot_inv (L : Layout) (m : Mem) : Inv L (boot L m) [⟨L.bottom, 0x100000 - 20, 0, false⟩] := by
  have hL := L.bound
  have e1 : sub32 L.top L.bottom = 0x100000 := by unfold sub32; omega
  have e2 : sub32 0x100000 20 = 0x100000 - 20 := by decide
  refine ⟨⟨⟨rfl, by simp only [Tiles]; omega⟩, ⟨?_, trivial⟩, ?_⟩, rfl, ?_, ?_, List.nodup_nil⟩
  · constructor <;>
      simp (disch := first | omega | decide) only [boot, heapInit, hdr, e1, e2, hMagic, hStatus, hNext, hPrev, hSize,
        setStatus, setMagic, setSize, setPrev, setNext, ld32_st32_ne, ld32_st32_same, Blk.status, if_false, first,
        Bool.false_eq_true]
  · intro b hb
    rw [List.mem_singleton.mp hb]
    exact .inl rfl
  · intro v hv; cases hv
  · intro x y hx; simp at hx

/-- The memory-level allocator refines the block lists, and never gets stuck. -/
theorem sim {L : Layout} {s : St} {bs : List Blk} {e : Ev} (hi : Inv L s bs) (ha : Allowed s e) :
    ∃ s' bs', step s e = some s' ∧ BStep bs e bs' ∧ Inv L s' bs' ∧
      (e.isCall = true → Linked 0 bs → Kept bs e s.mem s'.mem) := by
  cases e with
  | alloc size =>
    obtain ⟨s', bs', h1, h2, h3, h4⟩ := sim_alloc hi size
    exact ⟨s', bs', h1, h2, h3, fun _ _ => h4⟩
  | free ptr =>
    obtain ⟨s', bs', h1, h2, h3, h4⟩ := sim_free hi ha
    exact ⟨s', bs', h1, h2, h3, fun _ => h4⟩
  | write ptr off v =>
    obtain ⟨s', bs', h1, h2, h3⟩ := sim_write hi ha
    exact ⟨s', bs', h1, h2, h3, fun h => by cases h⟩

theorem run_inv {L : Layout} {h : List (St × Ev)} {s : St} (hr : Run L h s) : ∃ bs, Inv L s bs := by
  induction hr with
  | boot m => exact ⟨_, boot_inv L m⟩
  | step _ ha hs ih =>
    obtain ⟨bs, hi⟩ := ih
    obtain ⟨s', bs', h1, -, h3, -⟩ := sim hi ha
    rw [hs] at h1
    cases h1
    exact ⟨bs', h3⟩

/-! ## Reading the block list off the memory -/

theorem Walk.unique {m : Mem} {b : Nat} {l l' : List Nat} (h : Walk m b l) (h' : Walk m b l') : l = l' := by
  induction h generalizing l' with
  | done => cases h' with
    | done => rfl
    | step h0 _ => exact absurd rfl h0
  | step h0 _ ih => cases h' with
    | done => exact absurd rfl h0
    | step _ hw => rw [ih hw]

theorem Walk.mem {m : Mem} {b : Nat} {l : List Nat} (h : Walk m b l) (h0 : b ≠ 0) : b ∈ l := by
  cases h with
  | done => exact absurd rfl h0
  | step _ _ => exact List.mem_cons_self

theorem Walk.next_mem {m : Mem} {r b c : Nat} {l : List Nat} (h : Walk m r l) (hb : b ∈ l) (hn : hNext m b = c)
    (h0 : c ≠ 0) : c ∈ l := by
  induction h with
  | done => cases hb
  | step _ hw ih =>
    rcases List.mem_cons.mp hb with rfl | hb
    · exact List.mem_cons_of_mem _ ((hn ▸ hw).mem h0)
    · exact List.mem_cons_of_mem _ (ih hb)

theorem walk_chain {m : Mem} : ∀ {bs : List Blk}, Chain m 0 bs → (∀ b ∈ bs, b.addr ≠ 0) →
    Walk m (first 0 bs) (bs.map Blk.addr)
  | [], _, _ => .done
  | b :: bs, hc, hne => by
    refine .step (hne b List.mem_cons_self) ?_
    show Walk m (hNext m b.addr) _
    rw [hc.1.next]
    exact walk_chain hc.2 fun c hm => hne c (List.mem_cons_of_mem _ hm)

/-- Linked lists, read off the memory. -/
theorem linked_iff {m : Mem} : ∀ {bs : List Blk} {p : Nat}, Chain m 0 bs → (∀ b ∈ bs, b.addr ≠ 0) →
    (Linked p bs ↔ (∀ b rest, bs = b :: rest → hPrev m b.addr = p) ∧
      ∀ b ∈ bs, hNext m b.addr ≠ 0 → hPrev m (hNext m b.addr) = b.addr) := by
  intro bs
  induction bs with
  | nil => intro p _ _; simp [Linked]
  | cons b bs ih =>
    intro p hc hne
    have hih := ih (p := b.addr) hc.2 fun c hm => hne c (List.mem_cons_of_mem _ hm)
    simp only [Linked, hih, List.mem_cons, forall_eq_or_imp, List.cons.injEq, and_imp, hc.1.next]
    constructor
    · rintro ⟨h1, h2, h3⟩
      refine ⟨fun c rest e _ => by subst e; rw [hc.1.prev, h1], ?_, h3⟩
      intro h0
      cases bs with
      | nil => exact absurd rfl h0
      | cons c bs => exact h2 c bs rfl
    · rintro ⟨h1, h2, h3⟩
      refine ⟨by rw [← hc.1.prev]; exact h1 b bs rfl rfl, ?_, h3⟩
      intro c rest e
      subst e
      exact h2 (hne c (by simp))

section View

variable {L : Layout} {m : Mem} {s : St} {bs : List Blk}

theorem Rep.addr_ne (h : Rep L m bs) : ∀ b ∈ bs, b.addr ≠ 0 := by
  intro b hb
  have hlo := (h.bounds hb).1
  have hbottom := L.bound
  omega

theorem Rep.first (h : Rep L m bs) : first 0 bs = L.bottom := by
  obtain ⟨b, rest, rfl, hb⟩ := h.root
  exact hb

theorem Rep.walk (h : Rep L m bs) : Walk m L.bottom (bs.map Blk.addr) := by
  rw [← h.first]
  exact walk_chain h.chain h.addr_ne

theorem Inv.addr_ne (hi : Inv L s bs) : ∀ b ∈ bs, b.addr ≠ 0 := hi.rep.addr_ne

theorem Inv.first (hi : Inv L s bs) : first 0 bs = s.root := hi.rep.first.trans hi.root.symm

theorem Inv.walk (hi : Inv L s bs) : Walk s.mem s.root (bs.map Blk.addr) := by
  rw [hi.root]
  exact hi.rep.walk

/-- A property of every visited block and its next link, as one of the list. -/
theorem Inv.forall_walk (hi : Inv L s bs) {P : Nat → Prop} {l : List Nat} (hw : Walk s.mem s.root l) :
    (∀ b ∈ l, P b) ↔ ∀ b ∈ bs, P b.addr := by
  rw [hw.unique hi.walk]
  simp

theorem Inv.backLinked (hi : Inv L s bs) : BackLinked s ↔ Linked 0 bs := by
  rw [linked_iff hi.rep.chain hi.addr_ne]
  obtain ⟨r, rest, rfl, hr⟩ := hi.rep.root
  have hroot : s.root = r.addr := by rw [hi.root, hr]
  constructor
  · intro ⟨l, hw, h0, hl⟩
    rw [hi.forall_walk hw] at hl
    refine ⟨?_, hl⟩
    intro b rest' e
    cases e
    rw [← hroot]
    exact h0
  · intro ⟨h0, hl⟩
    refine ⟨_, hi.walk, by rw [hroot]; exact h0 r rest rfl, ?_⟩
    rw [hi.forall_walk hi.walk]
    exact hl

/-- Where the chain continues after a block of the list. -/
theorem Inv.next_cases (hi : Inv L s bs) {b : Blk} (hb : b ∈ bs) :
    hNext s.mem b.addr = 0 ∧ b.addr + 20 + b.size = L.top ∨
      ∃ pre c post, bs = pre ++ b :: c :: post ∧ hNext s.mem b.addr = c.addr ∧ b.addr + 20 + b.size = c.addr := by
  obtain ⟨pre, post, rfl⟩ := List.append_of_mem hb
  rw [hi.rep.chain.hdr.next]
  cases post with
  | nil => exact .inl ⟨rfl, (tiles_split.mp hi.rep.tiles).2⟩
  | cons c post => exact .inr ⟨pre, c, post, rfl, rfl, hi.rep.next_cons⟩

theorem Inv.tiled (hi : Inv L s bs) : Tiled L s (bs.map Blk.addr) := by
  have hne := hi.addr_ne
  have size : ∀ b ∈ bs, hSize s.mem b.addr = b.size := fun b hb => (hi.rep.chain.mem hb).choose_spec.size
  refine ⟨hi.root, hi.walk, ?_, ?_, ?_, ?_, ?_, ?_⟩
  · rw [hi.forall_walk hi.walk]
    exact fun b hb => (hi.rep.chain.mem hb).choose_spec.magic
  · rw [hi.forall_walk hi.walk]
    intro b hb h0
    rcases hi.next_cases hb with ⟨h, -⟩ | ⟨_, c, _, _, h1, h2⟩
    · exact absurd h h0
    · rw [size b hb, h1, h2]
  · rw [hi.forall_walk hi.walk]
    intro b hb h0
    rcases hi.next_cases hb with ⟨-, h⟩ | ⟨pre, c, post, e, h1, -⟩
    · rw [size b hb, h]
    · exact absurd (h1.symm.trans h0) (hne c (by simp [e]))
  · intro v hv
    obtain ⟨x, y, ⟨b, hb, -, rfl, rfl⟩, hp, hl⟩ := hi.live v hv
    have := hi.rep.bounds hb
    omega
  · intro v hv
    rw [hi.forall_walk hi.walk]
    intro b hb
    show v.ptr + v.len ≤ b.addr ∨ b.addr + 20 ≤ v.ptr
    obtain ⟨x, y, hx, hp, hl⟩ := hi.live v hv
    rcases hx.apart hi.rep hb with ⟨-, h, -⟩ | h | h <;> omega
  · refine (List.pairwise_map.mp hi.nodup).imp_of_mem fun {v w} hv hw hne => ?_
    obtain ⟨x, y, hx, hp, hl⟩ := hi.live v hv
    obtain ⟨x', y', ⟨b, hb, -, rfl, rfl⟩, hp', hl'⟩ := hi.live w hw
    rcases hx.apart hi.rep hb with ⟨-, h, -⟩ | h | h <;> omega

theorem Inv.noAdjacentFree (hi : Inv L s bs) (hc : Coalesced bs) : NoAdjacentFree s := by
  refine ⟨_, hi.walk, ?_⟩
  rw [hi.forall_walk hi.walk]
  intro b hb h0 ⟨h1, h2⟩
  rcases hi.next_cases hb with ⟨h, -⟩ | ⟨pre, c, post, rfl, h, -⟩
  · exact h0 h
  rw [h] at h2
  have free : ∀ d ∈ pre ++ b :: c :: post, hStatus s.mem d.addr = heapMagicFree → d.used = false := by
    intro d hd hs
    rw [(hi.rep.chain.mem hd).choose_spec.status] at hs
    cases hu : d.used with
    | false => rfl
    | true => simp [Blk.status, hu, heapMagicUsed, heapMagicFree] at hs
  have := (coalesced_cons.mp (coalesced_append.mp hc).2.1).1 c rfl
  rcases this with hu | hu
  · rw [free b (by simp) h1] at hu; cases hu
  · rw [free c (by simp) h2] at hu; cases hu

/-- With nothing live, a coalesced heap is one free block. -/
theorem Inv.pristine (hi : Inv L s bs) (hl : Linked 0 bs) (hc : Coalesced bs) (h0 : s.live = []) : Pristine L s := by
  have free : ∀ b ∈ bs, b.used = false := by
    intro b hb
    cases hu : b.used with
    | false => rfl
    | true =>
      obtain ⟨v, hv, -⟩ := hi.used b.addr b.size ⟨b, hb, hu, rfl, rfl⟩
      rw [h0] at hv
      cases hv
  have hw := hi.walk
  obtain ⟨b, rest, rfl, hb⟩ := hi.rep.root
  cases rest with
  | cons c rest =>
    rcases (coalesced_cons.mp hc).1 c rfl with hu | hu
    · rw [free b (by simp)] at hu; cases hu
    · rw [free c (by simp)] at hu; cases hu
  | nil =>
    have hd : Hdr s.mem b 0 := hi.rep.chain.1
    have ht : L.bottom + 20 + b.size = L.top := hi.rep.tiles.2
    have hstatus : b.status = heapMagicFree := by rw [Blk.status, free b (by simp)]; rfl
    unfold Pristine
    rw [← hb]
    have hsize : b.size = L.top - b.addr - 20 := by omega
    exact ⟨hw, hd.magic, hd.status.trans hstatus, hd.prev.trans hl.1, hd.size.trans hsize⟩

theorem firstFit_find {m : Mem} (size : Nat) : ∀ (bs : List Blk) {fuel : Nat}, Chain m 0 bs →
    (∀ b ∈ bs, b.addr ≠ 0) → bs.length < fuel →
    firstFit m size fuel (Heap.first 0 bs) = (bs.find? (Blk.fits size)).map Blk.addr
  | [], 0, _, _, hf => by simp at hf
  | [], fuel + 1, _, _, _ => by simp [firstFit, Heap.first]
  | b :: bs, 0, _, _, hf => by simp at hf
  | b :: bs, fuel + 1, hc, hne, hf => by
    have h0 : b.addr ≠ 0 := hne b List.mem_cons_self
    have hrec := firstFit_find size bs hc.2 (fun c hm => hne c (List.mem_cons_of_mem _ hm))
      (Nat.lt_of_succ_lt_succ hf)
    show firstFit m size (fuel + 1) b.addr = _
    simp only [firstFit, h0, hc.1.magic, ne_eq, not_true, or_self, if_false, hc.1.status, hc.1.size, hc.1.next, hrec,
      List.find?_cons, Blk.fits]
    cases hu : b.used with
    | true => simp [Blk.status, hu, heapMagicUsed, heapMagicFree]
    | false =>
      by_cases hs : b.size < size
      · have : ¬ size ≤ b.size := by omega
        simp [hs, this]
      · have : size ≤ b.size := by omega
        simp [Blk.status, hu, hs, this]

theorem Inv.firstFit (hi : Inv L s bs) (size : Nat) :
    firstFit s.mem size walkFuel s.root = (bs.find? (Blk.fits size)).map Blk.addr := by
  have hlen := tiles_length hi.rep.tiles
  have hL := L.bound
  rw [← hi.first]
  exact firstFit_find size bs hi.rep.chain hi.addr_ne (by unfold walkFuel heapSize; omega)

/-- The cut the code makes is one of the list. -/
theorem Inv.splitsInside (hi : Inv L s bs) (e : Ev) : splitsInside s e = true ↔ InnerSplit bs e := by
  cases e with
  | free p => simp [Heap.splitsInside, InnerSplit]
  | write p off v => simp [Heap.splitsInside, InnerSplit]
  | alloc size =>
    simp only [Heap.splitsInside, hi.firstFit]
    cases hf : bs.find? (Blk.fits size) with
    | none =>
      simp only [Option.map_none, Bool.false_eq_true, false_iff]
      intro ⟨size', pre, b, post, e, hbs, _, hb, _⟩
      cases e
      subst hbs
      exact List.find?_eq_none.mp hf b (by simp) hb
    | some b =>
      obtain ⟨hfit, pre, post, rfl, hpre⟩ := List.find?_eq_some_iff_append.mp hf
      have hpre' : ∀ c ∈ pre, c.fits size = false := fun c hc => by simpa using hpre c hc
      have hd := hi.rep.chain.hdr
      simp only [Option.map_some, hd.next, hd.size, Bool.and_eq_true, bne_iff_ne, ne_eq, decide_eq_true_eq]
      constructor
      · intro ⟨hn, hs⟩
        refine ⟨size, pre, b, post, rfl, rfl, hpre', hfit, hs, ?_⟩
        intro hnil
        subst hnil
        exact hn rfl
      · intro ⟨size', pre', b', post', e, hbs, h1, h2, h3, h4⟩
        cases e
        obtain ⟨rfl, rfl, rfl⟩ := first_fit_unique hbs hpre' h1 hfit h2
        refine ⟨?_, h3⟩
        cases post with
        | nil => exact absurd rfl h4
        | cons c post => exact hi.addr_ne c (by simp)

end View

/-! ## Concrete runs -/

/-- Taking events one after another, with the history; `none` if one is not allowed. -/
def exec (h : List (St × Ev)) (s : St) : List Ev → Option (List (St × Ev) × St)
  | [] => some (h, s)
  | e :: es =>
    if Allowed s e then
      match step s e with
      | some s' => exec ((s, e) :: h) s' es
      | none => none
    else none

theorem exec_run {L : Layout} : ∀ {es : List Ev} {h : List (St × Ev)} {s : St} {r : List (St × Ev) × St},
    Run L h s → exec h s es = some r → Run L r.1 r.2
  | [], _, _, _, hr, e => by cases e; exact hr
  | ev :: es, h, s, r, hr, e => by
    simp only [exec] at e
    split at e
    · rename_i ha
      split at e
      · rename_i s' hs
        exact exec_run (hr.step ha hs) e
      · cases e
    · cases e

/-- A heap at 2 MiB. -/
def heap2M : Layout := ⟨0x200000, by decide, by decide⟩

def fromZero (es : List Ev) : Option (List (St × Ev) × St) := exec [] (boot heap2M ⟨fun _ => 0⟩) es

theorem fromZero_run (es : List Ev) (h : (fromZero es).isSome = true) :
    Run heap2M ((fromZero es).get h).1 ((fromZero es).get h).2 :=
  exec_run (.boot _) (Option.some_get h).symm

/-- Two buffers, the first one freed. -/
def twoBuffers : List Ev := [.alloc 100, .alloc 50, .free 0x200014]

/-- A recycled block with a successor is cut in two. -/
def recycledSplit : List Ev := [.alloc 100, .alloc 1, .free 0x200014, .alloc 10]

/-- Then everything is freed, the second buffer first. -/
def recycledFreed : List Ev := recycledSplit ++ [.free 0x20008C, .free 0x200014]

/-- The stale link of the third buffer points into the last one, whose owner writes two
    bytes there that make the old control block look like the one before the third. -/
def staleHeader : List Ev :=
  [.alloc 20, .alloc 60, .alloc 1, .free 0x20003C, .alloc 10, .alloc 30, .free 0x20003C, .free 0x200014, .alloc 50,
    .write 0x200014 28 0x78, .write 0x200014 36 60]

/-! ## Every run -/

/-- In every run, whatever the clients write, the chain from `heap_root` ends, its blocks
    tile the heap, the live buffers lie inside it, apart from each other and from every
    control block; and every allowed call returns. -/
theorem heap_tiled {L : Layout} {h : List (St × Ev)} {s : St} (hr : Run L h s) :
    (∃ l, Tiled L s l) ∧ ∀ e, Allowed s e → ∃ s', step s e = some s' := by
  obtain ⟨bs, hi⟩ := run_inv hr
  refine ⟨⟨_, hi.tiled⟩, ?_⟩
  intro e ha
  obtain ⟨s', -, h1, -⟩ := sim hi ha
  exact ⟨s', h1⟩

theorem two_buffers_tiled : ∃ h s, Run heap2M h s ∧ s.live.length = 1 ∧ h.length = 3 ∧ ∃ l, Tiled heap2M s l :=
  ⟨_, _, fromZero_run twoBuffers (by decide +kernel), by decide +kernel, by decide +kernel,
    (heap_tiled (fromZero_run twoBuffers (by decide +kernel))).1⟩

/-- A run without inner cuts keeps the list linked and coalesced. -/
theorem run_linked {L : Layout} {h : List (St × Ev)} {s : St} (hr : Run L h s)
    (hc : ∀ x ∈ h, splitsInside x.1 x.2 = false) : ∃ bs, Inv L s bs ∧ Linked 0 bs ∧ Coalesced bs := by
  induction hr with
  | boot m => exact ⟨_, boot_inv L m, ⟨rfl, trivial⟩, List.isChain_singleton _⟩
  | @step h s s' e _ ha hs ih =>
    obtain ⟨bs, hi, hl, hco⟩ := ih fun x hx => hc x (List.mem_cons_of_mem _ hx)
    obtain ⟨s'', bs', h1, h2, h3, -⟩ := sim hi ha
    rw [hs] at h1
    cases h1
    have hn : ¬ InnerSplit bs e := by
      rw [← hi.splitsInside, hc (s, e) List.mem_cons_self]
      exact Bool.false_ne_true
    exact ⟨bs', h3, h2.linked hl hn, h2.coalesced hl hn hco⟩

/-- The prev links agree with the next links in every state of a run exactly when no
    allocation of the run cuts a block that has a successor. -/
theorem back_links_iff {L : Layout} {h : List (St × Ev)} {s : St} (hr : Run L h s) :
    (BackLinked s ∧ ∀ x ∈ h, BackLinked x.1) ↔ ∀ x ∈ h, splitsInside x.1 x.2 = false := by
  constructor
  · intro ⟨hs, hh⟩
    induction hr with
    | boot m => intro x hx; cases hx
    | @step h s s' e hr ha hst ih =>
      obtain ⟨hb, hh⟩ := List.forall_mem_cons.mp hh
      refine List.forall_mem_cons.mpr ⟨?_, ih hb hh⟩
      obtain ⟨bs, hi⟩ := run_inv hr
      obtain ⟨s'', bs', h1, h2, h3, -⟩ := sim hi ha
      rw [hst] at h1
      cases h1
      -- an inner cut would leave a wrong link right away
      by_contra hsplit
      exact h2.not_linked (hi.backLinked.mp hb) ((hi.splitsInside e).mp (by simpa using hsplit)) (h3.backLinked.mp hs)
  · intro hc
    induction hr with
    | boot m => exact ⟨(boot_inv L m).backLinked.mpr ⟨rfl, trivial⟩, fun x hx => by cases hx⟩
    | @step h s s' e hr ha hst ih =>
      obtain ⟨hb, hh⟩ := ih fun x hx => hc x (List.mem_cons_of_mem _ hx)
      obtain ⟨bs, hi, hl, -⟩ := run_linked (hr.step ha hst) hc
      exact ⟨hi.backLinked.mpr hl, List.forall_mem_cons.mpr ⟨hb, hh⟩⟩

theorem two_buffers_back_linked : ∃ h s, Run heap2M h s ∧ h.length = 3 ∧ BackLinked s :=
  ⟨_, _, fromZero_run twoBuffers (by decide +kernel), by decide +kernel,
    ((back_links_iff (fromZero_run twoBuffers (by decide +kernel))).mpr (by decide +kernel)).1⟩

/-- Cutting a recycled block leaves its old successor linked back past the new block. -/
theorem a_recycled_split_breaks_a_back_link : ¬ ∀ L h s, Run L h s → BackLinked s := by
  intro hall
  obtain ⟨l, hw, -, hl⟩ := hall _ _ _ (fromZero_run recycledSplit (by decide +kernel))
  have hm : 0x20001E ∈ l := by
    refine hw.next_mem (b := 0x200000) (hw.mem (by decide +kernel)) ?_ (by decide)
    decide +kernel
  have := hl 0x20001E hm (by decide +kernel)
  revert this
  decide +kernel

/-- Without such cuts no two free blocks are neighbours, and once everything is freed the
    heap is again the block `heap_init` made. -/
theorem complete_coalescing {L : Layout} {h : List (St × Ev)} {s : St} (hr : Run L h s)
    (hc : ∀ x ∈ h, splitsInside x.1 x.2 = false) : NoAdjacentFree s ∧ (s.live = [] → Pristine L s) := by
  obtain ⟨bs, hi, hl, hco⟩ := run_linked hr hc
  exact ⟨hi.noAdjacentFree hco, hi.pristine hl hco⟩

theorem two_buffers_coalesced : ∃ h s, Run heap2M h s ∧ h.length = 3 ∧ NoAdjacentFree s :=
  ⟨_, _, fromZero_run twoBuffers (by decide +kernel), by decide +kernel,
    (complete_coalescing (fromZero_run twoBuffers (by decide +kernel)) (by decide +kernel)).1⟩

/-- The stale link loses a merge: with everything freed two free blocks remain. -/
theorem a_stale_link_loses_a_merge :
    ∃ h s, Run heap2M h s ∧ s.live = [] ∧ ¬ NoAdjacentFree s ∧ ¬ Pristine heap2M s := by
  refine ⟨_, _, fromZero_run recycledFreed (by decide +kernel), by decide +kernel, ?_, ?_⟩
  · intro ⟨l, hw, hl⟩
    exact hl 0x200000 (hw.mem (by decide +kernel)) (by decide +kernel) ⟨by decide +kernel, by decide +kernel⟩
  · intro ⟨_, _, _, _, hsize⟩
    revert hsize
    decide +kernel

/-- After a run without such cuts, a call keeps every byte of every live buffer but the
    one it frees. -/
theorem calls_keep_live_data {L : Layout} {h : List (St × Ev)} {s s' : St} {e : Ev} (hr : Run L h s)
    (hc : ∀ x ∈ h, splitsInside x.1 x.2 = false) (ha : Allowed s e) (hcall : e.isCall = true)
    (hs : step s e = some s') : ∀ v ∈ s.live, e ≠ .free v.ptr → Same s.mem s'.mem v.ptr (v.ptr + v.len) := by
  obtain ⟨bs, hi, hl, -⟩ := run_linked hr hc
  obtain ⟨s'', bs', h1, -, -, h4⟩ := sim hi ha
  rw [hs] at h1
  cases h1
  intro v hv hne
  obtain ⟨x, y, hx, hp, hlen⟩ := hi.live v hv
  rw [hp] at hne ⊢
  exact (h4 hcall hl x y hx hne).mono (Nat.le_refl _) (by omega)

theorem two_buffers_kept : ∃ h s s', Run heap2M h s ∧ ⟨0x20008C, 50⟩ ∈ s.live ∧ step s (.alloc 10) = some s' ∧
    Same s.mem s'.mem 0x20008C (0x20008C + 50) := by
  have hr := fromZero_run twoBuffers (by decide +kernel)
  have hsome : (step ((fromZero twoBuffers).get (by decide +kernel)).2 (.alloc 10)).isSome = true := by decide +kernel
  have hs := (Option.some_get hsome).symm
  exact ⟨_, _, _, hr, by decide +kernel, hs, calls_keep_live_data hr (by decide +kernel) (by decide +kernel) rfl hs
    ⟨0x20008C, 50⟩ (by decide +kernel) (by decide)⟩

/-- A free follows a stale link into a live buffer and rewrites bytes of it. -/
theorem a_free_writes_into_a_live_buffer :
    ∃ h s s', Run heap2M h s ∧ Allowed s (.free 0x20008C) ∧ step s (.free 0x20008C) = some s' ∧
      ∃ v ∈ s.live, v.ptr ≠ 0x20008C ∧ ¬ Same s.mem s'.mem v.ptr (v.ptr + v.len) := by
  have hr := fromZero_run staleHeader (by decide +kernel)
  refine ⟨_, _, _, hr, by decide +kernel, rfl, ⟨0x200014, 50⟩, by decide +kernel, by decide, ?_⟩
  intro h
  have := h 0x200030 (by decide) (by decide)
  revert this
  decide +kernel

end NativeOS.Mem.Heap
