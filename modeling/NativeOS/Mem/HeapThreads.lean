/-
  NativeOS.Mem.HeapThreads — the heap called by several threads (`arch/i386/kernel/mem/heap.c`
  with its spinlock).

  `heap_alloc` and `heap_free` work on the heap between `spinlock_lock` and
  `spinlock_release`, and every way out of them passes the release. Here they are taken
  apart into steps: a turn of the loop, a group of tests, or a single store. The steps of any
  number of threads come in any order.

  A thread frees only what a call returned to somebody and nobody has passed to `heap_free`
  since. Between the calls nobody stores anything into a buffer.

  Proved:
  * `threads_share_the_heap` — in every state of every such run: one thread at most is in the
    heap, the finished calls are a serial run of the heap in the order they finished in, each
    with the result it has there, and the buffers the threads own are live in it, inside the
    heap and apart from each other.
  * `no_thread_is_stuck` — each thread that waits for the heap can get it.
-/

import NativeOS.Kern.Spinlock
import NativeOS.Mem.HeapProofs

namespace NativeOS.Mem.Heap

open NativeOS.Lib NativeOS.Lib.Mutex NativeOS.Kern

/-! ## heap.c, step by step -/

inductive HeapCall where
  | alloc (size : Nat)
  | free (ptr : Nat)
  deriving DecidableEq

/-- Where a thread is, with its local variables. -/
inductive Pc where
  /-- At the head of `heap_alloc`'s loop. -/
  | look (size block : Nat)
  /-- The block is taken; behind it is the early return. -/
  | taken (size block : Nat)
  /-- In `heap_free`, before its tests. -/
  | freeing (ptr : Nat)
  | mergeNext (bufheader : Nat)
  | mergePrev (bufheader : Nat)
  /-- Stores that are left, and what comes behind them. -/
  | store (rest : List (Mem → Mem)) (next : Pc)
  /-- At `_cleanup`, with what is returned. -/
  | cleanup (v : Nat)

/-- What `heap_alloc` stores to cut the block. -/
def splitStores (block size : Nat) : List (Mem → Mem) :=
  let nextBlock := add32 (add32 block hdr) size
  [fun m => setMagic m nextBlock heapMagicHead,
    fun m => setStatus m nextBlock heapMagicFree,
    fun m => setSize m nextBlock (sub32 (sub32 (hSize m block) size) hdr),
    fun m => setPrev m nextBlock block,
    fun m => setNext m nextBlock (hNext m block),
    fun m => setSize m block size,
    fun m => setNext m block nextBlock]

/-- What `heap_merge` stores. -/
def mergeStores (m : Mem) (head tail : Nat) : List (Mem → Mem) :=
  if hMagic m head ≠ heapMagicHead ∨ hMagic m head ≠ hMagic m tail then []
  else if hStatus m head ≠ heapMagicFree ∨ hStatus m head ≠ hStatus m tail then []
  else if hNext m head ≠ tail ∨ hPrev m tail ≠ head then []
  else if add32 (add32 head hdr) (hSize m head) ≠ tail then []
  else
    [fun m => if hNext m tail ≠ 0 then setPrev m (hNext m tail) head else m,
      fun m => setNext m head (hNext m tail),
      fun m => setSize m head (add32 (hSize m head) (add32 hdr (hSize m tail)))]

/-- One step under the lock: the tests up to a branch, with the store of a status behind them, or
    one of the other stores. -/
def heapStep : Pc → Mem → (Pc ⊕ Nat) × Mem
  | .look size block, m =>
    if block = 0 then (.inl (.cleanup 0), m)
    else if hMagic m block ≠ heapMagicHead then (.inl (.cleanup 0), m)
    else if hStatus m block ≠ heapMagicFree then (.inl (.look size (hNext m block)), m)
    else if hSize m block < size then (.inl (.look size (hNext m block)), m)
    else (.inl (.taken size block), setStatus m block heapMagicUsed)
  | .taken size block, m =>
    let buffer := add32 block hdr
    if hSize m block ≤ add32 (add32 size hdr) 1 then (.inl (.cleanup buffer), m)
    else (.inl (.store (splitStores block size) (.cleanup buffer)), m)
  | .freeing ptr, m =>
    let bufheader := sub32 ptr hdr
    if hMagic m bufheader ≠ heapMagicHead then (.inl (.cleanup 0), m)
    else if hStatus m bufheader ≠ heapMagicUsed then (.inl (.cleanup 0), m)
    else (.inl (.mergeNext bufheader), setStatus m bufheader heapMagicFree)
  | .mergeNext bufheader, m =>
    if hNext m bufheader ≠ 0 then (.inl (.store (mergeStores m bufheader (hNext m bufheader)) (.mergePrev bufheader)), m)
    else (.inl (.mergePrev bufheader), m)
  | .mergePrev bufheader, m =>
    if hPrev m bufheader ≠ 0 then (.inl (.store (mergeStores m (hPrev m bufheader) bufheader) (.cleanup 0)), m)
    else (.inl (.cleanup 0), m)
  | .store (f :: rest) next, m => (.inl (.store rest next), f m)
  | .store [] next, m => (.inl next, m)
  | .cleanup v, m => (.inr v, m)

/-- The two functions between lock and release. -/
def heapWork (root : Nat) : Work Mem HeapCall Pc Nat where
  enter
    | .alloc size => .look size root
    | .free ptr => .freeing ptr
  step := heapStep

/-! ## Alone -/

section Alone

variable {m m' m'' : Mem} {root size block : Nat}

theorem ends_store (fs : List (Mem → Mem)) {next : Pc} {v : Nat}
    (h : (heapWork root).Ends next (fs.foldl (fun m f => f m) m) v m') : (heapWork root).Ends (.store fs next) m v m' := by
  induction fs generalizing m with
  | nil => exact .step rfl h
  | cons f fs ih => exact .step rfl (ih h)

theorem takeBlock_ends (m : Mem) (root size block : Nat) :
    (heapWork root).Ends (.taken size block) (setStatus m block heapMagicUsed) (takeBlock m block size).2
      (takeBlock m block size).1 := by
  by_cases hsmall : hSize (setStatus m block heapMagicUsed) block ≤ add32 (add32 size hdr) 1
  · have htake : takeBlock m block size = (setStatus m block heapMagicUsed, add32 block hdr) := if_pos hsmall
    rw [htake]
    exact .step (if_pos hsmall) (.last rfl)
  · have htake : takeBlock m block size =
        ((splitStores block size).foldl (fun m f => f m) (setStatus m block heapMagicUsed), add32 block hdr) := if_neg hsmall
    rw [htake]
    exact .step (if_neg hsmall) (ends_store _ (.last rfl))

theorem allocLoop_ends {fuel v : Nat} (h : allocLoop m size fuel block = some (m', v)) :
    (heapWork root).Ends (.look size block) m v m' := by
  induction fuel generalizing block with
  | zero => cases h
  | succ fuel ih =>
    unfold allocLoop at h
    split_ifs at h with h0 hmagic hstatus hsize
    · cases h
      exact .step (if_pos h0) (.last rfl)
    · cases h
      exact .step ((if_neg h0).trans (if_pos hmagic)) (.last rfl)
    · refine .step ((if_neg h0).trans ((if_neg hmagic).trans (if_pos hstatus))) (ih h)
    · refine .step ((if_neg h0).trans ((if_neg hmagic).trans ((if_neg hstatus).trans (if_pos hsize)))) (ih h)
    · rw [Option.some.injEq] at h
      have hends := takeBlock_ends m root size block
      rw [h] at hends
      exact .step ((if_neg h0).trans ((if_neg hmagic).trans ((if_neg hstatus).trans (if_neg hsize)))) hends

theorem heapAlloc_alone {v : Nat} (h : heapAlloc m root size = some (m', v)) : (heapWork root).Alone (.alloc size) m v m' :=
  allocLoop_ends h

theorem mergeStores_foldl (m : Mem) (head tail : Nat) :
    (mergeStores m head tail).foldl (fun m f => f m) m = (heapMerge m head tail).1 := by
  unfold mergeStores heapMerge
  split_ifs <;> rfl

theorem mergePrev_ends (m : Mem) (root bufheader : Nat) : (heapWork root).Ends (.mergePrev bufheader) m 0
    (if hPrev m bufheader ≠ 0 then (heapMerge m (hPrev m bufheader) bufheader).1 else m) := by
  by_cases hprev : hPrev m bufheader ≠ 0
  · rw [if_pos hprev, ← mergeStores_foldl]
    exact .step (if_pos hprev) (ends_store _ (.last rfl))
  · rw [if_neg hprev]
    exact .step (if_neg hprev) (.last rfl)

theorem mergeNext_ends {bufheader : Nat} (h : (heapWork root).Ends (.mergePrev bufheader)
    (if hNext m bufheader ≠ 0 then (heapMerge m bufheader (hNext m bufheader)).1 else m) 0 m') :
    (heapWork root).Ends (.mergeNext bufheader) m 0 m' := by
  by_cases hnext : hNext m bufheader ≠ 0
  · rw [if_pos hnext, ← mergeStores_foldl] at h
    exact .step (if_pos hnext) (ends_store _ h)
  · rw [if_neg hnext] at h
    exact .step (if_neg hnext) h

theorem heapFree_alone (m : Mem) (root ptr : Nat) : (heapWork root).Alone (.free ptr) m 0 (heapFree m ptr) := by
  show (heapWork root).Ends (.freeing ptr) m 0 (heapFree m ptr)
  by_cases hmagic : hMagic m (sub32 ptr hdr) ≠ heapMagicHead
  · have hfree : heapFree m ptr = m := if_pos hmagic
    rw [hfree]
    exact .step (if_pos hmagic) (.last rfl)
  by_cases hstatus : hStatus m (sub32 ptr hdr) ≠ heapMagicUsed
  · have hfree : heapFree m ptr = m := (if_neg hmagic).trans (if_pos hstatus)
    rw [hfree]
    exact .step ((if_neg hmagic).trans (if_pos hstatus)) (.last rfl)
  · have hfree : heapFree m ptr = _ := (if_neg hmagic).trans (if_neg hstatus)
    rw [hfree]
    exact .step ((if_neg hmagic).trans (if_neg hstatus)) (mergeNext_ends (mergePrev_ends _ root _))

end Alone

/-! ## Threads that own their buffers -/

/-- The buffers the threads own, when an action has been taken. -/
def owned {T : Type} (live : List Buf) : Act T HeapCall Nat → List Buf
  | .call _ (.free ptr) => live.filter (·.ptr != ptr)
  | .leave _ (.alloc size) v => if v = 0 then live else ⟨v, size⟩ :: live
  | _ => live

/-- Any 32-bit size, and only buffers that somebody owns. -/
def Permitted {T : Type} (live : List Buf) : Act T HeapCall Nat → Prop
  | .call _ (.alloc size) => size < 4294967296
  | .call _ (.free ptr) => ∃ b ∈ live, b.ptr = ptr
  | _ => True

instance {T : Type} (live : List Buf) : (a : Act T HeapCall Nat) → Decidable (Permitted live a)
  | .call _ (.alloc size) => inferInstanceAs (Decidable (size < 4294967296))
  | .call _ (.free ptr) => inferInstanceAs (Decidable (∃ b ∈ live, b.ptr = ptr))
  | .try_ _ => .isTrue trivial
  | .work _ => .isTrue trivial
  | .finish _ _ _ => .isTrue trivial
  | .leave _ _ _ => .isTrue trivial

/-- A run of the threads, from a heap that was just initialised. -/
inductive ThreadRun {T : Type} [DecidableEq T] (L : Layout) (m0 : Mem) :
    List (Call T HeapCall Nat) → Parties T Spinlock Mem HeapCall Pc Nat → List Buf → Prop
  | start : ThreadRun L m0 [] ⟨spinlockInit, (boot L m0).mem, fun _ => .idle⟩ []
  | step {h : List (Call T HeapCall Nat)} {x x' : Parties T Spinlock Mem HeapCall Pc Nat} {live : List Buf}
      {a : Act T HeapCall Nat} : ThreadRun L m0 h x live → Permitted live a →
      Parties.Step spinlock (heapWork L.bottom) x a x' → ThreadRun L m0 (recordCall h a) x' (owned live a)

def HeapCall.ev : HeapCall → Ev
  | .alloc size => .alloc size
  | .free ptr => .free ptr

/-- The event of the serial run is the call, and its result is the one the call has. -/
def Answers {T : Type} (e : St × Ev) (k : Call T HeapCall Nat) : Prop :=
  e.2 = k.call.ev ∧ ∀ size, k.call = .alloc size → ∃ m', heapAlloc e.1.mem e.1.root size = some (m', k.result)

/-- The call a thread has made and not finished. -/
def pending : Phase HeapCall Pc Nat → Option HeapCall
  | .trying c => some c
  | .inside c _ => some c
  | _ => none

/-- The serial run `hist` that ends in `s` accounts for the threads. -/
structure Accounts {T : Type} (L : Layout) (m0 : Mem) (h : List (Call T HeapCall Nat))
    (x : Parties T Spinlock Mem HeapCall Pc Nat) (live : List Buf) (hist : List (St × Ev)) (s : St) : Prop where
  run : Run L hist s
  root : s.root = L.bottom
  answers : List.Forall₂ Answers hist h
  serial : Serial (heapWork L.bottom) (boot L m0).mem h s.mem
  owned : ∀ b ∈ live, b ∈ s.live
  once : (live.map Buf.ptr).Nodup
  sizes : ∀ t size, pending (x.phase t) = some (.alloc size) → size < 4294967296
  /-- What is being freed is live, and nobody's. -/
  freed : ∀ t ptr, pending (x.phase t) = some (.free ptr) → (∃ b ∈ s.live, b.ptr = ptr) ∧ ∀ b ∈ live, b.ptr ≠ ptr
  freedOnce : ∀ t u ptr, pending (x.phase t) = some (.free ptr) → pending (x.phase u) = some (.free ptr) → t = u
  /-- What is about to be returned is live, and nobody's yet. -/
  returned : ∀ t size v, x.phase t = .leaving (.alloc size) v → v ≠ 0 →
    ⟨v, size⟩ ∈ s.live ∧ (∀ b ∈ live, b.ptr ≠ v) ∧ ∀ u ptr, pending (x.phase u) = some (.free ptr) → ptr ≠ v

/-! ## One step -/

section Steps

variable {T : Type} {L : Layout} {m0 : Mem} {h : List (Call T HeapCall Nat)} {x x' : Parties T Spinlock Mem HeapCall Pc Nat}
  {live : List Buf} {hist : List (St × Ev)} {s : St} {t u : T} {c : HeapCall} {p : Phase HeapCall Pc Nat} {v : Nat}

/-- A step that begins no free, and brings no result. -/
theorem Accounts.quiet (ha : Accounts L m0 h x live hist s)
    (hpending : ∀ u c, pending (x'.phase u) = some c →
      pending (x.phase u) = some c ∨ ∃ size, c = .alloc size ∧ size < 4294967296)
    (hleaving : ∀ u size v, x'.phase u = .leaving (.alloc size) v → x.phase u = .leaving (.alloc size) v) :
    Accounts L m0 h x' live hist s := by
  have hfrees : ∀ u ptr, pending (x'.phase u) = some (.free ptr) → pending (x.phase u) = some (.free ptr) := by
    intro u ptr hu
    rcases hpending u _ hu with hu | ⟨size, hc, -⟩
    · exact hu
    · cases hc
  refine ⟨ha.run, ha.root, ha.answers, ha.serial, ha.owned, ha.once, ?_, ?_, ?_, ?_⟩
  · intro u size hu
    rcases hpending u _ hu with hu | ⟨size', hc, hsize⟩
    · exact ha.sizes u size hu
    · cases hc
      exact hsize
  · intro u ptr hu
    exact ha.freed u ptr (hfrees u ptr hu)
  · intro u w ptr hu hw
    exact ha.freedOnce u w ptr (hfrees u ptr hu) (hfrees w ptr hw)
  · intro u size v hu hv
    obtain ⟨hlive, hnew, hother⟩ := ha.returned u size v (hleaving u size v hu) hv
    exact ⟨hlive, hnew, fun w ptr hw => hother w ptr (hfrees w ptr hw)⟩

/-- What the call that finishes leaves, in the serial order. -/
theorem Accounts.ends (ha : Accounts L m0 h x live hist s)
    (hi : Mutex.Inv spinlock (heapWork L.bottom) (boot L m0).mem (⟨t, c, v⟩ :: h) x') :
    ∃ m', (heapWork L.bottom).Alone c s.mem v m' ∧ Serial (heapWork L.bottom) (boot L m0).mem (⟨t, c, v⟩ :: h) m' := by
  obtain ⟨m', hserial, -⟩ := hi.serial
  cases hserial with
  | @cons _ _ m1 _ hs hends =>
    have hm : m1 = s.mem := hs.unique ha.serial
    subst hm
    exact ⟨m', hends, .cons hs hends⟩

variable [DecidableEq T]

theorem pending_set (hu : pending ((x.set t p).phase u) = some c) :
    (u = t ∧ pending p = some c) ∨ (u ≠ t ∧ pending (x.phase u) = some c) := by
  by_cases he : u = t
  · rw [he, phase_set_self] at hu
    exact .inl ⟨he, hu⟩
  · rw [phase_set_of_ne x he] at hu
    exact .inr ⟨he, hu⟩

theorem leaving_set {size : Nat} (hp : ∀ v, p ≠ .leaving (.alloc size) v) (hu : (x.set t p).phase u = .leaving (.alloc size) v) :
    x.phase u = .leaving (.alloc size) v := by
  by_cases he : u = t
  · rw [he, phase_set_self] at hu
    exact absurd hu (hp v)
  · rw [phase_set_of_ne x he] at hu
    exact hu

/-- A step inside a call: the thread goes on with what it had called. -/
theorem Accounts.goesOn (ha : Accounts L m0 h x live hist s) (hp : pending p = none ∨ pending p = pending (x.phase t))
    (hleaving : ∀ size v, p ≠ .leaving (.alloc size) v) (hx : x'.phase = (x.set t p).phase) : Accounts L m0 h x' live hist s := by
  refine ha.quiet ?_ ?_
  · intro u c hu
    rw [hx] at hu
    rcases pending_set hu with ⟨rfl, hc⟩ | ⟨-, hc⟩
    · rcases hp with hp | hp
      · cases hp.symm.trans hc
      · exact .inl (hp.symm.trans hc)
    · exact .inl hc
  · intro u size v hu
    rw [hx] at hu
    exact leaving_set (hleaving size) hu

theorem Accounts.callAlloc (ha : Accounts L m0 h x live hist s) {size : Nat} (hsize : size < 4294967296) :
    Accounts L m0 h (x.set t (.trying (.alloc size))) live hist s := by
  refine ha.quiet ?_ ?_
  · intro u c hu
    rcases pending_set hu with ⟨-, hc⟩ | ⟨-, hc⟩
    · cases hc
      exact .inr ⟨size, rfl, hsize⟩
    · exact .inl hc
  · intro u size v hu
    exact leaving_set (by simp) hu

/-- The thread that frees a buffer owned it, so nobody else is freeing it or about to get it. -/
theorem Accounts.callFree (ha : Accounts L m0 h x live hist s) {b : Buf} (hb : b ∈ live) :
    Accounts L m0 h (x.set t (.trying (.free b.ptr))) (live.filter (·.ptr != b.ptr)) hist s := by
  have hsub : ∀ d ∈ live.filter (·.ptr != b.ptr), d ∈ live ∧ d.ptr ≠ b.ptr := by
    intro d hd
    simpa using List.mem_filter.mp hd
  have hnone : ∀ u, pending (x.phase u) ≠ some (.free b.ptr) := by
    intro u hu
    exact (ha.freed u b.ptr hu).2 b hb rfl
  refine ⟨ha.run, ha.root, ha.answers, ha.serial, fun d hd => ha.owned d (hsub d hd).1,
    ha.once.sublist (List.filter_sublist.map _), ?_, ?_, ?_, ?_⟩
  · intro u size hu
    rcases pending_set hu with ⟨-, hc⟩ | ⟨-, hc⟩
    · cases hc
    · exact ha.sizes u size hc
  · intro u ptr hu
    rcases pending_set hu with ⟨-, hc⟩ | ⟨-, hc⟩
    · cases hc
      exact ⟨⟨b, ha.owned b hb, rfl⟩, fun d hd => (hsub d hd).2⟩
    · obtain ⟨hlive, hnot⟩ := ha.freed u ptr hc
      exact ⟨hlive, fun d hd => hnot d (hsub d hd).1⟩
  · intro u w ptr hu hw
    rcases pending_set hu with ⟨rfl, hc⟩ | ⟨-, hc⟩ <;> rcases pending_set hw with ⟨rfl, hc'⟩ | ⟨-, hc'⟩
    · rfl
    · cases hc
      exact absurd hc' (hnone w)
    · cases hc'
      exact absurd hc (hnone u)
    · exact ha.freedOnce u w ptr hc hc'
  · intro u size v hu hv
    obtain ⟨hlive, hnew, hother⟩ := ha.returned u size v (leaving_set (by simp) hu) hv
    refine ⟨hlive, fun d hd => hnew d (hsub d hd).1, ?_⟩
    intro w ptr hw
    rcases pending_set hw with ⟨-, hc⟩ | ⟨-, hc⟩
    · cases hc
      exact hnew b hb
    · exact hother w ptr hc

theorem Accounts.finishAlloc (ha : Accounts L m0 h x live hist s) {size : Nat} {r : Pc}
    (ht : x.phase t = .inside (.alloc size) r) (hx : x'.phase = (x.set t (.leaving (.alloc size) v)).phase)
    (hi : Mutex.Inv spinlock (heapWork L.bottom) (boot L m0).mem (⟨t, .alloc size, v⟩ :: h) x') :
    ∃ hist' s', Accounts L m0 (⟨t, .alloc size, v⟩ :: h) x' live hist' s' := by
  obtain ⟨m', hends, hserial⟩ := ha.ends hi
  obtain ⟨bs, hheap⟩ := run_inv ha.run
  obtain ⟨s', bs', hstep, -, hheap', -⟩ := sim_alloc hheap size
  have hsize : size < 4294967296 := ha.sizes t size (by rw [ht]; rfl)
  -- the step of the serial run is what the steps of the thread come to
  obtain ⟨halloc, hs'⟩ : heapAlloc s.mem s.root size = some (m', v) ∧
      s' = { s with mem := m', live := if v = 0 then s.live else ⟨v, size⟩ :: s.live } := by
    simp only [step] at hstep
    split at hstep
    · rename_i m1 v1 halloc
      have halone := heapAlloc_alone halloc
      rw [ha.root] at halone
      obtain ⟨rfl, rfl⟩ := halone.unique hends
      exact ⟨halloc, (Option.some.inj hstep).symm⟩
    · cases hstep
  have hlive : ∀ b ∈ s.live, b ∈ s'.live := by
    intro b hb
    rw [hs']
    by_cases hv : v = 0
    · simpa [hv] using hb
    · simpa [hv] using Or.inr hb
  have hfresh : v ≠ 0 → ⟨v, size⟩ ∈ s'.live ∧ ∀ b ∈ s.live, b.ptr ≠ v := by
    intro hv
    have hnodup := hheap'.nodup
    simp only [hs', if_neg hv, List.map_cons, List.nodup_cons, List.mem_map, not_exists, not_and] at hnodup ⊢
    exact ⟨List.mem_cons_self, hnodup.1⟩
  have hpending : ∀ u c, pending (x'.phase u) = some c → pending (x.phase u) = some c := by
    intro u c hu
    rw [hx] at hu
    rcases pending_set hu with ⟨-, hc⟩ | ⟨-, hc⟩
    · cases hc
    · exact hc
  refine ⟨(s, .alloc size) :: hist, s', ha.run.step hsize hstep, ?_, .cons ⟨rfl, ?_⟩ ha.answers, ?_, fun b hb => hlive b (ha.owned b hb),
    ha.once, fun u size' hu => ha.sizes u size' (hpending u _ hu), ?_, ?_, ?_⟩
  · rw [hs']
    exact ha.root
  · intro size' hc
    cases hc
    exact ⟨m', halloc⟩
  · rw [hs']
    exact hserial
  · intro u ptr hu
    obtain ⟨⟨b, hb, hptr⟩, hnot⟩ := ha.freed u ptr (hpending u _ hu)
    exact ⟨⟨b, hlive b hb, hptr⟩, hnot⟩
  · intro u w ptr hu hw
    exact ha.freedOnce u w ptr (hpending u _ hu) (hpending w _ hw)
  · intro u size' v' hu hv
    have hut : u = t := by
      refine hi.exclusive u t ?_ ?_
      · rw [hu]
        trivial
      · rw [hx, phase_set_self]
        trivial
    rw [hx, hut, phase_set_self] at hu
    cases hu
    obtain ⟨hmem, hnew⟩ := hfresh hv
    refine ⟨hmem, fun b hb => hnew b (ha.owned b hb), ?_⟩
    intro w ptr hw hptr
    obtain ⟨⟨b, hb, hb'⟩, -⟩ := ha.freed w ptr (hpending w _ hw)
    exact hnew b hb (hb'.trans hptr)

theorem Accounts.finishFree (ha : Accounts L m0 h x live hist s) {ptr : Nat} {r : Pc}
    (ht : x.phase t = .inside (.free ptr) r) (hx : x'.phase = (x.set t (.leaving (.free ptr) v)).phase)
    (hi : Mutex.Inv spinlock (heapWork L.bottom) (boot L m0).mem (⟨t, .free ptr, v⟩ :: h) x') :
    ∃ hist' s', Accounts L m0 (⟨t, .free ptr, v⟩ :: h) x' live hist' s' := by
  obtain ⟨m', hends, hserial⟩ := ha.ends hi
  obtain ⟨rfl, rfl⟩ := (heapFree_alone s.mem L.bottom ptr).unique hends
  have hpt : pending (x.phase t) = some (.free ptr) := by
    rw [ht]
    rfl
  obtain ⟨hallowed, hnot⟩ := ha.freed t ptr hpt
  have hkept : ∀ b ∈ s.live, b.ptr ≠ ptr → b ∈ s.live.filter (·.ptr != ptr) := by
    intro b hb hne
    exact List.mem_filter.mpr ⟨hb, by simpa using hne⟩
  have hpending : ∀ u c, pending (x'.phase u) = some c → u ≠ t ∧ pending (x.phase u) = some c := by
    intro u c hu
    rw [hx] at hu
    rcases pending_set hu with ⟨-, hc⟩ | hc
    · cases hc
    · exact hc
  have hleaving : ∀ u size w, x'.phase u ≠ .leaving (.alloc size) w := by
    intro u size w hu
    have hut : u = t := by
      refine hi.exclusive u t ?_ ?_
      · rw [hu]
        trivial
      · rw [hx, phase_set_self]
        trivial
    rw [hx, hut, phase_set_self] at hu
    cases hu
  refine ⟨(s, .free ptr) :: hist, _, ha.run.step hallowed rfl, ha.root, .cons ⟨rfl, ?_⟩ ha.answers, hserial,
    fun b hb => hkept b (ha.owned b hb) (hnot b hb), ha.once, fun u size' hu => ha.sizes u size' (hpending u _ hu).2, ?_, ?_, ?_⟩
  · intro size hc
    cases hc
  · intro u q hu
    obtain ⟨hne, hu⟩ := hpending u _ hu
    obtain ⟨⟨b, hb, hbq⟩, hnotq⟩ := ha.freed u q hu
    -- nobody else is freeing the same buffer
    have hq : q ≠ ptr := by
      rintro rfl
      exact hne (ha.freedOnce u t q hu hpt)
    exact ⟨⟨b, hkept b hb (by rw [hbq]; exact hq), hbq⟩, hnotq⟩
  · intro u w q hu hw
    exact ha.freedOnce u w q (hpending u _ hu).2 (hpending w _ hw).2
  · intro u size w hu
    exact absurd hu (hleaving u size w)

/-- The thread that returns with a buffer is its owner from then on. -/
theorem Accounts.leaveAlloc (ha : Accounts L m0 h x live hist s) (hi : Mutex.Inv spinlock (heapWork L.bottom) (boot L m0).mem h x)
    {size : Nat} (ht : x.phase t = .leaving (.alloc size) v) (hx : x'.phase = (x.set t .idle).phase) (hv : v ≠ 0) :
    Accounts L m0 h x' (⟨v, size⟩ :: live) hist s := by
  obtain ⟨hlive, hnew, hother⟩ := ha.returned t size v ht hv
  have hpending : ∀ u c, pending (x'.phase u) = some c → pending (x.phase u) = some c := by
    intro u c hu
    rw [hx] at hu
    rcases pending_set hu with ⟨-, hc⟩ | ⟨-, hc⟩
    · cases hc
    · exact hc
  refine ⟨ha.run, ha.root, ha.answers, ha.serial, List.forall_mem_cons.mpr ⟨hlive, ha.owned⟩, ?_,
    fun u size' hu => ha.sizes u size' (hpending u _ hu), ?_, ?_, ?_⟩
  · rw [List.map_cons, List.nodup_cons]
    refine ⟨?_, ha.once⟩
    rintro hmem
    obtain ⟨b, hb, hbv⟩ := List.mem_map.mp hmem
    exact hnew b hb hbv
  · intro u ptr hu
    obtain ⟨hex, hnot⟩ := ha.freed u ptr (hpending u _ hu)
    exact ⟨hex, List.forall_mem_cons.mpr ⟨(hother u ptr (hpending u _ hu)).symm, hnot⟩⟩
  · intro u w ptr hu hw
    exact ha.freedOnce u w ptr (hpending u _ hu) (hpending w _ hw)
  · intro u size' v' hu hv'
    rw [hx] at hu
    by_cases hut : u = t
    · rw [hut, phase_set_self] at hu
      cases hu
    · rw [phase_set_of_ne x hut] at hu
      refine absurd (hi.exclusive u t ?_ ?_) hut
      · rw [hu]
        trivial
      · rw [ht]
        trivial

/-- The step rule. -/
theorem Accounts.step (ha : Accounts L m0 h x live hist s) (hi : Mutex.Inv spinlock (heapWork L.bottom) (boot L m0).mem h x)
    {a : Act T HeapCall Nat} (hp : Permitted live a) (hs : Parties.Step spinlock (heapWork L.bottom) x a x') :
    ∃ hist' s', Accounts L m0 (recordCall h a) x' (Heap.owned live a) hist' s' := by
  have hi' := hi.step hs
  cases hs with
  | call t c ht =>
    cases c with
    | alloc size => exact ⟨hist, s, ha.callAlloc hp⟩
    | free ptr =>
      obtain ⟨b, hb, rfl⟩ := hp
      exact ⟨hist, s, ha.callFree hb⟩
  | fail t c _ _ => exact ⟨hist, s, ha.quiet (fun _ _ => .inl) (fun _ _ _ => id)⟩
  | take t c ht _ => exact ⟨hist, s, ha.goesOn (p := .inside c ((heapWork L.bottom).enter c)) (.inr (by rw [ht]; rfl)) (by simp) rfl⟩
  | work t c r r' s' ht _ => exact ⟨hist, s, ha.goesOn (p := .inside c r') (.inr (by rw [ht]; rfl)) (by simp) rfl⟩
  | finish t c r v s' ht _ =>
    cases c with
    | alloc size => exact ha.finishAlloc ht rfl hi'
    | free ptr => exact ha.finishFree ht rfl hi'
  | leave t c v ht =>
    cases c with
    | free ptr => exact ⟨hist, s, ha.goesOn (p := .idle) (.inl rfl) (by simp) rfl⟩
    | alloc size =>
      by_cases hv : v = 0
      · have howned : Heap.owned live (.leave t (.alloc size) v) = live := if_pos hv
        rw [howned]
        exact ⟨hist, s, ha.goesOn (p := .idle) (.inl rfl) (by simp) rfl⟩
      · have howned : Heap.owned live (.leave t (.alloc size) v) = ⟨v, size⟩ :: live := if_neg hv
        rw [howned]
        exact ⟨hist, s, ha.leaveAlloc hi ht rfl hv⟩

end Steps

/-! ## From the threads to a serial run -/

section Runs

variable {T : Type} [DecidableEq T] {L : Layout} {m0 : Mem} {h : List (Call T HeapCall Nat)}
  {x : Parties T Spinlock Mem HeapCall Pc Nat} {live : List Buf}

theorem ThreadRun.run (hr : ThreadRun L m0 h x live) : Mutex.Run spinlock (heapWork L.bottom) (boot L m0).mem h x := by
  induction hr with
  | start => exact .start fun h => h rfl
  | step _ _ hs ih => exact ih.step hs

/-- The run rule. -/
theorem ThreadRun.accounts (hr : ThreadRun L m0 h x live) : ∃ hist s, Accounts L m0 h x live hist s := by
  induction hr with
  | start =>
    refine ⟨[], boot L m0, .boot m0, rfl, .nil, .nil, ?_, List.nodup_nil, ?_, ?_, ?_, ?_⟩
    · intro b hb
      cases hb
    · intro t size ht
      cases ht
    · intro t ptr ht
      cases ht
    · intro t u ptr ht
      cases ht
    · intro t size v ht
      cases ht
  | step hr hp hs ih =>
    obtain ⟨hist, s, ha⟩ := ih
    exact ha.step (Mutex.run_inv hr.run) hp hs

theorem ThreadRun.path (hr : ThreadRun L m0 h x live) {as : List (Act T HeapCall Nat)} {x' : Parties T Spinlock Mem HeapCall Pc Nat}
    (hp : Path spinlock (heapWork L.bottom) x as x') (hcalls : ∀ a ∈ as, a.isCall = false) :
    ThreadRun L m0 (as.foldl recordCall h) x' (as.foldl owned live) := by
  induction hp generalizing h live with
  | nil x => exact hr
  | @cons _ _ _ a as hs _ ih =>
    obtain ⟨ha, has⟩ := List.forall_mem_cons.mp hcalls
    have hpermitted : Permitted live a := by
      cases hs with
      | call t c _ => cases ha
      | fail | take | work | finish | leave => trivial
    exact ih (hr.step hpermitted hs) has

/-- Run alone, every call ends. -/
theorem ThreadRun.ends (hr : ThreadRun L m0 h x live) (c : HeapCall) {m : Mem}
    (hs : Serial (heapWork L.bottom) (boot L m0).mem h m) : ∃ v m', (heapWork L.bottom).Alone c m v m' := by
  cases c with
  | free ptr => exact ⟨0, _, heapFree_alone m L.bottom ptr⟩
  | alloc size =>
    obtain ⟨hist, s, ha⟩ := hr.accounts
    obtain ⟨bs, hheap⟩ := run_inv ha.run
    obtain ⟨s', -, hstep, -⟩ := sim_alloc hheap size
    simp only [Heap.step] at hstep
    split at hstep
    · rename_i m' v halloc
      rw [ha.root, ← hs.unique ha.serial] at halloc
      exact ⟨v, m', heapAlloc_alone halloc⟩
    · cases hstep

/-! ## Turns -/

/-- The threads in the order `schedule` gives, with what an idle one calls; `none` if a call
    is not permitted. -/
def play (L : Layout) (h : List (Call T HeapCall Nat)) (x : Parties T Spinlock Mem HeapCall Pc Nat) (live : List Buf) :
    List (T × Option HeapCall) → Option (List (Call T HeapCall Nat) × Parties T Spinlock Mem HeapCall Pc Nat × List Buf)
  | [] => some (h, x, live)
  | (t, next) :: schedule =>
    match Parties.turn spinlock (heapWork L.bottom) x t next with
    | some (a, x') => if Permitted live a then play L (recordCall h a) x' (owned live a) schedule else none
    | none => none

theorem play_run {schedule : List (T × Option HeapCall)}
    {r : List (Call T HeapCall Nat) × Parties T Spinlock Mem HeapCall Pc Nat × List Buf} (hr : ThreadRun L m0 h x live)
    (hplay : play L h x live schedule = some r) : ThreadRun L m0 r.1 r.2.1 r.2.2 := by
  induction schedule generalizing h x live with
  | nil =>
    cases hplay
    exact hr
  | cons entry schedule ih =>
    unfold play at hplay
    split at hplay
    · rename_i a x' hturn
      split_ifs at hplay with hpermitted
      exact ih (hr.step hpermitted (Parties.turn_step hturn)) hplay
    · cases hplay

/-- Two threads allocate at the same time, and one frees what it got while the other allocates
    again. -/
def twoThreads : List (Bool × Option HeapCall) :=
  [(true, some (.alloc 100)), (false, some (.alloc 50)), (true, none), (false, none)] ++
    List.replicate 12 (true, none) ++ List.replicate 14 (false, none) ++
    [(false, some (.free 0x20008C)), (true, some (.alloc 7)), (false, none), (true, none)] ++
    List.replicate 10 (false, none) ++ List.replicate 3 (true, none)

def afterTwoThreads : Option (List (Call Bool HeapCall Nat) × Parties Bool Spinlock Mem HeapCall Pc Nat × List Buf) :=
  play heap2M [] ⟨spinlockInit, (boot heap2M ⟨fun _ => 0⟩).mem, fun _ => .idle⟩ [] twoThreads

theorem two_threads_run (hsome : afterTwoThreads.isSome = true) :
    ThreadRun heap2M ⟨fun _ => 0⟩ (afterTwoThreads.get hsome).1 (afterTwoThreads.get hsome).2.1 (afterTwoThreads.get hsome).2.2 :=
  play_run .start (Option.some_get hsome).symm

end Runs

/-! ## Every run -/

section Results

variable {T : Type} [DecidableEq T] {L : Layout} {m0 : Mem} {h : List (Call T HeapCall Nat)}
  {x : Parties T Spinlock Mem HeapCall Pc Nat} {live : List Buf}

/-- In every state of every run: at most one thread is in the heap, and the calls that are
    finished are a serial run, each with the result it has there; the memory is that run's when
    nobody is inside. What the threads own is live in it: inside the heap and apart. -/
theorem threads_share_the_heap (hr : ThreadRun L m0 h x live) :
    (∀ t u, (x.phase t).Holds → (x.phase u).Holds → t = u) ∧
    (∃ hist s, Run L hist s ∧ List.Forall₂ Answers hist h ∧ ((∀ t c r, x.phase t ≠ .inside c r) → x.shared = s.mem) ∧
      ∀ b ∈ live, b ∈ s.live) ∧
    (∀ b ∈ live, L.bottom ≤ b.ptr ∧ b.ptr + b.len ≤ L.top) ∧
    live.Pairwise fun b d => b.ptr + b.len ≤ d.ptr ∨ d.ptr + d.len ≤ b.ptr := by
  have hi := Mutex.run_inv hr.run
  obtain ⟨hist, s, ha⟩ := hr.accounts
  obtain ⟨bs, hheap⟩ := run_inv ha.run
  have htiled := hheap.tiled
  refine ⟨hi.exclusive, ⟨hist, s, ha.run, ha.answers, ?_, ha.owned⟩, fun b hb => htiled.inside b (ha.owned b hb), ?_⟩
  · intro hout
    obtain ⟨m', hserial, hidle, -⟩ := hi.serial
    rw [hidle hout]
    exact hserial.unique ha.serial
  · refine (List.pairwise_map.mp ha.once).imp_of_mem fun {b d} hb hd hne => ?_
    have : Std.Symm fun b d : Buf => b.ptr + b.len ≤ d.ptr ∨ d.ptr + d.len ≤ b.ptr := ⟨fun _ _ => Or.symm⟩
    exact htiled.apart.forall (ha.owned b hb) (ha.owned d hd) fun he => hne (congrArg Buf.ptr he)

theorem two_threads_share : ∃ h x live, ThreadRun (T := Bool) heap2M ⟨fun _ => 0⟩ h x live ∧ h.length = 3 ∧ live = [⟨0x200014, 100⟩] ∧
    ∃ hist s, Run heap2M hist s ∧ List.Forall₂ Answers hist h ∧ ∀ b ∈ live, b ∈ s.live := by
  have hr := two_threads_run (by decide +kernel)
  obtain ⟨-, ⟨hist, s, hrun, hanswers, -, howned⟩, -⟩ := threads_share_the_heap hr
  exact ⟨_, _, _, hr, by decide +kernel, by decide +kernel, hist, s, hrun, hanswers, howned⟩

/-- From every state of every run there is a way for each thread to come back from its call, on
    which no further call is made. -/
theorem no_thread_is_stuck (hr : ThreadRun L m0 h x live) (t : T) :
    ∃ as x', Path spinlock (heapWork L.bottom) x as x' ∧ (∀ a ∈ as, a.isCall = false) ∧ x'.phase t = .idle := by
  -- one that holds the lock comes out by itself
  have hout : ∀ {h x live}, ThreadRun L m0 h x live → (x.phase t).Holds →
      ∃ as x', Path spinlock (heapWork L.bottom) x as x' ∧ (∀ a ∈ as, a.isCall = false) ∧ x'.phase t = .idle := by
    intro h x live hr ht
    obtain ⟨as, x', halone, -, hidle⟩ := (Mutex.run_inv hr.run).drains (fun c m hs => hr.ends c hs) ht
    exact ⟨as, x', halone.path, fun a ha => (halone.acts a ha).2, hidle⟩
  cases ht : x.phase t with
  | idle => exact ⟨[], x, .nil x, by simp, ht⟩
  | inside c r => exact hout hr (by rw [ht]; trivial)
  | leaving c v => exact hout hr (by rw [ht]; trivial)
  | trying c =>
    obtain ⟨as, x1, hpath, hacts, hin⟩ := (Mutex.run_inv hr.run).gets_in (fun c m hs => hr.ends c hs) ht
    obtain ⟨bs, x', hpath', hacts', hidle⟩ := hout (hr.path hpath hacts) (by rw [hin]; trivial)
    refine ⟨as ++ bs, x', hpath.append hpath', ?_, hidle⟩
    intro a ha
    rcases List.mem_append.mp ha with ha | ha
    · exact hacts a ha
    · exact hacts' a ha

theorem two_threads_go_on : ∃ h x live, ThreadRun (T := Bool) heap2M ⟨fun _ => 0⟩ h x live ∧ pending (x.phase true) = some (.alloc 7) ∧
    ∃ as x', Path spinlock (heapWork heap2M.bottom) x as x' ∧ (∀ a ∈ as, a.isCall = false) ∧ x'.phase true = .idle := by
  have hr := two_threads_run (by decide +kernel)
  exact ⟨_, _, _, hr, by decide +kernel, no_thread_is_stuck hr true⟩

end Results

end NativeOS.Mem.Heap
