/-
  NativeOS.Device.Uart — the serial port (`kernel/device/uart8250.c`).

  The context is a flags word and a pointer to a ring buffer. Whether the device is open is
  read off the flags the caller passed to `uart8250_open`; whether there is a buffer is up
  to the heap, which `uart8250_open` does not ask. Ring buffers are numbered in the order
  they are allocated, so a pointer to a freed one stays what it is: dangling.

  Proved:
  * `open_state_agrees_iff` — in every run of opens and closes the device is open exactly
    while it has a live buffer, and every buffer is freed once, as long as an open that is
    let in has nonzero flags exactly when both allocations succeed.
  * `interrupt_of_agreeing_state` — then the interrupt handler stores through no other pointer.
  * `write_faithful_iff` — `uart8250_write` sends what it should and counts it exactly when
    the first byte is not 0 and, outside binary mode, there is no CR.
-/

import NativeOS.Lib.Runs
import NativeOS.Lib.Spans
import NativeOS.Stdkern.RingbufAlloc

namespace NativeOS.Device.Uart

open NativeOS.Lib
open NativeOS.Stdkern.Ring (Ringbuf ringbufAlloc ringbufWrite)

def voFread : Nat := 1
def voFwrite : Nat := 2
def voFbinary : Nat := 4

/-! ## Opening and closing -/

/-- `uart8250_context` and the ring buffers of the driver: those that are live, and how often
    each was freed. -/
structure Uart8250 where
  flags : Nat
  rxBuf : Option Nat
  rings : Nat → Option Ringbuf
  next : Nat
  frees : Nat → Nat

def init : Uart8250 := ⟨0, none, fun _ => none, 0, fun _ => 0⟩

/-- `ringbuf_free`; NULL is let pass. -/
def ringbufFree (s : Uart8250) : Option Nat → Uart8250
  | none => s
  | some p => { s with rings := Function.update s.rings p none, frees := Function.update s.frees p (s.frees p + 1) }

/-- `header` and `bytes`: what the two calls of `malloc` in `ringbuf_alloc` return. -/
def uart8250Open (flags : Nat) (header : Option Ringbuf) (bytes : Option (Nat → UInt8)) (s : Uart8250) : Uart8250 × Int :=
  if s.flags ≠ 0 then (s, -1)
  else
    match ringbufAlloc 4096 header bytes with
    | none => ({ s with flags := flags, rxBuf := none }, 0)
    | some buf =>
      ({ s with flags := flags, rxBuf := some s.next, rings := Function.update s.rings s.next (some buf), next := s.next + 1 }, 0)

def uart8250Close (s : Uart8250) : Uart8250 × Int :=
  if s.flags = 0 then (s, -1) else ({ ringbufFree s s.rxBuf with flags := 0 }, 0)

/-- One byte of `uart8250_interrupt`'s loop. `none`: it is written through a pointer to no
    live ring buffer. -/
def receive (s : Uart8250) (value : UInt8) : Option Uart8250 :=
  if s.flags &&& voFwrite ≠ 0 then
    match s.rxBuf with
    | none => none
    | some p =>
      match s.rings p with
      | none => none
      | some buf => some { s with rings := Function.update s.rings p (some (ringbufWrite buf value)) }
  else some s

def uart8250Interrupt (s : Uart8250) (values : List UInt8) : Option Uart8250 := values.foldlM receive s

inductive Ev where
  | open_ (flags : Nat) (header : Option Ringbuf) (bytes : Option (Nat → UInt8))
  | close

def step (s : Uart8250) : Ev → Uart8250
  | .open_ flags header bytes => (uart8250Open flags header bytes s).1
  | .close => (uart8250Close s).1

/-! ## Open, live, freed -/

/-- `rx_buf` designates a live ring buffer. -/
def Live (s : Uart8250) : Prop := ∃ p buf, s.rxBuf = some p ∧ s.rings p = some buf

/-- The interrupt handler stores what it receives. -/
def Stores (s : Uart8250) : Prop := s.flags &&& voFwrite ≠ 0

/-- A ring buffer was freed once and is gone, or was never freed and is the one the next
    close will free. -/
def Accounted (s : Uart8250) (p : Nat) : Prop :=
  (s.rings p = none ∧ s.frees p = 1) ∨ ((s.rings p).isSome ∧ s.frees p = 0 ∧ s.rxBuf = some p ∧ s.flags ≠ 0)

/-- The device counts as open, for the next open, the next close and the interrupt, exactly
    while it has its buffer; and no buffer is lost or freed twice. -/
structure Agree (s : Uart8250) : Prop where
  refuses : ∀ flags header bytes, (uart8250Open flags header bytes s).2 ≠ 0 ↔ Live s
  closes : (uart8250Close s).2 = 0 ↔ Live s
  stores : Stores s → Live s
  freed : ∀ p < s.next, Accounted s p

/-- What an open that is let in must be given. -/
def Meets (s : Uart8250) : Ev → Prop
  | .open_ flags header bytes => s.flags = 0 → (flags ≠ 0 ↔ header.isSome ∧ bytes.isSome)
  | .close => True

/-- The same, and a buffer only for a device opened with VO_FWRITE. -/
def MeetsWrite (s : Uart8250) (e : Ev) : Prop :=
  Meets s e ∧
    match e with
    | .open_ flags header bytes => s.flags = 0 → header.isSome ∧ bytes.isSome → flags &&& voFwrite ≠ 0
    | .close => True

/-- An open whose allocations fail leaves a closed device closed. -/
def FailsClosed (s : Uart8250) (e : Ev) : Prop :=
  match e with
  | .open_ _ header bytes => s.flags = 0 → ¬ (header.isSome ∧ bytes.isSome) → (step s e).flags = 0
  | .close => True

section Agree

variable {s : Uart8250}

theorem open_refused (flags : Nat) (header : Option Ringbuf) (bytes : Option (Nat → UInt8)) (s : Uart8250) :
    (uart8250Open flags header bytes s).2 ≠ 0 ↔ s.flags ≠ 0 := by
  unfold uart8250Open
  by_cases h : s.flags ≠ 0
  · simp [h]
  · rw [if_neg h]
    cases ringbufAlloc 4096 header bytes <;> simp [h]

theorem close_succeeds (s : Uart8250) : (uart8250Close s).2 = 0 ↔ s.flags ≠ 0 := by
  unfold uart8250Close
  by_cases h : s.flags = 0 <;> simp [h]

theorem stores_flags (h : Stores s) : s.flags ≠ 0 := by
  intro h0
  simp [Stores, h0] at h

/-- The three ways of being open are one. -/
theorem agree_iff : Agree s ↔ (s.flags ≠ 0 ↔ Live s) ∧ ∀ p < s.next, Accounted s p := by
  constructor
  · intro h
    exact ⟨(close_succeeds s).symm.trans h.closes, h.freed⟩
  · intro h
    obtain ⟨hlive, hfreed⟩ := h
    exact ⟨fun flags header bytes => (open_refused flags header bytes s).trans hlive,
      (close_succeeds s).trans hlive, fun hs => hlive.mp (stores_flags hs), hfreed⟩

theorem ringbufAlloc_none_iff {n : Nat} {header : Option Ringbuf} {bytes : Option (Nat → UInt8)} :
    ringbufAlloc n header bytes = none ↔ ¬ (header.isSome ∧ bytes.isSome) := by
  cases header <;> cases bytes <;> simp [ringbufAlloc]

/-! ## What each call does -/

theorem step_open_refused {flags : Nat} {header : Option Ringbuf} {bytes : Option (Nat → UInt8)} (h : s.flags ≠ 0) :
    step s (.open_ flags header bytes) = s := by
  simp [step, uart8250Open, h]

theorem step_open_empty {flags : Nat} {header : Option Ringbuf} {bytes : Option (Nat → UInt8)} (h : s.flags = 0)
    (ha : ringbufAlloc 4096 header bytes = none) :
    step s (.open_ flags header bytes) = { s with flags := flags, rxBuf := none } := by
  simp [step, uart8250Open, h, ha]

theorem step_open_full {flags : Nat} {header : Option Ringbuf} {bytes : Option (Nat → UInt8)} {buf : Ringbuf}
    (h : s.flags = 0) (ha : ringbufAlloc 4096 header bytes = some buf) :
    step s (.open_ flags header bytes) =
      { s with flags := flags, rxBuf := some s.next, rings := Function.update s.rings s.next (some buf),
               next := s.next + 1 } := by
  simp [step, uart8250Open, h, ha]

/-- Buffers not yet allocated are neither live nor freed. -/
def Fresh (s : Uart8250) : Prop := (∀ p, s.next ≤ p → s.rings p = none ∧ s.frees p = 0) ∧ ∀ p, s.rxBuf = some p → p < s.next

theorem Fresh.step (h : Fresh s) (e : Ev) : Fresh (step s e) := by
  obtain ⟨hnew, hptr⟩ := h
  cases e with
  | open_ flags header bytes =>
    by_cases h0 : s.flags = 0
    · cases ha : ringbufAlloc 4096 header bytes with
      | none =>
        rw [step_open_empty h0 ha]
        exact ⟨hnew, fun p hp => by cases hp⟩
      | some buf =>
        rw [step_open_full h0 ha]
        refine ⟨?_, ?_⟩
        · intro p hp
          have hp' : s.next + 1 ≤ p := hp
          have hne : p ≠ s.next := by omega
          simp only [Function.update_of_ne hne]
          exact hnew p (by omega)
        · intro p hp
          cases hp
          exact Nat.lt_succ_self _
    · rw [step_open_refused h0]
      exact ⟨hnew, hptr⟩
  | close =>
    simp only [Uart.step, uart8250Close]
    split
    · exact ⟨hnew, hptr⟩
    · cases hrx : s.rxBuf with
      | none => exact ⟨hnew, fun p hp => by simp [ringbufFree, hrx] at hp⟩
      | some q =>
        have hq := hptr q hrx
        refine ⟨?_, ?_⟩
        · intro p hp
          have hp' : s.next ≤ p := hp
          have hne : p ≠ q := by omega
          simp only [ringbufFree, Function.update_of_ne hne]
          exact hnew p hp'
        · intro p hp
          simp only [ringbufFree, hrx] at hp
          exact hptr p (hrx.trans hp)

/-- A closed device that agrees has no live buffer: all of them are freed. -/
theorem Agree.closed_freed (h : Agree s) (h0 : s.flags = 0) {p : Nat} (hp : p < s.next) : s.rings p = none ∧ s.frees p = 1 := by
  rcases h.freed p hp with hf | ⟨-, -, -, hopen⟩
  · exact hf
  · exact absurd h0 hopen

/-- No buffer: the device must stay closed. -/
theorem Agree.open_empty_iff (h : Agree s) (h0 : s.flags = 0) (flags : Nat) :
    Agree { s with flags := flags, rxBuf := none } ↔ flags = 0 := by
  have hnot : ¬ Live { s with flags := flags, rxBuf := none } := by
    intro h
    obtain ⟨p, buf, hp, -⟩ := h
    cases hp
  rw [agree_iff]
  constructor
  · intro h
    obtain ⟨hopen, -⟩ := h
    exact not_not.mp (mt hopen.mp hnot)
  · intro hzero
    refine ⟨iff_of_false (fun hne => hne hzero) hnot, ?_⟩
    intro p hp
    exact .inl (h.closed_freed h0 hp)

/-- A buffer: the device must count as open. The buffers before it are all freed. -/
theorem Agree.open_full_iff (hf : Fresh s) (h : Agree s) (h0 : s.flags = 0) (flags : Nat) (buf : Ringbuf) :
    Agree { s with flags := flags, rxBuf := some s.next, rings := Function.update s.rings s.next (some buf),
                   next := s.next + 1 } ↔ flags ≠ 0 := by
  have hl : Live { s with flags := flags, rxBuf := some s.next, rings := Function.update s.rings s.next (some buf),
                          next := s.next + 1 } := ⟨s.next, buf, rfl, Function.update_self _ _ _⟩
  rw [agree_iff]
  constructor
  · intro h
    obtain ⟨hopen, -⟩ := h
    exact hopen.mpr hl
  · intro hne
    refine ⟨iff_of_true hne hl, ?_⟩
    intro p hp
    have hp' : p < s.next + 1 := hp
    by_cases he : p = s.next
    · subst he
      exact .inr ⟨by simp, (hf.1 s.next (Nat.le_refl _)).2, rfl, hne⟩
    · simp only [Accounted, Function.update_of_ne he]
      exact .inl (h.closed_freed h0 (by omega))

/-- A close that is let in frees the one buffer that is live. -/
theorem Agree.close (h : Agree s) : Agree (step s .close) := by
  obtain ⟨hlive, hfreed⟩ := agree_iff.mp h
  simp only [step, uart8250Close]
  split
  · exact h
  · obtain ⟨q, buf, hq, hbuf⟩ := hlive.mp ‹_›
    rw [agree_iff]
    refine ⟨⟨fun hne => absurd rfl hne, ?_⟩, ?_⟩
    · intro h
      obtain ⟨p, buf', hp, hbuf'⟩ := h
      simp only [ringbufFree, hq] at hp hbuf'
      cases hp
      simp at hbuf'
    · intro p hp
      simp only [ringbufFree, hq] at hp
      by_cases he : p = q
      · subst he
        refine .inl ⟨by simp [ringbufFree, hq], ?_⟩
        rcases hfreed p hp with ⟨hnone, -⟩ | ⟨-, h0, -, -⟩
        · rw [hnone] at hbuf
          cases hbuf
        · simp [ringbufFree, hq, h0]
      · rcases hfreed p hp with ⟨hnone, h1⟩ | ⟨-, -, hrx, -⟩
        · exact .inl ⟨by simp [ringbufFree, hq, he, hnone], by simp [ringbufFree, hq, he, h1]⟩
        · exact absurd (Option.some.inj (hrx.symm.trans hq)) he

/-- The step lemma: from a state that agrees, a call leads to one exactly if it meets the
    condition. -/
theorem Agree.step_iff (hf : Fresh s) (h : Agree s) (e : Ev) : Agree (step s e) ↔ Meets s e := by
  cases e with
  | open_ flags header bytes =>
    by_cases h0 : s.flags = 0
    · cases ha : ringbufAlloc 4096 header bytes with
      | none =>
        have hno := ringbufAlloc_none_iff.mp ha
        rw [step_open_empty h0 ha, h.open_empty_iff h0]
        constructor
        · intro hzero _
          exact iff_of_false (fun hne => hne hzero) hno
        · intro hm
          exact not_not.mp (mt (hm h0).mp hno)
      | some buf =>
        have hyes : header.isSome ∧ bytes.isSome := by
          by_contra hno
          rw [ringbufAlloc_none_iff.mpr hno] at ha
          cases ha
        rw [step_open_full h0 ha, h.open_full_iff hf h0]
        constructor
        · intro hne _
          exact iff_of_true hne hyes
        · intro hm
          exact (hm h0).mpr hyes
    · rw [step_open_refused h0]
      exact ⟨fun _ hc => absurd hc h0, fun _ => h⟩
  | close => exact iff_of_true h.close trivial

/-- A state that agrees is open for the handler as well exactly if being open makes it store. -/
theorem Agree.stores_iff (h : Agree s) : (Stores s ↔ Live s) ↔ (s.flags ≠ 0 → Stores s) := by
  have hlive := (agree_iff.mp h).1
  rw [← hlive]
  exact ⟨fun hs => hs.mpr, fun hs => ⟨stores_flags, hs⟩⟩

theorem Meets.step_write_iff {e : Ev} (hm : Meets s e) (hs : s.flags ≠ 0 → Stores s) :
    ((step s e).flags ≠ 0 → Stores (step s e)) ↔ MeetsWrite s e := by
  unfold MeetsWrite
  rw [and_iff_right hm]
  cases e with
  | open_ flags header bytes =>
    by_cases h0 : s.flags = 0
    · have hfl : (step s (.open_ flags header bytes)).flags = flags := by
        cases ha : ringbufAlloc 4096 header bytes with
        | none => rw [step_open_empty h0 ha]
        | some buf => rw [step_open_full h0 ha]
      unfold Stores
      rw [hfl]
      constructor
      · intro hst _ hyes
        exact hst ((hm h0).mpr hyes)
      · intro hst hne
        exact hst h0 ((hm h0).mp hne)
    · rw [step_open_refused h0]
      exact ⟨fun _ hc => absurd hc h0, fun _ => hs⟩
  | close =>
    refine iff_of_true ?_ trivial
    simp only [step, uart8250Close]
    split
    · exact hs
    · exact fun hne => absurd rfl hne

theorem Meets.failsClosed {e : Ev} (hm : Meets s e) : FailsClosed s e := by
  cases e with
  | open_ flags header bytes =>
    intro h0 hno
    rw [step_open_empty h0 (ringbufAlloc_none_iff.mpr hno)]
    exact not_not.mp (mt (hm h0).mp hno)
  | close => trivial

end Agree

/-! ## Runs -/

theorem fresh_init : Fresh init := ⟨fun _ _ => ⟨rfl, rfl⟩, fun _ hp => by cases hp⟩

theorem not_live_init : ¬ Live init := by
  intro h
  obtain ⟨p, buf, hp, -⟩ := h
  cases hp

theorem agree_init : Agree init := by
  refine agree_iff.mpr ⟨iff_of_false (fun hne => hne rfl) not_live_init, ?_⟩
  intro p hp
  exact absurd hp (Nat.not_lt_zero p)

/-- Every run of opens and closes, whatever flags they pass and whatever the heap returns:
    open state and buffer agree after each call, and a failing open leaves the device closed,
    exactly if every open let in has nonzero flags when, and only when, it gets its buffer.
    The handler then stores exactly while there is a buffer if those opens pass VO_FWRITE. -/
theorem open_state_agrees_iff (evs : List Ev) :
    (Throughout step Agree init evs ∧ EachStep step FailsClosed init evs ↔ EachStep step Meets init evs) ∧
    (Throughout step (fun s => Agree s ∧ (Stores s ↔ Live s)) init evs ↔ EachStep step MeetsWrite init evs) := by
  have hrun : Throughout step Agree init evs ↔ EachStep step Meets init evs :=
    throughout_iff_eachStep (fun _ e hf => hf.step e) (fun _ e hf h => h.step_iff hf e) fresh_init agree_init
  refine ⟨⟨fun h => hrun.mp h.1, fun h => ⟨hrun.mpr h, fun k e he => (h k e he).failsClosed⟩⟩, ?_⟩
  refine throughout_iff_eachStep (fun _ e hf => hf.step e) ?_ fresh_init ⟨agree_init, ?_⟩
  · rintro s e hf ⟨h, hs⟩
    have hs' := h.stores_iff.mp hs
    constructor
    · intro h
      obtain ⟨hnext, hst⟩ := h
      exact (((h.step_iff hf e).mp hnext).step_write_iff hs').mp (hnext.stores_iff.mp hst)
    · intro hm
      have hnext := (h.step_iff hf e).mpr hm.1
      exact ⟨hnext, hnext.stores_iff.mpr ((hm.1.step_write_iff hs').mpr hm)⟩
  · exact iff_of_false (by simp [Stores, init]) not_live_init

/-- Opened with no flags: the device still counts as closed, so the buffer is lost with the
    next open. Opened with no memory: the device counts as open, and the first byte received
    is written through NULL. -/
theorem an_open_without_flags_or_memory : (∀ header bytes, ¬ Agree (step init (.open_ 0 (some header) (some bytes)))) ∧
    ¬ Agree (step init (.open_ voFwrite none none)) ∧
    uart8250Interrupt (step init (.open_ voFwrite none none)) [65] = none := by
  refine ⟨?_, ?_, rfl⟩
  · intro header bytes h
    have hm := (agree_init.step_iff fresh_init _).mp h rfl
    exact absurd (hm.mpr ⟨rfl, rfl⟩) (by simp)
  · intro h
    have hm := (agree_init.step_iff fresh_init _).mp h rfl
    have hsome := (hm.mp (by simp [voFwrite])).1
    simp at hsome

/-! ## Interrupts -/

theorem interrupt_ignored {s : Uart8250} (h : ¬ Stores s) (values : List UInt8) : uart8250Interrupt s values = some s := by
  induction values with
  | nil => rfl
  | cons v values ih =>
    have hr : receive s v = some s := if_neg h
    rw [uart8250Interrupt, List.foldlM_cons, hr]
    exact ih

theorem interrupt_stored (values : List UInt8) : ∀ {s : Uart8250} {p : Nat} {buf : Ringbuf}, Stores s → s.rxBuf = some p →
    s.rings p = some buf →
    uart8250Interrupt s values = some { s with rings := Function.update s.rings p (some (values.foldl ringbufWrite buf)) } := by
  induction values with
  | nil =>
    intro s p buf _ _ hbuf
    rw [List.foldl_nil, ← hbuf, Function.update_eq_self]
    rfl
  | cons v values ih =>
    intro s p buf hs hp hbuf
    have hr : receive s v = some { s with rings := Function.update s.rings p (some (ringbufWrite buf v)) } := by
      unfold receive
      rw [if_pos (show s.flags &&& voFwrite ≠ 0 from hs), hp]
      simp only [hbuf]
    rw [uart8250Interrupt, List.foldlM_cons, hr]
    refine (@ih { s with rings := Function.update s.rings p (some (ringbufWrite buf v)) } p (ringbufWrite buf v) hs hp
      (Function.update_self _ _ _)).trans ?_
    rw [Function.update_idem, List.foldl_cons]

/-- In a state that agrees, what arrives goes into the buffer that `uart8250_read` reads, or
    nowhere. -/
theorem interrupt_of_agreeing_state {s : Uart8250} (h : Agree s) (values : List UInt8) :
    (¬ Stores s → uart8250Interrupt s values = some s) ∧
    (Stores s → ∃ p buf, s.rxBuf = some p ∧ s.rings p = some buf ∧
      uart8250Interrupt s values = some { s with rings := Function.update s.rings p (some (values.foldl ringbufWrite buf)) }) := by
  refine ⟨fun hs => interrupt_ignored hs values, ?_⟩
  intro hs
  obtain ⟨p, buf, hp, hbuf⟩ := h.stores hs
  exact ⟨p, buf, hp, hbuf, interrupt_stored values hs hp hbuf⟩

/-! ## Writing -/

def cr : UInt8 := 13

/-- The bytes sent to the port by `len` turns, and `write_bytes`. -/
def uart8250WriteBinary (m : Mem) : Nat → Nat → Nat → List UInt8 × Nat
  | 0, _, writeBytes => ([], writeBytes)
  | len + 1, buf, writeBytes =>
    let rest := uart8250WriteBinary m len (add32 buf 1) (add32 writeBytes 1)
    (m buf :: rest.1, rest.2)

def uart8250WriteNonBinary (m : Mem) : Nat → Nat → Nat → List UInt8 × Nat
  | 0, _, writeBytes => ([], writeBytes)
  | len + 1, buf, writeBytes =>
    if m buf = cr then
      let rest := uart8250WriteNonBinary m len (add32 buf 1) (add32 writeBytes 2)
      (cr :: 10 :: rest.1, rest.2)
    else if m buf = 127 then
      let rest := uart8250WriteNonBinary m len (add32 buf 1) (add32 writeBytes 1)
      (8 :: rest.1, rest.2)
    else
      let rest := uart8250WriteNonBinary m len (add32 buf 1) (add32 writeBytes 1)
      (m buf :: rest.1, rest.2)

/-- `if (!buf || !*buf)`: the first byte is looked at whatever `len` is. -/
def uart8250Write (flags : Nat) (m : Mem) (buf len : Nat) : List UInt8 × Nat :=
  if buf = 0 ∨ m buf = 0 then ([], 0)
  else if flags &&& voFbinary ≠ 0 then uart8250WriteBinary m len buf 0
  else uart8250WriteNonBinary m len buf 0

/-- CR becomes CR LF, 127 a backspace. -/
def translate (b : UInt8) : List UInt8 := if b = cr then [cr, 10] else if b = 127 then [8] else [b]

/-- All `len` bytes are sent, translated outside binary mode, and counted. -/
def Faithful (flags : Nat) (m : Mem) (buf len : Nat) : Prop :=
  uart8250Write flags m buf len =
    (if flags &&& voFbinary ≠ 0 then slice m buf len else (slice m buf len).flatMap translate, len)

instance (flags : Nat) (m : Mem) (buf len : Nat) : Decidable (Faithful flags m buf len) :=
  inferInstanceAs (Decidable (uart8250Write flags m buf len = _))

/-- The pointer may step over the end of memory when the loop is done. -/
theorem add32_next {α : Type} {buf len : Nat} (f : Nat → Nat → α) (hend : ∀ a b, f 0 a = f 0 b)
    (h : buf + (len + 1) ≤ 4294967296) : f len (add32 buf 1) = f len (buf + 1) := by
  cases len with
  | zero => exact hend _ _
  | succ len => rw [add32_eq (by omega)]

theorem add32_add32 (a b c : Nat) : add32 (add32 a b) c = add32 a (b + c) := by
  unfold add32
  omega

theorem writeBinary_eq (m : Mem) (len : Nat) : ∀ (buf writeBytes : Nat), buf + len ≤ 4294967296 → writeBytes < 4294967296 →
    uart8250WriteBinary m len buf writeBytes = (slice m buf len, add32 writeBytes len) := by
  induction len with
  | zero =>
    intro buf writeBytes _ hw
    exact Prod.ext rfl (Nat.mod_eq_of_lt hw).symm
  | succ len ih =>
    intro buf writeBytes hbuf _
    have hnext := add32_next (fun k p => uart8250WriteBinary m k p (add32 writeBytes 1)) (fun _ _ => rfl) hbuf
    simp only [uart8250WriteBinary, hnext]
    rw [ih (buf + 1) (add32 writeBytes 1) (by omega) (Nat.mod_lt _ (by omega)), slice_succ, add32_add32, Nat.add_comm 1]

/-- Every byte is translated; a CR counts for the two bytes it sends. -/
theorem writeNonBinary_eq (m : Mem) (len : Nat) : ∀ (buf writeBytes : Nat), buf + len ≤ 4294967296 → writeBytes < 4294967296 →
    uart8250WriteNonBinary m len buf writeBytes =
      ((slice m buf len).flatMap translate, add32 writeBytes (len + (slice m buf len).count cr)) := by
  induction len with
  | zero =>
    intro buf writeBytes _ hw
    exact Prod.ext rfl (Nat.mod_eq_of_lt hw).symm
  | succ len ih =>
    intro buf writeBytes hbuf _
    have hnext := fun w => add32_next (fun k p => uart8250WriteNonBinary m k p w) (fun _ _ => rfl) hbuf
    have hrest := fun a b => ih (buf + 1) (add32 a b) (by omega) (Nat.mod_lt _ (by omega))
    rw [slice_succ, List.flatMap_cons, List.count_cons]
    by_cases hcr : m buf = cr
    · simp only [uart8250WriteNonBinary, hcr, if_true, hnext, hrest, translate, add32_add32, beq_self_eq_true]
      refine Prod.ext rfl (congrArg (add32 writeBytes) ?_)
      omega
    · have hno : (m buf == cr) = false := beq_eq_false_iff_ne.mpr hcr
      have hcount : 1 + (len + (slice m (buf + 1) len).count cr) = len + 1 + ((slice m (buf + 1) len).count cr + 0) := by
        omega
      by_cases hdel : m buf = 127
      · simp only [uart8250WriteNonBinary, if_neg hcr, if_pos hdel, hnext, hrest, translate, add32_add32, hno, hcount]
        rfl
      · simp only [uart8250WriteNonBinary, if_neg hcr, if_neg hdel, hnext, hrest, translate, add32_add32, hno, hcount]
        rfl

theorem write_refused (flags : Nat) {m : Mem} {buf : Nat} (len : Nat) (h : m buf = 0) : uart8250Write flags m buf len = ([], 0) :=
  if_pos (.inr h)

/-- With something to send at the front, everything is sent; outside binary mode the count
    is of what was sent. -/
theorem write_sent (flags : Nat) {m : Mem} {buf len : Nat} (h0 : buf ≠ 0) (hbuf : buf + len ≤ 4294967296) (h : m buf ≠ 0) :
    uart8250Write flags m buf len =
      if flags &&& voFbinary ≠ 0 then (slice m buf len, len)
      else ((slice m buf len).flatMap translate, add32 0 (len + (slice m buf len).count cr)) := by
  have hlen : add32 0 len = len := by
    unfold add32
    omega
  unfold uart8250Write
  rw [if_neg (not_or.mpr ⟨h0, h⟩), writeBinary_eq m len buf 0 hbuf (by omega), writeNonBinary_eq m len buf 0 hbuf (by omega), hlen]

/-- Any buffer of `len` bytes in memory, whatever flags the device was opened with. -/
theorem write_faithful_iff (flags : Nat) (m : Mem) {buf len : Nat} (h0 : buf ≠ 0) (hbuf : buf + len ≤ 2 ^ 32) :
    Faithful flags m buf len ↔ len = 0 ∨ (m buf ≠ 0 ∧ (flags &&& voFbinary ≠ 0 ∨ cr ∉ slice m buf len)) := by
  have hcount : (slice m buf len).count cr ≤ len := by
    have hle := List.count_le_length (l := slice m buf len) (a := cr)
    rwa [length_slice] at hle
  unfold Faithful
  by_cases hfirst : m buf = 0
  · -- nothing is sent and 0 is returned
    rw [write_refused flags len hfirst]
    constructor
    · intro he
      exact .inl (congrArg Prod.snd he).symm
    · intro h
      rcases h with rfl | ⟨hne, -⟩
      · simp [slice]
      · exact absurd hfirst hne
  · rw [write_sent flags h0 hbuf hfirst]
    by_cases hbin : flags &&& voFbinary ≠ 0
    · rw [if_pos hbin, if_pos hbin]
      exact ⟨fun _ => .inr ⟨hfirst, .inl hbin⟩, fun _ => rfl⟩
    · rw [if_neg hbin, if_neg hbin, Prod.mk.injEq, eq_self_iff_true, true_and]
      have hmod : add32 0 (len + (slice m buf len).count cr) = len ↔ (slice m buf len).count cr = 0 := by
        unfold add32
        omega
      rw [hmod, List.count_eq_zero]
      constructor
      · intro hno
        exact .inr ⟨hfirst, .inr hno⟩
      · intro h
        rcases h with rfl | ⟨-, hb | hno⟩
        · simp [slice]
        · exact absurd hb hbin
        · exact hno

/-- Three bytes in memory at 100. -/
def page (a b c : UInt8) : Mem := put ⟨fun _ => 0⟩ 100 [a, b, c]

theorem plain_text_is_sent : Faithful voFwrite (page 72 105 127) 100 3 :=
  (write_faithful_iff voFwrite (page 72 105 127) (by simp) (by simp)).mpr (.inr (by decide))

/-- A CR counts twice, so four bytes are reported for a buffer of three; and in binary mode
    a buffer that starts with 0 is not sent at all. -/
theorem a_carriage_return_or_a_leading_zero :
    uart8250Write voFwrite (page 13 65 66) 100 3 = ([13, 10, 65, 66], 4) ∧ ¬ Faithful voFwrite (page 13 65 66) 100 3 ∧
    uart8250Write voFbinary (page 0 65 66) 100 3 = ([], 0) ∧ ¬ Faithful voFbinary (page 0 65 66) 100 3 := by
  decide

end NativeOS.Device.Uart
