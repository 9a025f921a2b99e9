/-
  NativeOS.Device.ConsoleNodes — the nodes behind the console (`vtcon_open`, `vtcon_close`
  in `kernel/device/vtcon/vtcon.c`).

  The console works on three other devices, each resolved and opened when it is opened
  itself. Whether it is open is read off `con_fb`, which the first attempt sets as soon as
  the path resolves and nothing ever clears; and `try_close_kbd` closes `con_fb`. What the
  console draws is in `Vtcon`; here only the calls of `fs_open` and `fs_close` count.

  Proved:
  * `console_protocol_iff` — open, closed and the calls agree throughout a run exactly if no
    open fails once the frame buffer has resolved, and the open console is never closed.
  * `console_never_opens_again` — once the path of the frame buffer has resolved, every open
    after the first success is refused, and so is every open after a failure.
  * `a_close_misses_the_keyboard`, `a_failed_open_is_final`.
-/

import Mathlib.Logic.Function.Basic
import NativeOS.Lib.Runs

namespace NativeOS.Device.ConsoleNodes

open NativeOS.Lib

/-! ## vtcon.c -/

def voFread : Nat := 1

inductive Node where
  | fb
  | kbd
  | clock
  deriving DecidableEq

/-- What an attempt meets: the path does not resolve, the node does not open, or it does. -/
inductive Attempt where
  | missing
  | refused
  | opened
  deriving DecidableEq

/-- The three pointers, and the successful calls of `fs_open` and the calls of `fs_close` on
    each node. `isOpen` is no part of the code: the last open succeeded and no close followed. -/
structure Con where
  conFb : Option Node
  conKbd : Option Node
  clock : Option Node
  opened : Node → Nat
  closed : Node → Nat
  isOpen : Bool

def init : Con := ⟨none, none, none, fun _ => 0, fun _ => 0, false⟩

def fsOpen (s : Con) (node : Node) : Con := { s with opened := Function.update s.opened node (s.opened node + 1) }

/-- `NODE_OPS` of NULL has no `vfs_close`. -/
def fsClose (s : Con) : Option Node → Con
  | none => s
  | some node => { s with closed := Function.update s.closed node (s.closed node + 1) }

/-- The pointer becomes what `fs_resolve` returned, opened or not. -/
def tryOpen (node : Node) (point : Con → Option Node → Con) (a : Attempt) (s : Con) : Con × Int :=
  match a with
  | .missing => (point s none, -1)
  | .refused => (point s (some node), -1)
  | .opened => (fsOpen (point s (some node)) node, 0)

def tryOpenFb : Attempt → Con → Con × Int := tryOpen .fb fun s p => { s with conFb := p }
def tryOpenKbd : Attempt → Con → Con × Int := tryOpen .kbd fun s p => { s with conKbd := p }
def tryOpenClock : Attempt → Con → Con × Int := tryOpen .clock fun s p => { s with clock := p }

/-- It says `con_fb`. -/
def tryCloseKbd (s : Con) : Con := fsClose s s.conFb
def tryCloseClock (s : Con) : Con := fsClose s s.clock
def tryCloseFb (s : Con) : Con := fsClose s s.conFb

/-- `o`: what the attempt on each node meets, as far as it comes to one. -/
def vtconOpen (flags : Nat) (o : Node → Attempt) (s : Con) : Con × Int :=
  if flags &&& voFread ≠ 0 then (s, -1)
  else if s.conFb.isSome then (s, -1)
  else
    let fb := tryOpenFb (o .fb) s
    if fb.2 < 0 then (fb.1, -1)
    else
      let kbd := tryOpenKbd (o .kbd) fb.1
      if kbd.2 < 0 then (tryCloseFb kbd.1, -1)
      else
        let clock := tryOpenClock (o .clock) kbd.1
        if clock.2 < 0 then (tryCloseFb (tryCloseKbd clock.1), -1) else (clock.1, 0)

def vtconClose (s : Con) : Con × Int := (tryCloseFb (tryCloseKbd (tryCloseClock s)), 0)

/-! ## Runs -/

inductive Ev where
  | open_ (flags : Nat) (o : Node → Attempt)
  | close

def step (s : Con) : Ev → Con
  | .open_ flags o =>
    let r := vtconOpen flags o s
    { r.1 with isOpen := if r.2 = 0 then true else s.isOpen }
  | .close => { (vtconClose s).1 with isOpen := false }

/-- An open without VO_FREAD will succeed exactly if the console is closed and all three
    nodes resolve and open; and each node was opened once more than it was closed if the
    console is open, as often if not. -/
structure Protocol (s : Con) : Prop where
  opens : ∀ flags o, flags &&& voFread = 0 →
    ((vtconOpen flags o s).2 = 0 ↔ s.isOpen = false ∧ ∀ node, o node = .opened)
  balanced : ∀ node, s.opened node = s.closed node + if s.isOpen then 1 else 0

/-- The open is refused at once, or the frame buffer does not resolve, or everything opens;
    and a close finds nothing open. -/
def Meets (s : Con) : Ev → Prop
  | .open_ flags o => flags &&& voFread ≠ 0 ∨ s.isOpen = true ∨ o .fb = .missing ∨ ∀ node, o node = .opened
  | .close => s.isOpen = false

section Protocol

variable {s : Con}

/-! ## What an attempt does -/

@[simp] theorem fsClose_conFb (s : Con) (p : Option Node) : (fsClose s p).conFb = s.conFb := by
  cases p <;> rfl

@[simp] theorem fsClose_isOpen (s : Con) (p : Option Node) : (fsClose s p).isOpen = s.isOpen := by
  cases p <;> rfl

@[simp] theorem tryOpenFb_ret (a : Attempt) (s : Con) : (tryOpenFb a s).2 = if a = .opened then 0 else -1 := by
  cases a <;> rfl

@[simp] theorem tryOpenKbd_ret (a : Attempt) (s : Con) : (tryOpenKbd a s).2 = if a = .opened then 0 else -1 := by
  cases a <;> rfl

@[simp] theorem tryOpenClock_ret (a : Attempt) (s : Con) : (tryOpenClock a s).2 = if a = .opened then 0 else -1 := by
  cases a <;> rfl

@[simp] theorem tryOpenFb_isOpen (a : Attempt) (s : Con) : (tryOpenFb a s).1.isOpen = s.isOpen := by
  cases a <;> rfl

@[simp] theorem tryOpenKbd_isOpen (a : Attempt) (s : Con) : (tryOpenKbd a s).1.isOpen = s.isOpen := by
  cases a <;> rfl

@[simp] theorem tryOpenClock_isOpen (a : Attempt) (s : Con) : (tryOpenClock a s).1.isOpen = s.isOpen := by
  cases a <;> rfl

/-- As soon as the path resolves. -/
theorem tryOpenFb_conFb {a : Attempt} (s : Con) (h : a ≠ .missing) : (tryOpenFb a s).1.conFb = some .fb := by
  cases a with
  | missing => exact absurd rfl h
  | refused => rfl
  | opened => rfl

@[simp] theorem tryOpenKbd_conFb (a : Attempt) (s : Con) : (tryOpenKbd a s).1.conFb = s.conFb := by
  cases a <;> rfl

@[simp] theorem tryOpenClock_conFb (a : Attempt) (s : Con) : (tryOpenClock a s).1.conFb = s.conFb := by
  cases a <;> rfl

theorem all_opened {o : Node → Attempt} : (∀ node, o node = .opened) ↔ o .fb = .opened ∧ o .kbd = .opened ∧ o .clock = .opened := by
  constructor
  · intro h
    exact ⟨h .fb, h .kbd, h .clock⟩
  · intro h node
    obtain ⟨h1, h2, h3⟩ := h
    cases node
    · exact h1
    · exact h2
    · exact h3

/-! ## What an open does -/

theorem vtconOpen_read {flags : Nat} (o : Node → Attempt) (s : Con) (hf : flags &&& voFread ≠ 0) : vtconOpen flags o s = (s, -1) :=
  if_pos hf

theorem vtconOpen_again (flags : Nat) (o : Node → Attempt) (hc : s.conFb.isSome) : vtconOpen flags o s = (s, -1) := by
  simp [vtconOpen, hc]

theorem vtconOpen_missing {flags : Nat} {o : Node → Attempt} (hf : flags &&& voFread = 0) (hc : s.conFb = none)
    (hfb : o .fb = .missing) : vtconOpen flags o s = (s, -1) := by
  obtain ⟨conFb, conKbd, clock, opened, closed, isOpen⟩ := s
  subst hc
  simp [vtconOpen, hf, tryOpenFb, tryOpen, hfb]

theorem vtconOpen_all {flags : Nat} {o : Node → Attempt} (hf : flags &&& voFread = 0) (hc : s.conFb = none)
    (hall : ∀ node, o node = .opened) : vtconOpen flags o s =
      ({ s with conFb := some .fb, conKbd := some .kbd, clock := some .clock, opened := fun node => s.opened node + 1 }, 0) := by
  have hcount : Function.update (Function.update (Function.update s.opened .fb (s.opened .fb + 1)) .kbd
      (s.opened .kbd + 1)) .clock (s.opened .clock + 1) = fun node => s.opened node + 1 := by
    funext node
    cases node <;> simp
  simp [vtconOpen, hf, hc, tryOpenFb, tryOpenKbd, tryOpenClock, tryOpen, fsOpen, hall, hcount]

/-- Whatever fails behind the frame buffer's path, the pointer stays. -/
theorem vtconOpen_fails {flags : Nat} {o : Node → Attempt} (hf : flags &&& voFread = 0) (hc : s.conFb = none)
    (hfb : o .fb ≠ .missing) (hall : ¬ ∀ node, o node = .opened) :
    (vtconOpen flags o s).2 = -1 ∧ (vtconOpen flags o s).1.conFb = some .fb ∧ (vtconOpen flags o s).1.isOpen = s.isOpen := by
  have hptr := tryOpenFb_conFb s hfb
  unfold vtconOpen
  rw [if_neg (not_not.mpr hf), if_neg (by simp [hc])]
  by_cases h1 : o .fb = .opened
  · rw [h1] at hptr
    by_cases h2 : o .kbd = .opened
    · have h3 : o .clock ≠ .opened := fun h3 => hall (all_opened.mpr ⟨h1, h2, h3⟩)
      rw [h2]
      simp [h1, h3, tryCloseFb, tryCloseKbd, hptr]
    · simp [h1, h2, tryCloseFb, hptr]
  · simp [h1, hptr]

/-- An open without VO_FREAD succeeds exactly with the pointer clear and all nodes there. -/
theorem vtconOpen_zero {flags : Nat} (o : Node → Attempt) (s : Con) (hf : flags &&& voFread = 0) :
    (vtconOpen flags o s).2 = 0 ↔ s.conFb = none ∧ ∀ node, o node = .opened := by
  cases hc : s.conFb with
  | some node => simp [vtconOpen_again flags o (show s.conFb.isSome by simp [hc])]
  | none =>
    by_cases hall : ∀ node, o node = .opened
    · simp [vtconOpen_all hf hc hall, hall]
    · have hne : (vtconOpen flags o s).2 = -1 := by
        by_cases hfb : o .fb = .missing
        · rw [vtconOpen_missing hf hc hfb]
        · exact (vtconOpen_fails hf hc hfb hall).1
      simp [hne, hall]

/-- The console's own view is right exactly if the pointer tells what happened. -/
theorem protocol_iff : Protocol s ↔
    (s.conFb = none ↔ s.isOpen = false) ∧ ∀ node, s.opened node = s.closed node + if s.isOpen then 1 else 0 := by
  constructor
  · intro h
    obtain ⟨hopens, hbal⟩ := h
    have h := (hopens 0 (fun _ => .opened) rfl).symm.trans (vtconOpen_zero (fun _ => .opened) s rfl)
    refine ⟨?_, hbal⟩
    simpa using h.symm
  · intro h
    obtain ⟨hptr, hbal⟩ := h
    refine ⟨?_, hbal⟩
    intro flags o hf
    rw [vtconOpen_zero o s hf, hptr]

/-! ## Every step -/

/-- The clock's pointer is not set before the frame buffer's. -/
def InOrder (s : Con) : Prop := s.conFb = none → s.clock = none

theorem step_read {flags : Nat} (o : Node → Attempt) (s : Con) (hf : flags &&& voFread ≠ 0) : step s (.open_ flags o) = s := by
  simp [step, vtconOpen_read o s hf]

theorem step_again (flags : Nat) (o : Node → Attempt) (hc : s.conFb.isSome) : step s (.open_ flags o) = s := by
  simp [step, vtconOpen_again flags o hc]

theorem step_missing {flags : Nat} {o : Node → Attempt} (hf : flags &&& voFread = 0) (hc : s.conFb = none)
    (hfb : o .fb = .missing) : step s (.open_ flags o) = s := by
  simp [step, vtconOpen_missing hf hc hfb]

theorem step_all {flags : Nat} {o : Node → Attempt} (hf : flags &&& voFread = 0) (hc : s.conFb = none)
    (hall : ∀ node, o node = .opened) : step s (.open_ flags o) =
      { s with conFb := some .fb, conKbd := some .kbd, clock := some .clock, opened := fun node => s.opened node + 1,
               isOpen := true } := by
  simp [step, vtconOpen_all hf hc hall]

theorem step_fails {flags : Nat} {o : Node → Attempt} (hf : flags &&& voFread = 0) (hc : s.conFb = none)
    (hfb : o .fb ≠ .missing) (hall : ¬ ∀ node, o node = .opened) :
    (step s (.open_ flags o)).conFb = some .fb ∧ (step s (.open_ flags o)).isOpen = s.isOpen := by
  obtain ⟨hret, hptr, -⟩ := vtconOpen_fails hf hc hfb hall
  refine ⟨hptr, ?_⟩
  simp [step, hret]

theorem step_close_conFb (s : Con) : (step s .close).conFb = s.conFb := by
  simp [step, vtconClose, tryCloseFb, tryCloseKbd, tryCloseClock]

/-- The five ways an open can go. -/
theorem open_cases (s : Con) (flags : Nat) (o : Node → Attempt) :
    (flags &&& voFread ≠ 0) ∨ s.conFb.isSome ∨
    (flags &&& voFread = 0 ∧ s.conFb = none ∧
      (o .fb = .missing ∨ (∀ node, o node = .opened) ∨ (o .fb ≠ .missing ∧ ¬ ∀ node, o node = .opened))) := by
  by_cases hf : flags &&& voFread = 0
  · cases hc : s.conFb with
    | some node => exact .inr (.inl rfl)
    | none =>
      refine .inr (.inr ⟨hf, rfl, ?_⟩)
      by_cases hfb : o .fb = .missing
      · exact .inl hfb
      · by_cases hall : ∀ node, o node = .opened
        · exact .inr (.inl hall)
        · exact .inr (.inr ⟨hfb, hall⟩)
  · exact .inl hf

theorem InOrder.step (h : InOrder s) (e : Ev) : InOrder (step s e) := by
  cases e with
  | open_ flags o =>
    rcases open_cases s flags o with hf | hc | ⟨hf, hc, hfb | hall | ⟨hfb, hall⟩⟩
    · rwa [step_read o s hf]
    · rwa [step_again flags o hc]
    · rwa [step_missing hf hc hfb]
    · rw [step_all hf hc hall]
      intro hnone
      cases hnone
    · intro hnone
      rw [(step_fails hf hc hfb hall).1] at hnone
      cases hnone
  | close =>
    intro hnone
    rw [step_close_conFb] at hnone
    have hclock := h hnone
    simp [ConsoleNodes.step, vtconClose, tryCloseFb, tryCloseKbd, tryCloseClock, fsClose, hclock, hnone]

/-- A close of a console that was never opened finds only NULL pointers. -/
theorem step_close_closed (hi : InOrder s) (hc : s.conFb = none) (hopen : s.isOpen = false) : step s .close = s := by
  obtain ⟨conFb, conKbd, clock, opened, closed, isOpen⟩ := s
  have hclock : clock = none := hi hc
  subst hc hopen hclock
  rfl

/-- A set pointer with the console closed: the next open will be refused. -/
theorem not_protocol (hc : s.conFb.isSome) (hopen : s.isOpen = false) : ¬ Protocol s := by
  intro h
  have hnone := (protocol_iff.mp h).1.mpr hopen
  rw [hnone] at hc
  cases hc

theorem Protocol.step_iff (hi : InOrder s) (h : Protocol s) (e : Ev) : Protocol (step s e) ↔ Meets s e := by
  obtain ⟨hptr, hbal⟩ := protocol_iff.mp h
  cases e with
  | open_ flags o =>
    rcases open_cases s flags o with hf | hc | ⟨hf, hc, hfb | hall | ⟨hfb, hall⟩⟩
    · rw [step_read o s hf]
      exact iff_of_true h (.inl hf)
    · have hopen : s.isOpen = true := by
        by_contra hno
        rw [hptr.mpr (by simpa using hno)] at hc
        cases hc
      rw [step_again flags o hc]
      exact iff_of_true h (.inr (.inl hopen))
    · rw [step_missing hf hc hfb]
      exact iff_of_true h (.inr (.inr (.inl hfb)))
    · -- all three nodes are opened once more
      refine iff_of_true ?_ (.inr (.inr (.inr hall)))
      have hclosed := hptr.mp hc
      rw [step_all hf hc hall, protocol_iff]
      refine ⟨by simp, ?_⟩
      intro node
      have hnode := hbal node
      simp [hclosed] at hnode
      simp [hnode]
    · -- rolled back or not, the pointer is set and the console closed
      obtain ⟨hset, hsame⟩ := step_fails hf hc hfb hall
      have hclosed := hptr.mp hc
      refine iff_of_false (not_protocol (by rw [hset]; rfl) (hsame.trans hclosed)) ?_
      intro h
      rcases h with hread | hopen | hmiss | hgot
      · exact hread hf
      · rw [hclosed] at hopen
        cases hopen
      · exact hfb hmiss
      · exact hall hgot
  | close =>
    by_cases hopen : s.isOpen = false
    · rw [step_close_closed hi (hptr.mpr hopen) hopen]
      exact iff_of_true h hopen
    · refine iff_of_false (not_protocol ?_ rfl) hopen
      rw [step_close_conFb]
      cases hc : s.conFb with
      | none => exact absurd (hptr.mp hc) hopen
      | some node => rfl

end Protocol

/-! ## Every run -/

theorem init_protocol : Protocol init := by
  refine protocol_iff.mpr ⟨iff_of_true rfl rfl, ?_⟩
  intro node
  rfl

/-- Any opens and closes, whatever each attempt on a node meets. -/
theorem console_protocol_iff (evs : List Ev) : Throughout step Protocol init evs ↔ EachStep step Meets init evs :=
  throughout_iff_eachStep (fun _ e hi => hi.step e) (fun _ e hi h => h.step_iff hi e) (fun _ => rfl) init_protocol

/-- Once the frame buffer's path has resolved, no open is let in, after whatever calls. -/
theorem console_never_opens_again (evs : List Ev) : ∀ {s : Con}, s.conFb.isSome →
    ∀ flags o, (vtconOpen flags o (evs.foldl step s)).2 = -1 := by
  induction evs with
  | nil =>
    intro s hc flags o
    rw [List.foldl_nil, vtconOpen_again flags o hc]
  | cons e evs ih =>
    intro s hc
    refine @ih (step s e) ?_
    cases e with
    | open_ flags o => rwa [step_again flags o hc]
    | close => rwa [step_close_conFb]

def allOpen : Node → Attempt := fun _ => .opened

/-- Opened and closed: the frame buffer is closed twice, the keyboard never, and the console
    will not open again. -/
theorem a_close_misses_the_keyboard : ¬ Protocol ([Ev.open_ 2 allOpen, .close].foldl step init) ∧
    ([Ev.open_ 2 allOpen, .close].foldl step init).closed .fb = 2 ∧
    ([Ev.open_ 2 allOpen, .close].foldl step init).closed .kbd = 0 ∧
    (vtconOpen 2 allOpen ([Ev.open_ 2 allOpen, .close].foldl step init)).2 = -1 := by
  refine ⟨not_protocol (by decide) (by decide), by decide, by decide, by decide⟩

/-- No keyboard at the first attempt: the console counts as open, with nothing open. -/
theorem a_failed_open_is_final : ¬ Protocol ([Ev.open_ 2 fun node => if node = .kbd then .missing else .opened].foldl step init) ∧
    (vtconOpen 2 allOpen
      ([Ev.open_ 2 fun node => if node = .kbd then .missing else .opened].foldl step init)).2 = -1 := by
  refine ⟨not_protocol (by decide) (by decide), by decide⟩

end NativeOS.Device.ConsoleNodes
