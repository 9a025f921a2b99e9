/-
  NativeOS.Lib.Mutex — work on a shared state under a lock.

  Any number of parties make calls. A call takes the lock, trying until it gets it, works
  on the shared state one step at a time, gives the lock back and returns. The steps of the
  parties interleave in any order. Nobody looks at the state without the lock.

  `Lock` lists what is asked of the lock's two steps; from it follow, for every run:
  * `run_inv` — at most one party is between taking the lock and giving it back, and the
    state is what the finished calls leave when each is run alone, in the order they finished
    in, with the work of the one that is going on; each call returns what it returns alone.
  * `Inv.drains`, `Inv.gets_in` — if calls end when run alone, the party that holds the lock
    can give it back without the others, and one that tries can get in.
-/

import Mathlib.Logic.Function.Basic

namespace NativeOS.Lib.Mutex

/-! ## Locks, and work done under them -/

/-- A word that a step takes if it is free, and a step gives back. -/
structure Lock (W : Type) where
  take : W → Bool × W
  release : W → W
  Held : W → Prop
  take_free : ∀ w, ¬ Held w → (take w).1 = true ∧ Held (take w).2
  take_held : ∀ w, Held w → (take w).1 = false ∧ Held (take w).2
  released : ∀ w, ¬ Held (release w)

/-- What a call does: it begins with registers of its own, and each step goes on or is done. -/
structure Work (S C R V : Type) where
  enter : C → R
  step : R → S → (R ⊕ V) × S

namespace Work

variable {S C R V : Type} {M : Work S C R V} {r r' : R} {s s' s1 : S} {v v' : V}

/-- Some steps, none of them the last. -/
inductive Goes (M : Work S C R V) : R → S → R → S → Prop
  | here (r : R) (s : S) : Goes M r s r s
  | step {r r1 r' : R} {s s1 s' : S} : M.step r s = (.inl r1, s1) → Goes M r1 s1 r' s' → Goes M r s r' s'

/-- All the steps. -/
inductive Ends (M : Work S C R V) : R → S → V → S → Prop
  | last {r : R} {s s' : S} {v : V} : M.step r s = (.inr v, s') → Ends M r s v s'
  | step {r r1 : R} {s s1 s' : S} {v : V} : M.step r s = (.inl r1, s1) → Ends M r1 s1 v s' → Ends M r s v s'

theorem Goes.snoc {r1 : R} (h : M.Goes r s r1 s1) (hs : M.step r1 s1 = (.inl r', s')) : M.Goes r s r' s' := by
  induction h with
  | here r s => exact .step hs (.here _ _)
  | step hfirst _ ih => exact .step hfirst (ih hs)

theorem Goes.ends {r1 : R} (h : M.Goes r s r1 s1) (he : M.Ends r1 s1 v s') : M.Ends r s v s' := by
  induction h with
  | here r s => exact he
  | step hfirst _ ih => exact .step hfirst (ih he)

/-- What is done on the way does not change where it ends. -/
theorem Goes.rest {r1 : R} (h : M.Goes r s r1 s1) (he : M.Ends r s v s') : M.Ends r1 s1 v s' := by
  induction h with
  | here r s => exact he
  | step hfirst _ ih =>
    cases he with
    | last hlast => cases hfirst.symm.trans hlast
    | step hnext he =>
      cases hfirst.symm.trans hnext
      exact ih he

theorem Ends.unique (h : M.Ends r s v s') {s2 : S} (h' : M.Ends r s v' s2) : v = v' ∧ s' = s2 := by
  induction h with
  | last hlast =>
    cases h' with
    | last hlast' =>
      cases hlast.symm.trans hlast'
      exact ⟨rfl, rfl⟩
    | step hstep _ => cases hlast.symm.trans hstep
  | step hstep _ ih =>
    cases h' with
    | last hlast => cases hstep.symm.trans hlast
    | step hstep' he =>
      cases hstep.symm.trans hstep'
      exact ih he

/-- A call run alone. -/
def Alone (M : Work S C R V) (c : C) (s : S) (v : V) (s' : S) : Prop := M.Ends (M.enter c) s v s'

end Work

/-! ## Parties -/

/-- Where a party is. -/
inductive Phase (C R V : Type) where
  | idle
  | trying (c : C)
  | inside (c : C) (r : R)
  | leaving (c : C) (v : V)

def Phase.Holds {C R V : Type} : Phase C R V → Prop
  | .inside _ _ => True
  | .leaving _ _ => True
  | _ => False

structure Parties (T W S C R V : Type) where
  word : W
  shared : S
  phase : T → Phase C R V

/-- What a party does next. -/
inductive Act (T C V : Type) where
  | call (t : T) (c : C)
  | try_ (t : T)
  | work (t : T)
  | finish (t : T) (c : C) (v : V)
  | leave (t : T) (c : C) (v : V)

def Act.party {T C V : Type} : Act T C V → T
  | .call t _ => t
  | .try_ t => t
  | .work t => t
  | .finish t _ _ => t
  | .leave t _ _ => t

def Act.isCall {T C V : Type} : Act T C V → Bool
  | .call _ _ => true
  | _ => false

/-- A finished call, who made it and what it returns. -/
structure Call (T C V : Type) where
  party : T
  call : C
  result : V

namespace Parties

variable {T W S C R V : Type} [DecidableEq T]

def set (x : Parties T W S C R V) (t : T) (p : Phase C R V) : Parties T W S C R V :=
  { x with phase := Function.update x.phase t p }

/-- One step of one party. -/
inductive Step (L : Lock W) (M : Work S C R V) : Parties T W S C R V → Act T C V → Parties T W S C R V → Prop
  | call (x : Parties T W S C R V) (t : T) (c : C) : x.phase t = .idle → Step L M x (.call t c) (x.set t (.trying c))
  | fail (x : Parties T W S C R V) (t : T) (c : C) : x.phase t = .trying c → (L.take x.word).1 = false →
      Step L M x (.try_ t) { x with word := (L.take x.word).2 }
  | take (x : Parties T W S C R V) (t : T) (c : C) : x.phase t = .trying c → (L.take x.word).1 = true →
      Step L M x (.try_ t) { x.set t (.inside c (M.enter c)) with word := (L.take x.word).2 }
  | work (x : Parties T W S C R V) (t : T) (c : C) (r r' : R) (s' : S) : x.phase t = .inside c r →
      M.step r x.shared = (.inl r', s') → Step L M x (.work t) { x.set t (.inside c r') with shared := s' }
  | finish (x : Parties T W S C R V) (t : T) (c : C) (r : R) (v : V) (s' : S) : x.phase t = .inside c r →
      M.step r x.shared = (.inr v, s') → Step L M x (.finish t c v) { x.set t (.leaving c v) with shared := s' }
  | leave (x : Parties T W S C R V) (t : T) (c : C) (v : V) : x.phase t = .leaving c v →
      Step L M x (.leave t c v) { x.set t .idle with word := L.release x.word }

/-- What a party does when its turn comes; an idle one makes the call `next`, if there is one. -/
def turn (L : Lock W) (M : Work S C R V) (x : Parties T W S C R V) (t : T) (next : Option C) :
    Option (Act T C V × Parties T W S C R V) :=
  match x.phase t with
  | .idle => next.map fun c => (.call t c, x.set t (.trying c))
  | .trying c =>
    match L.take x.word with
    | (true, w) => some (.try_ t, { x.set t (.inside c (M.enter c)) with word := w })
    | (false, w) => some (.try_ t, { x with word := w })
  | .inside c r =>
    match M.step r x.shared with
    | (.inl r', s') => some (.work t, { x.set t (.inside c r') with shared := s' })
    | (.inr v, s') => some (.finish t c v, { x.set t (.leaving c v) with shared := s' })
  | .leaving c v => some (.leave t c v, { x.set t .idle with word := L.release x.word })

theorem turn_step {L : Lock W} {M : Work S C R V} {x x' : Parties T W S C R V} {t : T} {next : Option C} {a : Act T C V}
    (h : turn L M x t next = some (a, x')) : Step L M x a x' := by
  unfold turn at h
  split at h
  · rename_i ht
    obtain ⟨c, -, hc⟩ := Option.map_eq_some_iff.mp h
    cases hc
    exact .call x t c ht
  · rename_i c ht
    split at h
    · rename_i w htake
      cases h
      have hstep := Step.take (M := M) x t c ht (congrArg Prod.fst htake)
      rw [htake] at hstep
      exact hstep
    · rename_i w htake
      cases h
      have hstep := Step.fail (M := M) x t c ht (congrArg Prod.fst htake)
      rw [htake] at hstep
      exact hstep
  · rename_i c r ht
    split at h
    · rename_i r' s' hstep
      cases h
      exact .work x t c r r' s' ht hstep
    · rename_i v s' hstep
      cases h
      exact .finish x t c r v s' ht hstep
  · rename_i c v ht
    cases h
    exact .leave x t c v ht

end Parties

/-- The finished calls, newest first. -/
def recordCall {T C V : Type} (h : List (Call T C V)) : Act T C V → List (Call T C V)
  | .finish t c v => ⟨t, c, v⟩ :: h
  | _ => h

/-- A run from a free lock, with nobody in a call. -/
inductive Run {T W S C R V : Type} [DecidableEq T] (L : Lock W) (M : Work S C R V) (s0 : S) :
    List (Call T C V) → Parties T W S C R V → Prop
  | start {w0 : W} : ¬ L.Held w0 → Run L M s0 [] ⟨w0, s0, fun _ => .idle⟩
  | step {h : List (Call T C V)} {x x' : Parties T W S C R V} {a : Act T C V} :
      Run L M s0 h x → Parties.Step L M x a x' → Run L M s0 (recordCall h a) x'

/-- The parties take turns as `schedule` says; an idle one calls what stands there. -/
def turns {T W S C R V : Type} [DecidableEq T] (L : Lock W) (M : Work S C R V) (h : List (Call T C V)) (x : Parties T W S C R V) :
    List (T × Option C) → Option (List (Call T C V) × Parties T W S C R V)
  | [] => some (h, x)
  | (t, next) :: schedule =>
    match Parties.turn L M x t next with
    | some (a, x') => turns L M (recordCall h a) x' schedule
    | none => none

theorem turns_run {T W S C R V : Type} [DecidableEq T] {L : Lock W} {M : Work S C R V} {s0 : S} {schedule : List (T × Option C)}
    {h : List (Call T C V)} {x : Parties T W S C R V} {r : List (Call T C V) × Parties T W S C R V} (hr : Run L M s0 h x)
    (hturns : turns L M h x schedule = some r) : Run L M s0 r.1 r.2 := by
  induction schedule generalizing h x with
  | nil =>
    cases hturns
    exact hr
  | cons entry schedule ih =>
    unfold turns at hturns
    split at hturns
    · rename_i a x' hturn
      exact ih (hr.step (Parties.turn_step hturn)) hturns
    · cases hturns

/-- The calls run one after the other. -/
inductive Serial {T S C R V : Type} (M : Work S C R V) (s0 : S) : List (Call T C V) → S → Prop
  | nil : Serial M s0 [] s0
  | cons {h : List (Call T C V)} {k : Call T C V} {s s' : S} :
      Serial M s0 h s → M.Alone k.call s k.result s' → Serial M s0 (k :: h) s'

/-- The results leave one state only. -/
theorem Serial.unique {T S C R V : Type} {M : Work S C R V} {s0 s s' : S} {h : List (Call T C V)} (hs : Serial M s0 h s)
    (hs' : Serial M s0 h s') : s = s' := by
  induction hs generalizing s' with
  | nil =>
    cases hs'
    rfl
  | cons _ ha ih =>
    cases hs' with
    | cons hs1 ha1 =>
      cases ih hs1
      exact (ha.unique ha1).2

/-! ## The invariant -/

structure Inv {T W S C R V : Type} (L : Lock W) (M : Work S C R V) (s0 : S) (h : List (Call T C V))
    (x : Parties T W S C R V) : Prop where
  held : L.Held x.word ↔ ∃ t, (x.phase t).Holds
  exclusive : ∀ t u, (x.phase t).Holds → (x.phase u).Holds → t = u
  /-- What the finished calls leave, and how far the work that goes on has come. -/
  serial : ∃ s, Serial M s0 h s ∧ ((∀ t c r, x.phase t ≠ .inside c r) → x.shared = s) ∧
    ∀ t c r, x.phase t = .inside c r → M.Goes (M.enter c) s r x.shared
  returns : ∀ t c v, x.phase t = .leaving c v → ⟨t, c, v⟩ ∈ h

section Proofs

variable {T W S C R V : Type} {L : Lock W} {M : Work S C R V} {s0 : S} {h : List (Call T C V)}
  {x x' : Parties T W S C R V} {a : Act T C V} {t u : T} {p : Phase C R V}

theorem Inv.not_inside (hi : Inv L M s0 h x) (hfree : ¬ L.Held x.word) (u : T) (c : C) (r : R) : x.phase u ≠ .inside c r := by
  intro hu
  refine hfree (hi.held.mpr ⟨u, ?_⟩)
  rw [hu]
  trivial

/-- Beside a party that holds nobody is inside. -/
theorem Inv.alone (hi : Inv L M s0 h x) (ht : (x.phase t).Holds) (hne : u ≠ t) (c : C) (r : R) : x.phase u ≠ .inside c r := by
  intro hu
  refine hne (hi.exclusive u t ?_ ht)
  rw [hu]
  trivial

theorem Inv.fail (hi : Inv L M s0 h x) (hf : (L.take x.word).1 = false) : Inv L M s0 h { x with word := (L.take x.word).2 } := by
  have hheld : L.Held x.word := by
    by_contra hfree
    rw [(L.take_free x.word hfree).1] at hf
    cases hf
  exact ⟨iff_of_true (L.take_held x.word hheld).2 (hi.held.mp hheld), hi.exclusive, hi.serial, hi.returns⟩

variable [DecidableEq T]

theorem phase_set (x : Parties T W S C R V) (t u : T) (p : Phase C R V) :
    (x.set t p).phase u = if u = t then p else x.phase u := Function.update_apply x.phase t p u

theorem phase_set_self (x : Parties T W S C R V) (t : T) (p : Phase C R V) : (x.set t p).phase t = p :=
  (phase_set x t t p).trans (if_pos rfl)

theorem phase_set_of_ne (x : Parties T W S C R V) (hne : u ≠ t) (p : Phase C R V) : (x.set t p).phase u = x.phase u :=
  (phase_set x t u p).trans (if_neg hne)

/-- A party that holds before and after, or neither, changes nobody's holding. -/
theorem holds_set (hp : p.Holds ↔ (x.phase t).Holds) (u : T) : ((x.set t p).phase u).Holds ↔ (x.phase u).Holds := by
  by_cases hu : u = t
  · rw [hu, phase_set_self, hp]
  · rw [phase_set_of_ne x hu]

/-- A party that is outside before and after leaves the one inside where it is. -/
theorem inside_set (hp : ∀ c r, p ≠ .inside c r) (hx : ∀ c r, x.phase t ≠ .inside c r) (u : T) (c : C) (r : R) :
    (x.set t p).phase u = .inside c r ↔ x.phase u = .inside c r := by
  by_cases hu : u = t
  · rw [hu, phase_set_self]
    exact iff_of_false (hp c r) (hx c r)
  · rw [phase_set_of_ne x hu]

theorem Inv.call (hi : Inv L M s0 h x) {c : C} (ht : x.phase t = .idle) : Inv L M s0 h (x.set t (.trying c)) := by
  have hholds := holds_set (x := x) (t := t) (p := .trying c) (by rw [ht]; exact Iff.rfl)
  have hinside := inside_set (x := x) (t := t) (p := .trying c) (by simp) (by simp [ht])
  obtain ⟨s, hs, hidle, hgoing⟩ := hi.serial
  refine ⟨hi.held.trans (exists_congr fun u => (hholds u).symm), ?_, ⟨s, hs, ?_, ?_⟩, ?_⟩
  · intro u v hu hv
    exact hi.exclusive u v ((hholds u).mp hu) ((hholds v).mp hv)
  · intro hout
    exact hidle fun u c r hu => hout u c r ((hinside u c r).mpr hu)
  · intro u c r hu
    exact hgoing u c r ((hinside u c r).mp hu)
  · intro u c v hu
    by_cases he : u = t
    · rw [he, phase_set_self] at hu
      cases hu
    · rw [phase_set_of_ne x he] at hu
      exact hi.returns u c v hu

/-- What a free word is taken for. -/
theorem Inv.take (hi : Inv L M s0 h x) {c : C} (ht : x.phase t = .trying c) (hk : (L.take x.word).1 = true) :
    Inv L M s0 h { x.set t (.inside c (M.enter c)) with word := (L.take x.word).2 } := by
  have hfree : ¬ L.Held x.word := by
    intro hheld
    rw [(L.take_held x.word hheld).1] at hk
    cases hk
  have hnobody : ∀ u, ¬ (x.phase u).Holds := fun u hu => hfree (hi.held.mpr ⟨u, hu⟩)
  have honly : ∀ u, ((x.set t (.inside c (M.enter c))).phase u).Holds → u = t := by
    intro u hu
    by_contra hne
    rw [phase_set_of_ne x hne] at hu
    exact hnobody u hu
  obtain ⟨s, hs, hidle, -⟩ := hi.serial
  have hshared : x.shared = s := hidle (hi.not_inside hfree)
  refine ⟨iff_of_true (L.take_free x.word hfree).2 ⟨t, ?_⟩, ?_, ⟨s, hs, ?_, ?_⟩, ?_⟩
  · show ((x.set t (.inside c (M.enter c))).phase t).Holds
    rw [phase_set_self]
    trivial
  · intro u v hu hv
    exact (honly u hu).trans (honly v hv).symm
  · intro hout
    exact absurd (phase_set_self x t _) (hout t c (M.enter c))
  · intro u c' r hu
    have hut : u = t := by
      refine honly u ?_
      show ((x.set t _).phase u).Holds
      have hu' : (x.set t (.inside c (M.enter c))).phase u = .inside c' r := hu
      rw [hu']
      trivial
    subst hut
    have hu' : Phase.inside c (M.enter c) = .inside c' r := (phase_set_self x u _).symm.trans hu
    cases hu'
    show M.Goes (M.enter c) s (M.enter c) x.shared
    rw [hshared]
    exact .here _ _
  · intro u c' v hu
    have hu' : (x.set t (.inside c (M.enter c))).phase u = .leaving c' v := hu
    by_cases he : u = t
    · rw [he, phase_set_self] at hu'
      cases hu'
    · rw [phase_set_of_ne x he] at hu'
      exact hi.returns u c' v hu'

theorem Inv.work (hi : Inv L M s0 h x) {c : C} {r r' : R} {s' : S} (ht : x.phase t = .inside c r)
    (hstep : M.step r x.shared = (.inl r', s')) : Inv L M s0 h { x.set t (.inside c r') with shared := s' } := by
  have hholding : (x.phase t).Holds := by
    rw [ht]
    trivial
  have hholds := holds_set (x := x) (t := t) (p := .inside c r') (iff_of_true trivial hholding)
  obtain ⟨s, hs, -, hgoing⟩ := hi.serial
  refine ⟨hi.held.trans (exists_congr fun u => (hholds u).symm), ?_, ⟨s, hs, ?_, ?_⟩, ?_⟩
  · intro u v hu hv
    exact hi.exclusive u v ((hholds u).mp hu) ((hholds v).mp hv)
  · intro hout
    exact absurd (phase_set_self x t _) (hout t c r')
  · intro u c' r1 hu
    have hu' : (x.set t (.inside c r')).phase u = .inside c' r1 := hu
    by_cases he : u = t
    · rw [he, phase_set_self] at hu'
      cases hu'
      exact (hgoing t c r ht).snoc hstep
    · rw [phase_set_of_ne x he] at hu'
      exact absurd hu' (hi.alone hholding he c' r1)
  · intro u c' v hu
    have hu' : (x.set t (.inside c r')).phase u = .leaving c' v := hu
    by_cases he : u = t
    · rw [he, phase_set_self] at hu'
      cases hu'
    · rw [phase_set_of_ne x he] at hu'
      exact hi.returns u c' v hu'

theorem Inv.finish (hi : Inv L M s0 h x) {c : C} {r : R} {v : V} {s' : S} (ht : x.phase t = .inside c r)
    (hstep : M.step r x.shared = (.inr v, s')) :
    Inv L M s0 (⟨t, c, v⟩ :: h) { x.set t (.leaving c v) with shared := s' } := by
  have hholding : (x.phase t).Holds := by
    rw [ht]
    trivial
  have hholds := holds_set (x := x) (t := t) (p := .leaving c v) (iff_of_true trivial hholding)
  have hnone : ∀ u c' r1, (x.set t (.leaving c v)).phase u ≠ .inside c' r1 := by
    intro u c' r1
    by_cases he : u = t
    · rw [he, phase_set_self]
      simp
    · rw [phase_set_of_ne x he]
      exact hi.alone hholding he c' r1
  obtain ⟨s, hs, -, hgoing⟩ := hi.serial
  refine ⟨hi.held.trans (exists_congr fun u => (hholds u).symm), ?_, ⟨s', ?_, fun _ => rfl, ?_⟩, ?_⟩
  · intro u v hu hv
    exact hi.exclusive u v ((hholds u).mp hu) ((hholds v).mp hv)
  · exact .cons hs ((hgoing t c r ht).ends (.last hstep))
  · intro u c' r1 hu
    exact absurd hu (hnone u c' r1)
  · intro u c' v' hu
    have hu' : (x.set t (.leaving c v)).phase u = .leaving c' v' := hu
    by_cases he : u = t
    · subst he
      rw [phase_set_self] at hu'
      cases hu'
      exact List.mem_cons_self
    · rw [phase_set_of_ne x he] at hu'
      exact List.mem_cons_of_mem _ (hi.returns u c' v' hu')

theorem Inv.leave (hi : Inv L M s0 h x) {c : C} {v : V} (ht : x.phase t = .leaving c v) :
    Inv L M s0 h { x.set t .idle with word := L.release x.word } := by
  have hholding : (x.phase t).Holds := by
    rw [ht]
    trivial
  have hnobody : ∀ u, ¬ ((x.set t .idle).phase u).Holds := by
    intro u hu
    by_cases he : u = t
    · rw [he, phase_set_self] at hu
      exact hu
    · rw [phase_set_of_ne x he] at hu
      exact he (hi.exclusive u t hu hholding)
  have hinside := inside_set (x := x) (t := t) (p := .idle) (by simp) (by simp [ht])
  obtain ⟨s, hs, hidle, hgoing⟩ := hi.serial
  refine ⟨iff_of_false (L.released x.word) fun ⟨u, hu⟩ => hnobody u hu, ?_, ⟨s, hs, ?_, ?_⟩, ?_⟩
  · intro u _ hu
    exact absurd hu (hnobody u)
  · intro hout
    exact hidle fun u c r hu => hout u c r ((hinside u c r).mpr hu)
  · intro u c r hu
    exact hgoing u c r ((hinside u c r).mp hu)
  · intro u c' v' hu
    have hu' : (x.set t .idle).phase u = .leaving c' v' := hu
    by_cases he : u = t
    · rw [he, phase_set_self] at hu'
      cases hu'
    · rw [phase_set_of_ne x he] at hu'
      exact hi.returns u c' v' hu'

/-- The step rule. -/
theorem Inv.step (hi : Inv L M s0 h x) (hs : Parties.Step L M x a x') : Inv L M s0 (recordCall h a) x' := by
  cases hs with
  | call t c ht => exact hi.call ht
  | fail t c _ hf => exact hi.fail hf
  | take t c ht hk => exact hi.take ht hk
  | work t c r r' s' ht hstep => exact hi.work ht hstep
  | finish t c r v s' ht hstep => exact hi.finish ht hstep
  | leave t c v ht => exact hi.leave ht

/-- The run rule. -/
theorem run_inv (hr : Run L M s0 h x) : Inv L M s0 h x := by
  induction hr with
  | start hfree =>
    refine ⟨iff_of_false hfree fun ⟨t, ht⟩ => ht, fun t _ ht => absurd ht id, ⟨s0, .nil, fun _ => rfl, ?_⟩, ?_⟩
    · intro t c r ht
      cases ht
    · intro t c v ht
      cases ht
  | step _ hs ih => exact ih.step hs

/-! ## Progress -/

/-- Steps one after the other. -/
inductive Path (L : Lock W) (M : Work S C R V) : Parties T W S C R V → List (Act T C V) → Parties T W S C R V → Prop
  | nil (x : Parties T W S C R V) : Path L M x [] x
  | cons {x x1 x' : Parties T W S C R V} {a : Act T C V} {as : List (Act T C V)} :
      Parties.Step L M x a x1 → Path L M x1 as x' → Path L M x (a :: as) x'

theorem Path.append {x1 : Parties T W S C R V} {as bs : List (Act T C V)} (h : Path L M x as x1) (h' : Path L M x1 bs x') :
    Path L M x (as ++ bs) x' := by
  induction h with
  | nil x => exact h'
  | cons hs _ ih => exact .cons hs (ih h')

theorem Run.path {as : List (Act T C V)} (hr : Run L M s0 h x) (hp : Path L M x as x') : Run L M s0 (as.foldl recordCall h) x' := by
  induction hp generalizing h with
  | nil x => exact hr
  | cons hs _ ih => exact ih (hr.step hs)

/-- Steps of one party alone, inside a call. -/
structure AloneFrom (L : Lock W) (M : Work S C R V) (t : T) (x : Parties T W S C R V) (as : List (Act T C V))
    (x' : Parties T W S C R V) : Prop where
  path : Path L M x as x'
  acts : ∀ a ∈ as, a.party = t ∧ a.isCall = false
  others : ∀ u, u ≠ t → x'.phase u = x.phase u

theorem AloneFrom.cons {x1 : Parties T W S C R V} {as : List (Act T C V)} (hs : Parties.Step L M x a x1)
    (ha : a.party = t ∧ a.isCall = false) (hx : ∀ u, u ≠ t → x1.phase u = x.phase u) (h : AloneFrom L M t x1 as x') :
    AloneFrom L M t x (a :: as) x' := by
  refine ⟨.cons hs h.path, ?_, fun u hu => (h.others u hu).trans (hx u hu)⟩
  intro b hb
  rcases List.mem_cons.mp hb with rfl | hb
  · exact ha
  · exact h.acts b hb

/-- The party is out, and the lock is free. -/
def Drained (L : Lock W) (M : Work S C R V) (t : T) (x : Parties T W S C R V) : Prop :=
  ∃ as x', AloneFrom L M t x as x' ∧ ¬ L.Held x'.word ∧ x'.phase t = .idle

theorem drained_of_leaving {c : C} {v : V} (ht : x.phase t = .leaving c v) : Drained L M t x :=
  ⟨_, _, .cons (.leave x t c v ht) ⟨rfl, rfl⟩ (fun _ hne => phase_set_of_ne x hne _) ⟨.nil _, by simp, fun _ _ => rfl⟩,
    L.released x.word, phase_set_self x t _⟩

theorem drained_of_ends {c : C} {r : R} (ht : x.phase t = .inside c r) {v : V} {s' : S} (he : M.Ends r x.shared v s') :
    Drained L M t x := by
  generalize hs : x.shared = s at he
  induction he generalizing x with
  | @last r s s' v hlast =>
    rw [← hs] at hlast
    obtain ⟨as, x', hx', hout⟩ := drained_of_leaving (L := L) (M := M) (x := { x.set t (.leaving c v) with shared := s' })
      (phase_set_self x t _)
    exact ⟨_, x', .cons (.finish x t c _ _ _ ht hlast) ⟨rfl, rfl⟩ (fun _ hne => phase_set_of_ne x hne _) hx', hout⟩
  | @step r r1 s s1 s' v hstep _ ih =>
    rw [← hs] at hstep
    obtain ⟨as, x', hx', hout⟩ := ih (x := { x.set t (.inside c r1) with shared := s1 }) (phase_set_self x t _) rfl
    exact ⟨_, x', .cons (.work x t c _ _ _ ht hstep) ⟨rfl, rfl⟩ (fun _ hne => phase_set_of_ne x hne _) hx', hout⟩

/-- If every call ends when run alone, the party that holds the lock can give it back, with
    nobody else taking a step. -/
theorem Inv.drains (hi : Inv L M s0 h x) (hends : ∀ c s, Serial M s0 h s → ∃ v s', M.Alone c s v s')
    (ht : (x.phase t).Holds) : Drained L M t x := by
  cases hp : x.phase t with
  | idle =>
    rw [hp] at ht
    exact absurd ht id
  | trying c =>
    rw [hp] at ht
    exact absurd ht id
  | inside c r =>
    obtain ⟨s, hs, -, hgoing⟩ := hi.serial
    obtain ⟨v, s', halone⟩ := hends c s hs
    exact drained_of_ends hp ((hgoing t c r hp).rest halone)
  | leaving c v => exact drained_of_leaving hp

/-- From every state in which a party tries, there is a way for it to get in, on which no
    further call is made. -/
theorem Inv.gets_in (hi : Inv L M s0 h x) (hends : ∀ c s, Serial M s0 h s → ∃ v s', M.Alone c s v s') {c : C}
    (ht : x.phase t = .trying c) :
    ∃ as x', Path L M x as x' ∧ (∀ a ∈ as, a.isCall = false) ∧ x'.phase t = .inside c (M.enter c) := by
  have hfree : ∃ as x1, Path L M x as x1 ∧ (∀ a ∈ as, a.isCall = false) ∧ ¬ L.Held x1.word ∧ x1.phase t = .trying c := by
    by_cases hheld : L.Held x.word
    · obtain ⟨u, hu⟩ := hi.held.mp hheld
      have hne : t ≠ u := by
        rintro rfl
        rw [ht] at hu
        exact hu
      obtain ⟨as, x1, hx1, hfree1, -⟩ := hi.drains hends hu
      exact ⟨as, x1, hx1.path, fun a ha => (hx1.acts a ha).2, hfree1, (hx1.others t hne).trans ht⟩
    · exact ⟨[], x, .nil x, by simp, hheld, ht⟩
  obtain ⟨as, x1, hpath, hacts, hfree1, ht1⟩ := hfree
  refine ⟨as ++ [.try_ t], { x1.set t (.inside c (M.enter c)) with word := (L.take x1.word).2 },
    hpath.append (.cons (.take x1 t c ht1 (L.take_free x1.word hfree1).1) (.nil _)), ?_, phase_set_self x1 t _⟩
  intro a ha
  rcases List.mem_append.mp ha with ha | ha
  · exact hacts a ha
  · rw [List.mem_singleton.mp ha]
    rfl

end Proofs

end NativeOS.Lib.Mutex
