/-
  NativeOS.Lib.Runs — a property of every state of a run, and the steps that keep it.

  A machine takes a step for each event of a list. When a step from a state with the
  property leads to one exactly if it meets a condition, then a run has the property
  throughout exactly if each of its steps meets the condition.
-/

namespace NativeOS.Lib

variable {σ ε : Type} (step : σ → ε → σ)

/-- The state after the first `k` events. -/
def after (s : σ) (es : List ε) (k : Nat) : σ := (es.take k).foldl step s

/-- In the first state and after each step. -/
def Throughout (P : σ → Prop) (s : σ) (es : List ε) : Prop := ∀ k, P (after step s es k)

/-- Each event, and the state it comes in. -/
def EachStep (M : σ → ε → Prop) (s : σ) (es : List ε) : Prop := ∀ k e, es[k]? = some e → M (after step s es k) e

variable {step} {P : σ → Prop} {M : σ → ε → Prop} {s : σ} {e : ε} {es : List ε}

theorem throughout_nil : Throughout step P s [] ↔ P s := by
  constructor
  · intro h
    exact h 0
  · intro h k
    rwa [after, List.take_nil]

theorem throughout_cons : Throughout step P s (e :: es) ↔ P s ∧ Throughout step P (step s e) es := by
  constructor
  · intro h
    exact ⟨h 0, fun k => h (k + 1)⟩
  · intro h k
    obtain ⟨h0, h⟩ := h
    cases k with
    | zero => exact h0
    | succ k => exact h k

theorem eachStep_nil : EachStep step M s [] := by
  intro k e he
  cases he

theorem eachStep_cons : EachStep step M s (e :: es) ↔ M s e ∧ EachStep step M (step s e) es := by
  constructor
  · intro h
    exact ⟨h 0 e rfl, fun k => h (k + 1)⟩
  · intro h k x hx
    obtain ⟨h0, h⟩ := h
    cases k with
    | zero =>
      cases hx
      exact h0
    | succ k => exact h k x hx

/-- The run rule. `I` holds in every state of every run. -/
theorem throughout_iff_eachStep {I : σ → Prop} (hI : ∀ s e, I s → I (step s e))
    (hstep : ∀ s e, I s → P s → (P (step s e) ↔ M s e)) (hi : I s) (hp : P s) :
    Throughout step P s es ↔ EachStep step M s es := by
  induction es generalizing s with
  | nil => exact ⟨fun _ => eachStep_nil, fun _ => throughout_nil.mpr hp⟩
  | cons e es ih =>
    have hnext : P (step s e) ↔ M s e := hstep s e hi hp
    rw [throughout_cons, eachStep_cons]
    constructor
    · intro h
      obtain ⟨-, ht⟩ := h
      have hp' : P (step s e) := ht 0
      exact ⟨hnext.mp hp', (ih (hI s e hi) hp').mp ht⟩
    · intro h
      obtain ⟨hm, he⟩ := h
      exact ⟨hp, (ih (hI s e hi) (hnext.mpr hm)).mpr he⟩

/-! ## Machines that can fail

A machine that raises an exception stops there; beside it runs what it should do. -/

section Fallible

variable {τ χ : Type}

/-- The rule for machines whose every failure is raised: what is not raised is right. -/
theorem foldlM_follows_iff {f : σ → ε → Except χ σ} {g : τ → ε → τ} {R : σ → τ → Prop} {N : τ → ε → Prop}
    (hright : ∀ s t e s', R s t → f s e = .ok s' → R s' (g t e))
    (hok : ∀ s t e, R s t → ((∃ s', f s e = .ok s') ↔ N t e)) {s : σ} {t : τ} (h : R s t) (es : List ε) :
    (∃ s', es.foldlM f s = .ok s' ∧ R s' (es.foldl g t)) ↔ EachStep g N t es := by
  induction es generalizing s t with
  | nil => exact iff_of_true ⟨s, rfl, h⟩ eachStep_nil
  | cons e es ih =>
    rw [eachStep_cons, ← hok s t e h, List.foldlM_cons, List.foldl_cons]
    cases hs : f s e with
    | error x =>
      refine iff_of_false ?_ ?_
      · intro hrun
        obtain ⟨s', hs', -⟩ := hrun
        cases hs'
      · intro hrun
        obtain ⟨⟨s', hs'⟩, -⟩ := hrun
        cases hs'
    | ok s1 =>
      refine (ih (hright s t e s1 h hs)).trans ?_
      exact (and_iff_right ⟨s1, rfl⟩).symm

/-- What a run that is not raised leaves. -/
theorem foldlM_follows {f : σ → ε → Except χ σ} {g : τ → ε → τ} {R : σ → τ → Prop}
    (hright : ∀ s t e s', R s t → f s e = .ok s' → R s' (g t e)) {s s' : σ} {t : τ} (h : R s t) {es : List ε}
    (hrun : es.foldlM f s = .ok s') : R s' (es.foldl g t) := by
  induction es generalizing s t with
  | nil =>
    cases hrun
    exact h
  | cons e es ih =>
    rw [List.foldlM_cons] at hrun
    cases hs : f s e with
    | error x =>
      rw [hs] at hrun
      cases hrun
    | ok s1 =>
      rw [hs] at hrun
      exact ih (hright s t e s1 h hs) hrun

/-- What no step changes, a run does not change. -/
theorem foldlM_keeps {f : σ → ε → Except χ σ} {view : σ → τ} (hstep : ∀ s e s', f s e = .ok s' → view s' = view s)
    {s s' : σ} {es : List ε} (h : es.foldlM f s = .ok s') : view s' = view s := by
  induction es generalizing s with
  | nil =>
    cases h
    rfl
  | cons e es ih =>
    rw [List.foldlM_cons] at h
    cases hs : f s e with
    | error x =>
      rw [hs] at h
      cases h
    | ok s1 =>
      rw [hs] at h
      rw [ih h, hstep s e s1 hs]

end Fallible

end NativeOS.Lib
