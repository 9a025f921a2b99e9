/-
  NativeOS.Lib.Multiplex — many components behind one device.

  A machine has a component for every `k` and works on one of them at a time, the selected
  one. An event is either a switch, which selects a component, or works on the selected
  one. `Unwinds` lists what each single step has to satisfy; from it, `isolated` follows for
  whole runs: what a run leaves of a component is what the events performed on that
  component alone leave of it, from a machine on which nothing else ever happens.
-/

import Mathlib.Data.List.Basic

namespace NativeOS.Lib

structure Mux (S E κ V : Type) where
  step : S → E → S
  sel : S → κ
  switches : E → Bool
  view : κ → S → V

namespace Mux

variable {S E κ V : Type} (M : Mux S E κ V)

def run (s : S) (es : List E) : S := es.foldl M.step s

/-- The events that work on `k`, in a run from `s`. -/
def performed [DecidableEq κ] (k : κ) : S → List E → List E
  | _, [] => []
  | s, e :: es =>
    if M.sel s = k ∧ M.switches e = false then e :: performed k (M.step s e) es else performed k (M.step s e) es

structure Unwinds : Prop where
  /-- Work keeps the selection. -/
  keeps : ∀ s e, M.switches e = false → M.sel (M.step s e) = M.sel s
  /-- It shows on no other component. -/
  hidden : ∀ s e k, M.switches e = false → k ≠ M.sel s → M.view k (M.step s e) = M.view k s
  /-- Its effect on the selected one depends on nothing else. -/
  consistent : ∀ s t e, M.switches e = false → M.sel t = M.sel s → M.view (M.sel s) t = M.view (M.sel s) s →
    M.view (M.sel s) (M.step t e) = M.view (M.sel s) (M.step s e)
  /-- A switch shows on no component. -/
  saved : ∀ s e k, M.switches e = true → M.view k (M.step s e) = M.view k s

theorem isolated [DecidableEq κ] (hM : M.Unwinds) {k : κ} : ∀ (es : List E) {s t : S}, M.sel t = k →
    M.view k t = M.view k s →
    M.sel (M.run t (M.performed k s es)) = k ∧ M.view k (M.run t (M.performed k s es)) = M.view k (M.run s es)
  | [], _, _, ht, hv => ⟨ht, hv⟩
  | e :: es, s, t, ht, hv => by
    rw [performed]
    by_cases hk : M.sel s = k ∧ M.switches e = false
    · rw [if_pos hk]
      obtain ⟨hs, he⟩ := hk
      have ht' : M.sel (M.step t e) = k := (hM.keeps t e he).trans ht
      have hv' : M.view k (M.step t e) = M.view k (M.step s e) := by
        have := hM.consistent s t e he (ht.trans hs.symm)
        rw [hs] at this
        exact this hv
      exact isolated hM es ht' hv'
    · rw [if_neg hk]
      have hsame : M.view k (M.step s e) = M.view k s := by
        by_cases he : M.switches e = true
        · exact hM.saved s e k he
        · have he' : M.switches e = false := by simpa using he
          exact hM.hidden s e k he' fun h => hk ⟨h.symm, he'⟩
      exact isolated hM es ht (hv.trans hsame.symm)

end Mux

end NativeOS.Lib
