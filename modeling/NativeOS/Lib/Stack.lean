/-
  NativeOS.Lib.Stack — a stack of 32-bit words that grows downwards in memory.

  `Pushed` says what lies on a stack since its pointer was at `top`, and that the memory from
  there to `base`, where the stack begins, is as it was. A push and a pop keep it
  (`Pushed.push`, `Pushed.pop`); so does code that leaves everything but the newest word alone
  (`Pushed.leave`).
-/

import NativeOS.Lib.Bytes

namespace NativeOS.Lib.Stack

/-- The words from an address upwards. -/
def Words (m : Mem) : Nat → List Nat → Prop
  | _, [] => True
  | a, w :: ws => ld32 m a = w ∧ Words m (a + 4) ws

structure Pushed (m₀ : Mem) (top base : Nat) (m : Mem) (sp : Nat) (ws : List Nat) : Prop where
  words : Words m sp ws
  depth : sp + 4 * ws.length = top
  above : ∀ x, top ≤ x → x < base → m x = m₀ x

/-- Four less, as 32 bits count: 0xFFFFFFFC is -4. -/
def below (sp : Nat) : Nat := add32 0xFFFFFFFC sp

theorem below_eq {sp : Nat} (h : 4 ≤ sp) (hlt : sp < 4294967296) : below sp = sp - 4 := by
  unfold below add32
  omega

variable {m₀ m m' : Mem} {top base sp a w : Nat} {ws : List Nat}

theorem Words.congr (h : Words m a ws) (hm : ∀ x, a ≤ x → x < a + 4 * ws.length → m' x = m x) : Words m' a ws := by
  induction ws generalizing a with
  | nil => trivial
  | cons w ws ih =>
    rw [List.length_cons] at hm
    refine ⟨?_, ih h.2 fun x hl hr => hm x (by omega) (by omega)⟩
    rw [ld32_same fun x hl hr => hm x (by omega) (by omega)]
    exact h.1

theorem pushed_nil (m : Mem) (top base : Nat) : Pushed m top base m top [] := ⟨trivial, rfl, fun _ _ _ => rfl⟩

theorem Pushed.push (h : Pushed m₀ top base m sp ws) (hw : w < 4294967296) (hsp : 4 ≤ sp) (htop : top < 4294967296) :
    Pushed m₀ top base (st32 m (below sp) w) (below sp) (w :: ws) := by
  have hdepth := h.depth
  rw [below_eq hsp (by omega)]
  refine ⟨⟨ld32_st32_same m _ hw, ?_⟩, ?_, ?_⟩
  · rw [Nat.sub_add_cancel hsp]
    exact h.words.congr fun x hl _ => st32_ne m w (by omega)
  · rw [List.length_cons]
    omega
  · intro x hl hr
    rw [st32_ne m w (by omega)]
    exact h.above x hl hr

theorem Pushed.pop (h : Pushed m₀ top base m sp (w :: ws)) (htop : top < 4294967296) :
    ld32 m sp = w ∧ Pushed m₀ top base m (add32 4 sp) ws := by
  have hdepth := h.depth
  rw [List.length_cons] at hdepth
  have hadd : add32 4 sp = sp + 4 := (add32_eq (by omega)).trans (Nat.add_comm 4 sp)
  rw [hadd]
  exact ⟨h.words.1, h.words.2, by omega, h.above⟩

/-- The newest word may have changed, and what is below it. -/
theorem Pushed.leave (h : Pushed m₀ top base m sp (w :: ws)) (hbase : top ≤ base)
    (hm : ∀ x, sp + 4 ≤ x → x < base → m' x = m x) : Pushed m₀ top base m' sp (ld32 m' sp :: ws) := by
  have hdepth := h.depth
  rw [List.length_cons] at hdepth
  refine ⟨⟨rfl, h.words.2.congr fun x hl hr => hm x hl (by omega)⟩, ?_, ?_⟩
  · rw [List.length_cons]
    exact hdepth
  · intro x hl hr
    rw [hm x (by omega) hr]
    exact h.above x hl hr

end NativeOS.Lib.Stack
