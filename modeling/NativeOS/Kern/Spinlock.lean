/-
  NativeOS.Kern.Spinlock — the kernel's spinlocks (`kernel/i386/i386/spinlock.c`).

  `xchg` puts a value into a word and hands out what was there, in one step that nothing
  comes between. Locking puts 1 until what comes back is 0; releasing puts 0. So the word is
  1 from when a processor gets a 0 back until it puts one, and whoever tries in between puts
  a 1 over a 1.

  Proved:
  * `spinlock_protects` — for any number of processors, whatever they do under the lock and
    in whatever order their steps come: at most one holds it, the data is what the finished
    calls leave one after the other, and each returns what it returns alone.
  * `spinlock_never_stuck` — if what is done under it ends, then from every state each
    processor that spins can get in.
-/

import NativeOS.Lib.Mutex

namespace NativeOS.Kern

open NativeOS.Lib.Mutex

/-- `struct spinlock`. -/
structure Spinlock where
  locked : Nat
  deriving DecidableEq

/-- What was in the word, and what is in it now. -/
def x86XchgDword (mem val : Nat) : Nat × Nat := (mem, val)

def spinlockInit : Spinlock := ⟨0⟩

/-- One turn of `spinlock_lock`'s loop: whether it is the last, and the lock. -/
def spinlockLockTurn (lock : Spinlock) : Bool × Spinlock :=
  let (prev, locked) := x86XchgDword lock.locked 1
  (prev == 0, ⟨locked⟩)

def spinlockRelease (lock : Spinlock) : Spinlock := ⟨(x86XchgDword lock.locked 0).2⟩

/-- The two operations are a lock's. -/
def spinlock : Lock Spinlock where
  take := spinlockLockTurn
  release := spinlockRelease
  Held lock := lock.locked ≠ 0
  take_free := by
    intro lock hfree
    exact ⟨by simpa [spinlockLockTurn, x86XchgDword] using hfree, Nat.one_ne_zero⟩
  take_held := by
    intro lock hheld
    exact ⟨by simpa [spinlockLockTurn, x86XchgDword] using hheld, Nat.one_ne_zero⟩
  released := fun _ h => h rfl

/-- Adding one in two steps, reading and then storing. -/
def counter : Work Nat Unit (Option Nat) Nat where
  enter _ := none
  step
    | none, n => (.inl (some n), n)
    | some seen, _ => (.inr seen, seen + 1)

/-- Two processors add one; the second spins while the first is at it, and a third call begins. -/
def twoCounts : Option (List (Call Bool Unit Nat) × Parties Bool Spinlock Nat Unit (Option Nat) Nat) :=
  turns spinlock counter [] ⟨spinlockInit, 0, fun _ => .idle⟩
    [(true, some ()), (false, some ()), (true, none), (false, none), (true, none), (false, none), (true, none), (true, none),
      (false, none), (true, some ()), (false, none), (true, none), (false, none)]

section Calls

variable {T S C R V : Type} [DecidableEq T] {M : Work S C R V} {s0 : S} {h : List (Call T C V)} {x : Parties T Spinlock S C R V}

theorem two_counts_run (hsome : twoCounts.isSome = true) :
    Run spinlock counter 0 (twoCounts.get hsome).1 (twoCounts.get hsome).2 :=
  turns_run (.start fun h => h rfl) (Option.some_get hsome).symm

/-- In every state of every run. -/
theorem spinlock_protects (hr : Run spinlock M s0 h x) :
    (∀ t u, (x.phase t).Holds → (x.phase u).Holds → t = u) ∧
    (x.word.locked ≠ 0 ↔ ∃ t, (x.phase t).Holds) ∧
    (∃ s, Serial M s0 h s ∧ ((∀ t c r, x.phase t ≠ .inside c r) → x.shared = s) ∧
      ∀ t c r, x.phase t = .inside c r → M.Goes (M.enter c) s r x.shared) ∧
    ∀ t c v, x.phase t = .leaving c v → ⟨t, c, v⟩ ∈ h := by
  have hi := run_inv hr
  exact ⟨hi.exclusive, hi.held, hi.serial, hi.returns⟩

theorem two_counts_serial : ∃ h x, Run (T := Bool) spinlock counter 0 h x ∧ h.map Call.result = [1, 0] ∧
    (x.phase false = .leaving () 1 → ⟨false, (), 1⟩ ∈ h) := by
  have hr := two_counts_run (by decide)
  exact ⟨_, _, hr, by decide, (spinlock_protects hr).2.2.2 false () 1⟩

/-- From every state of every run, a processor that spins can get in, if what is done under the
    lock ends. -/
theorem spinlock_never_stuck (hr : Run spinlock M s0 h x) (hends : ∀ c s, Serial M s0 h s → ∃ v s', M.Alone c s v s')
    {t : T} {c : C} (ht : x.phase t = .trying c) :
    ∃ as x', Path spinlock M x as x' ∧ (∀ a ∈ as, a.isCall = false) ∧ x'.phase t = .inside c (M.enter c) :=
  (run_inv hr).gets_in hends ht

theorem two_counts_go_on : ∃ h x, Run (T := Bool) spinlock counter 0 h x ∧ x.phase true = .trying () ∧
    ∃ as x', Path spinlock counter x as x' ∧ (∀ a ∈ as, a.isCall = false) ∧ x'.phase true = .inside () none := by
  have hr := two_counts_run (by decide)
  refine ⟨_, _, hr, rfl, spinlock_never_stuck hr ?_ rfl⟩
  intro c s _
  exact ⟨s, s + 1, .step rfl (.last rfl)⟩

end Calls

end NativeOS.Kern
