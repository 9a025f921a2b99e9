/-
  NativeOS.Stdkern.StringSplit — cutting a string up with `strsep` (`kernel/stdkern/strsep.c`).

  `strsep` works in place: it writes a NUL over the first delimiter and moves the caller's
  pointer behind it, or sets the pointer to NULL where no delimiter is left. Called until
  then, as `fs_follow_path` does, it turns one string into many.

  Proved:
  * `strsepAt_eq` — one call does in memory what `strsep` of the module on strings says.
  * `strsep_splits` — for every string and every set of delimiters: as many calls as there
    are delimiters and one more, the parts between them in order, and no byte changed but
    the delimiters.
-/

import NativeOS.Stdkern.Strings

namespace NativeOS.Stdkern

open NativeOS.Lib

/-! ## strsep.c -/

/-- `while (*delim)`: is there a delimiter that is this character? -/
def delimLoop (chr : UInt8) : List UInt8 → Bool
  | [] => false
  | d :: delim => if d ≠ 0 then if d = chr then true else delimLoop chr delim else false

/-- The loop over the string: the memory, and the new `*strptr`. If no NUL shows in the whole
    address space it never ends: `none`. -/
def strsepAtLoop (delimiter : List UInt8) : Nat → Mem → Nat → Option (Mem × Nat)
  | 0, _, _ => none
  | fuel + 1, m, strcur =>
    if m strcur ≠ 0 then
      if delimLoop (m strcur) delimiter then some (st8 m strcur 0, add32 strcur 1)
      else strsepAtLoop delimiter fuel m (add32 strcur 1)
    else some (m, 0)

/-- The memory, the string returned and the new `*strptr`. A null pointer is 0; `strptr`
    itself is the address of a variable. -/
def strsepAt (delimiter : List UInt8) (m : Mem) (strptr : Nat) : Option (Mem × Nat × Nat) :=
  if strptr = 0 then some (m, 0, 0)
  else (strsepAtLoop delimiter 4294967296 m strptr).map fun (m', next) => (m', strptr, next)

/-- Calls until the pointer is NULL, at most so many: the memory, and the strings returned. -/
def strsepCalls (delimiter : List UInt8) : Nat → Mem → Nat → Option (Mem × List Nat)
  | 0, _, _ => none
  | calls + 1, m, strptr => do
    let (m', out, next) ← strsepAt delimiter m strptr
    if next = 0 then some (m', [out])
    else do
      let (m'', outs) ← strsepCalls delimiter calls m' next
      some (m'', out :: outs)

/-! ## What it should do -/

def isDelimiter (delimiter : List UInt8) (c : UInt8) : Bool := decide (c ∈ cstr delimiter)

/-- The longest parts without a delimiter, the empty ones too. -/
def segments (delimiter s : List UInt8) : List (List UInt8) := s.splitOnP (isDelimiter delimiter)

/-- Where strings begin that stand one behind the other from `a` on. -/
def starts : Nat → List (List UInt8) → List Nat
  | _, [] => []
  | a, t :: ts => a :: starts (a + t.length + 1) ts

/-- The string `s` that was at `a` is split into the strings at `outs`. -/
structure SplitAt (delimiter : List UInt8) (m m' : Mem) (a : Nat) (s : List UInt8) (outs : List Nat) : Prop where
  calls : outs.length = s.countP (isDelimiter delimiter) + 1
  strings : List.Forall₂ (CStringAt m') outs (segments delimiter s)
  inPlace : outs = starts a (segments delimiter s)
  changed : ∀ x, m' x ≠ m x → ∃ i < s.length, x = a + i ∧ s.getD i 0 ∈ cstr delimiter ∧ m' x = 0

/-! ## Strings in memory -/

section Strings

variable {m m' : Mem} {a : Nat} {c : UInt8} {s t rest : List UInt8}

theorem cStringAt_cons : CStringAt m a (c :: s) ↔ m a = c ∧ c ≠ 0 ∧ CStringAt m (a + 1) s := by
  have hslice : slice m a (s.length + 1) = m a :: slice m (a + 1) s.length := slice_succ m a s.length
  have hend : a + (s.length + 1) = a + 1 + s.length := by omega
  constructor
  · intro h
    have hchars := h.chars
    have hzero := h.noZero
    have hnul := h.ends
    rw [List.length_cons, hslice, List.cons.injEq] at hchars
    rw [List.mem_cons, not_or] at hzero
    rw [List.length_cons, hend] at hnul
    exact ⟨hchars.1, Ne.symm hzero.1, hchars.2, hzero.2, hnul⟩
  · intro h
    rcases h with ⟨hc, h0, h⟩
    refine ⟨?_, ?_, ?_⟩
    · rw [List.length_cons, hslice, hc, h.chars]
    · rw [List.mem_cons, not_or]
      exact ⟨Ne.symm h0, h.noZero⟩
    · rw [List.length_cons, hend]
      exact h.ends

theorem CStringAt.congr (h : CStringAt m a t) (hsame : Same m m' a (a + t.length + 1)) : CStringAt m' a t := by
  refine ⟨?_, h.noZero, ?_⟩
  · rw [slice_congr fun x hl hr => hsame x hl (by omega), h.chars]
  · rw [hsame _ (by omega) (by omega), h.ends]

/-- The string behind a character of a string. -/
theorem CStringAt.behind (h : CStringAt m a (t ++ c :: rest)) : CStringAt m (a + t.length + 1) rest := by
  induction t generalizing a with
  | nil => exact (cStringAt_cons.mp h).2.2
  | cons b t ih =>
    have hnext := ih (cStringAt_cons.mp h).2.2
    rwa [List.length_cons, show a + (t.length + 1) + 1 = a + 1 + t.length + 1 by omega]

/-- A NUL over the character ends the string before it. -/
theorem CStringAt.cut (h : CStringAt m a (t ++ c :: rest)) : CStringAt (st8 m (a + t.length) 0) a t := by
  have h0 : 0 ∉ t := fun h0 => h.noZero (List.mem_append_left _ h0)
  have hchars := congrArg (List.take t.length) h.chars
  rw [take_slice _ _ (by simp), List.take_left] at hchars
  refine ⟨?_, h0, if_pos rfl⟩
  rw [slice_congr fun x _ hr => st8_ne m 0 (by omega), hchars]

end Strings

/-! ## One call -/

section Call

variable {delimiter : List UInt8} {m : Mem} {a : Nat} {s : List UInt8}

theorem isDelimiter_iff {c : UInt8} : isDelimiter delimiter c = true ↔ c ∈ cstr delimiter := decide_eq_true_iff

theorem delimLoop_eq (chr : UInt8) (delimiter : List UInt8) : delimLoop chr delimiter = isDelimiter delimiter chr := by
  unfold isDelimiter
  induction delimiter with
  | nil => rfl
  | cons d delimiter ih =>
    unfold delimLoop
    by_cases h0 : d = 0
    · rw [if_neg (not_not.mpr h0), h0, cstr_zero]
      rfl
    · rw [if_pos h0, cstr_cons h0, ih]
      by_cases hd : d = chr
      · rw [if_pos hd, hd]
        simp
      · rw [if_neg hd]
        simp [Ne.symm hd]

/-- In memory as on strings: the rest begins behind the NUL that is written. -/
theorem strsepAtLoop_eq (h : CStringAt m a s) (hend : a + s.length < 4294967296) {fuel : Nat} (hf : s.length < fuel) :
    strsepAtLoop delimiter fuel m a =
      match strsepLoop (cstr delimiter) s with
      | (_, none) => some (m, 0)
      | (t, some _) => some (st8 m (a + t.length) 0, a + t.length + 1) := by
  induction s generalizing a fuel with
  | nil =>
    rcases Nat.exists_eq_succ_of_ne_zero (Nat.ne_of_gt hf) with ⟨fuel, rfl⟩
    rw [strsepAtLoop, if_neg (not_not.mpr (cStringAt_nil.mp h))]
    rfl
  | cons c s ih =>
    rcases Nat.exists_eq_succ_of_ne_zero (Nat.ne_of_gt (Nat.zero_lt_of_lt hf)) with ⟨fuel, rfl⟩
    rcases cStringAt_cons.mp h with ⟨hc, h0, hrest⟩
    rw [List.length_cons] at hend hf
    rw [strsepAtLoop, hc, if_pos h0, delimLoop_eq, add32_eq (by omega), strsepLoop, if_neg h0]
    by_cases hd : c ∈ cstr delimiter
    · rw [if_pos (isDelimiter_iff.mpr hd), if_pos hd]
      rfl
    · rw [if_neg (mt isDelimiter_iff.mp hd), if_neg hd, ih hrest (by omega) (by omega)]
      have hlen : ∀ t : List UInt8, a + (c :: t).length = a + 1 + t.length := by
        intro t
        rw [List.length_cons]
        omega
      rcases strsepLoop (cstr delimiter) s with ⟨t, _ | rest⟩
      · rfl
      · simp only [hlen]

/-- The call on a string, which ends before the address space does. -/
theorem strsepAt_eq (h : CStringAt m a s) (ha : a ≠ 0) (hend : a + s.length < 4294967296) :
    strsepAt delimiter m a =
      match strsepLoop (cstr delimiter) s with
      | (_, none) => some (m, a, 0)
      | (t, some _) => some (st8 m (a + t.length) 0, a, a + t.length + 1) := by
  unfold strsepAt
  rw [if_neg ha, strsepAtLoop_eq h hend (by omega)]
  rcases strsepLoop (cstr delimiter) s with ⟨t, _ | rest⟩ <;> rfl

end Call

/-! ## Every call -/

section Calls

variable {delimiter : List UInt8} {m m' : Mem} {a : Nat} {d : UInt8} {s t rest : List UInt8} {outs : List Nat}

/-- A string without a delimiter is its own only part. -/
theorem SplitAt.last (h : CStringAt m a s) (hnone : ∀ c ∈ s, c ∉ cstr delimiter) : SplitAt delimiter m m a s [a] := by
  have hneg : ∀ c ∈ s, isDelimiter delimiter c = false := fun c hc => decide_eq_false (hnone c hc)
  have hone : segments delimiter s = [s] := List.splitOnP_eq_singleton hneg
  refine ⟨?_, ?_, ?_, ?_⟩
  · have hcount : s.countP (isDelimiter delimiter) = 0 := List.countP_eq_zero.mpr fun c hc => by simp [hneg c hc]
    rw [hcount]
    rfl
  · rw [hone]
    exact .cons h .nil
  · rw [hone]
    rfl
  · intro x hx
    exact absurd rfl hx

/-- The part before the first delimiter, and the parts of the rest. -/
theorem SplitAt.cons (h : CStringAt m a (t ++ d :: rest)) (hd : d ∈ cstr delimiter) (hnone : ∀ c ∈ t, c ∉ cstr delimiter)
    (hrest : SplitAt delimiter (st8 m (a + t.length) 0) m' (a + t.length + 1) rest outs) :
    SplitAt delimiter m m' a (t ++ d :: rest) (a :: outs) := by
  have hneg : ∀ c ∈ t, isDelimiter delimiter c = false := fun c hc => decide_eq_false (hnone c hc)
  have hparts : segments delimiter (t ++ d :: rest) = t :: segments delimiter rest :=
    List.splitOnP_append_cons_of_forall_mem hneg d (isDelimiter_iff.mpr hd) rest
  have hcount : t.countP (isDelimiter delimiter) = 0 := List.countP_eq_zero.mpr fun c hc => by simp [hneg c hc]
  -- what the later calls change is behind the NUL
  have hbefore : Same (st8 m (a + t.length) 0) m' a (a + t.length + 1) := by
    intro x _ hx
    by_contra hne
    rcases hrest.changed x hne with ⟨i, -, hxi, -⟩
    omega
  refine ⟨?_, ?_, ?_, ?_⟩
  · rw [List.length_cons, hrest.calls, List.countP_append, hcount, Nat.zero_add,
      List.countP_cons_of_pos (isDelimiter_iff.mpr hd)]
  · rw [hparts]
    exact .cons (h.cut.congr hbefore) hrest.strings
  · rw [hparts, starts, ← hrest.inPlace]
  · intro x hx
    by_cases hnul : x = a + t.length
    · refine ⟨t.length, by simp, hnul, by simpa using hd, ?_⟩
      rw [hnul, hbefore _ (by omega) (by omega)]
      exact if_pos rfl
    · rw [← st8_ne m 0 hnul] at hx
      rcases hrest.changed x hx with ⟨i, hi, hxi, hchar, hzero⟩
      refine ⟨t.length + 1 + i, by simp; omega, by omega, ?_, hzero⟩
      rw [List.getD_append_right _ _ _ _ (by omega), show t.length + 1 + i - t.length = i + 1 by omega,
        List.getD_cons_succ]
      exact hchar

theorem strsepCalls_last {calls : Nat} (h : strsepAt delimiter m a = some (m', a, 0)) :
    strsepCalls delimiter (calls + 1) m a = some (m', [a]) := by
  rw [strsepCalls, h]
  rfl

theorem strsepCalls_next {calls next : Nat} (h : strsepAt delimiter m a = some (m', a, next)) (hn : next ≠ 0) :
    strsepCalls delimiter (calls + 1) m a =
      (strsepCalls delimiter calls m' next).map fun (m'', outs) => (m'', a :: outs) := by
  rw [strsepCalls, h]
  simp only [Option.bind_eq_bind, Option.bind_some, if_neg hn]
  cases strsepCalls delimiter calls m' next <;> rfl

/-- For every string in memory and every set of delimiters: the calls end, as many as there
    are delimiters and one more, and have split the string. -/
theorem strsep_splits (delimiter : List UInt8) (h : CStringAt m a s) (ha : a ≠ 0) (hend : a + s.length < 4294967296) :
    ∃ m' outs, SplitAt delimiter m m' a s outs ∧ ∀ calls, strsepCalls delimiter calls m a =
      if s.countP (isDelimiter delimiter) < calls then some (m', outs) else none := by
  induction hn : s.length using Nat.strongRecOn generalizing s m a with
  | _ n ih =>
    have hcall := @strsepAt_eq delimiter _ _ _ h ha hend
    rcases strsepLoop_parts (cstr delimiter) s with ⟨hloop, hnone⟩ | ⟨t, d, rest, rfl, hloop, hd, hnone, -⟩
    · rw [cstr_of_no_zero h.noZero] at hloop hnone
      rw [hloop] at hcall
      have hsplit : SplitAt delimiter m m a s [a] := .last h hnone
      have hcount : s.countP (isDelimiter delimiter) = 0 := (Nat.succ.inj hsplit.calls).symm
      refine ⟨m, [a], hsplit, ?_⟩
      intro calls
      rw [hcount]
      cases calls with
      | zero => rfl
      | succ calls => rw [if_pos (Nat.succ_pos calls), strsepCalls_last hcall]
    · rw [hloop] at hcall
      rw [List.length_append, List.length_cons] at hend hn
      have hbehind : CStringAt (st8 m (a + t.length) 0) (a + t.length + 1) rest :=
        h.behind.congr fun x hl _ => st8_ne m 0 (by omega)
      rcases ih rest.length (by omega) hbehind (by omega) (by omega) rfl with ⟨m', outs, hrest, hcalls⟩
      have hsplit : SplitAt delimiter m m' a (t ++ d :: rest) (a :: outs) := .cons h hd hnone hrest
      have hcount : (t ++ d :: rest).countP (isDelimiter delimiter) = rest.countP (isDelimiter delimiter) + 1 := by
        have htotal := hsplit.calls
        rw [List.length_cons, hrest.calls] at htotal
        exact (Nat.succ.inj htotal).symm
      refine ⟨m', a :: outs, hsplit, ?_⟩
      intro calls
      rw [hcount]
      cases calls with
      | zero => rfl
      | succ calls =>
        rw [strsepCalls_next hcall (by omega), hcalls]
        by_cases hlt : rest.countP (isDelimiter delimiter) < calls
        · rw [if_pos hlt, if_pos (Nat.succ_lt_succ hlt)]
          rfl
        · rw [if_neg hlt, if_neg fun hs => hlt (Nat.lt_of_succ_lt_succ hs)]
          rfl

end Calls

/-- "a//b" in memory. -/
def slashes : Mem := put ⟨fun _ => 0⟩ 0x1000 [97, 47, 47, 98, 0]

/-- Three strings, the second one empty. -/
theorem a_path_is_split : segments [47, 0] [97, 47, 47, 98] = [[97], [], [98]] ∧
    ∃ m' outs, SplitAt [47, 0] slashes m' 0x1000 [97, 47, 47, 98] outs ∧ ∀ calls, strsepCalls [47, 0] calls slashes 0x1000 =
      if [97, 47, 47, 98].countP (isDelimiter [47, 0]) < calls then some (m', outs) else none :=
  ⟨by decide, strsep_splits [47, 0] (cStringAt_put ⟨fun _ => 0⟩ 0x1000 [97, 47, 47, 98]) (by decide) (by decide)⟩

end NativeOS.Stdkern
