/-
  NativeOS.Cpu.Isr — the code an interrupt runs through (`arch/i386/kernel/cpu/lidt.S`, and
  `idt_handler` of `idt.c`).

  The processor pushes the flags, where it was and, for some exceptions, an error code. A stub
  pushes a 0 where it expects no error code, then its number; what is common to all saves the
  registers, calls `idt_handler` with a pointer to all this, and takes it off again.
  `idt_handler` calls the handler of the number and ends in `kernel_die` for those below 16.

  A handler is any function that keeps what a C function keeps: the stack pointer and the stack
  above its argument. No handler of the kernel writes into the structure it is handed.

  Proved, for all values of the registers and whatever is in memory:
  * `handler_gets_its_number` — what `idt_handler` finds in `struct idt_data`. Its `eax`, `ebx`
    and `edx` are `ebx`, `edx` and `eax`: `pusha` has another order.
  * `interrupts_are_transparent_iff` — the interrupted code goes on with every register and its
    stack as they were from vector 16 on, except behind vector 17, for which the processor
    pushes an error code that the stub does not expect.
-/

import NativeOS.Lib.Stack
import NativeOS.Cpu.Idt

namespace NativeOS.Cpu

open NativeOS.Lib NativeOS.Lib.Stack NativeOS.Lib.Pic

/-! ## The processor -/

/-- What `pusha` saves, but for the stack pointer. -/
@[ext] structure Regs where
  eax : Nat
  ecx : Nat
  edx : Nat
  ebx : Nat
  ebp : Nat
  esi : Nat
  edi : Nat

structure Core where
  regs : Regs
  esp : Nat
  eip : Nat
  cs : Nat
  eflags : Nat
  mem : Mem

def push (s : Core) (w : Nat) : Core := { s with esp := below s.esp, mem := st32 s.mem (below s.esp) w }

/-- The word on top of the stack. -/
def top (s : Core) : Nat := ld32 s.mem s.esp

def drop (s : Core) (n : Nat) : Core := { s with esp := add32 n s.esp }

/-- The vectors for which the processor pushes an error code. -/
def pushesErrorCode : List Nat := [8, 10, 11, 12, 13, 14, 17]

/-- What the processor does before the first instruction of the stub. -/
def deliver (vector errorCode : Nat) (s : Core) : Core :=
  let s1 := push (push (push s s.eflags) s.cs) s.eip
  if vector ∈ pushesErrorCode then push s1 errorCode else s1

/-- The instructions of `lidt.S`. -/
inductive Instr where
  | pushl (n : Nat)
  | pusha
  | movEspEax
  | pushEax
  | popEax
  | popa
  | addEsp (n : Nat)
  | iret

def pusha (s : Core) : Core :=
  push (push (push (push (push (push (push (push s s.regs.eax) s.regs.ecx) s.regs.edx) s.regs.ebx) s.esp)
    s.regs.ebp) s.regs.esi) s.regs.edi

def popInto (s : Core) (set : Regs → Nat → Regs) : Core := drop { s with regs := set s.regs (top s) } 4

/-- `popa` goes past the stack pointer it finds. -/
def popa (s : Core) : Core :=
  let s1 := popInto s fun r v => { r with edi := v }
  let s2 := popInto s1 fun r v => { r with esi := v }
  let s3 := popInto s2 fun r v => { r with ebp := v }
  let s4 := popInto (drop s3 4) fun r v => { r with ebx := v }
  let s5 := popInto s4 fun r v => { r with edx := v }
  let s6 := popInto s5 fun r v => { r with ecx := v }
  popInto s6 fun r v => { r with eax := v }

def iret (s : Core) : Core :=
  let s1 := drop { s with eip := top s } 4
  let s2 := drop { s1 with cs := top s1 } 4
  drop { s2 with eflags := top s2 } 4

def exec (s : Core) : Instr → Core
  | .pushl n => push s n
  | .pusha => pusha s
  | .movEspEax => { s with regs := { s.regs with eax := s.esp } }
  | .pushEax => push s s.regs.eax
  | .popEax => popInto s fun r v => { r with eax := v }
  | .popa => popa s
  | .addEsp n => drop s n
  | .iret => iret s

/-! ## lidt.S -/

/-- The stubs made by `ERROR_INTERRUPT`. -/
def errorInterrupts : List Nat := [8, 10, 11, 12, 13, 14]

def isr (num : Nat) : List Instr := if num ∈ errorInterrupts then [.pushl num] else [.pushl 0, .pushl num]

/-- `idt_common_prehandler` up to the call. -/
def prehandler : List Instr := [.pusha, .movEspEax, .pushEax]

def posthandler : List Instr := [.popEax, .popa, .addEsp 8, .iret]

/-- When `idt_handler` is called. -/
def atCall (vector errorCode : Nat) (s : Core) : Core := (isr vector ++ prehandler).foldl exec (deliver vector errorCode s)

/-- `struct idt_data`. -/
structure IdtData where
  edi : Nat
  esi : Nat
  ebp : Nat
  esp : Nat
  eax : Nat
  ebx : Nat
  ecx : Nat
  edx : Nat
  intNo : Nat
  errCode : Nat
  deriving DecidableEq

def idtData (m : Mem) (a : Nat) : IdtData where
  edi := ld32 m a
  esi := ld32 m (a + 4)
  ebp := ld32 m (a + 8)
  esp := ld32 m (a + 12)
  eax := ld32 m (a + 16)
  ebx := ld32 m (a + 20)
  ecx := ld32 m (a + 24)
  edx := ld32 m (a + 28)
  intNo := ld32 m (a + 32)
  errCode := ld32 m (a + 36)

/-! ## idt_handler -/

def fallbackHandler (s : Core) : Core := s

/-- `idt_handlers`, and what the compiler's code for `idt_handler` itself leaves of the registers
    and of the stack below. -/
structure Handlers where
  handler : Nat → Option (Core → Core)
  code : Core → Core

/-- The handler of `n`, or the fallback for NULL. -/
def Handlers.called (c : Handlers) (n : Nat) (s : Core) : Core := (c.handler n).getD fallbackHandler (c.code s)

/-- `none` is `kernel_die`. The number is read again behind the call. -/
def idtHandler (c : Handlers) (s : Core) (x : Pics) : Option (Core × Pics) :=
  let data := top s
  let s1 := c.called (idtData s.mem data).intNo s
  (endHandler (idtData s1.mem data).intNo x).map fun x1 => (s1, x1)

/-- The whole way. -/
def interrupt (c : Handlers) (vector errorCode : Nat) (s : Core) (x : Pics) : Option (Core × Pics) :=
  (idtHandler c (atCall vector errorCode s) x).map fun r => (posthandler.foldl exec r.1, r.2)

/-! ## What is assumed -/

/-- What a C function keeps of its caller, besides registers: the stack pointer, and the stack
    from above its argument to `base`. -/
structure Cdecl (base : Nat) (f : Core → Core) : Prop where
  esp : ∀ s, (f s).esp = s.esp
  mem : ∀ s x, s.esp + 4 ≤ x → x < base → (f s).mem x = s.mem x

structure Handlers.Cdecl (base : Nat) (c : Handlers) : Prop where
  handler : ∀ n f, c.handler n = some f → Cpu.Cdecl base f
  code : Cpu.Cdecl base c.code

structure Regs.Fit (r : Regs) : Prop where
  eax : r.eax < 4294967296
  ecx : r.ecx < 4294967296
  edx : r.edx < 4294967296
  ebx : r.ebx < 4294967296
  ebp : r.ebp < 4294967296
  esi : r.esi < 4294967296
  edi : r.edi < 4294967296

/-- Registers of 32 bits, and room for a frame on a stack that begins at `base`. -/
structure Core.Fit (s : Core) (base : Nat) : Prop where
  regs : s.regs.Fit
  eip : s.eip < 4294967296
  cs : s.cs < 4294967296
  eflags : s.eflags < 4294967296
  room : 64 ≤ s.esp
  stack : s.esp ≤ base
  esp : s.esp < 4294967296

/-- Some code at 1 MiB. -/
def interrupted : Core := ⟨⟨1, 2, 3, 4, 5, 6, 7⟩, 0x9000, 0x100000, 8, 0x202, ⟨fun _ => 0⟩⟩

theorem interrupted_fit : interrupted.Fit 0xA000 := by
  constructor
  · constructor <;> decide
  all_goals decide

/-- It uses the registers that are its own. -/
def clobber (s : Core) : Core := { s with regs := { s.regs with eax := 0, ecx := 0, edx := 0 } }

theorem clobber_cdecl : Cdecl 0xA000 clobber := ⟨fun _ => rfl, fun _ _ _ _ => rfl⟩

/-- The chips as `idt_init` leaves them. -/
def programmed : Pics := remapPic 0x20 ⟨.initialise 0, .initialise 0⟩

/-- The keyboard has a handler, nothing else. -/
def onlyKeyboard : Handlers := ⟨fun n => if n = 0x21 then some clobber else none, clobber⟩

theorem onlyKeyboard_cdecl : onlyKeyboard.Cdecl 0xA000 := by
  refine ⟨fun n f hf => ?_, clobber_cdecl⟩
  have hif : (if n = 0x21 then some clobber else none) = some f := hf
  split at hif
  · rw [← Option.some.inj hif]
    exact clobber_cdecl
  · cases hif

/-! ## Pushing and popping -/

section Stub

variable {s₀ s s' : Core} {base w n : Nat} {ws : List Nat}

/-- What lies on the stack since `s₀`. -/
def OnStack (s₀ : Core) (base : Nat) (s : Core) (ws : List Nat) : Prop := Pushed s₀.mem s₀.esp base s.mem s.esp ws

theorem OnStack.push (h : OnStack s₀ base s ws) (hfit : s₀.Fit base) (hw : w < 4294967296) (hroom : ws.length < 16) :
    OnStack s₀ base (push s w) (w :: ws) := by
  have hdepth := h.depth
  have h64 := hfit.room
  exact Pushed.push h hw (by omega) hfit.esp

theorem OnStack.top (h : OnStack s₀ base s (w :: ws)) (hfit : s₀.Fit base) : top s = w := (Pushed.pop h hfit.esp).1

theorem OnStack.drop (h : OnStack s₀ base s (w :: ws)) (hfit : s₀.Fit base) : OnStack s₀ base (drop s 4) ws :=
  (Pushed.pop h hfit.esp).2

theorem OnStack.drop8 {w' : Nat} (h : OnStack s₀ base s (w :: w' :: ws)) (hfit : s₀.Fit base) :
    OnStack s₀ base (Cpu.drop s 8) ws := by
  have htwice := (h.drop hfit).drop hfit
  have hadd : add32 4 (add32 4 s.esp) = add32 8 s.esp := by
    unfold add32
    omega
  have hpushed : Pushed s₀.mem s₀.esp base s.mem (add32 4 (add32 4 s.esp)) ws := htwice
  rw [hadd] at hpushed
  exact hpushed

/-- The registers as `pusha` leaves them, with the stack pointer `x`. -/
def saved (r : Regs) (x : Nat) : List Nat := [r.edi, r.esi, r.ebp, x, r.ebx, r.edx, r.ecx, r.eax]

theorem OnStack.pusha (h : OnStack s₀ base s ws) (hfit : s₀.Fit base) (hs : s.regs = s₀.regs) (hroom : ws.length ≤ 7) :
    OnStack s₀ base (pusha s) (saved s₀.regs s.esp ++ ws) := by
  have hdepth := h.depth
  have hesp : s.esp < 4294967296 := by
    have htop := hfit.esp
    omega
  have hr := hfit.regs
  have h1 := h.push hfit hr.eax (by omega)
  have h2 := h1.push hfit hr.ecx (by simp only [List.length_cons]; omega)
  have h3 := h2.push hfit hr.edx (by simp only [List.length_cons]; omega)
  have h4 := h3.push hfit hr.ebx (by simp only [List.length_cons]; omega)
  have h5 := h4.push hfit hesp (by simp only [List.length_cons]; omega)
  have h6 := h5.push hfit hr.ebp (by simp only [List.length_cons]; omega)
  have h7 := h6.push hfit hr.esi (by simp only [List.length_cons]; omega)
  have h8 := h7.push hfit hr.edi (by simp only [List.length_cons]; omega)
  unfold Cpu.pusha saved
  rw [hs]
  simp only [List.cons_append, List.nil_append]
  exact h8

theorem OnStack.popInto (h : OnStack s₀ base s (w :: ws)) (hfit : s₀.Fit base) (set : Regs → Nat → Regs) :
    OnStack s₀ base (popInto s set) ws ∧ (popInto s set).regs = set s.regs w :=
  ⟨h.drop hfit, congrArg (set s.regs) (h.top hfit)⟩

/-- What was saved is in the registers again. -/
theorem OnStack.popa {r : Regs} {x : Nat} (h : OnStack s₀ base s (saved r x ++ ws)) (hfit : s₀.Fit base) :
    OnStack s₀ base (popa s) ws ∧ (popa s).regs = r := by
  obtain ⟨h1, hedi⟩ := h.popInto hfit fun r v => { r with edi := v }
  obtain ⟨h2, hesi⟩ := h1.popInto hfit fun r v => { r with esi := v }
  obtain ⟨h3, hebp⟩ := h2.popInto hfit fun r v => { r with ebp := v }
  obtain ⟨h4, hebx⟩ := (h3.drop hfit).popInto hfit fun r v => { r with ebx := v }
  obtain ⟨h5, hedx⟩ := h4.popInto hfit fun r v => { r with edx := v }
  obtain ⟨h6, hecx⟩ := h5.popInto hfit fun r v => { r with ecx := v }
  obtain ⟨h7, heax⟩ := h6.popInto hfit fun r v => { r with eax := v }
  refine ⟨h7, heax.trans ?_⟩
  rw [hecx, hedx, hebx]
  unfold Cpu.drop
  rw [hebp, hesi, hedi]

theorem OnStack.iret {w₁ w₂ w₃ : Nat} (h : OnStack s₀ base s (w₁ :: w₂ :: w₃ :: ws)) (hfit : s₀.Fit base) :
    OnStack s₀ base (iret s) ws ∧ (iret s).regs = s.regs ∧ (iret s).eip = w₁ ∧ (iret s).cs = w₂ ∧ (iret s).eflags = w₃ := by
  have h1 := h.drop hfit
  have h2 := h1.drop hfit
  exact ⟨h2.drop hfit, rfl, h.top hfit, h1.top hfit, h2.top hfit⟩

/-! ## The way in -/

/-- What the processor and the stub have pushed. -/
def frame (vector errorCode : Nat) (s : Core) : List Nat :=
  vector :: ((if vector ∈ errorInterrupts then [] else [0]) ++
    ((if vector ∈ pushesErrorCode then [errorCode] else []) ++ [s.eip, s.cs, s.eflags]))

/-- The error code that is handed on. -/
def codeOf (vector errorCode : Nat) : Nat := if vector ∈ errorInterrupts then errorCode else 0

/-- One word too many for vector 17. -/
theorem frame_eq (vector errorCode : Nat) (s : Core) : frame vector errorCode s =
    if vector = 17 then [17, 0, errorCode, s.eip, s.cs, s.eflags]
    else [vector, codeOf vector errorCode, s.eip, s.cs, s.eflags] := by
  have hmem : vector ∈ pushesErrorCode ↔ vector ∈ errorInterrupts ∨ vector = 17 := by
    simp [pushesErrorCode, errorInterrupts, or_assoc]
  unfold frame codeOf
  by_cases h17 : vector = 17
  · subst h17
    rfl
  · rw [if_neg h17]
    by_cases he : vector ∈ errorInterrupts
    · rw [if_pos he, if_pos (hmem.mpr (.inl he)), if_pos he]
      rfl
    · have hno : vector ∉ pushesErrorCode := fun hp => (hmem.mp hp).elim he h17
      rw [if_neg he, if_neg hno, if_neg he]
      rfl

theorem frame_length (vector errorCode : Nat) (s : Core) : (frame vector errorCode s).length = if vector = 17 then 6 else 5 := by
  rw [frame_eq]
  split <;> rfl

theorem deliver_stack (vector : Nat) {errorCode : Nat} (hfit : s₀.Fit base) (hcode : errorCode < 4294967296) :
    OnStack s₀ base (deliver vector errorCode s₀)
      ((if vector ∈ pushesErrorCode then [errorCode] else []) ++ [s₀.eip, s₀.cs, s₀.eflags]) ∧
    (deliver vector errorCode s₀).regs = s₀.regs := by
  have h0 : OnStack s₀ base s₀ [] := pushed_nil _ _ _
  have h3 := ((h0.push hfit hfit.eflags (by simp)).push hfit hfit.cs (by simp)).push hfit hfit.eip (by simp)
  unfold deliver
  by_cases hp : vector ∈ pushesErrorCode
  · simp only [if_pos hp]
    exact ⟨h3.push hfit hcode (by simp), rfl⟩
  · simp only [if_neg hp]
    exact ⟨h3, rfl⟩

theorem isr_stack {vector errorCode : Nat} (hfit : s₀.Fit base) (hv : vector < INTERRUPTS)
    (hcode : errorCode < 4294967296) :
    OnStack s₀ base ((isr vector).foldl exec (deliver vector errorCode s₀)) (frame vector errorCode s₀) ∧
    ((isr vector).foldl exec (deliver vector errorCode s₀)).regs = s₀.regs := by
  obtain ⟨hstack, hsame⟩ := deliver_stack vector hfit hcode
  have hlt : vector < 4294967296 := by
    unfold INTERRUPTS at hv
    omega
  have hlen : ((if vector ∈ pushesErrorCode then [errorCode] else []) ++ [s₀.eip, s₀.cs, s₀.eflags]).length ≤ 4 := by
    split <;> simp
  unfold isr frame
  by_cases he : vector ∈ errorInterrupts
  · rw [if_pos he, if_pos he]
    exact ⟨hstack.push hfit hlt (by omega), hsame⟩
  · rw [if_neg he, if_neg he]
    have hzero := hstack.push hfit (w := 0) (by decide) (by omega)
    refine ⟨hzero.push hfit hlt ?_, hsame⟩
    rw [List.length_cons]
    omega

/-- When `idt_handler` is called, its argument is on top and points at what is below it. -/
theorem atCall_stack {vector errorCode : Nat} (hfit : s₀.Fit base) (hv : vector < INTERRUPTS)
    (hcode : errorCode < 4294967296) :
    OnStack s₀ base (atCall vector errorCode s₀)
      (((atCall vector errorCode s₀).esp + 4) ::
        (saved s₀.regs (s₀.esp - 4 * (frame vector errorCode s₀).length) ++ frame vector errorCode s₀)) := by
  obtain ⟨hstack, hsame⟩ := isr_stack hfit hv hcode
  have hlen6 : (frame vector errorCode s₀).length ≤ 6 := by
    rw [frame_length]
    split <;> decide
  have hat : atCall vector errorCode s₀ =
      exec (exec (pusha ((isr vector).foldl exec (deliver vector errorCode s₀))) .movEspEax) .pushEax := by
    unfold atCall
    rw [List.foldl_append]
    rfl
  rw [hat]
  generalize (isr vector).foldl exec (deliver vector errorCode s₀) = s₁ at hstack hsame
  have hdepth := hstack.depth
  have hpushed := hstack.pusha hfit hsame (by omega)
  generalize pusha s₁ = s₂ at hpushed
  have hdepth₂ := hpushed.depth
  have hroom := hfit.room
  have htop := hfit.esp
  have hlen : (saved s₀.regs s₁.esp ++ frame vector errorCode s₀).length = 8 + (frame vector errorCode s₀).length := by
    rw [List.length_append]
    rfl
  have hesp : s₁.esp = s₀.esp - 4 * (frame vector errorCode s₀).length := by omega
  -- the argument is the stack pointer that `pusha` has left
  have harg : below s₂.esp + 4 = s₂.esp := by
    rw [below_eq (by omega) (by omega)]
    omega
  have hmov : OnStack s₀ base (exec s₂ .movEspEax) (saved s₀.regs s₁.esp ++ frame vector errorCode s₀) := hpushed
  have hcall := hmov.push hfit (w := s₂.esp) (by omega) (by omega)
  rw [← hesp]
  show OnStack s₀ base (push _ s₂.esp) ((below s₂.esp + 4) :: _)
  rw [harg]
  exact hcall

/-! ## The way out -/

theorem Words.number {m : Mem} {a w vector : Nat} {r : Regs} {x : Nat} (h : Words m a (w :: (saved r x ++ vector :: ws))) :
    (idtData m (a + 4)).intNo = vector := by
  obtain ⟨-, -, -, -, -, -, -, -, -, hnumber, -⟩ := h
  exact hnumber

theorem endHandler_isSome_iff {n : Nat} {x : Pics} : (endHandler n x).isSome = true ↔ 16 ≤ n := by
  unfold endHandler
  split
  · exact iff_of_false (by simp) (by omega)
  · exact iff_of_true rfl (by omega)

theorem Handlers.Cdecl.called {c : Handlers} (hc : c.Cdecl base) (n : Nat) : Cpu.Cdecl base (c.called n) := by
  have hcall : Cpu.Cdecl base ((c.handler n).getD fallbackHandler) := by
    cases hn : c.handler n with
    | none => exact ⟨fun _ => rfl, fun _ _ _ _ => rfl⟩
    | some f => exact hc.handler n f hn
  refine ⟨fun s => (hcall.esp _).trans (hc.code.esp s), fun s x hx hb => ?_⟩
  have hesp : (c.code s).esp + 4 ≤ x := by rwa [hc.code.esp]
  exact (hcall.mem _ x hesp hb).trans (hc.code.mem s x hx hb)

/-- The frame outlives the call, and with it the number: `idt_handler` goes on, or stops, by the
    number of the vector. -/
theorem idtHandler_stack {c : Handlers} {vector errorCode : Nat} (hc : c.Cdecl base) (hfit : s₀.Fit base)
    (hv : vector < INTERRUPTS) (hcode : errorCode < 4294967296) (x : Pics) :
    ∃ s₁, idtHandler c (atCall vector errorCode s₀) x = (endHandler vector x).map (fun x1 => (s₁, x1)) ∧
      OnStack s₀ base s₁ (ld32 s₁.mem s₁.esp ::
        (saved s₀.regs (s₀.esp - 4 * (frame vector errorCode s₀).length) ++ frame vector errorCode s₀)) := by
  have hcall := atCall_stack hfit hv hcode
  unfold idtHandler
  generalize atCall vector errorCode s₀ = s₂ at hcall
  have hleft := Pushed.leave hcall hfit.stack ((hc.called vector).mem s₂)
  rw [← (hc.called vector).esp s₂] at hleft
  have hbefore : (idtData s₂.mem (top s₂)).intNo = vector := by
    rw [hcall.top hfit]
    exact Words.number hcall.words
  have hafter : (idtData (c.called vector s₂).mem (top s₂)).intNo = vector := by
    rw [hcall.top hfit, ← (hc.called vector).esp s₂]
    exact Words.number hleft.words
  refine ⟨c.called vector s₂, ?_, hleft⟩
  simp only [hbefore, hafter]

/-- Where `idt_handler` comes back, what it was called with is taken off. -/
theorem interrupt_stack {c : Handlers} {vector errorCode : Nat} (hc : c.Cdecl base) (hfit : s₀.Fit base)
    (hv : vector < INTERRUPTS) (hcode : errorCode < 4294967296) (x : Pics) {w₁ w₂ w₃ w₄ : Nat}
    (hframe : frame vector errorCode s₀ = vector :: w₄ :: w₁ :: w₂ :: w₃ :: ws) :
    ∃ s₁, interrupt c vector errorCode s₀ x = (endHandler vector x).map (fun x1 => (s₁, x1)) ∧
      OnStack s₀ base s₁ ws ∧ s₁.regs = s₀.regs ∧ s₁.eip = w₁ ∧ s₁.cs = w₂ ∧ s₁.eflags = w₃ := by
  obtain ⟨s₂, hhandled, hleft⟩ := idtHandler_stack hc hfit hv hcode x
  rw [hframe] at hleft
  refine ⟨posthandler.foldl exec s₂, ?_, ?_⟩
  · unfold interrupt
    rw [hhandled, Option.map_map]
    rfl
  · show OnStack s₀ base (iret (drop (popa (exec s₂ .popEax)) 8)) ws ∧ _
    obtain ⟨hargMem, hargStack⟩ := Pushed.pop hleft hfit.esp
    have hpopped : OnStack s₀ base (exec s₂ .popEax) _ := hargStack
    obtain ⟨hregs, hsame⟩ := hpopped.popa hfit
    obtain ⟨hstack, hkept, hwords⟩ := (hregs.drop8 hfit).iret hfit
    exact ⟨hstack, hkept.trans hsame, hwords⟩

/-- For every vector and all registers: `idt_handler` is handed the number of the vector, the
    error code where there is one, and of the registers `edi`, `esi`, `ebp` and `ecx` under their
    names; `eax` is what was in `ebx`, `ebx` what was in `edx` and `edx` what was in `eax`. -/
theorem handler_gets_its_number {vector errorCode : Nat} (hfit : s₀.Fit base) (hv : vector < INTERRUPTS)
    (hcode : errorCode < 4294967296) :
    idtData (atCall vector errorCode s₀).mem (top (atCall vector errorCode s₀)) =
      { edi := s₀.regs.edi
        esi := s₀.regs.esi
        ebp := s₀.regs.ebp
        esp := s₀.esp - if vector = 17 then 24 else 20
        eax := s₀.regs.ebx
        ebx := s₀.regs.edx
        ecx := s₀.regs.ecx
        edx := s₀.regs.eax
        intNo := vector
        errCode := codeOf vector errorCode } := by
  have hcall := atCall_stack hfit hv hcode
  have hlen : 4 * (frame vector errorCode s₀).length = if vector = 17 then 24 else 20 := by
    rw [frame_length]
    split <;> rfl
  obtain ⟨ws, hframe⟩ : ∃ ws, frame vector errorCode s₀ = vector :: codeOf vector errorCode :: ws := by
    rw [frame_eq]
    by_cases h17 : vector = 17
    · subst h17
      exact ⟨_, rfl⟩
    · rw [if_neg h17]
      exact ⟨_, rfl⟩
  rw [hlen, hframe] at hcall
  rw [hcall.top hfit]
  obtain ⟨-, h1, h2, h3, h4, h5, h6, h7, h8, h9, h10, -⟩ := hcall.words
  unfold idtData
  simp only [IdtData.mk.injEq]
  exact ⟨h1, h2, h3, h4, h5, h6, h7, h8, h9, h10⟩

theorem a_page_fault_is_numbered : idtData (atCall 14 2 interrupted).mem (top (atCall 14 2 interrupted)) =
    ⟨7, 6, 5, 0x9000 - 20, 4, 3, 2, 1, 14, 2⟩ :=
  handler_gets_its_number interrupted_fit (by decide) (by decide)

/-- For every vector, all registers and all handlers that keep their caller's stack: the
    interrupted code goes on as it was, and the chips are told what `endHandler` tells them,
    exactly if the vector is 16 or more and not 17. Below 16 the system stops. -/
theorem interrupts_are_transparent_iff {c : Handlers} {vector errorCode : Nat} (hc : c.Cdecl base) (hfit : s₀.Fit base)
    (hv : vector < INTERRUPTS) (hcode : errorCode < 4294967296) (x : Pics) :
    (∃ m x', interrupt c vector errorCode s₀ x = some ({ s₀ with mem := m }, x') ∧ endHandler vector x = some x' ∧
      ∀ a, s₀.esp ≤ a → a < base → m a = s₀.mem a) ↔ 16 ≤ vector ∧ vector ≠ 17 := by
  by_cases h17 : vector = 17
  · subst h17
    refine iff_of_false (fun h => ?_) fun hne => hne.2 rfl
    obtain ⟨m, x', hm, hend, -⟩ := h
    obtain ⟨s₁, hs, hstack, -⟩ := interrupt_stack hc hfit hv hcode x (frame_eq 17 errorCode s₀)
    rw [hs, hend] at hm
    have hcore : s₁ = { s₀ with mem := m } := congrArg Prod.fst (Option.some.inj hm)
    -- a word of the frame is left on the stack
    have hdepth := hstack.depth
    rw [hcore] at hdepth
    have hesp : s₀.esp + 4 = s₀.esp := hdepth
    omega
  · have hframe := frame_eq vector errorCode s₀
    rw [if_neg h17] at hframe
    obtain ⟨s₁, hs, hstack, hregs, heip, hcs, heflags⟩ := interrupt_stack hc hfit hv hcode x hframe
    constructor
    · rintro ⟨m, x', -, hend, -⟩
      exact ⟨endHandler_isSome_iff.mp (Option.isSome_of_eq_some hend), h17⟩
    · rintro ⟨h16, -⟩
      obtain ⟨x', hend⟩ := Option.isSome_iff_exists.mp (endHandler_isSome_iff.mpr h16)
      refine ⟨s₁.mem, x', ?_, hend, hstack.above⟩
      have hesp : s₁.esp = s₀.esp := by
        have hdepth := hstack.depth
        rwa [List.length_nil, Nat.mul_zero, Nat.add_zero] at hdepth
      rw [hs, hend, ← hregs, ← hesp, ← heip, ← hcs, ← heflags]
      rfl

theorem a_key_is_not_noticed : ∃ m x', interrupt onlyKeyboard 0x21 0 interrupted programmed =
      some ({ interrupted with mem := m }, x') ∧ endHandler 0x21 programmed = some x' ∧ ∀ a, 0x9000 ≤ a → a < 0xA000 → m a = 0 :=
  (interrupts_are_transparent_iff onlyKeyboard_cdecl interrupted_fit (by decide) (by decide) programmed).mpr (by decide)

end Stub

end NativeOS.Cpu
