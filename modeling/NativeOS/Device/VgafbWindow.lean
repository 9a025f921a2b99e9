/-
  NativeOS.Device.VgafbWindow — the framebuffer device reaches nothing but the framebuffer.

  Both functions clamp a 32-bit end pointer, which may have wrapped before: a length such as
  the -1 that `copyrow` passes on from a failed read puts the end before the start, and the
  loop takes no turn.

  Proved:
  * `vgafb_window` — for every offset and length, which addresses are touched, how many, and
    that a write is what the next read of the range returns.
  * `a_wrapped_length_touches_nothing`.
-/

import Mathlib.Algebra.Group.Nat.Defs
import NativeOS.Device.Vgafb

namespace NativeOS.Device.Vgafb

open NativeOS.Lib

/-! ## The addresses -/

/-- The values of `ptr` in `for (ptr = start; ptr < end; ptr++)`. -/
def ptrLoop (fin : Nat) : Nat → Nat → List Nat
  | 0, _ => []
  | fuel + 1, ptr => if ptr < fin then ptr :: ptrLoop fin fuel (ptr + 1) else []

/-- The addresses both functions go through. The end is at most `VGA_LIMIT`, so `VGA_SIZE` turns
    are enough. -/
def touched (offt len : Nat) : List Nat :=
  if offt < vgaSize then ptrLoop (endPtr offt len) vgaSize (vgaBase + offt) else []

/-- A call of each function with `offt` and `len`, returning `n`. -/
structure Window (s : Vga) (buf : List UInt8) (offt len n : Nat) : Prop where
  read : (vgafbRead s offt len).length = n
  written : (vgafbWrite s buf offt len).2 = n
  le : n ≤ len
  inside : offt < vgaSize → offt + n ≤ vgaSize
  behind : vgaSize ≤ offt → n = 0
  whole : offt < vgaSize → vgaBase + offt + len ≤ 2 ^ 32 - 1 → n = min len (vgaSize - offt)
  touched : touched offt len = List.range' (vgaBase + offt) n
  reads : vgafbRead s offt len = (Vgafb.touched offt len).map s.mem
  stores : ∀ a ∉ Vgafb.touched offt len, (vgafbWrite s buf offt len).1.mem a = s.mem a
  crtc : (vgafbWrite s buf offt len).1.crtc = s.crtc
  back : vgafbRead (vgafbWrite s buf offt len).1 offt len = (List.range n).map fun i => buf.getD i 0

/-! ## The loops -/

theorem endPtr_le (offt len : Nat) : endPtr offt len ≤ vgaLimit := by
  unfold endPtr
  dsimp only
  split
  · exact Nat.le_refl _
  · omega

theorem turns_le_size (offt len : Nat) : offt + turns offt len ≤ max offt vgaSize := by
  have hle := endPtr_le offt len
  have hlimit : vgaLimit = vgaBase + vgaSize := rfl
  unfold turns
  omega

theorem turns_unwrapped {offt len : Nat} (h : vgaBase + offt + len ≤ 2 ^ 32 - 1) : turns offt len = min len (vgaSize - offt) := by
  have hlimit : vgaLimit = vgaBase + vgaSize := rfl
  have hadd : add32 (vgaBase + offt) len = vgaBase + offt + len := add32_eq (by omega)
  unfold turns endPtr
  rw [hadd]
  dsimp only
  split <;> omega

theorem ptrLoop_eq (fin : Nat) : ∀ (fuel ptr : Nat), fin - ptr ≤ fuel → ptrLoop fin fuel ptr = List.range' ptr (fin - ptr) := by
  intro fuel
  induction fuel with
  | zero =>
    intro ptr h
    rw [Nat.le_zero.mp h]
    rfl
  | succ fuel ih =>
    intro ptr h
    rw [ptrLoop]
    by_cases hlt : ptr < fin
    · have hturns : fin - ptr = (fin - (ptr + 1)) + 1 := by omega
      rw [if_pos hlt, ih (ptr + 1) (by omega), hturns, List.range'_succ]
    · have hturns : fin - ptr = 0 := by omega
      rw [if_neg hlt, hturns]
      rfl

theorem touched_in {offt : Nat} (len : Nat) (h : offt < vgaSize) : touched offt len = List.range' (vgaBase + offt) (turns offt len) := by
  have hturns : turns offt len ≤ vgaSize := by
    have hle := turns_le_size offt len
    omega
  rw [touched, if_pos h]
  exact ptrLoop_eq _ _ _ hturns

theorem slice_eq_range' (m : Mem) (a n : Nat) : slice m a n = (List.range' a n).map m := by
  rw [List.range'_eq_map_range, List.map_map]
  rfl

/-- The bytes behind the end of `buf` are what the memory there holds, 0 here. -/
theorem writeLoop_put (m : Mem) (n : Nat) : ∀ (ptr : Nat) (buf : List UInt8),
    writeLoop m ptr buf n = put m ptr ((List.range n).map fun i => buf.getD i 0) := by
  induction n generalizing m with
  | zero =>
    intro ptr buf
    rfl
  | succ n ih =>
    intro ptr buf
    rw [writeLoop, ih, List.range_succ_eq_map, List.map_cons, put_cons, List.map_map]
    cases buf with
    | nil => rfl
    | cons b buf => rfl

/-! ## Every offset and every length -/

theorem window_behind (s : Vga) (buf : List UInt8) {offt : Nat} (len : Nat) (h : ¬ offt < vgaSize) : Window s buf offt len 0 := by
  have hread : ∀ s, vgafbRead s offt len = [] := fun s => if_neg h
  have hwrite : vgafbWrite s buf offt len = (s, 0) := if_neg h
  have htouched : touched offt len = [] := if_neg h
  refine ⟨?_, ?_, Nat.zero_le _, fun hin => absurd hin h, fun _ => rfl, fun hin => absurd hin h, ?_, ?_, ?_, ?_, ?_⟩
  · rw [hread]
    rfl
  · rw [hwrite]
  · rw [htouched]
    rfl
  · rw [hread, htouched]
    rfl
  · intro a _
    rw [hwrite]
  · rw [hwrite]
  · rw [hread]
    rfl

theorem window_in (s : Vga) (buf : List UInt8) {offt : Nat} (len : Nat) (h : offt < vgaSize) :
    Window s buf offt len (turns offt len) := by
  have hread : ∀ s, vgafbRead s offt len = slice s.mem (vgaBase + offt) (turns offt len) := by
    intro s
    rw [vgafbRead, if_pos h, readLoop_eq]
  have hwrite : vgafbWrite s buf offt len =
      ({ s with mem := put s.mem (vgaBase + offt) ((List.range (turns offt len)).map fun i => buf.getD i 0) }, turns offt len) := by
    rw [vgafbWrite, if_pos h, writeLoop_put]
  have htouched := touched_in len h
  have hlen : ((List.range (turns offt len)).map fun i => buf.getD i 0).length = turns offt len := by simp
  refine ⟨?_, ?_, turns_le offt len, ?_, fun hout => absurd h (Nat.not_lt.mpr hout), ?_, htouched, ?_, ?_, ?_, ?_⟩
  · rw [hread, length_slice]
  · rw [hwrite]
  · intro _
    have hle := turns_le_size offt len
    omega
  · intro _ hend
    exact turns_unwrapped hend
  · rw [hread, htouched, slice_eq_range']
  · intro a ha
    rw [htouched, List.mem_range'_1] at ha
    rw [hwrite]
    exact put_out _ (by omega)
  · rw [hwrite]
  · rw [hwrite, hread]
    have hself := slice_put_self s.mem (vgaBase + offt) ((List.range (turns offt len)).map fun i => buf.getD i 0)
    rwa [hlen] at hself

/-- Any state of the device, any bytes to write, any offset and length. -/
theorem vgafb_window (s : Vga) (buf : List UInt8) (offt len : Nat) : ∃ n, Window s buf offt len n := by
  by_cases h : offt < vgaSize
  · exact ⟨turns offt len, window_in s buf len h⟩
  · exact ⟨0, window_behind s buf len h⟩

/-- The length that `copyrow` makes of an error: the end pointer is one byte before the start. -/
theorem a_wrapped_length_touches_nothing {offt : Nat} (h : offt < vgaSize) : touched offt 0xFFFFFFFF = [] := by
  have hturns : turns offt 0xFFFFFFFF = 0 := by
    have hsize : vgaSize = 4000 := rfl
    have hbase : vgaBase = 753664 := rfl
    have hlimit : vgaLimit = 757664 := rfl
    unfold turns endPtr add32
    dsimp only
    split <;> omega
  rw [touched_in _ h, hturns]
  rfl

end NativeOS.Device.Vgafb
