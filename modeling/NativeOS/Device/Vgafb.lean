/-
  NativeOS.Device.Vgafb — the VGA framebuffer device (`kernel/device/vgafb.c`).

  The framebuffer is 4000 bytes of memory at 0xB8000: twenty-five rows of eighty cells, a
  character and an attribute byte each. The device reads and writes a window of it; the end
  pointer is 32 bits wide and clamped to the end of the framebuffer. The text cursor is two
  registers of the display controller, reached through an index and a data port.

  Proved: a write stores a prefix of the caller's bytes and leaves the rest of the memory
  alone (`mem_vgafbWrite`), and a read sees the framebuffer as it is (`vgafbRead_eq`).
-/

import NativeOS.Lib.Spans

namespace NativeOS.Device.Vgafb

open NativeOS.Lib

abbrev vgaBase : Nat := 0xB8000
abbrev vgaCols : Nat := 80
abbrev vgaRows : Nat := 25
abbrev vgaChars : Nat := vgaCols * vgaRows
abbrev vgaSize : Nat := vgaChars * 2
abbrev vgaLimit : Nat := vgaBase + vgaSize

/-- The memory the framebuffer is part of, and the registers of the display controller. -/
structure Vga where
  mem : Mem
  crtc : Nat → Nat

/-! ## vgafb.c -/

/-- The clamped end pointer. -/
def endPtr (offt len : Nat) : Nat :=
  let e := add32 (vgaBase + offt) len
  if vgaLimit ≤ e then vgaLimit else e

/-- The turns of both loops: from `start` up to, and without, the end pointer. -/
def turns (offt len : Nat) : Nat := endPtr offt len - (vgaBase + offt)

def readLoop (m : Mem) (ptr : Nat) : Nat → List UInt8
  | 0 => []
  | n + 1 => m ptr :: readLoop m (ptr + 1) n

/-- The bytes stored in `buf`; their number is what the function returns. -/
def vgafbRead (s : Vga) (offt len : Nat) : List UInt8 :=
  if offt < vgaSize then readLoop s.mem (vgaBase + offt) (turns offt len) else []

def writeLoop (m : Mem) (ptr : Nat) (buf : List UInt8) : Nat → Mem
  | 0 => m
  | n + 1 => writeLoop (st8 m ptr (buf.headD 0)) (ptr + 1) buf.tail n

def vgafbWrite (s : Vga) (buf : List UInt8) (offt len : Nat) : Vga × Nat :=
  if offt < vgaSize then ({ s with mem := writeLoop s.mem (vgaBase + offt) buf (turns offt len) }, turns offt len)
  else (s, 0)

/-- `port_out_byte` of a register's index, then of its value. -/
def crtcOut (s : Vga) (reg value : Nat) : Vga := { s with crtc := fun r => if r = reg then value else s.crtc r }

/-- `movecursor`, and VGAFB_IOCTL_MOVECUR. -/
def movecursor (s : Vga) (abspos : Nat) : Vga := crtcOut (crtcOut s 0xE ((abspos >>> 8) &&& 0xFF)) 0xF (abspos &&& 0xFF)

/-- Where the display controller shows the cursor. -/
def cursorPos (s : Vga) : Nat := s.crtc 0xE * 256 + s.crtc 0xF

/-! ## The window -/

/-- A range inside the framebuffer is read or written whole. -/
theorem turns_eq {offt len : Nat} (h : offt + len ≤ vgaSize) : turns offt len = len := by
  have hsize : vgaSize = 4000 := rfl
  have hbase : vgaBase = 753664 := rfl
  have hlimit : vgaLimit = 757664 := rfl
  unfold turns endPtr
  rw [add32_eq (by omega)]
  dsimp only
  split <;> omega

theorem readLoop_eq (m : Mem) (ptr n : Nat) : readLoop m ptr n = slice m ptr n := by
  induction n generalizing ptr with
  | zero => rfl
  | succ n ih =>
    rw [readLoop, ih, Nat.add_comm n 1, slice_add]
    rfl

theorem vgafbRead_eq (s : Vga) {offt len : Nat} (h : offt + len ≤ vgaSize) (h0 : offt < vgaSize) :
    vgafbRead s offt len = slice s.mem (vgaBase + offt) len := by
  rw [vgafbRead, if_pos h0, readLoop_eq, turns_eq h]

theorem turns_le (offt len : Nat) : turns offt len ≤ len := by
  have hwrap : add32 (vgaBase + offt) len ≤ vgaBase + offt + len := Nat.mod_le _ _
  unfold turns endPtr
  dsimp only
  split <;> omega

theorem writeLoop_eq (m : Mem) (ptr : Nat) : ∀ (buf : List UInt8) (n : Nat), n ≤ buf.length →
    writeLoop m ptr buf n = put m ptr (buf.take n)
  | _, 0, _ => by rw [List.take_zero]; rfl
  | b :: buf, n + 1, h => by
    rw [List.take_succ_cons, put_cons]
    exact writeLoop_eq _ _ buf n (Nat.le_of_succ_le_succ h)

/-- A write stores a prefix of the bytes; one that starts behind the framebuffer, nothing. -/
theorem mem_vgafbWrite (s : Vga) (buf : List UInt8) (offt : Nat) :
    (vgafbWrite s buf offt buf.length).1.mem =
      if offt < vgaSize then put s.mem (vgaBase + offt) (buf.take (turns offt buf.length)) else s.mem := by
  unfold vgafbWrite
  by_cases h : offt < vgaSize
  · rw [if_pos h, if_pos h]
    exact writeLoop_eq _ _ _ _ (turns_le _ _)
  · rw [if_neg h, if_neg h]

/-- Inside the framebuffer it stores all of them. -/
theorem mem_vgafbWrite_in (s : Vga) {buf : List UInt8} {offt : Nat} (h : offt + buf.length ≤ vgaSize)
    (h0 : offt < vgaSize) : (vgafbWrite s buf offt buf.length).1.mem = put s.mem (vgaBase + offt) buf := by
  rw [mem_vgafbWrite, if_pos h0, turns_eq h, List.take_length]

theorem cursorPos_movecursor (s : Vga) {abspos : Nat} (h : abspos < 65536) : cursorPos (movecursor s abspos) = abspos := by
  have hlow : abspos &&& 0xFF = abspos % 256 := Nat.and_two_pow_sub_one_eq_mod abspos 8
  have hhigh : (abspos >>> 8) &&& 0xFF = abspos / 256 % 256 := by
    rw [show (0xFF : Nat) = 2 ^ 8 - 1 by decide, Nat.and_two_pow_sub_one_eq_mod, Nat.shiftRight_eq_div_pow]
  simp only [cursorPos, movecursor, crtcOut, hlow, hhigh]
  simp
  omega

end NativeOS.Device.Vgafb
