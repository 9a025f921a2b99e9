/-
  NativeOS.Device.Keyboard — scancodes become keys (`kernel/device/kbd.c`, the first half of
  `kernel/device/vtcon/vtcon.c`'s keyboard code, `scancodes.h`).

  The keyboard interrupt puts each byte into a ring buffer. `vtcon_read` takes out what is
  there, at most seventeen bytes at a time, and decodes it as one key: a single byte, or a pair
  that starts with 0xE0. Interrupts arrive at any time: before, between and after the turns
  of its loop, which are the steps here (`KbdEv`).

  An extended code `decode_scancode` has no case for leaves `vk` uninitialised; what is on
  the stack is given with each turn. `events` is no part of the code: the keys decoded and
  echoed, in order.
-/

import NativeOS.Device.Vtcon
import NativeOS.Stdkern.Ringbuf

namespace NativeOS.Device.Vtcon

open NativeOS.Lib
open NativeOS.Stdkern.Ring (Ringbuf ringbufRead ringbufTestReady ringbufWrite unread)

/-! ## scancodes.h -/

def vkLf : Nat := 10
def vkDel : Nat := 127
def vkCup : Nat := 224
def vkClft : Nat := 225
def vkCrgt : Nat := 226
def vkCdwn : Nat := 227
def vkPgup : Nat := 228
def vkPgdn : Nat := 229
def vkInsert : Nat := 230
def vkHome : Nat := 231
def vkEnd : Nat := 232
def vkLctl : Nat := 233
def vkRctl : Nat := 234
def vkLshf : Nat := 235
def vkRshf : Nat := 236
def vkLalt : Nat := 237
def vkRalt : Nat := 238
def vkCapl : Nat := 239

/-- `kbdev_t`. -/
structure Kbdev where
  vk : Nat
  flags : Nat
  deriving DecidableEq

/-- What a key event says: the key, and whether it was released. -/
def Kbdev.key (kbdev : Kbdev) : Nat × Bool := (kbdev.vk, kbdev.flags &&& kbdCapUp != 0)

/-- A row for each key: the virtual key without modifiers, with SHIFT, CTRL, both, and the same with ALT. -/
def usScancodes1 : List (List Nat) :=
  [[0, 0, 0, 0, 0, 0, 0, 0], [27, 27, 27, 27, 27, 27, 27, 27], [49, 33, 0, 0, 49, 33, 0, 0],
    [50, 64, 0, 0, 49, 64, 0, 0], [51, 35, 0, 0, 49, 35, 0, 0], [52, 36, 0, 0, 49, 36, 0, 0],
    [53, 37, 0, 0, 49, 37, 0, 0], [54, 94, 0, 0, 49, 94, 0, 0], [55, 38, 0, 0, 49, 38, 0, 0],
    [56, 42, 0, 0, 49, 42, 0, 0], [57, 40, 0, 0, 49, 40, 0, 0], [48, 41, 0, 0, 49, 41, 0, 0],
    [45, 95, 31, 31, 45, 95, 31, 31], [61, 43, 0, 0, 61, 43, 0, 0], [8, 8, 127, 127, 8, 8, 127, 127],
    [9, 242, 0, 0, 11, 242, 0, 0], [113, 81, 17, 17, 113, 81, 17, 17], [119, 87, 23, 23, 119, 87, 23, 23],
    [101, 69, 5, 5, 101, 69, 5, 5], [114, 82, 18, 18, 114, 82, 18, 18], [116, 84, 20, 20, 116, 84, 20, 20],
    [121, 89, 25, 25, 121, 89, 25, 25], [117, 85, 21, 21, 117, 85, 21, 21], [105, 73, 9, 9, 105, 73, 9, 9],
    [111, 79, 15, 15, 111, 79, 15, 15], [112, 80, 16, 16, 112, 80, 16, 16], [91, 123, 27, 27, 91, 123, 27, 27],
    [93, 125, 29, 29, 93, 125, 29, 29], [10, 10, 13, 13, 10, 10, 13, 13], [233, 233, 233, 233, 233, 233, 233, 233],
    [97, 65, 1, 1, 97, 65, 1, 1], [115, 83, 19, 19, 115, 83, 19, 19], [100, 68, 4, 4, 100, 68, 4, 4],
    [102, 70, 6, 6, 102, 70, 6, 6], [103, 71, 7, 7, 103, 71, 7, 7], [104, 72, 8, 8, 104, 72, 8, 8],
    [106, 74, 10, 10, 106, 74, 10, 10], [107, 75, 11, 11, 107, 75, 11, 11], [108, 76, 12, 12, 108, 76, 12, 12],
    [59, 58, 0, 0, 59, 58, 0, 0], [39, 34, 0, 0, 39, 34, 0, 0], [96, 126, 0, 0, 96, 126, 0, 0],
    [235, 235, 235, 235, 235, 235, 235, 235], [92, 124, 28, 28, 92, 124, 28, 28], [122, 90, 26, 26, 122, 90, 26, 26],
    [120, 88, 24, 24, 120, 88, 24, 24], [99, 67, 3, 3, 99, 67, 3, 3], [118, 86, 22, 22, 118, 86, 22, 22],
    [98, 66, 2, 2, 98, 66, 2, 2], [110, 78, 14, 14, 110, 78, 14, 14], [109, 77, 13, 13, 109, 77, 13, 13],
    [44, 60, 0, 0, 44, 60, 0, 0], [46, 62, 0, 0, 46, 62, 0, 0], [47, 63, 0, 0, 47, 63, 0, 0],
    [236, 236, 236, 236, 236, 236, 236, 236], [42, 42, 42, 42, 42, 42, 42, 42],
    [237, 237, 237, 237, 237, 237, 237, 237], [32, 32, 0, 32, 32, 32, 0, 32],
    [239, 239, 239, 239, 239, 239, 239, 239], [243, 243, 243, 243, 243, 243, 243, 243],
    [244, 244, 244, 244, 244, 244, 244, 244], [245, 245, 245, 245, 245, 245, 245, 245],
    [246, 246, 246, 246, 246, 246, 246, 246], [247, 247, 247, 247, 247, 247, 247, 247],
    [248, 248, 248, 248, 248, 248, 248, 248], [249, 249, 249, 249, 249, 249, 249, 249],
    [250, 250, 250, 250, 250, 250, 250, 250], [251, 251, 251, 251, 251, 251, 251, 251],
    [252, 252, 252, 252, 252, 252, 252, 252], [240, 240, 240, 240, 240, 240, 240, 240],
    [241, 241, 241, 241, 241, 241, 241, 241], [55, 55, 55, 55, 55, 55, 55, 55], [56, 56, 56, 56, 56, 56, 56, 56],
    [57, 57, 57, 57, 57, 57, 57, 57], [45, 45, 45, 45, 45, 45, 45, 45], [52, 52, 52, 52, 52, 52, 52, 52],
    [53, 53, 53, 53, 53, 53, 53, 53], [54, 54, 54, 54, 54, 54, 54, 54], [43, 43, 43, 43, 43, 43, 43, 43],
    [49, 49, 49, 49, 49, 49, 49, 49], [50, 50, 50, 50, 50, 50, 50, 50], [51, 51, 51, 51, 51, 51, 51, 51],
    [48, 48, 48, 48, 48, 48, 48, 48], [46, 46, 46, 46, 46, 46, 46, 46], [0, 0, 0, 0, 0, 0, 0, 0],
    [0, 0, 0, 0, 0, 0, 0, 0], [0, 0, 0, 0, 0, 0, 0, 0], [253, 0, 0, 0, 0, 0, 0, 0], [254, 0, 0, 0, 0, 0, 0, 0],
    [0, 0, 0, 0, 0, 0, 0, 0]]

/-! ## decode_scancode -/

def kbdModShift : Nat := 0x01
def kbdModCtrl : Nat := 0x02
def kbdModAlt : Nat := 0x04
def kbdModMeta : Nat := 0x08
def kbdLockCaps : Nat := 0x100
def kbdMods : Nat := kbdModShift ||| kbdModCtrl ||| kbdModAlt

/-- `context->kbd_status` is `status`; the result is an `unsigned char`. -/
def getSingleScancode (status key : Nat) : Nat :=
  if key > 0x58 then 0 else (usScancodes1.getD key []).getD (status &&& kbdMods) 0

def releasebit (status bit : Nat) (rel : Bool) : Nat := if rel then status &&& (0xFFFFFFFF ^^^ bit) else status ||| bit

def togglekbdbit (status bit : Nat) : Nat := status ^^^ bit

/-- The switch over the keys that are held down. -/
def holdSingle (status vk : Nat) (rel : Bool) : Nat :=
  if vk = vkLctl then releasebit status kbdModCtrl rel
  else if vk = vkLshf ∨ vk = vkRshf then releasebit status kbdModShift rel
  else if vk = vkLalt then releasebit status kbdModAlt rel
  else if vk = vkCapl then if !rel then togglekbdbit status kbdLockCaps else status
  else status

/-- The cases of the second switch that set `vk`. -/
def extendedKeys : List (Nat × Nat) :=
  [(0x1C, vkLf), (0x1D, vkRctl), (0x35, 47), (0x38, vkRalt), (0x47, vkHome), (0x48, vkCup), (0x49, vkPgup), (0x4B, vkClft),
    (0x4D, vkCrgt), (0x4F, vkEnd), (0x50, vkCdwn), (0x51, vkPgdn), (0x52, vkInsert), (0x53, vkDel)]

/-- Those that change the keyboard state. -/
def holdExtended (status keycode : Nat) (rel : Bool) : Nat :=
  if keycode = 0x1D then releasebit status kbdModCtrl rel
  else if keycode = 0x38 then releasebit status kbdModAlt rel
  else if keycode = 0x5B ∨ keycode = 0x59 then releasebit status kbdModMeta rel
  else status

/-- `kbdev->flags`, an `unsigned short`. -/
def eventFlags (status : Nat) (rel : Bool) : Nat := if rel then (status % 65536) ||| kbdCapUp else status % 65536

/-- The new `context->kbd_status`, and `*kbdev` when the result is 0. -/
def decodeScancode (stale status : Nat) : List UInt8 → Nat × Option Kbdev
  | [b] =>
    let keycode := b.toNat &&& 0x7F
    let rel := b.toNat &&& 0x80 != 0
    let vk := getSingleScancode status keycode
    let status' := holdSingle status vk rel
    (status', some ⟨vk, eventFlags status' rel⟩)
  | [b₀, b₁] =>
    if b₀ ≠ 0xE0 then (status, none)
    else
      let keycode := b₁.toNat &&& 0x7F
      let rel := b₁.toNat &&& 0x80 != 0
      let vk := (extendedKeys.lookup keycode).getD stale
      let status' := holdExtended status keycode rel
      (status', some ⟨vk, eventFlags status' rel⟩)
  | _ => (status, none)

/-! ## kbd.c -/

/-- At most `n` turns of the loop. -/
def readLoop : Nat → Ringbuf → List UInt8 × Ringbuf
  | 0, rbuf => ([], rbuf)
  | n + 1, rbuf =>
    if ringbufTestReady rbuf ≠ 0 then
      let rest := readLoop n (ringbufRead rbuf).1
      ((ringbufRead rbuf).2 :: rest.1, rest.2)
    else ([], rbuf)

/-- `while (total <= len)`: one byte more than asked for. -/
def keyboardRead (rbuf : Ringbuf) (len : Nat) : List UInt8 × Ringbuf := readLoop (len + 1) rbuf

/-! ## vtcon_read -/

/-- A `vtcon_read`: what is left of `len`, `read_bytes`, and the event last copied to `buf`. -/
structure Call where
  len : Nat
  readBytes : Nat
  buf : Option Kbdev
  deriving DecidableEq

structure Machine where
  con : Console
  rbuf : Ringbuf
  call : Option Call
  returned : List Call
  events : List Kbdev

/-- `sizeof(kbdev_t)`. -/
abbrev kbdevSize : Nat := 4

/-- `keyboard_key_handler`. -/
def keyHandler (s : Machine) (scancode : UInt8) : Machine := { s with rbuf := ringbufWrite s.rbuf scancode }

def enterRead (env : Env) (s : Machine) (len : Nat) : Machine :=
  { s with con := drawstatus env s.con, call := some ⟨len, 0, none⟩ }

def leaveRead (s : Machine) (c : Call) : Machine := { s with call := none, returned := s.returned ++ [c] }

/-- `decode_scancode` on the selected context, and what follows when it is 0. -/
def decodeTurn (env : Env) (stale : Nat) (s : Machine) (c : Call) (bytes : List UInt8) : Machine :=
  let decoded := decodeScancode stale s.con.context.kbdStatus bytes
  let con := s.con.setContext { s.con.context with kbdStatus := decoded.1 }
  match decoded.2 with
  | some kbdev =>
    { s with
      con := echoScancode env con kbdev.vk kbdev.flags
      call := some ⟨c.len - kbdevSize, c.readBytes + kbdevSize, some kbdev⟩
      events := s.events ++ [kbdev] }
  | none => { s with con := con }

/-- One turn of the loop, or its end. -/
def turn (env : Env) (stale : Nat) (s : Machine) (c : Call) : Machine :=
  if c.len < kbdevSize then leaveRead s c
  else
    let got := keyboardRead s.rbuf 16
    if got.1 = [] then leaveRead { s with rbuf := got.2 } c
    else decodeTurn env stale { s with rbuf := got.2 } c got.1

/-! ## Interleavings -/

inductive KbdEv where
  | irq (scancode : UInt8)
  | read (len : Nat)
  | turn (stale : Nat)

/-- The runs from `start` all of whose steps are `ok`. -/
inductive Polled (env : Env) (ok : Machine → KbdEv → Prop) (start : Machine) : List KbdEv → Machine → Prop
  | start : Polled env ok start [] start
  | irq {evs : List KbdEv} {s : Machine} (scancode : UInt8) : Polled env ok start evs s → ok s (.irq scancode) →
      Polled env ok start (evs ++ [.irq scancode]) (keyHandler s scancode)
  | read {evs : List KbdEv} {s : Machine} (len : Nat) : Polled env ok start evs s → ok s (.read len) → s.call = none →
      Polled env ok start (evs ++ [.read len]) (enterRead env s len)
  | turn {evs : List KbdEv} {s : Machine} {c : Call} (stale : Nat) : Polled env ok start evs s → ok s (.turn stale) →
      s.call = some c → Polled env ok start (evs ++ [.turn stale]) (turn env stale s c)

/-- The bytes the interrupts delivered. -/
def stream (evs : List KbdEv) : List UInt8 :=
  evs.filterMap fun e => match e with
    | .irq scancode => some scancode
    | _ => none

/-- A machine whose keyboard was just initialised, with a ring buffer over any memory; its status,
    which `ringbuf_alloc` does not set, is 0. -/
def booted (con : Console) (buffer : Nat → UInt8) : Machine := ⟨con, ⟨buffer, 1024, 0, 0, 0⟩, none, [], []⟩

/-- Fewer than 1024 bytes are pending, also with the next one. -/
def Room (s : Machine) : KbdEv → Prop
  | .irq _ => (unread s.rbuf).length + 1 < 1024
  | _ => True

/-- One whole code: a byte that is no prefix, or the prefix and a key the decoder knows. -/
def Whole (bytes : List UInt8) : Prop :=
  (∃ b, bytes = [b] ∧ b ≠ 0xE0) ∨ ∃ b, bytes = [0xE0, b] ∧ (extendedKeys.lookup (b.toNat &&& 0x7F)).isSome = true

/-- A turn that reads the keyboard finds nothing, or one whole code. -/
def OneCode (s : Machine) : KbdEv → Prop
  | .turn _ => ∀ c, s.call = some c → kbdevSize ≤ c.len → unread s.rbuf = [] ∨ Whole (unread s.rbuf)
  | _ => True

end NativeOS.Device.Vtcon
