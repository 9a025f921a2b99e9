/-
  NativeOS.Device.Vtcon — the virtual console (`kernel/device/vtcon/vtcon.c`, `scancodes.h`).

  Eight contexts, each with a cursor, colours, a keyboard state and a copy of the screen,
  share one framebuffer. The selected context's screen is the framebuffer itself; its
  buffer is filled when another context is switched to. The last row of the framebuffer is
  the status bar, which `drawstatus` writes anew after every change.

  The console is opened: `con_fb`, `con_kbd` and `clock` are the nodes of the framebuffer,
  the keyboard and the clock, so `fs_write(con_fb, ..)` is `vgafb_write` and so on. What
  `fs_read(clock, ..)` leaves in `date` is given for each call (`Env.date`), and the version
  string comes from the build (`Env.version`). `trace` is no part of the code: it lists what
  the functions below did to the screen, newest first.
-/

import Mathlib.Logic.Function.Basic
import NativeOS.Device.Vgafb
import NativeOS.Stdkern.Strings

namespace NativeOS.Device.Vtcon

open NativeOS.Lib
open NativeOS.Stdkern
open NativeOS.Device.Vgafb (Vga vgaCols vgaRows vgafbRead vgafbWrite)

/-! ## State -/

/-- VGA_ENTRY, as the `unsigned short` it is stored in. -/
def vgaEntry (char fg bg : Nat) : Nat := (char ||| fg <<< 8 ||| bg <<< 12) % 65536

/-- A `char` as an `unsigned int`: it is signed. -/
def signExtend (c : UInt8) : Nat := if c.toNat < 128 then c.toNat else c.toNat + 0xFFFFFF00

/-- An `unsigned short` in memory. -/
def short (w : Nat) : List UInt8 := [UInt8.ofNat w, UInt8.ofNat (w / 256)]

/-- `struct vtcontext`. -/
structure Vtcontext where
  cx : Nat
  cy : Nat
  fg : Nat
  bg : Nat
  kbdStatus : Nat
  buffer : Mem

/-- `sizeof(context->buffer)`. -/
abbrev bufferSize : Nat := 2 * (vgaCols * vgaRows)

/-- What a function did: drew the status bar, put a character in a cell, copied or cleared
    a row, moved the hardware cursor. -/
inductive Mark where
  | status (row : List UInt8)
  | cell (pos : Nat)
  | copied (dst src : Nat)
  | cleared (row : Nat)
  | cursor (abspos : Nat)

/-- `drawn` counts the calls of `drawstatus`. -/
structure Console where
  vga : Vga
  contexts : Fin 8 → Vtcontext
  current : Fin 8
  drawn : Nat
  trace : List Mark

/-- VERSION_NAME, and the bytes of `date` in the n-th call of `drawstatus`. -/
structure Env where
  version : List UInt8
  date : Nat → Mem

/-- `*context`. -/
def Console.context (s : Console) : Vtcontext := s.contexts s.current

def Console.setContext (s : Console) (c : Vtcontext) : Console :=
  { s with contexts := Function.update s.contexts s.current c }

/-- `context->cx = x`, `context->cy = y`. -/
def Console.setCx (s : Console) (x : Nat) : Console := s.setContext { s.context with cx := x }
def Console.setCy (s : Console) (y : Nat) : Console := s.setContext { s.context with cy := y }

def Console.mark (s : Console) (m : Mark) : Console := { s with trace := m :: s.trace }

/-- `fs_write(con_fb, offt, buf, sizeof(buf))`. -/
def fbWrite (s : Console) (offt : Nat) (buf : List UInt8) : Console :=
  { s with vga := (vgafbWrite s.vga buf offt buf.length).1 }

/-- `fs_read(con_fb, offt, .., len)`. -/
def fbRead (s : Console) (offt len : Nat) : List UInt8 := vgafbRead s.vga offt len

/-! ## The status bar -/

/-- The text of the bar before the clock is put over it. -/
def statusText (env : Env) (current : Fin 8) : Mem :=
  strncpy (st8 ⟨fun _ => 0⟩ 1 (UInt8.ofNat (49 + current.val))) 4 env.version 70

/-- The characters of the last twenty-one cells. -/
def clockText (date : Mem) : List UInt8 :=
  [32, date 0, date 1, date 2, date 3, 47, date 4, date 5, 47, date 6, date 7, 32, date 8, date 9, 58, date 10, date 11,
    58, date 12, date 13, 32]

def statusCell (text date : Mem) (i : Nat) : Nat :=
  if vgaCols - 21 ≤ i then vgaEntry (signExtend ((clockText date).getD (i - (vgaCols - 21)) 0)) 0x1 0x7
  else
    let fg := if i < 3 then 0x1 else 0x7
    let bg := if fg = 0x7 then 0x1 else 0x7
    vgaEntry (signExtend (text i)) fg bg

def statusRow (env : Env) (current : Fin 8) (date : Mem) : List UInt8 :=
  (List.range vgaCols).flatMap fun i => short (statusCell (statusText env current) date i)

def drawstatus (env : Env) (s : Console) : Console :=
  let buffer := statusRow env s.current (env.date s.drawn)
  let s1 := fbWrite s (2 * vgaCols * (vgaRows - 1)) buffer
  { s1 with drawn := s.drawn + 1 }.mark (.status buffer)

/-! ## Contexts and the screen -/

/-- The cells `resetcontext` fills a buffer with. -/
def blanks : List UInt8 := (List.replicate (vgaCols * vgaRows) (short (vgaEntry 32 0x7 0x0))).flatten

def resetcontext (c : Vtcontext) : Vtcontext :=
  { c with cx := 0, cy := 0, fg := 7, bg := 0, buffer := put c.buffer 0 blanks }

def syncfbcursor (s : Console) : Console :=
  let abspos := (s.context.cy * vgaCols + s.context.cx) % 65536
  { s with vga := Vgafb.movecursor s.vga abspos }.mark (.cursor abspos)

def switchcontext (env : Env) (s : Console) (target : Nat) : Console :=
  if h : target < 8 then
    let s1 := s.setContext { s.context with buffer := put s.context.buffer 0 (fbRead s 0 bufferSize) }
    let s2 := { s1 with current := ⟨target, h⟩ }
    syncfbcursor (drawstatus env (fbWrite s2 0 (slice s2.context.buffer 0 bufferSize)))
  else s

def writeCell (s : Console) (pos entry : Nat) : Console := fbWrite s (2 * pos) (short entry)

def clearscreen (env : Env) (s : Console) : Console :=
  let s1 := (List.range vgaRows).foldl (fun s y =>
    (List.range vgaCols).foldl (fun s x =>
      writeCell s (y * vgaCols + x) (vgaEntry 32 s.context.fg s.context.bg)) s) s
  syncfbcursor (drawstatus env ((s1.setCx 0).setCy 0))

def copyrow (s : Console) (dst src : Nat) : Console :=
  if dst < vgaRows ∧ src < vgaRows then
    (fbWrite s (vgaCols * dst * 2) (fbRead s (vgaCols * src * 2) (vgaCols * 2))).mark (.copied dst src)
  else s

def clearrow (s : Console) (row : Nat) : Console :=
  ((List.range vgaCols).foldl (fun s i => fbWrite s (vgaCols * row * 2 + 2 * i) (short (s.context.fg <<< 8))) s).mark
    (.cleared row)

/-- The loop of `moveline`: rows 1 to 23 move up. -/
def scroll (s : Console) : Console :=
  (List.range (vgaRows - 2)).foldl (fun s i => copyrow s i (i + 1)) s

def moveline (s : Console) : Console :=
  let s1 := s.setCy (s.context.cy + 1)
  if s.context.cy + 1 = vgaRows - 1 then (clearrow (scroll s1) (vgaRows - 2)).setCy (vgaRows - 2) else s1

def movecursor (s : Console) : Console :=
  let s1 := s.setCx (s.context.cx + 1)
  if s.context.cx + 1 = vgaCols then moveline (s1.setCx 0) else s1

/-- `do cx++ while (cx % 7)`; the next multiple is at most seven turns away. -/
def tabLoop : Nat → Nat → Nat
  | 0, cx => cx
  | n + 1, cx => if (cx + 1) % 7 ≠ 0 then tabLoop n (cx + 1) else cx + 1

/-- `putchar`'s switch. -/
def place (s : Console) (ch : Nat) : Console :=
  let c := s.context
  if ch = 8 then if c.cx > 0 then s.setCx (c.cx - 1) else s
  else if ch = 9 then
    let s1 := s.setCx (tabLoop 7 c.cx)
    if tabLoop 7 c.cx ≥ vgaCols then moveline (s1.setCx 0) else s1
  else if ch = 10 then (moveline s).setCx 0
  else if ch = 13 then s.setCx 0
  else
    let pos := c.cy * vgaCols + c.cx
    movecursor ((writeCell s pos (vgaEntry ch c.fg c.bg)).mark (.cell pos))

def putchar (env : Env) (s : Console) (ch : Nat) : Console := syncfbcursor (drawstatus env (place s ch))

def putstr (env : Env) (s : Console) (str : List UInt8) : Console :=
  str.foldl (fun s c => putchar env s (signExtend c)) s

def vtconWrite (env : Env) (s : Console) (buf : List UInt8) : Console :=
  buf.foldl (fun s c => putchar env s c.toNat) s

def vtconIoctl (env : Env) (s : Console) (op : Int) : Console := if op = 0 then clearscreen env s else s

/-! ## echo_scancode -/

def kbdCapUp : Nat := 0x10

/-- What `echo_scancode` calls. -/
inductive Echo where
  | putstr (str : List UInt8)
  | putchar (ch : Nat)
  | clearscreen
  | switchcontext (target : Nat)
  deriving DecidableEq

def ascii (cs : List Char) : List UInt8 := cs.map fun c => UInt8.ofNat c.toNat

/-- VK_NUL to VK_F12, as far as `echo_scancode` has a case for them, in its order. -/
def echoCases : List (Nat × Echo) :=
  [(0, .putstr (ascii ['^', '@'])), (1, .putstr (ascii ['^', 'A'])), (2, .putstr (ascii ['^', 'B'])),
    (3, .putstr (ascii ['^', 'C'])), (4, .putstr (ascii ['^', 'D'])), (5, .putstr (ascii ['^', 'E'])),
    (6, .putstr (ascii ['^', 'F'])), (7, .putstr (ascii ['^', 'G'])), (8, .putchar 8), (9, .putchar 9), (10, .putchar 10),
    (11, .putstr (ascii ['^', 'K'])), (12, .clearscreen), (13, .putchar 13), (14, .putstr (ascii ['^', 'N'])),
    (15, .putstr (ascii ['^', 'O'])), (16, .putstr (ascii ['^', 'P'])), (17, .putstr (ascii ['^', 'Q'])),
    (18, .putstr (ascii ['^', 'R'])), (19, .putstr (ascii ['^', 'S'])), (20, .putstr (ascii ['^', 'T'])),
    (21, .putstr (ascii ['^', 'U'])), (22, .putstr (ascii ['^', 'V'])), (23, .putstr (ascii ['^', 'W'])),
    (24, .putstr (ascii ['^', 'X'])), (25, .putstr (ascii ['^', 'Y'])), (26, .putstr (ascii ['^', 'Z'])),
    (27, .putstr (ascii ['^', '['])), (28, .putstr (ascii ['^', '\\'])), (29, .putstr (ascii ['^', ']'])),
    (30, .putstr (ascii ['^', '^'])), (31, .putstr (ascii ['^', '_'])), (224, .putstr (ascii ['^', '[', '[', 'A'])),
    (227, .putstr (ascii ['^', '[', '[', 'B'])), (226, .putstr (ascii ['^', '[', '[', 'C'])),
    (225, .putstr (ascii ['^', '[', '[', 'D'])), (231, .putstr (ascii ['^', '[', '[', 'H'])),
    (232, .putstr (ascii ['^', '[', '[', 'F'])), (230, .putstr (ascii ['^', '[', '[', '2', '~'])),
    (127, .putstr (ascii ['^', '[', '[', '3', '~'])), (228, .putstr (ascii ['^', '[', '[', '5', '~'])),
    (229, .putstr (ascii ['^', '[', '[', '6', '~'])), (243, .switchcontext 0), (244, .switchcontext 1),
    (245, .switchcontext 2), (246, .switchcontext 3), (247, .switchcontext 4), (248, .switchcontext 5),
    (249, .switchcontext 6), (250, .switchcontext 7), (251, .putstr (ascii ['^', '[', '[', '2', '0', '~'])),
    (252, .putstr (ascii ['^', '[', '[', '2', '1', '~'])), (253, .putstr (ascii ['^', '[', '[', '2', '3', '~'])),
    (254, .putstr (ascii ['^', '[', '[', '2', '4', '~']))]

/-- The switch of `echo_scancode`, with its default. -/
def echoOf (vk : Nat) : Option Echo :=
  match echoCases.lookup vk with
  | some echo => some echo
  | none => if 27 ≤ vk ∧ vk < 127 then some (.putchar vk) else none

def perform (env : Env) (s : Console) : Echo → Console
  | .putstr str => putstr env s str
  | .putchar ch => putchar env s ch
  | .clearscreen => clearscreen env s
  | .switchcontext target => switchcontext env s target

/-- The key event is given by the fields of its `kbdev_t`. -/
def echoScancode (env : Env) (s : Console) (vk flags : Nat) : Console :=
  if flags &&& kbdCapUp ≠ 0 then s
  else match echoOf vk with
    | some echo => perform env s echo
    | none => s

/-! ## Runs -/

/-- `vtcon_init`'s contexts, over the zeroes a static array starts with. -/
def vtconInit (vga : Vga) : Console := ⟨vga, fun _ => resetcontext ⟨0, 0, 0, 0, 0, ⟨fun _ => 0⟩⟩, 0, 0, []⟩

/-- `vtcon_open` once the three nodes are there. -/
def vtconOpen (env : Env) (s : Console) : Console := syncfbcursor (drawstatus env s)

/-- A `vtcon_write`, a key event echoed, a `vtcon_ioctl`. -/
inductive Ev where
  | write (buf : List UInt8)
  | key (vk flags : Nat)
  | ioctl (op : Int)

def step (env : Env) (s : Console) : Ev → Console
  | .write buf => vtconWrite env s buf
  | .key vk flags => echoScancode env s vk flags
  | .ioctl op => vtconIoctl env s op

/-- The console after `evs`, from `vtcon_init` and `vtcon_open` over any framebuffer. -/
def run (env : Env) (vga : Vga) (evs : List Ev) : Console := evs.foldl (step env) (vtconOpen env (vtconInit vga))

end NativeOS.Device.Vtcon
