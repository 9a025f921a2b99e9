/-
  NativeOS.Fs.Tar — reading a TAR image (`kernel/fs/tarfs/tar.c`).

  The image is in memory, at the address the boot loader put the module: 512-byte blocks,
  a header block for each entry, then its content padded to whole blocks. `init_nodes`
  first walks the headers: it makes a `tarfs_node` for each and steps over the content by
  the size field, until a header's name starts with NUL. Nothing in the walk writes to the
  image, so a memory of its own holds it. `malloc`'s answers are given: for the i-th call
  of `decode_block` the node it allocates and the list node `list_append` allocates.
-/

import NativeOS.Stdkern.LinkedList

namespace NativeOS.Fs.Tar

open NativeOS.Lib
open NativeOS.Stdkern

/-! ## The header block -/

/-- `sizeof(tar_header_block_t)`. -/
abbrev blockSize : Nat := 512

/-- Where `metadata.size` is in a header block, behind name, mode, uid and gid. -/
abbrev sizeOffset : Nat := 124

/-! ## Numbers -/

/-- A `char` as an `int` of 32 bits: it is signed. -/
def charInt (c : UInt8) : Nat := if c.toNat < 128 then c.toNat else c.toNat + 4294967040

/-- `octal2int`'s loop. If no NUL shows in the whole address space it never ends: `none`. -/
def octalLoop (m : Mem) : Nat → Nat → Nat → Option Nat
  | 0, _, _ => none
  | fuel + 1, octstring, acc =>
    if m octstring = 0 then some acc
    else octalLoop m fuel (add32 octstring 1) ((acc * 8 + sub32 (charInt (m octstring)) 48) % 4294967296)

def octal2int (m : Mem) (octstring : Nat) : Option Nat := octalLoop m 4294967296 octstring 0

/-! ## The header walk -/

structure TarfsNode where
  node : Nat
  block : Nat
  deriving DecidableEq

/-- The nodes of a mounted image: the list `tar->nodes` and what its data pointers point at. -/
structure Payload where
  nodes : LinkedList.St
  tnode : Nat → TarfsNode

/-- `answers`: what `malloc` returns for the `tarfs_node` and for the list node. -/
def decodeBlock (tar : Payload) (block : Nat) (answers : Nat × Nat) : Payload :=
  let tnode := answers.1
  if tnode ≠ 0 then
    { nodes := (LinkedList.listAppend tar.nodes tnode answers.2).1
      tnode := fun p => if p = tnode then ⟨0, block⟩ else tar.tnode p }
  else tar

/-- The first loop of `init_nodes`, `i` headers in. `bx` is 32 bits wide, so a walk of more
    turns has come back to a block and never ends. -/
def walkLoop (m : Mem) (buf : Nat) (malloc : Nat → Nat × Nat) : Nat → Nat → Nat → Payload → Option Payload
  | 0, _, _, _ => none
  | fuel + 1, i, bx, tar =>
    let block := add32 buf (blockSize * bx)
    if m block = 0 then some tar
    else do
      let fileLength ← octal2int m (add32 block sizeOffset)
      let bx1 := add32 bx (add32 (fileLength / 512) 1)
      walkLoop m buf malloc fuel (i + 1) (if fileLength % 512 ≠ 0 then add32 bx1 1 else bx1)
        (decodeBlock tar block (malloc i))

def walkHeaders (m : Mem) (buf : Nat) (malloc : Nat → Nat × Nat) (tar : Payload) : Option Payload :=
  walkLoop m buf malloc 4294967296 0 0 tar

/-! ## Images -/

/-- The bytes of `l` lie at `a`. -/
def BytesAt (m : Mem) (a : Nat) (l : List UInt8) : Prop := ∀ i < l.length, m (a + i) = l.getD i 0

instance (m : Mem) (a : Nat) (l : List UInt8) : Decidable (BytesAt m a l) :=
  inferInstanceAs (Decidable (∀ i < l.length, m (a + i) = l.getD i 0))

structure Entry where
  name : List UInt8
  /-- The size field, without the NUL. -/
  digits : List UInt8
  content : List UInt8

def octalValue (digits : List UInt8) : Nat := digits.foldl (fun acc d => acc * 8 + (d.toNat - 48)) 0

structure Entry.WellFormed (x : Entry) : Prop where
  name_pos : 1 ≤ x.name.length
  name_le : x.name.length ≤ 99
  name_ne : ∀ c ∈ x.name, c ≠ 0
  digits_le : x.digits.length ≤ 11
  octal : ∀ d ∈ x.digits, 48 ≤ d.toNat ∧ d.toNat ≤ 55
  size : octalValue x.digits = x.content.length

instance (x : Entry) : Decidable x.WellFormed :=
  decidable_of_iff (1 ≤ x.name.length ∧ x.name.length ≤ 99 ∧ x.name.all (fun c => decide (c ≠ 0)) = true ∧ x.digits.length ≤ 11 ∧
      x.digits.all (fun d => decide (48 ≤ d.toNat ∧ d.toNat ≤ 55)) = true ∧ octalValue x.digits = x.content.length) (by
    simp only [List.all_eq_true, decide_eq_true_eq]
    exact ⟨fun h => ⟨h.1, h.2.1, h.2.2.1, h.2.2.2.1, h.2.2.2.2.1, h.2.2.2.2.2⟩,
      fun h => ⟨h.name_pos, h.name_le, h.name_ne, h.digits_le, h.octal, h.size⟩⟩)

/-- The bytes an entry takes: its header and its content, padded to whole blocks. -/
def Entry.room (x : Entry) : Nat := 512 + (x.content.length + 511) / 512 * 512

def imageSize (es : List Entry) : Nat := (es.map Entry.room).sum

/-- An image at `a`: the entries one after the other, then a block that starts with NUL. The
    bytes of a header that are not given here, and the padding, are arbitrary. -/
def ImageAt (m : Mem) : Nat → List Entry → Prop
  | a, [] => m a = 0
  | a, x :: es =>
    BytesAt m a (x.name ++ [0]) ∧ BytesAt m (a + sizeOffset) (x.digits ++ [0]) ∧ BytesAt m (a + blockSize) x.content ∧
      ImageAt m (a + x.room) es

/-- The addresses of the header blocks. -/
def headers : Nat → List Entry → List Nat
  | _, [] => []
  | a, x :: es => a :: headers (a + x.room) es

/-- `malloc` has room for `n` nodes and list nodes, and gives each room of its own. -/
structure Mallocs (malloc : Nat → Nat × Nat) (n : Nat) : Prop where
  tnode : ∀ i < n, (malloc i).1 ≠ 0
  lnode : ∀ i < n, (malloc i).2 ≠ 0 ∧ (malloc i).2 + 12 ≤ 4294967296
  tnodes : ∀ i < n, ∀ j < i, (malloc i).1 + 8 ≤ (malloc j).1 ∨ (malloc j).1 + 8 ≤ (malloc i).1
  lnodes : ∀ i < n, ∀ j < i, (malloc i).2 + 12 ≤ (malloc j).2 ∨ (malloc j).2 + 12 ≤ (malloc i).2

end NativeOS.Fs.Tar
