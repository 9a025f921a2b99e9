/-
  NativeOS.Stdkern.LinkedList — the kernel's doubly linked list (`kernel/stdkern/list.c`).

  A list has a head, a tail and a count; a node has a data pointer and links both ways.
  Pointers are addresses, 0 is NULL. `malloc`'s answer is an argument of the operations
  that call it: NULL, or room for a node apart from every node still allocated (`Fresh`).
  `free` takes a node off the allocated ones. An operation that would follow a NULL
  pointer, or whose loop never ends, has no result (`none`).

  `list_empty` and `list_free` are in `ListEmpty`.
-/

import Mathlib.Algebra.GroupWithZero.Nat
import NativeOS.Lib.Bytes
import NativeOS.Lib.Links

namespace NativeOS.Stdkern.LinkedList

open NativeOS.Lib

/-! ## Nodes -/

structure ListNode where
  data : Nat
  prev : Nat
  next : Nat
  deriving DecidableEq

structure Store where
  node : Nat → ListNode

/-- `list_t`. -/
structure KList where
  head : Nat
  tail : Nat
  count : Nat
  deriving DecidableEq

/-- `alive`: the nodes `malloc` gave out and `free` has not taken back. -/
structure St where
  store : Store
  list : KList
  alive : List Nat

def Store.set (st : Store) (a : Nat) (n : ListNode) : Store := ⟨fun x => if x = a then n else st.node x⟩

def Store.data (st : Store) (a : Nat) : Nat := (st.node a).data
def Store.prev (st : Store) (a : Nat) : Nat := (st.node a).prev
def Store.next (st : Store) (a : Nat) : Nat := (st.node a).next

def Store.setPrev (st : Store) (a v : Nat) : Store := st.set a { st.node a with prev := v }
def Store.setNext (st : Store) (a v : Nat) : Store := st.set a { st.node a with next := v }

/-- `sizeof(listnode_t)`. -/
abbrev nodeSize : Nat := 12

/-! ## list.c -/

def chain (st : Store) (car cdr : Nat) : Store :=
  let st1 := if car ≠ 0 then st.setNext car cdr else st
  if cdr ≠ 0 then st1.setPrev cdr car else st1

/-- `listnode_alloc`, `node` being `malloc`'s answer. -/
def listnodeAlloc (s : St) (ptr node : Nat) : St :=
  if node ≠ 0 then { s with store := s.store.set node ⟨ptr, 0, 0⟩, alive := node :: s.alive } else s

def listnodeFree (s : St) (node : Nat) : St × Nat :=
  ({ s with store := s.store.set node ⟨0, 0, 0⟩, alive := s.alive.filter (· != node) }, s.store.data node)

/-- `list_alloc` when `malloc` has room. -/
def listAlloc : KList := ⟨0, 0, 0⟩

def listCount (s : St) : Nat := s.list.count

def listAppend (s : St) (ptr node : Nat) : St × Nat :=
  let s1 := listnodeAlloc s ptr node
  if node ≠ 0 then
    ({ s1 with
        store := chain s1.store s1.list.tail node
        list := { s1.list with
          tail := node
          head := if s1.list.head = 0 then node else s1.list.head
          count := add32 s1.list.count 1 } }, node)
  else (s1, node)

def listPrepend (s : St) (ptr node : Nat) : St × Nat :=
  let s1 := listnodeAlloc s ptr node
  if node ≠ 0 then
    ({ s1 with
        store := chain s1.store node s1.list.head
        list := { s1.list with
          head := node
          tail := if s1.list.tail = 0 then node else s1.list.tail
          count := add32 s1.list.count 1 } }, node)
  else (s1, node)

/-- `cur = cur->next`, `n` times. -/
def advance (st : Store) : Nat → Nat → Option Nat
  | 0, cur => some cur
  | n + 1, cur => if cur = 0 then none else advance st n (st.next cur)

def listInsert (s : St) (ptr before node : Nat) : Option (St × Nat) :=
  if before = 0 then some (listPrepend s ptr node)
  else if s.list.count ≤ before then some (listAppend s ptr node)
  else do
    let cur ← advance s.store before s.list.head
    let s1 := listnodeAlloc s ptr node
    if node = 0 then some (s1, node)
    else if cur = 0 then none
    else
      let st1 := chain s1.store (s1.store.prev cur) node
      let st2 := chain st1 node cur
      some ({ s1 with store := st2, list := { s1.list with count := add32 s1.list.count 1 } }, node)

def listFirst (s : St) : Nat := if s.list.head ≠ 0 then s.store.data s.list.head else 0

def listLast (s : St) : Nat := if s.list.tail ≠ 0 then s.store.data s.list.tail else 0

def listAt (s : St) (idx : Nat) : Option Nat :=
  if s.list.count ≤ idx then some 0
  else do
    let cur ← advance s.store idx s.list.head
    if cur = 0 then none else some (s.store.data cur)

/-- `list_index`'s loop. A chain with more turns than there are addresses never ends. -/
def indexLoop (st : Store) (ptr : Nat) : Nat → Nat → Nat → Option Nat
  | 0, _, _ => none
  | fuel + 1, cur, i =>
    if cur = 0 then some 0xFFFFFFFF
    else if st.data cur = ptr then some i
    else indexLoop st ptr fuel (st.next cur) (add32 i 1)

def chainFuel : Nat := 4294967296

def listIndex (s : St) (ptr : Nat) : Option Nat := indexLoop s.store ptr chainFuel s.list.head 0

def listUnchain (s : St) (node : Nat) : St × Nat :=
  let prev := s.store.prev node
  let next := s.store.next node
  let s1 := if prev ≠ 0 then { s with store := s.store.setNext prev next }
    else { s with list := { s.list with head := s.store.next node } }
  let s2 := if next ≠ 0 then { s1 with store := s1.store.setPrev next prev }
    else { s1 with list := { s1.list with tail := s1.store.prev node } }
  listnodeFree { s2 with list := { s2.list with count := sub32 s2.list.count 1 } } node

/-- `list_remove`'s loop: the node reached, 0 if the chain ends before. -/
def removeLoop (st : Store) : Nat → Nat → Nat
  | 0, cur => cur
  | n + 1, cur => if st.next cur = 0 then 0 else removeLoop st n (st.next cur)

def listRemove (s : St) (idx : Nat) : St × Nat :=
  if s.list.head = 0 ∨ s.list.count ≤ idx then (s, 0)
  else
    let cur := removeLoop s.store idx s.list.head
    if cur = 0 then (s, 0) else listUnchain s cur

def deleteLoop (s : St) (ptr : Nat) : Nat → Nat → Option (St × Nat)
  | 0, _ => none
  | fuel + 1, cur =>
    if cur = 0 then some (s, 0)
    else if s.store.data cur = ptr then some (listUnchain s cur)
    else deleteLoop s ptr fuel (s.store.next cur)

def listDelete (s : St) (ptr : Nat) : Option (St × Nat) := deleteLoop s ptr chainFuel s.list.head

def listPopHead (s : St) : St × Nat := if s.list.head ≠ 0 then listUnchain s s.list.head else (s, 0)

def listPopTail (s : St) : St × Nat := if s.list.tail ≠ 0 then listUnchain s s.list.tail else (s, 0)

/-! ## Runs -/

/-- An operation and, where it allocates, `malloc`'s answer `node`. -/
inductive Op where
  | append (ptr node : Nat)
  | prepend (ptr node : Nat)
  | insert (ptr before node : Nat)
  | remove (idx : Nat)
  | delete (ptr : Nat)
  | popHead
  | popTail
  deriving DecidableEq

def step (s : St) : Op → Option (St × Nat)
  | .append ptr node => some (listAppend s ptr node)
  | .prepend ptr node => some (listPrepend s ptr node)
  | .insert ptr before node => listInsert s ptr before node
  | .remove idx => some (listRemove s idx)
  | .delete ptr => listDelete s ptr
  | .popHead => some (listPopHead s)
  | .popTail => some (listPopTail s)

/-- NULL, or room for a node below 4 GiB that no allocated node overlaps. -/
def Fresh (s : St) (node : Nat) : Prop :=
  node = 0 ∨ node + nodeSize ≤ 4294967296 ∧ ∀ a ∈ s.alive, node + nodeSize ≤ a ∨ a + nodeSize ≤ node

instance (s : St) (node : Nat) : Decidable (Fresh s node) :=
  inferInstanceAs (Decidable (node = 0 ∨ node + nodeSize ≤ 4294967296 ∧
    ∀ a ∈ s.alive, node + nodeSize ≤ a ∨ a + nodeSize ≤ node))

def Allowed (s : St) : Op → Prop
  | .append _ node => Fresh s node
  | .prepend _ node => Fresh s node
  | .insert _ _ node => Fresh s node
  | _ => True

instance (s : St) : (op : Op) → Decidable (Allowed s op)
  | .append _ node => inferInstanceAs (Decidable (Fresh s node))
  | .prepend _ node => inferInstanceAs (Decidable (Fresh s node))
  | .insert _ _ node => inferInstanceAs (Decidable (Fresh s node))
  | .remove _ => inferInstanceAs (Decidable True)
  | .delete _ => inferInstanceAs (Decidable True)
  | .popHead => inferInstanceAs (Decidable True)
  | .popTail => inferInstanceAs (Decidable True)

/-- The states a list from `list_alloc` goes through, whatever the memory held before. -/
inductive Run : List Op → St → Prop
  | alloc (st : Store) : Run [] ⟨st, listAlloc, []⟩
  | step {ops : List Op} {s s' : St} {op : Op} {r : Nat} :
      Run ops s → Allowed s op → step s op = some (s', r) → Run (ops ++ [op]) s'

/-! ## Sequences -/

/-- What an operation does to the sequence of data pointers. -/
def Op.apply : Op → List Nat → List Nat
  | .append ptr node, l => if node = 0 then l else l ++ [ptr]
  | .prepend ptr node, l => if node = 0 then l else ptr :: l
  | .insert ptr before node, l => if node = 0 then l else l.insertIdx (min before l.length) ptr
  | .remove idx, l => l.eraseIdx idx
  | .delete ptr, l => l.erase ptr
  | .popHead, l => l.tail
  | .popTail, l => l.dropLast

/-- What it returns: the new node, or the data pointer taken out (NULL for none). -/
def Op.result : Op → List Nat → Nat
  | .append _ node, _ => node
  | .prepend _ node, _ => node
  | .insert _ _ node, _ => node
  | .remove idx, l => l.getD idx 0
  | .delete ptr, l => if ptr ∈ l then ptr else 0
  | .popHead, l => l.headD 0
  | .popTail, l => l.getLastD 0

/-- No memory, a bad index, no such element, nothing to pop. -/
def Op.Fails : Op → List Nat → Prop
  | .append _ node, _ => node = 0
  | .prepend _ node, _ => node = 0
  | .insert _ _ node, _ => node = 0
  | .remove idx, l => l.length ≤ idx
  | .delete ptr, l => ptr ∉ l
  | .popHead, l => l = []
  | .popTail, l => l = []

def sequence (ops : List Op) : List Nat := ops.foldl (fun l op => op.apply l) []

/-- Next links from the head and prev links from the tail both end in NULL and pass the
    same nodes, whose data pointers are the sequence; the count is its length. -/
def Shows (s : St) (ds : List Nat) : Prop :=
  ∃ ns, Chase s.store.next 0 s.list.head ns ∧ Chase s.store.prev 0 s.list.tail ns.reverse ∧
    ns.map s.store.data = ds ∧ s.list.count = ds.length ∧ ds.length < 2 ^ 31

/-- The functions that only read return what the sequence says. -/
structure Reads (s : St) (ds : List Nat) : Prop where
  count : listCount s = ds.length
  first : listFirst s = ds.headD 0
  last : listLast s = ds.getLastD 0
  nth : ∀ idx, listAt s idx = some (ds.getD idx 0)
  index : ∀ ptr, listIndex s ptr = some (if ptr ∈ ds then ds.idxOf ptr else 0xFFFFFFFF)

end NativeOS.Stdkern.LinkedList
