import Hojicha.Framework.DoublyLinked

/-!
# The list of virtual memory areas

A translation of `kernel/memory/vma.c`. Areas are nodes of doubly linked lists, and the end of an
area is its last byte. A dereference without a node, or a traversal without an end, is `none`.
-/

namespace Hojicha.Vma

open Framework

abbrev Haddr := BitVec 64

def VMA_PAGE_SIZE : Haddr := 4096

/-- `(haddr_t)-1`, the last byte of the address space. -/
def HADDR_MAX : Haddr := -1

def NULL : Haddr := 0

/-- The fields of `struct vma` other than its links. -/
structure Area where
  start : Haddr
  end_ : Haddr
  access : BitVec 64
  flags : BitVec 64
  offset : BitVec 64
deriving DecidableEq

structure Store where
  nodes : NodeHeap Haddr Area
  heads : Nat → Haddr

namespace Store

def empty : Store := ⟨fun _ => none, fun _ => NULL⟩

variable (s : Store)

def setHead (l : Nat) (p : Haddr) : Store := { s with heads := Function.update s.heads l p }

def put (p : Haddr) (n : Node Haddr Area) : Store :=
  { s with nodes := Function.update s.nodes p (some n) }

def modify (p : Haddr) (f : Node Haddr Area → Node Haddr Area) : Option Store :=
  (s.nodes p).map fun n => s.put p (f n)

def setNext (p q : Haddr) : Option Store := s.modify p fun n => { n with next := q }
def setPrev (p q : Haddr) : Option Store := s.modify p fun n => { n with prev := q }
def setStart (p a : Haddr) : Option Store :=
  s.modify p fun n => { n with data := { n.data with start := a } }
def setEnd (p a : Haddr) : Option Store :=
  s.modify p fun n => { n with data := { n.data with end_ := a } }

def walkNext (cond : Node Haddr Area → Bool) (p : Haddr) : Option Haddr :=
  walk s.nodes NULL Node.next cond (2 ^ 64) p

end Store

/-- What `slab_calloc` answers: `NULL`, or an object. -/
inductive SlabAnswer where
  | refuse
  | grant (p : Haddr)

def zeroedNode : Node Haddr Area := ⟨⟨0, 0, 0, 0, 0⟩, NULL, NULL⟩

/-- `slab_calloc(sizeof(vma_t))` returns `NULL` or a zeroed object that nobody holds. -/
def slabCalloc (answer : SlabAnswer) (s : Store) : Haddr × Store :=
  match answer with
  | .refuse => (NULL, s)
  | .grant p =>
    if p ≠ NULL ∧ (s.nodes p).isNone then
      (p, s.put p zeroedNode)
    else (NULL, s)

def slabFree (p : Haddr) (s : Store) : Store :=
  { s with nodes := Function.update s.nodes p none }

def vmaRangeValid (start end_ : Haddr) : Bool :=
  if end_ < start then false
  else if start &&& (VMA_PAGE_SIZE - 1) ≠ 0 then false
  else if (end_ + 1) &&& (VMA_PAGE_SIZE - 1) ≠ 0 then false
  else true

def vmaOverlaps (vma : Area) (start end_ : Haddr) : Bool :=
  decide (vma.start ≤ end_) && decide (start ≤ vma.end_)

/-- `head` is the variable whose address `vma_t** head` is. -/
def vmaLinkBefore (head : Nat) (before node : Haddr) (s : Store) : Option Store :=
  if before = NULL then
    let tail := s.heads head
    if tail = NULL then some (s.setHead head node)
    else do
      let tail ← s.walkNext (fun n => n.next != NULL) tail
      let s ← s.setNext tail node
      s.setPrev node tail
  else do
    let s ← s.setNext node before
    let beforeNode ← s.nodes before
    let s ← s.setPrev node beforeNode.prev
    let s ← s.setPrev before node
    let newNode ← s.nodes node
    if newNode.prev ≠ NULL then s.setNext newNode.prev node
    else some (s.setHead head node)

/-- The first half of `vma_unlink`: the link to the node. -/
def unlinkForward (head : Nat) (node : Haddr) (s : Store) : Option Store := do
  let n ← s.nodes node
  if n.prev ≠ NULL then s.setNext n.prev n.next else some (s.setHead head n.next)

/-- The second half of `vma_unlink`: the link back to the node. -/
def unlinkBackward (node : Haddr) (s : Store) : Option Store := do
  let n ← s.nodes node
  if n.next ≠ NULL then s.setPrev n.next n.prev else some s

def vmaUnlink (head : Nat) (node : Haddr) (s : Store) : Option Store := do
  let s ← unlinkForward head node s
  let s ← unlinkBackward node s
  return slabFree node s

/-- The rest of `vma_insert` once the place of the new node is known. -/
def insertBefore (answer : SlabAnswer) (head : Nat) (current : Haddr) (area : Area) (s : Store) :
    Option (Bool × Store) :=
  let (node, s) := slabCalloc answer s
  if node = NULL then some (false, s)
  else do
    let s ← s.modify node fun n => { n with data := area }
    let s ← vmaLinkBefore head current node s
    return (true, s)

/-- The `head` argument is `none` for `NULL`. -/
def vmaInsert (answer : SlabAnswer) (head : Option Nat) (area : Area) (s : Store) :
    Option (Bool × Store) :=
  match head with
  | none => some (false, s)
  | some head =>
    if !vmaRangeValid area.start area.end_ then some (false, s)
    else do
      -- the loop also stops at a node that reaches the end of the address space
      let current ← s.walkNext (fun n => decide (n.data.end_ < area.start) && n.data.end_ != HADDR_MAX)
        (s.heads head)
      if current = NULL then insertBefore answer head current area s
      else
        let n ← s.nodes current
        if n.data.end_ < area.start then some (false, s)
        else if vmaOverlaps n.data area.start area.end_ then some (false, s)
        else insertBefore answer head current area s

/-- The last case of `vma_remove`: the range lies strictly inside the area. -/
def splitArea (answer : SlabAnswer) (head : Nat) (current start removeEnd : Haddr) (s : Store) :
    Option (Bool × Store) :=
  let (split, s) := slabCalloc answer s
  if split = NULL then some (false, s)
  else do
    let n ← s.nodes current
    let s ← s.modify split fun m => { m with data := { n.data with start := removeEnd + 1 } }
    let s ← s.setEnd current (start - 1)
    let n ← s.nodes current
    let s ← vmaLinkBefore head n.next split s
    return (true, s)

def vmaRemove (answer : SlabAnswer) (head : Option Nat) (start end_ : Haddr) (s : Store) :
    Option (Bool × Store) :=
  match head with
  | none => some (false, s)
  | some head =>
    if !vmaRangeValid start end_ then some (false, s)
    else do
      let current ← s.walkNext (fun n => decide (n.data.end_ < start)) (s.heads head)
      if current = NULL then some (true, s)
      else
        let n ← s.nodes current
        if n.data.start > start then some (true, s)
        else
          let removeEnd := if end_ < n.data.end_ then end_ else n.data.end_
          if start = n.data.start ∧ removeEnd = n.data.end_ then do
            let s ← vmaUnlink head current s
            return (true, s)
          else if start = n.data.start then do
            let s ← s.setStart current (removeEnd + 1)
            return (true, s)
          else if removeEnd = n.data.end_ then do
            let s ← s.setEnd current (start - 1)
            return (true, s)
          else splitArea answer head current start removeEnd s

def clearLoop (head : Nat) : Nat → Store → Option Store
  | 0, _ => none
  | fuel + 1, s =>
    if s.heads head = NULL then some s
    else do
      let n ← s.nodes (s.heads head)
      clearLoop head fuel ((slabFree (s.heads head) s).setHead head n.next)

def vmaClear (head : Option Nat) (s : Store) : Option Store :=
  match head with
  | none => some s
  | some head => clearLoop head (2 ^ 64) s

/-- The loop of `vma_copy_list`; the `i`-th insertion gets the `i`-th answer of `slab_calloc`. -/
def copyLoop (answers : Nat → SlabAnswer) (dst : Nat) : Nat → Nat → Haddr → Store →
    Option (Bool × Store)
  | 0, _, _, _ => none
  | fuel + 1, i, current, s =>
    if current = NULL then some (true, s)
    else do
      let n ← s.nodes current
      let (inserted, s) ← vmaInsert (answers i) (some dst) n.data s
      if !inserted then
        let s ← vmaClear (some dst) s
        return (false, s)
      else
        let n ← s.nodes current
        copyLoop answers dst fuel (i + 1) n.next s

/-- The `src` argument is the head of a list, or `none` for `NULL`. -/
def vmaCopyList (answers : Nat → SlabAnswer) (dst src : Option Nat) (s : Store) :
    Option (Bool × Store) :=
  match dst with
  | none => some (false, s)
  | some dst =>
    if s.heads dst ≠ NULL then some (false, s)
    else copyLoop answers dst (2 ^ 64) 0 (src.elim NULL s.heads) s

end Hojicha.Vma
