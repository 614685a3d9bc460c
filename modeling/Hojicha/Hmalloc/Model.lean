import Hojicha.Framework.ByteMemory
import Hojicha.Framework.LinkedSegment

/-!
# The `hmalloc` allocator

A translation of `libc/hmalloc/hmalloc.c`, which keeps its headers and footers in the bytes it
manages. Pointers are addresses, and `uintptr_t` arithmetic wraps. A traversal of more nodes than
there are addresses below `last_footer` does not end: `none`.
-/

namespace Hojicha.Hmalloc

open Framework

def PAGE_SIZE : Nat := 4096
def MAX_GROW_SIZE : Nat := 160
def SIZEOF_HEADER : Nat := 25
def SIZEOF_FOOTER : Nat := 8
def BLOCK_OVERHEAD : Nat := SIZEOF_HEADER + SIZEOF_FOOTER

def wrap (n : Nat) : Nat := n % 2 ^ 64

def wrapSub (a b : Nat) : Nat := wrap (a + 2 ^ 64 - b)

/-- The bytes of the address space and the static variables of the allocator. -/
structure Heap where
  mem : ByteMemory
  freeRegions : Nat
  heapGrowSize : Nat
  firstAvailableVaddr : Nat
  lastFooter : Nat
  heapInitialized : Bool

namespace Heap

variable (h : Heap)

-- `struct block_header` is packed: `is_free` at 0, `size_bytes` at 1, `next` at 9, `footer` at 17.
def isFree (block : Nat) : Bool := h.mem block != 0
def sizeBytes (block : Nat) : Nat := load64 h.mem (block + 1)
def next (block : Nat) : Nat := load64 h.mem (block + 9)
def footer (block : Nat) : Nat := load64 h.mem (block + 17)

def header (footer : Nat) : Nat := load64 h.mem footer

def setIsFree (block : Nat) (b : Bool) : Heap :=
  { h with mem := storeByte h.mem block (if b then 1 else 0) }

def setSizeBytes (block v : Nat) : Heap := { h with mem := store64 h.mem (block + 1) v }
def setNext (block v : Nat) : Heap := { h with mem := store64 h.mem (block + 9) v }
def setFooter (block v : Nat) : Heap := { h with mem := store64 h.mem (block + 17) v }
def setHeader (footer v : Nat) : Heap := { h with mem := store64 h.mem footer v }
def setFreeRegions (v : Nat) : Heap := { h with freeRegions := v }
def setLastFooter (v : Nat) : Heap := { h with lastFooter := v }
def memset (a : Nat) (b : UInt8) (n : Nat) : Heap := { h with mem := fillBytes h.mem a n b }

def traversalBound : Nat := h.lastFooter

end Heap

def addrToPage (addr : Nat) : Nat := addr / PAGE_SIZE
def pageToAddrBase (page : Nat) : Nat := wrap (page * PAGE_SIZE)

/-- For a power of two, clearing the low bits is rounding down to a multiple. -/
def alignUp (addr alignment : Nat) : Nat :=
  wrap (addr + alignment - 1) / alignment * alignment

def bytesToPages (size : Nat) : Option Nat :=
  if size > 2 ^ 64 - 1 - BLOCK_OVERHEAD - PAGE_SIZE + 1 then none
  else
    let pages := addrToPage (size + BLOCK_OVERHEAD + PAGE_SIZE - 1)
    some (if pages = 0 then 1 else pages)

def initializeHeapRegion (heapStart pages : Nat) (h : Heap) : Bool × Heap :=
  let h := h.setFreeRegions heapStart
  if h.freeRegions = 0 then (false, h)
  else
    let h := { h with firstAvailableVaddr := h.freeRegions }
    let h := h.setIsFree h.freeRegions true
    let h := h.setSizeBytes h.freeRegions
      (wrapSub (wrapSub (pageToAddrBase pages) SIZEOF_HEADER) SIZEOF_FOOTER)
    let h := h.setNext h.freeRegions 0
    let freeRegionFooter :=
      wrap (h.firstAvailableVaddr + SIZEOF_HEADER + h.sizeBytes h.freeRegions)
    let h := h.setHeader freeRegionFooter h.freeRegions
    let h := h.setFooter h.freeRegions freeRegionFooter
    let h := h.setLastFooter freeRegionFooter
    let h := if h.heapGrowSize < MAX_GROW_SIZE
      then { h with heapGrowSize := wrap (h.heapGrowSize * 2) } else h
    (true, { h with heapInitialized := true })

/-- `hmalloc_initialize` and `hmalloc_initialize_user`, given the region that `vmm_map` or `sbrk`
returned for the first five pages. -/
def hmallocInitialize (heapRegion : Nat) (h : Heap) : Bool × Heap :=
  initializeHeapRegion heapRegion 5 { h with heapGrowSize := 5 }

/-- What the environment answers to one `map_heap_pages` request: a refusal, or the requested
pages, holding whatever bytes they hold. -/
inductive MapAnswer where
  | refuse
  | grant (bytes : ByteMemory)

/-- `map_heap_pages` returns either `0` or exactly the requested pages. Pages that do not exist
(past the end of the address space, or at address `0`) cannot be granted. -/
def mapHeapPages (answer : MapAnswer) (addr pages : Nat) (h : Heap) : Nat × Heap :=
  match answer with
  | .refuse => (0, h)
  | .grant bytes =>
    if addr ≠ 0 ∧ addr + pages * PAGE_SIZE ≤ 2 ^ 64 then
      (addr, { h with mem := overlayBytes h.mem addr (pages * PAGE_SIZE) bytes })
    else (0, h)

def isBlockHeaderInHeap (h : Heap) (block : Nat) : Bool :=
  block != 0 && decide (h.firstAvailableVaddr ≤ block) &&
    decide (wrap (block + SIZEOF_HEADER) ≤ h.lastFooter)

def isFooterInHeap (h : Heap) (footer : Nat) : Bool :=
  footer != 0 && decide (h.firstAvailableVaddr ≤ footer) && decide (footer ≤ h.lastFooter)

/-- The loops over the free list all advance by `next`; they differ in when they stop. -/
def walkFreeList (h : Heap) (cond : Nat → Bool) (start : Nat) : Option Nat :=
  walkWhile h.next cond h.traversalBound start

/-- The loop of `insert_free_block`: the node after which `block` belongs. -/
def insertionPoint (h : Heap) (block prev : Nat) : Option Nat :=
  walkFreeList h (fun prev => h.next prev != 0 && decide (h.next prev < block)) prev

def insertFreeBlock (block : Nat) (h : Heap) : Option Heap :=
  if block = 0 then some h
  else
    let h := h.setIsFree block true
    if h.freeRegions = 0 ∨ block < h.freeRegions then
      let h := h.setNext block h.freeRegions
      some (h.setFreeRegions block)
    else do
      let prev ← insertionPoint h block h.freeRegions
      let h := h.setNext block (h.next prev)
      return h.setNext prev block

def findFirstFitBlock (h : Heap) (size block : Nat) : Option Nat :=
  walkFreeList h
    (fun block => block != 0 && !(decide (h.sizeBytes block ≥ size) && h.isFree block)) block

def getNext (h : Heap) (block : Nat) : Nat :=
  if !isBlockHeaderInHeap h block || !isFooterInHeap h (h.footer block) then 0
  else
    let nextAddr := wrap (h.footer block + SIZEOF_FOOTER)
    if nextAddr ≥ h.lastFooter then 0
    else if !isBlockHeaderInHeap h nextAddr || !isFooterInHeap h (h.footer nextAddr) then 0
    else if h.header (h.footer nextAddr) ≠ nextAddr then 0
    else nextAddr

def getPrevious (h : Heap) (block : Nat) : Nat :=
  if !isBlockHeaderInHeap h block then 0
  else if block < wrap (h.firstAvailableVaddr + SIZEOF_HEADER + SIZEOF_FOOTER) then 0
  else
    let previousFooter := wrapSub block SIZEOF_FOOTER
    if !isFooterInHeap h previousFooter then 0
    else
      let previous := h.header previousFooter
      if !isBlockHeaderInHeap h previous then 0
      else if previous ≥ block then 0
      else if h.footer previous ≠ previousFooter then 0
      else previous

def mergeBlocks (first second : Nat) (h : Heap) : Heap :=
  let h := h.memset (h.footer first) 0 SIZEOF_FOOTER
  let h := h.setFooter first (h.footer second)
  let h := h.setHeader (h.footer first) first
  let h := h.setNext first (h.next second)
  let h := h.setSizeBytes first
    (wrap (h.sizeBytes first + h.sizeBytes second + BLOCK_OVERHEAD))
  h.memset second 0 SIZEOF_HEADER

/-- The loop of `remove_from_free_list`: the node in front of `block`, or the last node. -/
def predecessor (h : Heap) (block prev : Nat) : Option Nat :=
  walkFreeList h (fun prev => h.next prev != 0 && h.next prev != block) prev

def removeFromFreeList (block : Nat) (h : Heap) : Option Heap :=
  if block = 0 ∨ h.freeRegions = 0 then some h
  else if h.freeRegions = block then
    let h := h.setFreeRegions (h.next block)
    some (h.setNext block 0)
  else do
    let prev ← predecessor h block h.freeRegions
    if h.next prev = block then
      let h := h.setNext prev (h.next block)
      return h.setNext block 0
    else return h

/-- The loop of `replace_free_list_block`, which runs off the end when `old` is not listed. -/
def replacementPoint (h : Heap) (old prev : Nat) : Option Nat :=
  walkFreeList h (fun prev => prev != 0 && h.next prev != old) prev

def replaceFreeListBlock (old new : Nat) (h : Heap) : Option Heap :=
  if old = 0 ∨ new = 0 then some h
  else if h.freeRegions = old then
    let h := h.setNext new (h.next old)
    let h := h.setFreeRegions new
    some (h.setNext old 0)
  else do
    let prev ← replacementPoint h old h.freeRegions
    if prev ≠ 0 then
      let h := h.setNext new (h.next old)
      let h := h.setNext prev new
      return h.setNext old 0
    else
      let h ← insertFreeBlock new h
      return h.setNext old 0

def setFooterAt (block addr : Nat) (h : Heap) : Heap :=
  let h := h.setHeader addr block
  h.setFooter block addr

def splitRegion (block size : Nat) (h : Heap) : Nat × Heap :=
  let leftover := wrap (block + SIZEOF_HEADER + SIZEOF_FOOTER + size)
  let h := h.setFooter leftover (h.footer block)
  let h := h.setHeader (h.footer leftover) leftover
  let h := setFooterAt block (wrapSub leftover SIZEOF_FOOTER) h
  let h := h.setSizeBytes leftover
    (wrapSub (wrapSub (wrapSub (h.sizeBytes block) size) SIZEOF_HEADER) SIZEOF_FOOTER)
  let h := h.setNext leftover (h.next block)
  let h := h.setIsFree leftover true
  (leftover, h)

def occupyBlock (block size : Nat) (h : Heap) : Option Heap := do
  let h := h.setIsFree block false
  let sizeNeededForSplit := wrap (size + SIZEOF_HEADER + SIZEOF_FOOTER)
  let h ←
    if h.sizeBytes block ≤ sizeNeededForSplit then removeFromFreeList block h
    else
      let (leftover, h) := splitRegion block size h
      let h := h.setSizeBytes block size
      replaceFreeListBlock block leftover h
  return h.setNext block 0

def growHeapBy (answer : MapAnswer) (pages : Nat) (h : Heap) : Option (Nat × Heap) :=
  if pages = 0 then some (0, h)
  else
    let addrToMap := alignUp (wrap (h.lastFooter + SIZEOF_FOOTER)) PAGE_SIZE
    let (newPages, h) := mapHeapPages answer addrToMap pages h
    if newPages = 0 then some (0, h)
    else do
      let lastBlock := h.header h.lastFooter
      let newBlock := wrap (h.lastFooter + SIZEOF_FOOTER)
      let difference := wrapSub newPages (wrap (h.lastFooter + SIZEOF_FOOTER))
      let h := h.setIsFree newBlock true
      let h := h.setSizeBytes newBlock
        (wrapSub (wrapSub (wrap (pageToAddrBase pages + difference)) SIZEOF_HEADER) SIZEOF_FOOTER)
      let h := h.setNext newBlock 0
      let newBlockFooter := wrap (newBlock + SIZEOF_HEADER + h.sizeBytes newBlock)
      let h := h.setHeader newBlockFooter newBlock
      let h := h.setFooter newBlock newBlockFooter
      let h := h.setLastFooter newBlockFooter
      if h.isFree lastBlock then
        let h ← removeFromFreeList lastBlock h
        let h := mergeBlocks lastBlock newBlock h
        let h ← insertFreeBlock lastBlock h
        return (lastBlock, h)
      else
        let h ← insertFreeBlock newBlock h
        return (newBlock, h)

def growHeap (answer : MapAnswer) (h : Heap) : Option (Nat × Heap) :=
  growHeapBy answer h.heapGrowSize { h with heapGrowSize := wrap (h.heapGrowSize + 1) }

/-- Both paths of `hmalloc` end here: `NULL` stays `NULL`, and a block found is occupied and its
payload returned. -/
def returnBlock (block size : Nat) (h : Heap) : Option (Nat × Heap) :=
  if block = 0 then some (0, h)
  else do
    let h ← occupyBlock block size h
    return (wrap (block + SIZEOF_HEADER), h)

/-- One call grows the heap at most once, so one answer of `map_heap_pages` is enough. -/
def hmalloc (answer : MapAnswer) (size : Nat) (h : Heap) : Option (Nat × Heap) :=
  if !h.heapInitialized then some (0, h)
  else
    match bytesToPages size with
    | none => some (0, h)
    | some pages =>
      if pages > h.heapGrowSize then do
        let (newBlock, h) ← growHeapBy answer pages h
        returnBlock newBlock size h
      else do
        let firstFit ← findFirstFitBlock h size h.freeRegions
        if firstFit = 0 then
          let (firstFit, h) ← growHeap answer h
          returnBlock firstFit size h
        else returnBlock firstFit size h

/-- The part of `hfree` that merges the freed block into a free block in front of it. -/
def mergeIntoPrevious (currentBlock : Nat) (h : Heap) : Option (Nat × Heap) :=
  let previousBlock := getPrevious h currentBlock
  if previousBlock ≠ 0 ∧ h.isFree previousBlock then do
    let h ← removeFromFreeList previousBlock h
    return (previousBlock, mergeBlocks previousBlock currentBlock h)
  else some (currentBlock, h)

/-- The part of `hfree` that merges a free block behind the freed block into it. -/
def mergeNextInto (currentBlock : Nat) (h : Heap) : Option Heap :=
  let nextBlock := getNext h currentBlock
  if nextBlock ≠ 0 ∧ h.isFree nextBlock then do
    let h ← removeFromFreeList nextBlock h
    return mergeBlocks currentBlock nextBlock h
  else some h

def hfree (ptr : Nat) (h : Heap) : Option Heap :=
  if ptr = 0 ∨ !h.heapInitialized then some h
  else
    let currentBlock := wrapSub ptr SIZEOF_HEADER
    if currentBlock < h.firstAvailableVaddr ∨ currentBlock ≥ h.lastFooter then some h
    else if !isFooterInHeap h (h.footer currentBlock) ||
        h.header (h.footer currentBlock) != currentBlock then some h
    else if h.isFree currentBlock then some h
    else do
      let h := h.setIsFree currentBlock true
      let h := h.setNext currentBlock 0
      let (currentBlock, h) ← mergeIntoPrevious currentBlock h
      let h ← mergeNextInto currentBlock h
      insertFreeBlock currentBlock h

end Hojicha.Hmalloc
