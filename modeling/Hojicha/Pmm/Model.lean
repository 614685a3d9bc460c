import Hojicha.Utils.Bitmap

/-!
# The physical memory manager

A translation of `kernel/memory/pmm.c`. A call that aborts, or reads memory that was never
written, is `none`. The spinlock makes each call one step.
-/

namespace Hojicha.Pmm

open Utils

abbrev Haddr := BitVec 64

def PAGE_SIZE : Haddr := 4096

def NULL : Haddr := 0

inductive MemmapType
  | usable
  | reserved
  | acpiReclaimable
  | acpiNvs
  | badMemory
  | bootloaderReclaimable
  | executableAndModules
  | framebuffer
deriving DecidableEq

structure MemmapEntry where
  base : Haddr
  length : Haddr
  type : MemmapType
deriving DecidableEq

/-- `struct pmm_state` with the static `pmm_bitmap`. -/
structure PmmState where
  totalMem : Haddr
  totalPages : Haddr
  freePages : Haddr
  kernelStart : Haddr
  kernelEnd : Haddr
  kernelVend : Haddr
  memBitmap : Haddr
  bitmapSize : Haddr
  maxSectionLength : Haddr
  maxSectionStartAddr : Haddr
  firstEarlyAllocAddr : Haddr
  lastEarlyAllocAddr : Haddr
  memmapIsInitialized : Bool
  bitmap : Bitmap
deriving DecidableEq

def pmmStateGetFreePages (p : PmmState) : Haddr := p.freePages

def alignToNextPage (addr : Haddr) : Haddr := (addr >>> 12) + 1

def alignToPrevPage (addr : Haddr) : Haddr := addr >>> 12

def pmmAddrToPage (addr : Haddr) : Haddr := alignToPrevPage addr

def pmmPageToAddrBase (page : Haddr) : Haddr := page <<< 12

/-- What the boot loader reports, and the linker's bounds of the kernel image. The image ends
below the last pages of the address space. -/
structure BootInfo where
  kernelStartVaddr : Haddr
  kernelEndVaddr : Haddr
  physicalBase : Haddr
  virtualBase : Haddr
  entries : List MemmapEntry
  below_top : virtualBase.toNat + (kernelEndVaddr - kernelStartVaddr).toNat + 3 * 4096 < 2 ^ 64

def zeroedState : PmmState :=
  ⟨0, 0, 0, 0, 0, 0, 0, 0, 0, 0, 0, 0, false, ⟨none, 0, 0, 0, 0⟩⟩

def countEntry (p : PmmState) (e : MemmapEntry) : PmmState :=
  let p := { p with totalMem := p.totalMem + e.length }
  if e.type = .usable ∨ e.type = .acpiReclaimable then
    if e.length > p.maxSectionLength then
      { p with maxSectionLength := e.length, maxSectionStartAddr := e.base }
    else p
  else p

def trimSection (p : PmmState) : PmmState :=
  if p.maxSectionStartAddr + p.maxSectionLength > p.totalMem then
    { p with maxSectionLength := p.maxSectionLength -
        ((p.maxSectionStartAddr + p.maxSectionLength) - p.totalMem) }
  else p

def pmmInitialize (boot : BootInfo) : Option PmmState :=
  let kernelSizeBytes := boot.kernelEndVaddr - boot.kernelStartVaddr
  let p : PmmState := { zeroedState with
    kernelStart := boot.physicalBase
    kernelVend := pmmPageToAddrBase (alignToNextPage (boot.virtualBase + kernelSizeBytes + 1))
    kernelEnd := pmmPageToAddrBase (alignToNextPage (boot.physicalBase + kernelSizeBytes)) }
  let p := boot.entries.foldl countEntry p
  let totalPages := p.totalMem >>> 12
  let p : PmmState := { p with
    totalPages := totalPages
    bitmapSize := BitVec.ofNat 64 (bitmapStorageSize totalPages.toNat) }
  if p.maxSectionLength < p.kernelEnd - p.kernelStart + p.bitmapSize then none
  else
    let p := trimSection p
    let first := pmmPageToAddrBase (alignToNextPage p.maxSectionStartAddr)
    some { p with firstEarlyAllocAddr := first, lastEarlyAllocAddr := first }

def earlyAlloc (p : PmmState) : Haddr × PmmState :=
  (p.lastEarlyAllocAddr, { p with lastEarlyAllocAddr := p.lastEarlyAllocAddr + PAGE_SIZE })

/-- `n` frames taken with `early_alloc` for page tables. -/
def earlyAllocs : Nat → PmmState → PmmState
  | 0, p => p
  | n + 1, p => earlyAllocs n (earlyAlloc p).2

def markPage (idx : Haddr) (p : PmmState) : Option PmmState :=
  if idx ≥ p.totalPages then some p
  else do
    if ← bitmapGet p.bitmap idx.toNat then return p
    let (_, bitmap) ← bitmapSet p.bitmap idx.toNat
    let p := { p with bitmap := bitmap }
    return if p.freePages > 0 then { p with freePages := p.freePages - 1 } else p

def clearPage (idx : Haddr) (p : PmmState) : Option PmmState :=
  if idx ≥ p.totalPages then some p
  else do
    if !(← bitmapGet p.bitmap idx.toNat) then return p
    let (_, bitmap) ← bitmapClear p.bitmap idx.toNat
    return { p with bitmap := bitmap, freePages := p.freePages + 1 }

/-- The loop that maps the storage of the bitmap, `n` pages from the `i`-th on. `tables i` is the
number of frames that `vmm_map_at_paddr` takes for page tables at the `i`-th page. The first result
is `bitmap_paddr`, which the source sets at the first page only. -/
def mapBitmapPages (tables : Nat → Nat) : Nat → Nat → Option Haddr → PmmState →
    Option Haddr × PmmState
  | 0, _, bitmapPaddr, p => (bitmapPaddr, p)
  | n + 1, i, bitmapPaddr, p =>
    let (addr, p) := earlyAlloc p
    let p := earlyAllocs (tables i) p
    mapBitmapPages tables n (i + 1) (if i = 1 then some addr else bitmapPaddr) p

def clearPages : Nat → Haddr → PmmState → Option PmmState
  | 0, _, p => some p
  | n + 1, i, p => do
    let p ← clearPage i p
    clearPages n (i + 1) p

/-- Marks all memory as used. `content` is what the frames of the storage hold before they are
written. -/
def initBitmap (content : Nat → Byte) (p : PmmState) : Option PmmState := do
  let p := { p with memBitmap := p.kernelVend + PAGE_SIZE }
  let storage := if p.memBitmap = NULL then none
    else some ((List.range p.bitmapSize.toNat).map content)
  let bitmap ← bitmapInit storage p.totalPages.toNat true
  return { p with bitmap := bitmap }

def releaseSection (bitmapPaddr : Haddr) (p : PmmState) : Option PmmState :=
  let lastPage := alignToPrevPage (p.maxSectionStartAddr + p.maxSectionLength)
  let firstPageAfterBitmap := alignToNextPage (bitmapPaddr + p.bitmapSize)
  if firstPageAfterBitmap ≥ lastPage then none
  else
    let end_ := alignToNextPage (p.maxSectionStartAddr + p.maxSectionLength)
    clearPages (end_.toNat + 1 - firstPageAfterBitmap.toNat) firstPageAfterBitmap p

def pmmInitializeBitmap (tables : Nat → Nat) (content : Nat → Byte) (p : PmmState) :
    Option PmmState := do
  let pagesForBitmap := (p.bitmapSize + PAGE_SIZE - 1) / PAGE_SIZE
  let (bitmapPaddr, p) := mapBitmapPages tables pagesForBitmap.toNat 1 none p
  let p ← initBitmap content p
  releaseSection (← bitmapPaddr) p

def pmmAllocFrame (p : PmmState) : Option (Haddr × PmmState) :=
  if !p.memmapIsInitialized then some (earlyAlloc p)
  else do
    match ← bitmapFindClear p.bitmap with
    | some pageIdx =>
      let p ← markPage (BitVec.ofNat 64 pageIdx) p
      return (pmmPageToAddrBase (BitVec.ofNat 64 pageIdx), p)
    | none => return (0, p)

def pmmFreeFrame (addr : Haddr) (p : PmmState) : Option PmmState :=
  clearPage (pmmAddrToPage addr) p

/-- The order of `kernel_main`: `vmm_initialize` takes `before` frames for the tables of the frame
buffer and then calls `pmm_initialize_bitmap`. -/
def bootPmm (boot : BootInfo) (before : Nat) (tables : Nat → Nat) (content : Nat → Byte) :
    Option PmmState := do
  let p ← pmmInitialize boot
  pmmInitializeBitmap tables content (earlyAllocs before p)

end Hojicha.Pmm
