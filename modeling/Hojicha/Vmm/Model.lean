import Hojicha.Vmm.Machine

/-!
# Mapping and unmapping pages

The page-table part of `kernel/memory/vmm.c`. Other address spaces are edited through scratch
windows, and the loaded one through its recursive entry.
-/

namespace Hojicha.Vmm

open Framework.Paging

def PAGE_SIZE : Haddr := 4096
def NULL : Haddr := 0
def PAGE_PRESENT : Haddr := 0x1
def PAGE_WRITABLE : Haddr := 0x2
def PAGE_USER_ACCESIBLE : Haddr := 0x4
def PAGE_EXECUTABLE : Haddr := 0x200
def PAGE_NO_EXECUTE : Haddr := 1 <<< 63
def CANONICAL_HIGH : Haddr := 0xFFFF <<< 48
def MAPPING_STRUCTURE_MASK : Haddr := 0xFFFFFFFFFFFFF000
def ENTRY_PHYS_MASK : Haddr := 0x000FFFFFFFFFF000
def RECURSIVE_IDX : Index := 510
def KERNEL_PML4_FIRST : Index := 256
def LOW_REGION_END : Haddr := 0x100000
def LAST_VADDR : Haddr := 0xFFFF7AAAAAAAAAAA
def VIRT_SCRATCH_ADDR : Haddr := 0xFFFFFFFF70000000
def VIRT_PML4 : Haddr := VIRT_SCRATCH_ADDR + 0x1000
def VIRT_SCRATCH_L4 : Haddr := VIRT_PML4 + 0x1000
def VIRT_SCRATCH_L3 : Haddr := VIRT_SCRATCH_L4 + 0x1000
def VIRT_SCRATCH_L2 : Haddr := VIRT_SCRATCH_L3 + 0x1000
def VIRT_SCRATCH_L1 : Haddr := VIRT_SCRATCH_L2 + 0x1000

def getPml4Idx (virt : Haddr) : Index := virt.extractLsb' 39 9
def getPml3Idx (virt : Haddr) : Index := virt.extractLsb' 30 9
def getPdIdx (virt : Haddr) : Index := virt.extractLsb' 21 9
def getPtIdx (virt : Haddr) : Index := virt.extractLsb' 12 9

def recursiveAddr (i4 i3 i2 i1 : Index) : Haddr :=
  CANONICAL_HIGH ||| (i4.setWidth 64 <<< 39) ||| (i3.setWidth 64 <<< 30) |||
    (i2.setWidth 64 <<< 21) ||| (i1.setWidth 64 <<< 12)

def getPml4Entry (virt : Haddr) : Haddr :=
  recursiveAddr RECURSIVE_IDX RECURSIVE_IDX RECURSIVE_IDX (getPml4Idx virt)

def getCurrentPml4 : Haddr :=
  recursiveAddr RECURSIVE_IDX RECURSIVE_IDX RECURSIVE_IDX RECURSIVE_IDX

def getPml3Entry (virt : Haddr) : Haddr :=
  recursiveAddr RECURSIVE_IDX RECURSIVE_IDX (getPml4Idx virt) (getPml3Idx virt)

def getPdEntry (virt : Haddr) : Haddr :=
  recursiveAddr RECURSIVE_IDX (getPml4Idx virt) (getPml3Idx virt) (getPdIdx virt)

def entryIsPresent (entry : Haddr) : Bool := (entry &&& PAGE_PRESENT) == PAGE_PRESENT

def entryPhys (entry : Haddr) : Haddr := entry &&& ENTRY_PHYS_MASK

def entryFlags (entry : Haddr) : Haddr := entry &&& ~~~ENTRY_PHYS_MASK

def isHigherHalf (virt : Haddr) : Bool := KERNEL_PML4_FIRST ≤ getPml4Idx virt

def hasFlag (flags bit : Haddr) : Bool := flags &&& bit != 0

def normalizeLeafFlags (virt flags : Haddr) : Haddr :=
  let leafFlags := flags &&& ~~~PAGE_EXECUTABLE
  let leafFlags := if isHigherHalf virt then leafFlags &&& ~~~PAGE_USER_ACCESIBLE else leafFlags
  if isHigherHalf virt && !hasFlag flags PAGE_EXECUTABLE then leafFlags ||| PAGE_NO_EXECUTE
  else if hasFlag flags PAGE_EXECUTABLE then leafFlags &&& ~~~PAGE_NO_EXECUTE
  else leafFlags

def normalizeTableFlags (virt flags : Haddr) : Haddr :=
  let tableFlags := PAGE_PRESENT ||| PAGE_WRITABLE
  let tableFlags := if hasFlag flags PAGE_USER_ACCESIBLE && !isHigherHalf virt then
      tableFlags ||| PAGE_USER_ACCESIBLE else tableFlags
  if isHigherHalf virt && !hasFlag flags PAGE_EXECUTABLE then tableFlags ||| PAGE_NO_EXECUTE
  else if hasFlag flags PAGE_EXECUTABLE then tableFlags &&& ~~~PAGE_NO_EXECUTE
  else tableFlags

def flagsToMappingRequest (flags : Haddr) : Haddr :=
  if flags &&& PAGE_NO_EXECUTE == 0 then flags ||| PAGE_EXECUTABLE else flags

def clearNx (table : Haddr) (idx : Index) (flags : Haddr) : M Unit := do
  if hasFlag flags PAGE_EXECUTABLE then
    let entry ← readWord table idx
    if hasFlag entry PAGE_NO_EXECUTE then
      writeWord table idx (entry &&& ~~~PAGE_NO_EXECUTE)

def setUserAccess (table : Haddr) (idx : Index) (virt flags : Haddr) : M Unit := do
  if hasFlag flags PAGE_USER_ACCESIBLE && !isHigherHalf virt then
    let entry ← readWord table idx
    if !hasFlag entry PAGE_USER_ACCESIBLE then
      writeWord table idx (entry ||| PAGE_USER_ACCESIBLE)

/-- One level of `map_in_current_cr3`: the table behind `child` is created when `table[idx]` is
neither present nor writable. -/
def ensureTable (table : Haddr) (idx : Index) (child : Haddr) : M Unit := do
  let entry ← readWord table idx
  if !hasFlag entry (PAGE_PRESENT ||| PAGE_WRITABLE) then
    let phys ← pmmAllocFrame
    writeWord table idx (phys ||| PAGE_PRESENT ||| PAGE_WRITABLE)
    memsetPage child

def mapInCurrentCr3 (virt phys flags : Haddr) : M Haddr := do
  if getPml4Idx virt = RECURSIVE_IDX then return 0
  ensureTable getCurrentPml4 (getPml4Idx virt) (getPml4Entry virt)
  ensureTable (getPml4Entry virt) (getPml3Idx virt) (getPml3Entry virt)
  ensureTable (getPml3Entry virt) (getPdIdx virt) (getPdEntry virt)
  writeWord (getPdEntry virt) (getPtIdx virt) (phys ||| flags)
  invlpg virt
  return virt &&& MAPPING_STRUCTURE_MASK

def scratchMapTable (scratchAddr phys : Haddr) : M Haddr := do
  if (← mapInCurrentCr3 scratchAddr phys (PAGE_PRESENT ||| PAGE_WRITABLE)) = 0 then return NULL
  invlpg scratchAddr
  return scratchAddr

def scratchMapPage (scratchAddr phys : Haddr) : M Haddr := scratchMapTable scratchAddr phys

/-- A new table for `table[idx]`, which is not present. -/
def createChildTable (table : Haddr) (idx : Index) (scratchAddr virt flags : Haddr) : M Haddr := do
  let newTablePhys ← pmmAllocFrame
  if newTablePhys = 0 then return NULL
  writeWord table idx (newTablePhys ||| normalizeTableFlags virt flags)
  let newTable ← scratchMapTable scratchAddr newTablePhys
  if newTable = NULL then
    writeWord table idx 0
    pmmFreeFrame newTablePhys
    return NULL
  memsetPage newTable
  return newTable

def walkToChildTable (table : Haddr) (idx : Index) (scratchAddr virt flags : Haddr)
    (create : Bool) : M Haddr := do
  if !entryIsPresent (← readWord table idx) then
    if !create then return NULL
    createChildTable table idx scratchAddr virt flags
  else
    clearNx table idx flags
    setUserAccess table idx virt flags
    scratchMapTable scratchAddr (entryPhys (← readWord table idx))

def walkNonKernelToPt (pml4Phys virt flags : Haddr) (create : Bool) : M Haddr := do
  if getPml4Idx virt = RECURSIVE_IDX then return NULL
  let pml4 ← scratchMapTable VIRT_SCRATCH_L4 pml4Phys
  if pml4 = NULL then return NULL
  let pml3 ← walkToChildTable pml4 (getPml4Idx virt) VIRT_SCRATCH_L3 virt flags create
  if pml3 = NULL then return NULL
  let pd ← walkToChildTable pml3 (getPml3Idx virt) VIRT_SCRATCH_L2 virt flags create
  if pd = NULL then return NULL
  walkToChildTable pd (getPdIdx virt) VIRT_SCRATCH_L1 virt flags create

/-- What the functions below read of a `vmm_t*`. -/
inductive Space
  | kernel
  | own (pml4Phys : Haddr)
deriving DecidableEq

/-- One level of the kernel path of `map_at_paddr_internal`; `false` is out of memory. -/
def openKernelTable (table : Haddr) (idx : Index) (child virt flags : Haddr) : M Bool := do
  if !entryIsPresent (← readWord table idx) then
    let phys ← pmmAllocFrame
    if phys = 0 then return false
    writeWord table idx (phys ||| normalizeTableFlags virt flags)
    memsetPage child
  clearNx table idx flags
  setUserAccess table idx virt flags
  return true

def mapKernel (virt phys flags : Haddr) : M Haddr := do
  let virtualDirectory := (← get).virtualDirectory
  if !(← openKernelTable virtualDirectory (getPml4Idx virt) (getPml4Entry virt) virt flags) then
    return 0
  if !(← openKernelTable (getPml4Entry virt) (getPml3Idx virt) (getPml3Entry virt) virt flags) then
    return 0
  if !(← openKernelTable (getPml3Entry virt) (getPdIdx virt) (getPdEntry virt) virt flags) then
    return 0
  writeWord (getPdEntry virt) (getPtIdx virt) (phys ||| normalizeLeafFlags virt flags)
  invlpg virt
  return virt &&& MAPPING_STRUCTURE_MASK

def mapNonKernel (pml4Phys virt request entry : Haddr) : M Haddr := do
  let pt ← walkNonKernelToPt pml4Phys virt request true
  if pt = NULL then return 0
  writeWord pt (getPtIdx virt) entry
  invlpg virt
  return virt &&& MAPPING_STRUCTURE_MASK

def mapAtPaddrInternal (vmm : Space) (virt phys flags : Haddr) : M Haddr := do
  if getPml4Idx virt = RECURSIVE_IDX then return 0
  match vmm with
  | .own pml4Phys => mapNonKernel pml4Phys virt flags (phys ||| normalizeLeafFlags virt flags)
  | .kernel => mapKernel virt phys flags

def mapAtPaddrWithLeafFlags (pml4Phys virt phys leafFlags : Haddr) : M Haddr :=
  mapNonKernel pml4Phys virt (flagsToMappingRequest leafFlags) (phys ||| leafFlags)

def mapSingle (vmm : Space) (virt flags : Haddr) : M Haddr := do
  let newPage ← pmmAllocFrame
  if newPage = 0 then return 0
  mapAtPaddrInternal vmm virt newPage flags

def unmapKernel (virt : Haddr) : M Haddr := do
  let virtualDirectory := (← get).virtualDirectory
  if !entryIsPresent (← readWord virtualDirectory (getPml4Idx virt)) then return 0
  if !entryIsPresent (← readWord (getPml4Entry virt) (getPml3Idx virt)) then return 0
  if !entryIsPresent (← readWord (getPml3Entry virt) (getPdIdx virt)) then return 0
  writeWord (getPdEntry virt) (getPtIdx virt) 0
  invlpg (virt &&& MAPPING_STRUCTURE_MASK)
  return virt &&& MAPPING_STRUCTURE_MASK

def unmapInternal (vmm : Space) (virt : Haddr) : M Haddr := do
  if getPml4Idx virt = RECURSIVE_IDX then return 0
  match vmm with
  | .own pml4Phys =>
    let pt ← walkNonKernelToPt pml4Phys virt 0 false
    if pt = NULL then return 0
    writeWord pt (getPtIdx virt) 0
    return virt &&& MAPPING_STRUCTURE_MASK
  | .kernel => unmapKernel virt

def allIndices : List Index := (List.range 512).map (BitVec.ofNat 9)

def lowerIndices : List Index := (List.range 256).map (BitVec.ofNat 9)

/-- One of the nested loops of `walk_lower_mappings`: the window is mapped again before every
entry is read. -/
def walkTable (scratchAddr phys : Haddr) (visit : Index → Word → M Bool) : List Index → M Bool :=
  forEach fun idx => do
    let table ← scratchMapTable scratchAddr phys
    if table = NULL then return false
    let entry ← readWord table idx
    if !entryIsPresent entry then return true
    visit idx entry

def thenFree (freeTables : Bool) (phys : Haddr) (loop : M Bool) : M Bool := do
  if !(← loop) then return false
  if freeTables then pmmFreeFrame phys
  return true

def virtOf (i4 i3 i2 i1 : Index) : Haddr :=
  (i4.setWidth 64 <<< 39) ||| (i3.setWidth 64 <<< 30) ||| (i2.setWidth 64 <<< 21) |||
    (i1.setWidth 64 <<< 12)

def walkLowerMappings (pml4Phys : Haddr) (callback : Haddr → Word → M Bool) (freeTables : Bool) :
    M Bool :=
  walkTable VIRT_SCRATCH_L4 pml4Phys (fun i4 e4 =>
    thenFree freeTables (entryPhys e4) (walkTable VIRT_SCRATCH_L3 (entryPhys e4) (fun i3 e3 =>
      thenFree freeTables (entryPhys e3) (walkTable VIRT_SCRATCH_L2 (entryPhys e3) (fun i2 e2 =>
        thenFree freeTables (entryPhys e2) (walkTable VIRT_SCRATCH_L1 (entryPhys e2) (fun i1 e1 =>
          callback (virtOf i4 i3 i2 i1) e1)
        allIndices)) allIndices)) allIndices)) lowerIndices

def copyMapping (dstPml4Phys virt entry : Haddr) : M Bool := do
  let newPage ← pmmAllocFrame
  if newPage = 0 then return false
  let srcPage ← scratchMapPage VIRT_SCRATCH_ADDR (entryPhys entry)
  let dstPage ← scratchMapPage VIRT_PML4 newPage
  if srcPage = NULL ∨ dstPage = NULL then
    pmmFreeFrame newPage
    return false
  memcpyPage dstPage srcPage
  if (← mapAtPaddrWithLeafFlags dstPml4Phys virt newPage (entryFlags entry)) = 0 then
    pmmFreeFrame newPage
    return false
  return true

def destroyMapping (_virt entry : Haddr) : M Bool := do
  pmmFreeFrame (entryPhys entry)
  return true

def vmmCopyMappings (dstPml4Phys srcPml4Phys : Haddr) : M Bool :=
  walkLowerMappings srcPml4Phys (copyMapping dstPml4Phys) false

def vmmDestroyMappings (pml4Phys : Haddr) : M Unit := do
  let _ ← walkLowerMappings pml4Phys destroyMapping true
  return ()

def copyUpperHalf (newPml4 kernelPml4 : Haddr) : List Index → M Unit
  | [] => pure ()
  | idx :: rest => do
    if idx ≠ RECURSIVE_IDX then
      writeWord newPml4 idx (← readWord kernelPml4 idx)
    copyUpperHalf newPml4 kernelPml4 rest

def upperIndices : List Index := (List.range' 256 256).map (BitVec.ofNat 9)

/-- `vmm_new` without the handle; `none` is out of memory. -/
def newPml4 (flags : Haddr) : M (Option Haddr) := do
  let pml4 ← pmmAllocFrame
  if pml4 = 0 then return none
  let newPml4 ← scratchMapTable VIRT_SCRATCH_L4 pml4
  let kernelPml4 ← scratchMapTable VIRT_SCRATCH_L3 (← get).kernelPml4Phys
  if newPml4 = NULL ∨ kernelPml4 = NULL then
    pmmFreeFrame pml4
    return none
  memsetPage newPml4
  copyUpperHalf newPml4 kernelPml4 upperIndices
  writeWord newPml4 RECURSIVE_IDX
    (pml4 ||| PAGE_PRESENT ||| PAGE_WRITABLE ||| (flags &&& PAGE_USER_ACCESIBLE))
  return some pml4

end Hojicha.Vmm
