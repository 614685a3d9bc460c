import Hojicha.Vma.Runs
import Hojicha.Vmm.Copy

/-!
# Address spaces

The public functions of `kernel/memory/vmm.c`. `slab_alloc` and `slab_calloc` may refuse, and a
dereference of `NULL` is `none`.
-/

namespace Hojicha.Vmm

open Framework.Paging
open Vma (SlabAnswer)

structure VmmRecord where
  firstAvailableVaddr : Haddr
  lastAvailableVaddr : Haddr
  kernelOffset : Haddr
  pml4Phys : Haddr
deriving DecidableEq

/-- A `vmm_t*`: `NULL`, `&kernel_vmm`, or an object from `slab_alloc`. -/
inductive Handle
  | null
  | kernel
  | heap (id : Nat)
deriving DecidableEq

def Handle.list : Handle → Nat
  | .heap id => id + 1
  | _ => 0

structure Kernel where
  machine : Machine
  areas : Vma.Store
  kernelVmm : VmmRecord
  vmms : Nat → Option VmmRecord
  /-- What `slab_alloc(sizeof(vmm_t))` answers next. -/
  vmmAnswers : List (Option Nat)
  /-- What `slab_calloc(sizeof(vma_t))` answers during the next calls into `vma.c`. -/
  vmaAnswers : List (Nat → SlabAnswer)

abbrev K := StateT Kernel Option

def onMachine {α : Type} (x : M α) : K α := fun k =>
  (x k.machine).map fun r => (r.1, { k with machine := r.2 })

/-- What the next call into `vma.c` gets from `slab_calloc`. -/
def Kernel.nextNodes (k : Kernel) : Nat → SlabAnswer := k.vmaAnswers.headD fun _ => .refuse

def onAreas (call : (Nat → SlabAnswer) → Vma.Store → Option (Bool × Vma.Store)) : K Bool := fun k =>
  (call k.nextNodes k.areas).map fun r =>
    (r.1, { k with areas := r.2, vmaAnswers := k.vmaAnswers.tail })

def deref : Handle → K VmmRecord
  | .null => fun _ => none
  | .kernel => fun k => some (k.kernelVmm, k)
  | .heap id => fun k => (k.vmms id).map (·, k)

def setRecord (id : Nat) (v : Option VmmRecord) : K Unit := fun k =>
  some ((), { k with vmms := Function.update k.vmms id v })

/-- The object that `slab_alloc(sizeof(vmm_t))` returns is one that nobody holds. -/
def Kernel.nextVmm (k : Kernel) : Option Nat :=
  (k.vmmAnswers.headD none).filter fun id => (k.vmms id).isNone

def slabAllocVmm : K Handle := fun k =>
  some (k.nextVmm.elim .null .heap, { k with vmmAnswers := k.vmmAnswers.tail })

def memsetVmm (id : Nat) : K Unit := fun k =>
  some ((), { k with
    vmms := Function.update k.vmms id (some ⟨0, 0, 0, 0⟩)
    areas := k.areas.setHead (Handle.heap id).list Vma.NULL })

/-- What `map_at_paddr_internal` and `unmap_internal` read of the handle. -/
def spaceOf : Handle → K Space
  | .kernel => pure .kernel
  | vmm => do return .own (← deref vmm).pml4Phys

def trackVma (vmm : Handle) (virt flags : Haddr) : Bool :=
  if vmm = .null ∨ vmm = .kernel then false
  else if isHigherHalf virt then false
  else hasFlag flags PAGE_USER_ACCESIBLE

def insertVma (vmm : Handle) (virt byteCount flags : Haddr) : K Bool := do
  if !trackVma vmm virt flags then return true
  if byteCount = 0 then return true
  if byteCount - 1 > -1 - virt then return false
  onAreas fun answers => Vma.vmaInsert (answers 0) (some vmm.list)
    ⟨virt, virt + byteCount - 1, flags, 0, 0⟩

def removeVma (vmm : Handle) (virt : Haddr) : K Bool := do
  if vmm = .null ∨ vmm = .kernel then return true
  if isHigherHalf virt then return true
  onAreas fun answers => Vma.vmaRemove (answers 0) (some vmm.list) virt (virt ||| (PAGE_SIZE - 1))

def mapSingles (vmm : Space) (flags : Haddr) : Nat → Haddr → M Bool
  | 0, _ => pure true
  | pageCount + 1, virt => do
    if (← mapSingle vmm virt flags) = 0 then return false
    mapSingles vmm flags pageCount (virt + PAGE_SIZE)

def vmmMap (vmm : Handle) (virt pageCount flags : Haddr) : K Haddr := do
  let virtBase := virt &&& MAPPING_STRUCTURE_MASK
  if pageCount > -1 / PAGE_SIZE then return 0
  if !(← insertVma vmm virtBase (pageCount * PAGE_SIZE) flags) then return 0
  let space ← spaceOf vmm
  if !(← onMachine (mapSingles space flags pageCount.toNat virt)) then
    let _ ← removeVma vmm virtBase
    return 0
  return virtBase

def vmmMapAtPaddr (vmm : Handle) (virt phys flags : Haddr) : K Haddr := do
  if !(← insertVma vmm (virt &&& MAPPING_STRUCTURE_MASK) PAGE_SIZE flags) then return 0
  let space ← spaceOf vmm
  let virtBase ← onMachine (mapAtPaddrInternal space virt phys flags)
  if virtBase = 0 then
    let _ ← removeVma vmm (virt &&& MAPPING_STRUCTURE_MASK)
    return 0
  return virtBase

def vmmUnmap (vmm : Handle) (virt : Haddr) : K Haddr := do
  let space ← spaceOf vmm
  let virtBase ← onMachine (unmapInternal space virt)
  if virtBase = 0 then return 0
  if !(← removeVma vmm virtBase) then return 0
  return virtBase

def vmmNew (flags : Haddr) : K Handle := do
  match ← slabAllocVmm with
  | .heap id =>
    memsetVmm id
    match ← onMachine (newPml4 flags) with
    | none =>
      setRecord id none
      return .null
    | some pml4 =>
      let kernelVmm ← deref .kernel
      setRecord id (some ⟨LOW_REGION_END, LAST_VADDR, kernelVmm.kernelOffset, pml4⟩)
      return .heap id
  | _ => return .null

def vmaClearOf (vmm : Handle) : K Unit := fun k =>
  (Vma.vmaClear (some vmm.list) k.areas).map fun areas => ((), { k with areas := areas })

def vmmFree (vmm : Handle) : K Unit := do
  match vmm with
  | .heap id =>
    let v ← deref vmm
    onMachine (vmmDestroyMappings v.pml4Phys)
    vmaClearOf vmm
    onMachine (pmmFreeFrame v.pml4Phys)
    setRecord id none
  | _ => return ()

/-- `entry_flags(src_pml4[RECURSIVE_IDX])`, or `none` without a window. -/
def recursiveFlags (pml4Phys : Haddr) : M (Option Haddr) := do
  let pml4 ← scratchMapTable VIRT_SCRATCH_L4 pml4Phys
  if pml4 = NULL then return none
  return some (entryFlags (← readWord pml4 RECURSIVE_IDX))

/-- The rest of `vmm_copy` once the new space exists. -/
def copyInto (dst : Nat) (src : Handle) (v : VmmRecord) : K Handle := do
  let new ← deref (.heap dst)
  setRecord dst (some { v with pml4Phys := new.pml4Phys })
  if !(← onMachine (vmmCopyMappings new.pml4Phys v.pml4Phys)) then
    vmmFree (.heap dst)
    return .null
  if !(← onAreas fun answers => Vma.vmaCopyList answers (some (Handle.heap dst).list)
      (some src.list)) then
    vmmFree (.heap dst)
    return .null
  return .heap dst

def vmmCopy (src : Handle) : K Handle := do
  match src with
  | .null => return .null
  | _ =>
    let v ← deref src
    match ← onMachine (recursiveFlags v.pml4Phys) with
    | none => return .null
    | some flags =>
      match ← vmmNew flags with
      | .heap dst => copyInto dst src v
      | _ => return .null

end Hojicha.Vmm
