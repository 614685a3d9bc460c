import Hojicha.Framework.Paging

/-!
# The machine under `vmm.c`

A pointer into a table is translated by the tables of the loaded `cr3`; a page fault is `none`.
Each call of `pmm_alloc_frame` takes the next of `answers`: out of memory, or a frame that is free.
-/

namespace Hojicha.Vmm

open Framework.Paging

abbrev Haddr := BitVec 64

structure FramePool where
  free : Frame → Bool
  /-- Frames returned by `pmm_alloc_frame` and not given back. -/
  held : Frame → Bool
  answers : List (Option Frame)
  /-- Frames given to `pmm_free_frame` that were not held. -/
  stray : List Frame
  /-- How many calls were out of memory. -/
  failures : Nat

/-- The pool without the frame `f`, which is handed out. -/
def FramePool.without (p : FramePool) (f : Frame) (rest : List (Option Frame)) : FramePool :=
  { p with
    free := Function.update p.free f false
    held := Function.update p.held f true
    answers := rest }

def FramePool.fail (p : FramePool) (rest : List (Option Frame)) : FramePool :=
  { p with answers := rest, failures := p.failures + 1 }

/-- The frame 0 is never handed out: its address means failure. -/
def FramePool.take (p : FramePool) : Option Frame × FramePool :=
  match p.answers with
  | [] => (none, p.fail [])
  | none :: rest => (none, p.fail rest)
  | some f :: rest => if p.free f && f != 0 then (some f, p.without f rest) else (none, p.fail rest)

def FramePool.give (p : FramePool) (f : Frame) : FramePool :=
  { p with
    free := Function.update p.free f true
    held := Function.update p.held f false
    stray := if p.held f then p.stray else f :: p.stray }

inductive Event
  | store (f : Frame) (i : Index) (w : Word)
  | fill (f : Frame)
  | invlpg (virt : Haddr)

structure Machine where
  mem : PhysMem
  cr3 : Frame
  /-- `g_kernel.vmm->pml4_phys`. -/
  kernelPml4Phys : Haddr
  virtualDirectory : Haddr
  pool : FramePool
  /-- The latest first. -/
  events : List Event

abbrev M := StateT Machine Option

/-- `ptr[i]` for a pointer to the start of a page. -/
def readWord (ptr : Haddr) (i : Index) : M Word := fun s =>
  (load s.mem s.cr3 (pageOf ptr) i).map fun w => (w, s)

/-- `ptr[i] = w`. -/
def writeWord (ptr : Haddr) (i : Index) (w : Word) : M Unit := fun s =>
  (writableFrame s.mem s.cr3 (pageOf ptr)).map fun f =>
    ((), { s with mem := setWord s.mem f i w, events := .store f i w :: s.events })

/-- `memset(ptr, 0, PAGE_SIZE)`. -/
def memsetPage (ptr : Haddr) : M Unit := fun s =>
  (writableFrame s.mem s.cr3 (pageOf ptr)).map fun f =>
    ((), { s with mem := setFrame s.mem f fun _ => 0, events := .fill f :: s.events })

/-- `memcpy(dst, src, PAGE_SIZE)`. -/
def memcpyPage (dst src : Haddr) : M Unit := fun s => do
  let f ← writableFrame s.mem s.cr3 (pageOf dst)
  let g ← follow s.mem s.cr3 (pageOf src).path
  return ((), { s with mem := setFrame s.mem f (s.mem g), events := .fill f :: s.events })

def invlpg (virt : Haddr) : M Unit := fun s =>
  some ((), { s with events := .invlpg virt :: s.events })

def pmmAllocFrame : M Haddr := fun s =>
  match s.pool.take with
  | (none, pool) => some (0, { s with pool := pool })
  | (some f, pool) => some (address f, { s with pool := pool })

def pmmFreeFrame (addr : Haddr) : M Unit := fun s =>
  some ((), { s with pool := s.pool.give (target addr) })

/-- A `for` loop with a body that may return `false` from the function. -/
def forEach {α : Type} (body : α → M Bool) : List α → M Bool
  | [] => pure true
  | a :: as => do
    if ← body a then forEach body as else pure false

end Hojicha.Vmm
