import Hojicha.Mp.Scheduler

/-!
# Creating, ending and collecting processes

`kernel/mp/proc.c`, `fork.c` and `wait.c`, and the terminator task. What processes and the timer
can do are the requests of `Sched.perform`.
-/

namespace Hojicha.Mp

open Framework Function

def maxChildren : Nat := 256

/-- The child slots, in the order in which they are searched; slot 0 is not used. -/
def childSlots : List Nat := List.range' 1 (maxChildren - 1)

def ECHILD : Int := 10
def EAGAIN : Int := 11
def ENOMEM : Int := 12
def EINVAL : Int := 22

inductive Reply
  | done
  | locked (got : Bool)
  -- the value of `fork_proc`
  | forked (ret : Int)
  -- the value of `waitpid_proc`, and what it stores through `wstatus`
  | waited (ret : Int) (wstatus : Option Int)
  deriving DecidableEq, Repr

/-- Where the interrupt frame is that `fork_proc` is to copy. -/
inductive InterruptFrame
  | null
  | outsideStack
  | insideStack
  deriving DecidableEq, Repr

namespace Tables

variable (t : Tables)

def setParent (p q : Proc) : Tables := { t with parent := update t.parent p q }

def setChild (q : Proc) (slot : Nat) (p : Proc) : Tables :=
  { t with children := update t.children q (update (t.children q) slot p) }

def setExitCode (p : Proc) (code : Int) : Tables :=
  { t with exitCode := update t.exitCode p code }

def setRest (p : Proc) (rs : List Rest) : Tables := { t with rest := update t.rest p rs }

def newProc (p : Proc) : Tables :=
  { t with
    status := update t.status p .uninitialized
    sleepUntil := update t.sleepUntil p 0
    pid := update t.pid p (t.totalProcessesAdded + 1)
    exitCode := update t.exitCode p 0
    parent := update t.parent p 0
    children := update t.children p fun _ => 0
    allocated := update t.allocated p true
    hasStack := update t.hasStack p true
    totalProcessesAdded := t.totalProcessesAdded + 1
    rest := update t.rest p [.prelude] }

def procChildFindNull (q : Proc) : Option Nat := childSlots.find? (t.children q · = 0)

/-- The child slot in which `fork_proc` puts the process at `c`, which is null when there is no
memory, or its error. The other pointers it looks at are set in every process. -/
def forkSlot (c : Proc) (frame : InterruptFrame) : Except Int Nat :=
  if frame = .null ∨ t.hasStack t.current = false then .error EINVAL
  else
    match t.procChildFindNull t.current with
    | none => .error EAGAIN
    | some slot =>
      if frame = .outsideStack then .error EINVAL
      else if c = 0 then .error ENOMEM
      else .ok slot

/-- What `fork_proc` changes in the copy `c` of the current process, and in its child slot. -/
def forkChild (c : Proc) (slot : Nat) : Tables :=
  let t' := (t.newProc c).setParent c t.current
  -- the stack of the child ends in `make_fork_kstack`, which returns to user mode
  ((t'.setRest c []).setStatus c .readyToRun).setChild t.current slot c

def clearSlotOf (p : Proc) : Tables :=
  match childSlots.find? (t.children (t.parent p) · = p) with
  | none => t
  | some slot => t.setChild (t.parent p) slot 0

def procFree (p : Proc) : Tables :=
  let t := if t.parent p ≠ 0 then t.clearSlotOf p else t
  { t with
    parent := fun c => if c ≠ 0 ∧ ∃ slot ∈ childSlots, t.children p slot = c then 0 else t.parent c
    allocated := update t.allocated p false }

def Matches (pid : Int) (c : Proc) : Prop := pid = -1 ∨ (t.pid c : Int) = pid

instance (pid : Int) (c : Proc) : Decidable (t.Matches pid c) :=
  inferInstanceAs (Decidable (pid = -1 ∨ (t.pid c : Int) = pid))

/-- The slot of a matching child: the first that has exited, or else the first. -/
def waitChildFind (q : Proc) (pid : Int) : Option Nat :=
  let here := fun slot => t.children q slot ≠ 0 ∧ t.Matches pid (t.children q slot)
  (childSlots.find? fun slot => here slot ∧ t.status (t.children q slot) = .readyToDie).or
    (childSlots.find? fun slot => here slot)

def wstatus (c : Proc) : Int := t.exitCode c % 256 * 256

/-- The queue on which a process waits for `pid`, of which `child` is the one it found. -/
def waitQueueFor (pid : Int) (child : Proc) : WaitQueue :=
  if pid = -1 then .childWaiters t.current else .exitWaiters child

def waitedChild (pid : Int) (child : Proc) (slot : Nat) : Option (Proc × Nat) :=
  if pid = -1 then (t.waitChildFind t.current pid).map fun slot => (t.children t.current slot, slot)
  else some (child, slot)

def dropRest : Tables := t.setRest t.current (t.rest t.current).tail

end Tables

namespace Sched

variable (s : Sched)

def initWaitQueue (w : WaitQueue) : Sched :=
  { s with links := (s.links.setHead (.waiting w) 0).setTail (.waiting w) 0 }

def procNewShared (p : Proc) : Sched :=
  let s := (s.initWaitQueue (.childWaiters p)).initWaitQueue (.exitWaiters p)
  { s with toTables := s.newProc p, links := s.links.setNext p 0 }

def schedAddProc (p : Proc) : Sched :=
  ((s.procNewShared p).schedPostpone.pushTail .readyToRun p).schedResume

def forkProc (c : Proc) (frame : InterruptFrame) : Int × Sched :=
  match s.forkSlot c frame with
  | .error e => (-e, s)
  | .ok slot =>
    let t := s.forkChild c slot
    let s := { s.procNewShared c with toTables := t }.pushTail .readyToRun c
    (s.pid c, s)

def procFree (p : Proc) : Sched := { s with toTables := s.toTables.procFree p }

def mpRemoveProc (p : Proc) : Sched :=
  match s.status p with
  | .readyToRun | .uninitialized => s.remove .readyToRun p
  | .sleepingTimer => s.remove .sleeping p
  | _ => s

def wakeParent (p : Proc) : Sched :=
  if s.parent p ≠ 0 then
    (s.waitQueueWakeAll (.exitWaiters p)).waitQueueWakeAll (.childWaiters (s.parent p))
  else s

def procExit (p : Proc) (code : Int) : Sched :=
  if p = 0 then s
  else
    let s := s.schedPostpone.schedLock
    if s.status p = .readyToDie then s.schedUnlock.schedResume
    else
      let s := { s with toTables := s.setExitCode p code }
      let s := if p ≠ s.current then s.mpRemoveProc p else s
      let s := (s.pushHead .readyToDie p).schedUnlock
      ((s.mpBlockProc p .readyToDie).wakeParent p).schedResume

def processWaitCollect (q c : Proc) (slot : Nat) : Reply × Sched :=
  if s.status c ≠ .readyToDie then (.waited (-ECHILD) none, s)
  else
    let s' := { s with toTables := (s.setChild q slot 0).setParent c 0 }.remove .readyToDie c
    (.waited (s.pid c) (some (s.wstatus c)), s'.procFree c)

def waitpidEnd (pid : Int) (child : Proc) (slot : Nat) : Reply × Sched :=
  let s := s.schedPostpone
  match s.waitedChild pid child slot with
  | none => (.waited (-ECHILD) none, s.schedResume)
  | some (child, slot) =>
    let (reply, s) := s.processWaitCollect s.current child slot
    (reply, s.schedResume)

/-- The first half of `waitpid_proc` when it has to wait, with switching postponed. -/
def waitpidSleep (pid : Int) (child : Proc) (slot : Nat) : Sched :=
  let s := s.enqueueCurrent (s.waitQueueFor pid child)
  let s := s.mpBlockProc s.current .blocked
  let left := Rest.waitpid pid child slot :: s.rest s.current
  { s with toTables := s.setRest s.current left }.schedResume

def waitpidProc (pid : Int) (options : Nat) : Reply × Sched :=
  if options / 2 ≠ 0 ∨ pid = 0 ∨ pid < -1 then (.waited (-EINVAL) none, s)
  else
    let s := s.schedPostpone
    match s.waitChildFind s.current pid with
    | none => (.waited (-ECHILD) none, s.schedResume)
    | some slot =>
      let child := s.children s.current slot
      if s.status child = .readyToDie then
        let (reply, s) := s.processWaitCollect s.current child slot
        (reply, s.schedResume)
      else if options % 2 ≠ 0 then (.waited 0 none, s.schedResume)
      else (.done, s.waitpidSleep pid child slot)

/-- Empty the die queue: processes with a parent are set aside, the others freed. -/
def reapLoop : Nat → Sched → Sched
  | 0, s => s
  | fuel + 1, s =>
    let p := s.queueHead .readyToDie
    if p = 0 then s
    else
      let s := s.popHead .readyToDie
      reapLoop fuel (if s.parent p ≠ 0 then s.pushHead .parked p else s.procFree p)

def unparkLoop : Nat → Sched → Sched
  | 0, s => s
  | fuel + 1, s =>
    let p := s.queueHead .parked
    if p = 0 then s
    else unparkLoop fuel ((s.popHead .parked).pushTail .readyToDie p)

def reap : Sched :=
  let s := s.schedPostpone
  let s := { s with links := (s.links.setHead .parked 0).setTail .parked 0 }
  let s := reapLoop s.totalProcessesAdded s
  (unparkLoop s.totalProcessesAdded s).schedResume

def dropRest : Sched := { s with toTables := s.toTables.dropRest }

def procPrelude : Sched :=
  if s.status s.current = .uninitialized then (s.setStatus s.current .running).schedUnlock else s

/-- The current process does the first thing it has left to do. -/
def finish : Reply × Sched :=
  match s.rest s.current with
  | [] => (.done, s)
  | .unlock :: _ => (.done, s.dropRest.schedUnlock)
  | .prelude :: _ => (.done, s.dropRest.procPrelude)
  | .waitpid pid child slot :: _ => s.dropRest.waitpidEnd pid child slot

end Sched

/-- What the current process can call, the timer interrupt, and the completion of a call that was
left by a context switch. -/
inductive Op
  | schedLock
  | schedUnlock
  | schedPostpone
  | schedResume
  | schedYield
  | addProc (p : Proc)
  | fork (c : Proc) (frame : InterruptFrame)
  | sleepUntil (timestamp : Nat)
  | waitSleep (device sections : Nat)
  | wakeOne (device : Nat)
  | wakeAll (device : Nat)
  | semaphoreLock (k : Nat)
  | semaphoreTryLock (k : Nat)
  | semaphoreUnlock (k : Nat)
  | exit (p : Proc) (code : Int)
  | waitpid (pid : Int) (options : Nat)
  | reap
  | timer (timestamp : Nat)
  | finish
  deriving DecidableEq, Repr

namespace Sched

variable (s : Sched)

def call : Op → Reply × Sched
  | .schedLock => (.done, s.schedLock)
  | .schedUnlock => (.done, s.schedUnlock)
  | .schedPostpone => (.done, s.schedPostpone)
  | .schedResume => (.done, s.schedResume)
  | .schedYield => (.done, s.schedYield)
  | .addProc p => (.done, s.schedAddProc p)
  | .fork c frame => let (ret, s) := s.forkProc c frame; (.forked ret, s)
  | .sleepUntil timestamp => (.done, s.sleepProcUntil s.current timestamp)
  | .waitSleep device sections =>
    (.done, inSections (·.waitQueueSleep (.device device)) sections s)
  | .wakeOne device => (.done, s.waitQueueWakeOne (.device device))
  | .wakeAll device => (.done, s.waitQueueWakeAll (.device device))
  | .semaphoreLock k => (.done, s.semaphoreLock k)
  | .semaphoreTryLock k => let (got, s) := s.semaphoreTryLock k; (.locked got, s)
  | .semaphoreUnlock k => (.done, s.semaphoreUnlock k)
  | .exit p code => (.done, s.procExit p code)
  | .waitpid pid options => s.waitpidProc pid options
  | .reap => (.done, s.reap)
  | .timer timestamp => (.done, s.handleTimer timestamp)
  | .finish => s.finish

/-- Interrupts are off from the switch to a new process until the end of its prelude. -/
def interruptible : Bool := (s.rest s.current).head? ≠ some .prelude

/-- Whether the request can be made: calls need the current process to be outside of any other
call. -/
def accepts : Op → Bool
  | .timer _ => s.interruptible
  | .finish => true
  | _ => s.rest s.current = []

def perform (op : Op) : Reply × Sched :=
  match s.cpu with
  | .running => if s.accepts op then s.call op else (.done, s)
  | .idle r =>
    match op with
    | .timer timestamp => (.done, s.idleTimer r timestamp)
    | _ => (.done, s)
  | .fault => (.done, s)

end Sched

end Hojicha.Mp
