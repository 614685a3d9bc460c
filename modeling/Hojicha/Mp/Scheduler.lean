import Hojicha.Framework.IntrusiveQueue

/-!
# The scheduler, its queues and its lock sections

One processor runs the current process. All queues are threaded through the `next` links of
`kernel/mp/proc_queue.c`. `sched_postpone` puts context switches off. What a process still has to do
when it is switched to again is in `Sched.rest`: the decrement of `irq_lock_count` behind
`schedule_advance`, the prelude of a new process, or nothing for the child of a fork.
-/

namespace Hojicha.Mp

open Framework Function

/-- The address of a `proc_t`; `0` is `NULL`. -/
abbrev Proc := Nat

inductive ProcStatus
  | running
  | readyToRun
  | sleepingTimer
  | blocked
  | readyToDie
  | uninitialized
  deriving DecidableEq, Repr

/-- The wait queues: two in each process, one in each semaphore, and those of devices. -/
inductive WaitQueue
  | childWaiters (p : Proc)
  | exitWaiters (p : Proc)
  | semaphore (k : Nat)
  | device (k : Nat)
  deriving DecidableEq, Repr

inductive QueueId
  | readyToRun
  | sleeping
  | readyToDie
  | waiting (w : WaitQueue)
  -- the queue `waiting_for_parent` on the stack of the terminator
  | parked
  deriving DecidableEq, Repr

/-- What is left of a call when the process that made it is switched to again. -/
inductive Rest
  -- the decrement of `irq_lock_count` behind `schedule_advance`
  | unlock
  -- `proc_prelude`, on the first run of a process that was not forked
  | prelude
  -- `waitpid_proc` behind the `sched_resume` of `wait_queue_sleep_postponed`
  | waitpid (pid : Int) (child : Proc) (slot : Nat)
  deriving DecidableEq, Repr

/-- Whether the processor runs the current process, waits in the loop of `schedule_advance` for a
process to become ready, or has gone through a null `current_process`. -/
inductive Cpu
  | running
  | idle (rest : Rest)
  | fault
  deriving DecidableEq, Repr

structure Semaphore where
  limit : Nat
  currentLocks : Nat
  deriving DecidableEq, Repr

/-- What is kept about the processes and semaphores, the queues apart. -/
structure Tables where
  status : Proc → ProcStatus
  sleepUntil : Proc → Nat
  pid : Proc → Nat
  exitCode : Proc → Int
  parent : Proc → Proc
  children : Proc → Nat → Proc
  /-- Whether a process is at the address. -/
  allocated : Proc → Bool
  /-- Whether `stack_end` is set. The kernel process runs on the stack it was booted with. -/
  hasStack : Proc → Bool
  totalProcessesAdded : Nat
  current : Proc
  rest : Proc → List Rest
  semaphores : Nat → Semaphore

structure Sched extends Tables where
  links : Links QueueId Proc
  irqLockCount : Nat
  switchLockCount : Nat
  switchLockFlag : Bool
  quantumRemaining : Nat
  tickInterval : Nat
  cpu : Cpu

def quantumLength : Nat := 50000

namespace Tables

variable (t : Tables)

def setStatus (p : Proc) (status : ProcStatus) : Tables :=
  { t with status := update t.status p status }

/-- The stack of the current process is left with `r` to do, and that of `p` taken up.
`switch_to` leaves the status of a process alone that has not run yet. -/
def switchTo (r : Rest) (p : Proc) : Tables :=
  { t with
    rest := update t.rest t.current (r :: t.rest t.current)
    current := p
    status := if t.status p = .uninitialized then t.status
      else update t.status p .running }

def sleepUntilAtMost (timestamp : Nat) (p : Proc) : Bool := t.sleepUntil p ≤ timestamp

def setSleepUntil (p : Proc) (timestamp : Nat) : Tables :=
  { t with sleepUntil := update t.sleepUntil p timestamp }

def makeReady (ps : List Proc) : Tables :=
  { t with status := fun p => if p ∈ ps then .readyToRun else t.status p }

def setLocks (k locks : Nat) : Tables :=
  { t with semaphores := update t.semaphores k ⟨(t.semaphores k).limit, locks⟩ }

def HasSlot (k : Nat) : Prop := (t.semaphores k).currentLocks < (t.semaphores k).limit

instance (k : Nat) : Decidable (t.HasSlot k) :=
  inferInstanceAs (Decidable ((t.semaphores k).currentLocks < (t.semaphores k).limit))

end Tables

namespace Sched

variable (s : Sched)

def queueHead (i : QueueId) : Proc := s.links.head i

def setStatus (p : Proc) (status : ProcStatus) : Sched :=
  { s with toTables := s.toTables.setStatus p status }

def pushTail (i : QueueId) (p : Proc) : Sched := { s with links := s.links.pushTail i p }

def pushHead (i : QueueId) (p : Proc) : Sched := { s with links := s.links.pushHead i p }

def popHead (i : QueueId) : Sched := { s with links := s.links.popHead i }

/-- Searches follow `next` over at most all the processes there have been. -/
def remove (i : QueueId) (p : Proc) : Sched :=
  { s with links := s.links.remove s.totalProcessesAdded i p }

def insertAfter (i : QueueId) (a p : Proc) : Sched :=
  { s with links := s.links.insertAfter i a p }

def schedLock : Sched := { s with irqLockCount := s.irqLockCount + 1 }

def schedUnlock : Sched := { s with irqLockCount := s.irqLockCount - 1 }

def schedPostpone : Sched :=
  { s with irqLockCount := s.irqLockCount + 1, switchLockCount := s.switchLockCount + 1 }

def multitaskSwitch (r : Rest) (p : Proc) : Sched := { s with toTables := s.switchTo r p }

/-- A running process that is pre-empted goes to the ready queue; any other is in a queue by now. -/
def requeueCurrent : Sched :=
  if s.status s.current = .running then
    (s.setStatus s.current .readyToRun).pushTail .readyToRun s.current
  else s

/-- Returns whether the processor was taken away from the current process, to which `r` is then
left to do. -/
def scheduleAdvance (r : Rest) : Sched × Bool :=
  if 0 < s.switchLockCount then ({ s with switchLockFlag := true }, false)
  else if s.queueHead .readyToRun ≠ 0 then
    let s := s.requeueCurrent
    let next := s.queueHead .readyToRun
    let s := { s with quantumRemaining := quantumLength }
    ((s.popHead .readyToRun).multitaskSwitch r next, true)
  else if s.status s.current ≠ .running then ({ s with cpu := .idle r }, true)
  else (s, false)

/-- `schedule_advance` and the decrement of `irq_lock_count` that follows each call of it. -/
def advanceAndUnlock : Sched :=
  match s.scheduleAdvance .unlock with
  | (s', true) => s'
  | (s', false) => s'.schedUnlock

def schedYield : Sched := s.schedLock.advanceAndUnlock

def schedResume : Sched :=
  let s := { s with switchLockCount := s.switchLockCount - 1 }
  if s.switchLockCount = 0 ∧ s.switchLockFlag = true then
    { s with switchLockFlag := false }.advanceAndUnlock
  else s.schedUnlock

def mpBlockProc (p : Proc) (reason : ProcStatus) : Sched :=
  (s.schedLock.setStatus p reason).advanceAndUnlock

def wakeProc (p : Proc) : Sched :=
  ((s.schedLock.setStatus p .readyToRun).pushTail .readyToRun p).schedUnlock

def enqueueCurrent (w : WaitQueue) : Sched := s.pushTail (.waiting w) s.current

def waitQueueSleep (w : WaitQueue) : Sched :=
  let s := s.schedPostpone.enqueueCurrent w
  (s.mpBlockProc s.current .blocked).schedResume

/-- A call inside of sections between `sched_postpone` and `sched_resume` that are opened for it, as
`tty_read` opens one around `wait_queue_sleep`. Interrupts are off in them. -/
def inSections (f : Sched → Sched) : Nat → Sched → Sched
  | 0, s => f s
  | depth + 1, s => (inSections f depth s.schedPostpone).schedResume

def wakeHead (w : WaitQueue) : Sched :=
  if s.queueHead (.waiting w) = 0 then s
  else (s.popHead (.waiting w)).wakeProc (s.queueHead (.waiting w))

def waitQueueWakeOne (w : WaitQueue) : Sched := (s.schedPostpone.wakeHead w).schedResume

def wakeLoop (w : WaitQueue) : Nat → Sched → Sched
  | 0, s => s
  | fuel + 1, s => if s.queueHead (.waiting w) = 0 then s else wakeLoop w fuel (s.wakeHead w)

/-- The loop of the source leaves the tail as it is until the queue is empty. -/
def waitQueueWakeAll (w : WaitQueue) : Sched :=
  let s := wakeLoop w s.totalProcessesAdded s.schedPostpone
  { s with links := s.links.setTail (.waiting w) 0 }.schedResume

/-- The last process of the sleeping queue before which all sleep until `timestamp` at most. -/
def lastSleeper (timestamp : Nat) : Proc :=
  s.links.findLastPrefix s.totalProcessesAdded .sleeping (s.sleepUntilAtMost timestamp)

def insertSleeper (timestamp : Nat) (p : Proc) : Sched :=
  if s.queueHead .sleeping = 0 then s.pushHead .sleeping p
  else if s.lastSleeper timestamp = 0 then s.pushHead .sleeping p
  else s.insertAfter .sleeping (s.lastSleeper timestamp) p

def sleepProcUntil (p : Proc) (timestamp : Nat) : Sched :=
  let s := s.schedPostpone
  let s := { s with toTables := s.setSleepUntil p timestamp }
  let s := (s.setStatus p .sleepingTimer).insertSleeper timestamp p
  s.schedLock.advanceAndUnlock.schedResume

def sleepersUpTo (last : Proc) : List Proc :=
  (s.links.toList s.totalProcessesAdded .sleeping).takeWhile (· ≠ last) ++ [last]

def wakeProcsBeforeTimestamp (timestamp : Nat) : Sched :=
  let last := s.lastSleeper timestamp
  if last = 0 then s
  else
    { s with
      toTables := s.makeReady (s.sleepersUpTo last)
      links := s.links.splicePrefixTail .readyToRun .sleeping last }

def handleTimer (timestamp : Nat) : Sched :=
  let s := s.schedPostpone.wakeProcsBeforeTimestamp timestamp
  let s :=
    if s.quantumRemaining ≠ 0 then
      if s.quantumRemaining ≤ s.tickInterval then s.schedLock.advanceAndUnlock
      else { s with quantumRemaining := s.quantumRemaining - s.tickInterval }
    else s
  s.schedResume

/-- The timer interrupt while the processor waits in `schedule_advance`, with a null
`current_process`. At the end of a quantum `schedule_advance` is entered once more, and reads the
status of the null process or leaves the waiting stack without saving it. -/
def idleTimer (r : Rest) (timestamp : Nat) : Sched :=
  let s := s.wakeProcsBeforeTimestamp timestamp
  if s.quantumRemaining ≠ 0 ∧ s.quantumRemaining ≤ s.tickInterval then { s with cpu := .fault }
  else
    let s := { s with quantumRemaining := s.quantumRemaining - s.tickInterval }
    if s.queueHead .readyToRun = 0 then s
    else
      let next := s.queueHead .readyToRun
      let s := { s with quantumRemaining := 0, cpu := .running }
      (s.popHead .readyToRun).multitaskSwitch r next

def setLocks (k locks : Nat) : Sched := { s with toTables := s.toTables.setLocks k locks }

def semaphoreLock (k : Nat) : Sched :=
  let s := s.schedPostpone
  if s.HasSlot k then (s.setLocks k ((s.semaphores k).currentLocks + 1)).schedResume
  else (s.waitQueueSleep (.semaphore k)).schedResume

def semaphoreTryLock (k : Nat) : Bool × Sched :=
  let s := s.schedPostpone
  if s.HasSlot k then (true, (s.semaphoreLock k).schedResume)
  else (false, s.schedResume)

/-- `current_locks` is an unsigned byte. -/
def semaphoreUnlock (k : Nat) : Sched :=
  let s := s.schedPostpone
  if s.queueHead (.waiting (.semaphore k)) ≠ 0 then
    (s.waitQueueWakeOne (.semaphore k)).schedResume
  else (s.setLocks k (((s.semaphores k).currentLocks + 255) % 256)).schedResume

end Sched

end Hojicha.Mp
