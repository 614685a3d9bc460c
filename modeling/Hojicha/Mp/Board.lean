import Hojicha.Mp.Process

/-!
# The board: what the scheduler keeps, without pointers and lock sections

A board has lists where the scheduler has links, and no lock counters. An operation changes it at
once (`Board.effect`), and one context switch may follow (`Board.dispatch`).
-/

namespace Hojicha.Mp

open Framework

structure Board extends Tables where
  lists : QueueId → List Proc

/-- The statuses of the processes in a queue. -/
def QueueId.Fits : QueueId → ProcStatus → Prop
  | .readyToRun, st => st = .readyToRun ∨ st = .uninitialized
  | .sleeping, st => st = .sleepingTimer
  | .readyToDie, st => st = .readyToDie
  | .waiting _, st => st = .blocked
  | .parked, st => st = .readyToDie

namespace Board

variable (b : Board)

def setList (i : QueueId) (ps : List Proc) : Board :=
  { b with lists := Function.update b.lists i ps }

def block (w : WaitQueue) : Board :=
  { b.setList (.waiting w) (b.lists (.waiting w) ++ [b.current]) with
    toTables := b.setStatus b.current .blocked }

/-- The processes `ps` at the front of queue `i` become ready; `qs` stay behind. -/
def release (i : QueueId) (ps qs : List Proc) : Board :=
  { (b.setList i qs).setList .readyToRun (b.lists .readyToRun ++ ps) with
    toTables := b.makeReady ps }

def wake (w : WaitQueue) : Board :=
  b.release (.waiting w) ((b.lists (.waiting w)).take 1) ((b.lists (.waiting w)).drop 1)

def wakeAll (w : WaitQueue) : Board := b.release (.waiting w) (b.lists (.waiting w)) []

def wakeSleepers (timestamp : Nat) : Board :=
  b.release .sleeping ((b.lists .sleeping).takeWhile (b.sleepUntilAtMost timestamp))
    ((b.lists .sleeping).dropWhile (b.sleepUntilAtMost timestamp))

/-- The current process goes to sleep, behind those that sleep no longer than it does. -/
def sleep (timestamp : Nat) : Board :=
  { b.setList .sleeping ((b.lists .sleeping).takeWhile (b.sleepUntilAtMost timestamp) ++
      b.current :: (b.lists .sleeping).dropWhile (b.sleepUntilAtMost timestamp)) with
    toTables := (b.setSleepUntil b.current timestamp).setStatus b.current .sleepingTimer }

def spawn (p : Proc) : Board :=
  { b.setList .readyToRun (b.lists .readyToRun ++ [p]) with toTables := b.newProc p }

def fork (c : Proc) (frame : InterruptFrame) : Int × Board :=
  match b.forkSlot c frame with
  | .error e => (-e, b)
  | .ok slot =>
    (b.totalProcessesAdded + 1,
      { b.setList .readyToRun (b.lists .readyToRun ++ [c]) with toTables := b.forkChild c slot })

/-- A process leaves whatever queue it is in, and waits to be freed. -/
def die (p : Proc) (code : Int) : Board :=
  { b with
    lists := Function.update (fun i => (b.lists i).erase p) .readyToDie
      (p :: (b.lists .readyToDie).erase p)
    toTables := (b.setExitCode p code).setStatus p .readyToDie }

def wakeParent (p : Proc) : Board :=
  if b.parent p ≠ 0 then (b.wakeAll (.exitWaiters p)).wakeAll (.childWaiters (b.parent p)) else b

def exit (p : Proc) (code : Int) : Board :=
  if p = 0 ∨ b.status p = .readyToDie then b else (b.die p code).wakeParent p

def collect (q c : Proc) (slot : Nat) : Reply × Board :=
  if b.status c ≠ .readyToDie then (.waited (-ECHILD) none, b)
  else
    (.waited (b.pid c) (some (b.wstatus c)),
      { b.setList .readyToDie ((b.lists .readyToDie).erase c) with
        toTables := ((b.setChild q slot 0).setParent c 0).procFree c })

def waitFor (pid : Int) (child : Proc) (slot : Nat) : Board :=
  let b' := b.block (b.waitQueueFor pid child)
  { b' with toTables := b'.setRest b.current (.waitpid pid child slot :: b.rest b.current) }

def waitpid (pid : Int) (options : Nat) : Reply × Board :=
  if options / 2 ≠ 0 ∨ pid = 0 ∨ pid < -1 then (.waited (-EINVAL) none, b)
  else
    match b.waitChildFind b.current pid with
    | none => (.waited (-ECHILD) none, b)
    | some slot =>
      let child := b.children b.current slot
      if b.status child = .readyToDie then b.collect b.current child slot
      else if options % 2 ≠ 0 then (.waited 0 none, b)
      else (.done, b.waitFor pid child slot)

def waitpidEnd (pid : Int) (child : Proc) (slot : Nat) : Reply × Board :=
  match b.waitedChild pid child slot with
  | none => (.waited (-ECHILD) none, b)
  | some (child, slot) => b.collect b.current child slot

/-- Free the dead processes without a parent, among those behind one another in `ps`; a process
freed here leaves its children without a parent. -/
def reapList : List Proc → Tables → List Proc → Tables × List Proc
  | [], t, kept => (t, kept)
  | p :: ps, t, kept =>
    if t.parent p ≠ 0 then reapList ps t (p :: kept) else reapList ps (t.procFree p) kept

def reap : Board :=
  let (t, kept) := reapList (b.lists .readyToDie) b.toTables []
  { b.setList .readyToDie kept with toTables := t }

def finish : Reply × Board :=
  match b.rest b.current with
  | [] => (.done, b)
  | .unlock :: _ => (.done, { b with toTables := b.dropRest })
  | .prelude :: _ =>
    (.done, { b with
      toTables :=
        if b.status b.current = .uninitialized then b.dropRest.setStatus b.current .running
        else b.dropRest })
  | .waitpid pid child slot :: _ => { b with toTables := b.dropRest : Board }.waitpidEnd pid child slot

def effect : Op → Reply × Board
  | .schedLock | .schedUnlock | .schedPostpone | .schedResume | .schedYield => (.done, b)
  | .addProc p => (.done, b.spawn p)
  | .fork c frame => let (ret, b) := b.fork c frame; (.forked ret, b)
  | .sleepUntil timestamp => (.done, b.sleep timestamp)
  | .waitSleep device _ => (.done, b.block (.device device))
  | .wakeOne device => (.done, b.wake (.device device))
  | .wakeAll device => (.done, b.wakeAll (.device device))
  | .semaphoreLock k =>
    (.done, if b.HasSlot k then
        { b with toTables := b.setLocks k ((b.semaphores k).currentLocks + 1) }
      else b.block (.semaphore k))
  | .semaphoreTryLock k =>
    if b.HasSlot k then
      (.locked true, { b with toTables := b.setLocks k ((b.semaphores k).currentLocks + 1) })
    else (.locked false, b)
  | .semaphoreUnlock k =>
    (.done, if b.lists (.waiting (.semaphore k)) ≠ [] then b.wake (.semaphore k)
      else { b with toTables := b.setLocks k (((b.semaphores k).currentLocks + 255) % 256) })
  | .exit p code => (.done, b.exit p code)
  | .waitpid pid options => b.waitpid pid options
  | .reap => (.done, b.reap)
  | .timer timestamp => (.done, b.wakeSleepers timestamp)
  | .finish => b.finish

def dispatch : Board :=
  match b.lists .readyToRun with
  | [] => b
  | next :: ready =>
    if b.status b.current = .running then
      { b.setList .readyToRun (ready ++ [b.current]) with
        toTables := (b.setStatus b.current .readyToRun).switchTo .unlock next }
    else { b.setList .readyToRun ready with toTables := b.switchTo .unlock next }

def CurrentOut : Prop := ∀ i, b.current ∉ b.lists i

end Board

/-- Every process is the current one, or in a queue that fits its status. -/
structure BoardOk (b : Board) : Prop where
  queued : ∀ i p, p ∈ b.lists i → b.allocated p = true ∧ i.Fits (b.status p)
  placed : ∀ p, b.allocated p = true → p = b.current ∨ ∃ i, p ∈ b.lists i
  live : b.allocated b.current = true
  null : b.allocated 0 = false
  out : b.CurrentOut → b.status b.current = .running ∨ b.status b.current = .uninitialized
  fresh : ∀ p, b.allocated p = true → b.status p = .uninitialized → b.rest p = [.prelude]
  parked : b.lists .parked = []
  bounded : ∃ ps : List Proc, (∀ p, b.allocated p = true → p ∈ ps) ∧
    ps.length ≤ b.totalProcessesAdded

structure KinOk (t : Tables) : Prop where
  null : t.allocated 0 = false
  child : ∀ q slot, t.allocated q = true → t.children q slot ≠ 0 →
    slot ∈ childSlots ∧ t.allocated (t.children q slot) = true ∧ t.parent (t.children q slot) = q
  slots : ∀ q i j, t.allocated q = true → t.children q i ≠ 0 → t.children q i = t.children q j →
    i = j
  parent : ∀ c, t.allocated c = true → t.parent c ≠ 0 →
    t.allocated (t.parent c) = true ∧ ∃ slot, t.children (t.parent c) slot = c

structure WaitersOk (t : Tables) (L : QueueId → List Proc) : Prop where
  exitWaiters : ∀ c p, p ∈ L (.waiting (.exitWaiters c)) → t.allocated c = true ∧ t.parent c = p
  childWaiters : ∀ q p, p ∈ L (.waiting (.childWaiters q)) → p = q

/-- Only the last thing a process has left to do is more than an unlock, and a process that waits
for a child still has it in the slot where it found it. -/
structure RestsOk (t : Tables) : Prop where
  shape : ∀ q, t.allocated q = true → ∀ r ∈ (t.rest q).dropLast, r = .unlock
  slot : ∀ q, t.allocated q = true → ∀ pid child slot, .waitpid pid child slot ∈ t.rest q →
    t.children q slot = child ∧ child ≠ 0

end Hojicha.Mp
