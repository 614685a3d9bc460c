import Hojicha.Framework.Trace
import Hojicha.Mp.Operations

/-!
# Each process in one place

Every process is the current one or in exactly one queue. Nobody may end a blocked process, which
stays in its wait queue, or sleep with switching postponed, and run on in a queue.
-/

namespace Hojicha.Mp

open Framework Function Or

variable {s : Sched} {b : Board} {p task q kernel : Proc} {op : Op}

def kernelOnly (kernel tickInterval : Nat) (semaphores : Nat → Semaphore) : Sched where
  status := fun p => if p = kernel then .running else .uninitialized
  sleepUntil := fun _ => 0
  pid := fun _ => 0
  exitCode := fun _ => 0
  parent := fun _ => 0
  children := fun _ _ => 0
  allocated := fun p => p = kernel
  hasStack := fun _ => false
  totalProcessesAdded := 1
  current := kernel
  rest := fun _ => []
  semaphores := semaphores
  links := ⟨fun _ => 0, fun _ => 0, fun _ => 0⟩
  irqLockCount := 0
  switchLockCount := 0
  switchLockFlag := false
  quantumRemaining := 0
  tickInterval := tickInterval
  cpu := .running

def schedInitialize (kernel task tickInterval : Nat) (semaphores : Nat → Semaphore) : Sched :=
  (kernelOnly kernel tickInterval semaphores).schedAddProc task

namespace Sched

def Sleeps (s : Sched) : Op → Prop
  | .sleepUntil _ | .waitSleep .. => True
  | .semaphoreLock k => ¬ s.HasSlot k
  | .waitpid pid options => (s.waitpidProc pid options).1 = .done
  | .exit p _ => p = s.current
  | _ => False

/-- What callers take care of: the terminator stays awake, calls that sleep are made with switching
not postponed, only processes that are not blocked are ended by others, and new processes get
memory that is not in use. -/
structure Allowed (task : Proc) (s : Sched) (op : Op) : Prop where
  sleeps : s.Sleeps op → s.switchLockCount = 0 ∧ s.current ≠ task
  exit : ∀ p code, op = .exit p code → s.allocated p = true ∧ p ≠ task ∧
    (p ≠ s.current → s.status p ≠ .blocked)
  fork : ∀ c frame, op = .fork c frame → s.allocated c = false
  add : ∀ p, op = .addProc p → s.allocated p = false ∧ p ≠ 0

instance (s : Sched) : (op : Op) → Decidable (s.Sleeps op)
  | .sleepUntil _ | .waitSleep .. => inferInstanceAs (Decidable True)
  | .semaphoreLock k => inferInstanceAs (Decidable (¬ s.HasSlot k))
  | .waitpid pid options => inferInstanceAs (Decidable ((s.waitpidProc pid options).1 = .done))
  | .exit p _ => inferInstanceAs (Decidable (p = s.current))
  | .schedLock | .schedUnlock | .schedPostpone | .schedResume | .schedYield | .addProc _
  | .fork .. | .wakeOne _ | .wakeAll _ | .semaphoreTryLock _ | .semaphoreUnlock _ | .reap
  | .timer _ | .finish => inferInstanceAs (Decidable False)

/-- What the callers that end or make a process take care of. -/
def allows (task : Proc) (s : Sched) : Op → Bool
  | .exit p _ => s.allocated p && p ≠ task && (p = s.current || s.status p ≠ .blocked)
  | .fork c _ => !s.allocated c
  | .addProc p => !s.allocated p && p ≠ 0
  | _ => true

theorem allows_iff {task : Proc} {s : Sched} {op : Op} : s.allows task op = true ↔
    (∀ p code, op = .exit p code → s.allocated p = true ∧ p ≠ task ∧
      (p ≠ s.current → s.status p ≠ .blocked)) ∧
    (∀ c frame, op = .fork c frame → s.allocated c = false) ∧
    ∀ p, op = .addProc p → s.allocated p = false ∧ p ≠ 0 := by
  cases op <;> simp [allows,and_assoc,or_iff_not_imp_left]

instance (task : Proc) (s : Sched) (op : Op) : Decidable (s.Allowed task op) :=
  decidable_of_iff ((s.Sleeps op → s.switchLockCount = 0 ∧ s.current ≠ task) ∧
    s.allows task op = true)
    ⟨fun h => ⟨h.1, (allows_iff.mp h.2).1, (allows_iff.mp h.2).2.1, (allows_iff.mp h.2).2.2⟩,
      fun h => ⟨h.sleeps, allows_iff.mpr ⟨h.exit, h.fork, h.add⟩⟩⟩

end Sched

inductive Place
  | current
  | queue (i : QueueId)
  deriving DecidableEq

def Place.Fits : Place → ProcStatus → Prop
  | .current, st => st = .running
  | .queue i, st => i.Fits st

def Sched.At (s : Sched) (L : QueueId → List Proc) (p : Proc) : Place → Prop
  | .current => p = s.current
  | .queue i => p ∈ L i

/-- The queues are well linked, only processes are in them, and every process is in exactly one
place, which fits its status. -/
def EachInOnePlace (s : Sched) : Prop :=
  ∃ L, s.links.Holds L ∧ (∀ i p, p ∈ L i → s.allocated p = true) ∧
    ∀ p, s.allocated p = true → ∃ x, s.At L p x ∧ x.Fits (s.status p) ∧ ∀ y, s.At L p y → y = x

/-- No process comes back from the dead: once it has exited it keeps its status until it is
freed. -/
def StaysDead (s s' : Sched) : Prop :=
  ∀ p, s.allocated p = true → s.status p = .readyToDie →
    s'.allocated p = true → s'.status p = .readyToDie

theorem accepted_rest (haccept : s.accepts op=true) (htimer : ∀ t, op ≠ .timer t)
    (hfinish : op ≠ .finish) : s.rest s.current=[] := by
  cases op with
  | timer t => exact (htimer t rfl).elim
  | finish => exact (hfinish rfl).elim
  | _ => simpa [Sched.accepts] using haccept

theorem Runs.accepted (h : Runs task s b) (haccept : s.accepts op=true) (hfinish : op ≠ .finish) :
    b.status b.current = .running := by
  apply h.running
  intro hrest
  cases op with
  | timer t =>
    rw [Sched.accepts,Sched.interruptible,hrest] at haccept
    simp at haccept
  | finish => exact hfinish rfl
  | _ =>
    rw [accepted_rest haccept (by simp) (by simp)] at hrest
    cases hrest

theorem Runs.call (h : Runs task s b) (haccept : s.accepts op=true)
    (hallowed : s.Allowed task op) :
    (s.call op).1=(b.effect op).1 ∧ Settles task (s.call op).2 (b.effect op).2 := by
  have hcurrent := h.tracks.current
  have halloc := h.tracks.allocated
  have hstatus := h.tracks.status
  have hsleeps := hallowed.sleeps
  rw [hcurrent] at hsleeps
  -- what the cases below share
  have hrun : op ≠ .finish → b.status b.current = .running := h.accepted haccept
  have hnone : (∀ t, op ≠ .timer t) → op ≠ .finish → b.rest b.current=[] := by
    intro htimer hfinish
    have hrest := accepted_rest haccept htimer hfinish
    rwa [h.tracks.tables] at hrest
  have hcount : ∀ s' : Sched, s'.links=s.links → s'.toTables=s.toTables → s'.cpu=s.cpu →
      Settles task s' b := by
    intro s' hl ht hc
    exact Runs.settles ⟨h.tracks.congr hl ht,h.out,hc.trans h.cpu,h.awake⟩
  cases op with
  | schedLock => exact ⟨rfl,hcount _ rfl rfl rfl⟩
  | schedUnlock => exact ⟨rfl,hcount _ rfl rfl rfl⟩
  | schedPostpone => exact ⟨rfl,hcount _ rfl rfl rfl⟩
  | schedResume => exact ⟨rfl,h.schedResume (hrun (by simp))⟩
  | schedYield => exact ⟨rfl,h.schedYield (hrun (by simp))⟩
  | addProc p =>
    obtain ⟨hp,hp0⟩ := hallowed.add p rfl
    rw [halloc] at hp
    exact ⟨rfl,h.schedAddProc (hrun (by simp)) hp hp0⟩
  | fork c frame =>
    have hc := hallowed.fork c frame rfl
    rw [halloc] at hc
    obtain ⟨hret,hsettles⟩ := h.forkProc (hnone (by simp) (by simp)) hc frame
    exact ⟨congrArg Reply.forked hret,hsettles⟩
  | sleepUntil t =>
    obtain ⟨hlock,htask⟩ := hsleeps trivial
    exact ⟨rfl,h.sleepProcUntil hlock htask.symm t⟩
  | waitSleep k n =>
    obtain ⟨hlock,htask⟩ := hsleeps trivial
    rw [Sched.call,inSections_waitQueueSleep]
    exact ⟨rfl,h.waitQueueSleep hlock htask.symm (by simp) (by simp)⟩
  | wakeOne k => exact ⟨rfl,h.waitQueueWakeOne (hrun (by simp)) _⟩
  | wakeAll k => exact ⟨rfl,h.waitQueueWakeAll (hrun (by simp)) _⟩
  | semaphoreLock k =>
    refine ⟨rfl,h.semaphoreLock (hrun (by simp)) k ?_⟩
    by_cases hslot : s.HasSlot k
    · exact inl ((h.hasSlot k).mp hslot)
    · obtain ⟨hlock,htask⟩ := hsleeps hslot
      exact inr ⟨hlock,htask.symm⟩
  | semaphoreTryLock k => exact h.semaphoreTryLock (hrun (by simp)) k
  | semaphoreUnlock k => exact ⟨rfl,h.semaphoreUnlock (hrun (by simp)) k⟩
  | exit p code =>
    obtain ⟨hp,htask,hblocked⟩ := hallowed.exit p code rfl
    rw [halloc] at hp
    rw [hcurrent,hstatus] at hblocked
    refine ⟨rfl,h.procExit (hrun (by simp)) hp htask.symm ?_ hblocked code⟩
    intro hpc
    exact (hsleeps (hpc.trans hcurrent.symm)).1
  | waitpid pid options =>
    apply h.waitpidProc (hrun (by simp)) (hnone (by simp) (by simp))
    intro hdone
    obtain ⟨hlock,htask⟩ := hsleeps hdone
    exact ⟨hlock,htask.symm⟩
  | reap => exact ⟨rfl,h.reap (hrun (by simp))⟩
  | timer t => exact ⟨rfl,h.handleTimer (hrun (by simp)) t⟩
  | finish => exact h.finish

theorem perform_call (hcpu : s.cpu = .running) (haccept : s.accepts op=true) :
    s.perform op=s.call op := by
  rw [Sched.perform,hcpu]
  exact if_pos haccept

/-- Each allowed request is its effect on the board and at most a context switch, or it is not
taken. -/
theorem Runs.perform (h : Runs task s b) (hallowed : s.Allowed task op) :
    (s.accepts op=true ∧ (s.perform op).1=(b.effect op).1 ∧
        Settles task (s.perform op).2 (b.effect op).2) ∨
      s.accepts op≠true ∧ s.perform op=(.done, s) := by
  by_cases haccept : s.accepts op=true
  · rw [perform_call h.cpu haccept]
    exact inl ⟨haccept,h.call haccept hallowed⟩
  · rw [Sched.perform,h.cpu]
    exact inr ⟨haccept,if_neg haccept⟩

theorem Runs.next (h : Runs task s b) (hallowed : s.Allowed task op) :
    ∃ b', Runs task (s.perform op).2 b' := by
  rcases h.perform hallowed with ⟨-,-,-,b',hruns,-⟩ | ⟨-,hstay⟩
  · exact ⟨b',hruns⟩
  · rw [hstay]
    exact ⟨b,h⟩

/-- What an operation can make of the status of a process that does not run: it is woken, or it
is ended. -/
def MayBecome (b : Board) (q : Proc) (st : ProcStatus) : Prop :=
  st = b.status q ∨ q = b.current ∨
    (b.status q = .blocked ∨ b.status q = .sleepingTimer) ∧ st = .readyToRun ∨ st = .readyToDie

private theorem MayBecome.trans {b' : Board} {st : ProcStatus}
    (h : MayBecome b q (b'.status q)) (hcurrent : b'.current=b.current)
    (h' : MayBecome b' q st) : MayBecome b q st := by
  rcases h' with hst | hq | ⟨hwait,hst⟩ | hst
  · rw [hst]
    exact h
  · exact inr (inl (hq.trans hcurrent))
  · -- a process that is woken had not been woken or ended before
    rcases h with hsame | hq | ⟨-,hready⟩ | hdead
    · rw [hsame] at hwait
      exact inr (inr (inl ⟨hwait,hst⟩))
    · exact inr (inl hq)
    · rw [hready] at hwait
      simp at hwait
    · rw [hdead] at hwait
      simp at hwait
  · exact inr (inr (inr hst))

private theorem release_mayBecome {i : QueueId} {ps qs : List Proc} (h : BoardOk b)
    (hi : ∀ q∈ps, q∈b.lists i)
    (hfit : ∀ st, i.Fits st → st = .blocked ∨ st = .sleepingTimer) :
    MayBecome b q ((b.release i ps qs).status q) := by
  change MayBecome b q ((b.makeReady ps).status q)
  rw [makeReady_status]
  split_ifs with hmem
  · exact inr (inr (inl ⟨hfit _ (h.fits (hi q hmem)),rfl⟩))
  · exact inl rfl

private theorem wake_mayBecome (h : BoardOk b) (w : WaitQueue) :
    MayBecome b q ((b.wake w).status q) :=
  release_mayBecome h (fun _ hq => List.mem_of_mem_take hq) fun _ hfit => inl hfit

private theorem wakeAll_mayBecome (h : BoardOk b) (w : WaitQueue) :
    MayBecome b q ((b.wakeAll w).status q) :=
  release_mayBecome h (fun _ hq => hq) fun _ hfit => inl hfit

private theorem update_mayBecome (hp : p≠q ∨ p=b.current) (st : ProcStatus) :
    MayBecome b q (update b.status p st q) := by
  by_cases hqp : q=p
  · rcases hp with hp | hp
    · exact (hp hqp.symm).elim
    · exact inr (inl (hqp.trans hp))
  · rw [update_of_ne hqp]
    exact inl rfl

private theorem current_mayBecome (st : ProcStatus) :
    MayBecome b q (update b.status b.current st q) := update_mayBecome (inr rfl) st

private theorem collect_mayBecome {c r : Proc} {slot : Nat} :
    MayBecome b q ((b.collect r c slot).2.status q) := by
  rw [collect_status]
  exact inl rfl

private theorem waitpid_mayBecome {pid : Int} {options : Nat} :
    MayBecome b q ((b.waitpid pid options).2.status q) := by
  rcases waitpid_cases b pid options with ⟨ret,-,heq⟩ | ⟨slot,-,-,heq⟩ | ⟨slot,-,-,-,heq⟩
  · rw [heq]
    exact inl rfl
  · rw [heq]
    exact collect_mayBecome
  · rw [heq]
    exact current_mayBecome _

private theorem finish_mayBecome : MayBecome b q (b.finish.2.status q) := by
  rw [Board.finish]
  split
  · exact inl rfl
  · exact inl rfl
  · dsimp only
    split_ifs
    · exact current_mayBecome _
    · exact inl rfl
  · rw [Board.waitpidEnd]
    split
    · exact inl rfl
    · rw [collect_status]
      exact inl rfl

private theorem exit_mayBecome {code : Int} (hmark : Tracks s (b.die p code)) :
    MayBecome b q (((b.die p code).wakeParent p).status q) := by
  have hdie : MayBecome b q ((b.die p code).status q) := by
    change MayBecome b q (update b.status p .readyToDie q)
    by_cases hqp : q=p
    · rw [hqp,update_self]
      exact inr (inr (inr rfl))
    · exact update_mayBecome (inl (Ne.symm hqp)) _
  rw [Board.wakeParent]
  split_ifs
  · have hwake := hmark.ok.wakeAll hmark.apart (.exitWaiters p)
    exact (hdie.trans rfl (wakeAll_mayBecome hmark.ok _)).trans rfl (wakeAll_mayBecome hwake _)
  · exact hdie

theorem Runs.effect_status (h : Runs task s b) (hallowed : s.Allowed task op)
    (hq : b.allocated q=true) : MayBecome b q ((b.effect op).2.status q) := by
  have halloc := h.tracks.allocated
  have hcurrent := h.tracks.current
  have hstatus := h.tracks.status
  have hother : ∀ p, b.allocated p=false → p≠q := by
    rintro p hp rfl
    rw [hq] at hp
    cases hp
  have hok := h.tracks.ok
  cases op with
  | schedLock => exact inl rfl
  | schedUnlock => exact inl rfl
  | schedPostpone => exact inl rfl
  | schedResume => exact inl rfl
  | schedYield => exact inl rfl
  | addProc p =>
    have hp := (hallowed.add p rfl).1
    rw [halloc] at hp
    exact update_mayBecome (inl (hother p hp)) _
  | fork c frame =>
    have hc := hallowed.fork c frame rfl
    rw [halloc] at hc
    change MayBecome b q ((b.fork c frame).2.status q)
    rw [Board.fork]
    split
    · exact inl rfl
    · change MayBecome b q (update (update b.status c _) c _ q)
      rw [update_idem]
      exact update_mayBecome (inl (hother c hc)) _
  | sleepUntil t => exact current_mayBecome _
  | waitSleep => exact current_mayBecome _
  | wakeOne k => exact wake_mayBecome hok _
  | wakeAll k => exact wakeAll_mayBecome hok _
  | semaphoreLock k =>
    change MayBecome b q ((ite _ _ _ : Board).status q)
    split_ifs
    · exact inl rfl
    · exact current_mayBecome _
  | semaphoreTryLock k =>
    rw [Board.effect]
    split_ifs <;> exact inl rfl
  | semaphoreUnlock k =>
    change MayBecome b q ((ite _ _ _ : Board).status q)
    split_ifs
    · exact wake_mayBecome hok _
    · exact inl rfl
  | exit p code =>
    obtain ⟨hp,-,hblocked⟩ := hallowed.exit p code rfl
    rw [halloc] at hp
    rw [hcurrent,hstatus] at hblocked
    change MayBecome b q ((b.exit p code).status q)
    rw [Board.exit]
    split_ifs with hgone
    · exact inl rfl
    · have hlive : b.status p ≠ .readyToDie := fun hst => hgone (inr hst)
      exact exit_mayBecome (h.tracks.exitMark hp h.out hblocked hlive code).1
  | waitpid pid options => exact waitpid_mayBecome
  | reap =>
    rw [show (b.effect .reap).2=b.reap from rfl,(reap_same h.tracks.apart).status]
    exact inl rfl
  | timer t =>
    refine release_mayBecome hok (i := .sleeping) ?_ fun st hfit => inr hfit
    exact fun q hq => (List.takeWhile_prefix _).subset hq
  | finish => exact finish_mayBecome

private theorem dispatch_dead (h : BoardOk b) (hp : b.status p = .readyToDie) :
    b.dispatch.status p = .readyToDie := by
  rcases dispatch_status h p with hst | ⟨hst,-⟩ | ⟨hst,-⟩
  · exact hst.trans hp
  · rw [hp] at hst
    cases hst
  · rw [hp] at hst
    cases hst

theorem Runs.alive (h : Runs task s b) : b.status b.current ≠ .readyToDie := by
  rcases h.tracks.ok.out h.out with hst | hst <;> rw [hst] <;> decide

private theorem Runs.effect_dead (h : Runs task s b) (hallowed : s.Allowed task op)
    (hp : b.allocated p=true) (hdead : b.status p = .readyToDie) :
    (b.effect op).2.status p = .readyToDie := by
  rcases h.effect_status hallowed hp with hst | rfl | ⟨hwait,-⟩ | hst
  · exact hst.trans hdead
  · exact (h.alive hdead).elim
  · rw [hdead] at hwait
    simp at hwait
  · exact hst

private theorem settled_dead {b' : Board} (hok : BoardOk b) (h : b'=b ∨ b'=b.dispatch)
    (hp : b.status p = .readyToDie) : b'.status p = .readyToDie := by
  rcases h with rfl | rfl
  · exact hp
  · exact dispatch_dead hok hp

private theorem Runs.staysDead (h : Runs task s b) (hallowed : s.Allowed task op) :
    StaysDead s (s.perform op).2 := by
  intro p hp hdead _
  rcases h.perform hallowed with ⟨-,-,hok,b',hruns,hb'⟩ | ⟨-,hstay⟩
  · rw [h.tracks.tables] at hp hdead
    rw [hruns.tracks.tables]
    exact settled_dead hok hb' (h.effect_dead hallowed hp hdead)
  · rw [hstay]
    exact hdead

private theorem Runs.eachInOnePlace (h : Runs task s b) (hrest : s.rest s.current=[]) :
    EachInOnePlace s := by
  have hrun : b.status b.current = .running := by
    apply h.running
    rw [hrest]
    simp
  have hok := h.tracks.ok
  refine ⟨b.lists,h.tracks.links,?_,?_⟩
  · intro i p hp
    rw [h.tracks.tables]
    exact (hok.queued i p hp).1
  · intro p hp
    have hcurrent := h.tracks.current
    have hstatus := h.tracks.status
    rw [h.tracks.tables] at hp
    rw [hstatus]
    rcases hok.placed p hp with rfl | ⟨i,hi⟩
    · refine ⟨.current,hcurrent.symm,hrun,?_⟩
      intro y hy
      cases y with
      | current => rfl
      | queue j => exact (h.out j hy).elim
    · refine ⟨.queue i,hi,hok.fits hi,?_⟩
      intro y hy
      cases y with
      | current =>
        have hpc : p=b.current := hcurrent ▸ hy
        exact (h.out i (hpc ▸ hi)).elim
      | queue j => rw [h.tracks.apart.disjoint j i p hy hi]

def kernelBoard (kernel : Proc) (semaphores : Nat → Semaphore) : Board where
  toTables := (kernelOnly kernel 0 semaphores).toTables
  lists := fun _ => []

theorem kernelBoard_alone (kernel : Proc) (semaphores : Nat → Semaphore) :
    (∀ p, (kernelBoard kernel semaphores).allocated p=true → p=kernel) ∧
      (kernelBoard kernel semaphores).status kernel = .running := by
  simp [kernelBoard,kernelOnly]

theorem kernelOnly_runs (hkernel : kernel≠0) (tickInterval : Nat)
    (semaphores : Nat → Semaphore) :
    Runs kernel (kernelOnly kernel tickInterval semaphores) (kernelBoard kernel semaphores) := by
  obtain ⟨halloc,hstatus⟩ := kernelBoard_alone kernel semaphores
  refine ⟨⟨?_,rfl,?_,?_,?_,?_⟩,?_,rfl,?_,inl hstatus⟩
  · constructor
    · intro i
      rfl
    · intro i
      rfl
    · intro i
      exact List.not_mem_nil
    · intro i
      exact List.nodup_nil
    · intro i j p hp
      cases hp
  · constructor
    · intro i p hp
      cases hp
    · intro p hp
      exact inl (halloc p hp)
    · simp [kernelBoard,kernelOnly]
    · simpa [kernelBoard,kernelOnly] using hkernel.symm
    · intro _
      exact inl hstatus
    · intro p hp hun
      rw [halloc p hp,hstatus] at hun
      cases hun
    · rfl
    · refine ⟨[kernel],?_,le_refl 1⟩
      intro p hp
      rw [halloc p hp]
      exact List.mem_singleton_self kernel
  · constructor
    · simpa [kernelBoard,kernelOnly] using hkernel.symm
    · intro q slot _ hslot
      exact (hslot rfl).elim
    · intro q i j _ hi
      exact (hi rfl).elim
    · intro c _ hpar
      exact (hpar rfl).elim
  · constructor
    · intro c p hp
      cases hp
    · intro q p hp
      cases hp
  · constructor
    · intro q _ r hr
      cases hr
    · intro q _ pid child slot hmem
      cases hmem
  · intro i hi
    cases hi
  · simp [kernelBoard,kernelOnly]

theorem schedInitialize_runs (hkernel : kernel≠0) (htask : task≠0)
    (hne : task≠kernel) (tickInterval : Nat) (semaphores : Nat → Semaphore) :
    ∃ b, Runs task (schedInitialize kernel task tickInterval semaphores) b ∧
      (b=(kernelBoard kernel semaphores).spawn task ∨
        b=((kernelBoard kernel semaphores).spawn task).dispatch) := by
  have hstart := kernelOnly_runs hkernel tickInterval semaphores
  have hfresh : (kernelBoard kernel semaphores).allocated task=false := by
    simpa [kernelBoard,kernelOnly] using hne
  have hrun : (kernelBoard kernel semaphores).status (kernelBoard kernel semaphores).current
      = .running := by simp [kernelBoard,kernelOnly]
  obtain ⟨-,b,hruns,hb⟩ := hstart.schedAddProc hrun hfresh htask
  have hawake : Awake ((kernelBoard kernel semaphores).spawn task) task :=
    ⟨update_self _ _ _,inr (inr (update_self _ _ _))⟩
  refine ⟨b,⟨hruns.tracks,hruns.out,hruns.cpu,?_⟩,hb⟩
  rcases hb with rfl | rfl
  · exact hawake
  · exact hawake.dispatch

theorem run_runs (hkernel : kernel≠0) (htask : task≠0) (hne : task≠kernel)
    {tickInterval : Nat} {semaphores : Nat → Semaphore} {ops : List Op}
    (hall : Always Sched.perform (Sched.Allowed task)
      (schedInitialize kernel task tickInterval semaphores) ops) :
    ∃ b, Runs task
      (trace Sched.perform (schedInitialize kernel task tickInterval semaphores) ops).2 b := by
  apply trace_invariant (fun s => ∃ b, Runs task s b) _ _ hall
  · rintro s op ⟨b,h⟩ hallowed
    exact h.next hallowed
  · obtain ⟨b,h,-⟩ := schedInitialize_runs hkernel htask hne tickInterval semaphores
    exact ⟨b,h⟩

/-- Behind the run every process is in one place, as soon as the current process is outside of any
call, and whatever is called next, the dead stay dead. -/
def KeepsPlaces (task : Proc) (start : Sched) (ops : List Op) : Prop :=
  let s := (trace Sched.perform start ops).2
  (s.rest s.current = [] → EachInOnePlace s) ∧
    ∀ op, s.Allowed task op → StaysDead s (s.perform op).2

theorem each_process_in_one_place (kernel task tickInterval : Nat) (semaphores : Nat → Semaphore)
    (hkernel : kernel ≠ 0) (htask : task ≠ 0) (hne : task ≠ kernel) (ops : List Op)
    (hall : Always Sched.perform (Sched.Allowed task)
      (schedInitialize kernel task tickInterval semaphores) ops) :
    KeepsPlaces task (schedInitialize kernel task tickInterval semaphores) ops := by
  obtain ⟨b,h⟩ := run_runs hkernel htask hne hall
  constructor
  · exact h.eachInOnePlace
  · intro op hallowed
    exact h.staysDead hallowed

def smallStart : Sched := schedInitialize 1 2 1000 fun _ => ⟨1, 0⟩

theorem allowed_of_plain (hsleep : ¬ s.Sleeps op) (hexit : ∀ p code, op ≠ .exit p code)
    (hfork : ∀ c frame, op ≠ .fork c frame) (hadd : ∀ p, op ≠ .addProc p) : s.Allowed task op := by
  constructor
  · intro h
    exact (hsleep h).elim
  · intro p code h
    exact (hexit p code h).elim
  · intro c frame h
    exact (hfork c frame h).elim
  · intro p h
    exact (hadd p h).elim

theorem allowed_add (hp : s.allocated p=false) (hp0 : p≠0) : s.Allowed task (.addProc p) := by
  refine ⟨fun hsleeps => hsleeps.elim,by simp,by simp,?_⟩
  intro q hq
  cases hq
  exact ⟨hp,hp0⟩

/-- Process 3 is added, forks 4 and waits for it. The kernel process 1 waits for the terminal inside
of the section of `tty_read`. Process 4 sleeps, is woken by the timer and ends, process 1 is woken
by the device, and 3 collects 4. -/
def familyRun : List Op :=
  [.addProc 3, .schedYield, .finish, .schedYield, .finish, .fork 4 .insideStack, .waitpid (-1) 0,
    .finish, .waitSleep 0 1, .finish, .schedYield, .sleepUntil 5000, .finish, .timer 5000,
    .wakeOne 0, .schedYield, .finish, .exit 4 7, .finish, .schedYield, .finish, .reap, .schedYield,
    .finish, .finish]

theorem each_process_in_one_place_family : KeepsPlaces 2 smallStart familyRun :=
  each_process_in_one_place 1 2 1000 (fun _ => ⟨1,0⟩) (by decide) (by decide) (by decide) familyRun
    (by decide +kernel)

/-- Process 3 waits for a device when process 1 ends it. -/
def blockedExit : Sched :=
  (trace Sched.perform smallStart
    [.addProc 3, .schedYield, .finish, .schedYield, .finish, .waitSleep 0 0, .finish, .exit 3 0,
      .finish]).2

/-- It is then in the wait queue and in the die queue. -/
theorem blocked_exit_in_two_places :
    blockedExit.rest blockedExit.current = [] ∧ ¬ EachInOnePlace blockedExit := by
  refine ⟨by decide +kernel,?_⟩
  rintro ⟨L,hholds,-,-⟩
  have hmem : ∀ i, blockedExit.links.head i=3 → 3∈L i := by
    intro i hi
    have hstart := (hholds.segment i).start_eq
    rw [hi] at hstart
    cases hL : L i with
    | nil =>
      rw [hL] at hstart
      cases hstart
    | cons a as =>
      rw [hL] at hstart
      rw [show a=3 from hstart.symm]
      exact List.mem_cons_self
  have hwait := hmem (.waiting (.device 0)) (by decide +kernel)
  have hdie := hmem .readyToDie (by decide +kernel)
  cases hholds.disjoint _ _ 3 hwait hdie

/-- The processor runs a process; it has not entered the loop of `schedule_advance`, which is left
by a timer tick only. The terminator is runnable, so that no other process can leave it without
work. -/
structure Busy (task : Proc) (s : Sched) : Prop where
  cpu : s.cpu = .running
  current : s.current ≠ 0
  runnable : s.status task = .running ∨ s.status task = .readyToRun ∨
    s.status task = .uninitialized
  ready : s.current ≠ task → s.queueHead .readyToRun ≠ 0

private theorem Runs.busy (h : Runs task s b) : Busy task s := by
  have hcurrent := h.tracks.current
  have hstatus := h.tracks.status
  have hok := h.tracks.ok
  refine ⟨h.cpu,?_,?_,?_⟩
  · rw [hcurrent]
    exact hok.ne_zero hok.live
  · rw [hstatus]
    exact h.awake.2
  · intro hne
    rw [Ne,h.tracks.queueHead]
    rcases hok.placed task h.awake.1 with htask | ⟨i,hi⟩
    · exact (hne (hcurrent.trans htask.symm)).elim
    · exact hok.ready_of_queued h.awake hi

def Board.Admits (b : Board) : Op → Prop
  | .timer _ => (b.rest b.current).head? ≠ some .prelude
  | .finish => True
  | _ => b.rest b.current = []

/-- The board makes the calls it admits, with these replies. Whether a call ends in a switch is left
open: that depends on the counters and the timer. -/
inductive Board.Reaches : Board → List Op → List Reply → Board → Prop
  | start (b : Board) : Reaches b [] [] b
  | refused {b b' ops rs} {op : Op} : ¬ b.Admits op → Reaches b ops rs b' →
      Reaches b (op :: ops) (.done :: rs) b'
  | call {b b₁ b' ops rs} {op : Op} : b.Admits op →
      b₁ = (b.effect op).2 ∨ b₁ = (b.effect op).2.dispatch → Reaches b₁ ops rs b' →
      Reaches b (op :: ops) ((b.effect op).1 :: rs) b'

private theorem Tracks.admits (h : Tracks s b) : s.accepts op=true ↔ b.Admits op := by
  cases op <;> simp [Sched.accepts,Sched.interruptible,Board.Admits,h.tables]

private theorem Runs.reaches {ops : List Op} (h : Runs task s b)
    (hall : Always Sched.perform (Sched.Allowed task) s ops) :
    ∃ b', b.Reaches ops (trace Sched.perform s ops).1 b' ∧
      Runs task (trace Sched.perform s ops).2 b' := by
  induction ops generalizing s b with
  | nil => exact ⟨b,.start b,h⟩
  | cons op ops ih =>
    obtain ⟨hallowed,hall⟩ := hall
    rw [trace_cons]
    rcases h.perform hallowed with ⟨haccept,hreply,-,b₁,hruns,hb₁⟩ | ⟨hreject,hstay⟩
    · obtain ⟨b',hreach,hruns'⟩ := ih hruns hall
      rw [hreply]
      exact ⟨b',.call (h.tracks.admits.mp haccept) hb₁ hreach,hruns'⟩
    · rw [hstay] at hall ⊢
      obtain ⟨b',hreach,hruns'⟩ := ih h hall
      exact ⟨b',.refused (h.tracks.admits.not.mp hreject) hreach,hruns'⟩

/-- Over every run the linked queues behave as lists: the board gives the same replies and ends
with the same tables and queues. -/
theorem scheduler_refines_board (kernel task tickInterval : Nat) (semaphores : Nat → Semaphore)
    (hkernel : kernel ≠ 0) (htask : task ≠ 0) (hne : task ≠ kernel) (ops : List Op)
    (hall : Always Sched.perform (Sched.Allowed task)
      (schedInitialize kernel task tickInterval semaphores) ops) :
    let r := trace Sched.perform (schedInitialize kernel task tickInterval semaphores) ops
    ∃ b, (kernelBoard kernel semaphores).Reaches (.addProc task :: ops) (.done :: r.1) b ∧
      r.2.toTables = b.toTables ∧ ∀ i, r.2.links.toList r.2.totalProcessesAdded i = b.lists i := by
  obtain ⟨b₁,hruns,hb₁⟩ := schedInitialize_runs hkernel htask hne tickInterval semaphores
  obtain ⟨b,hreach,h⟩ := hruns.reaches hall
  exact ⟨b,.call rfl hb₁ hreach,h.tracks.tables,fun i => h.tracks.links.toList_eq (h.tracks.fuel i)⟩

/-- What the family's calls return, and the state behind them. -/
def familyTrace : List Reply × Sched := trace Sched.perform smallStart familyRun

theorem scheduler_refines_board_family : familyTrace.1.getLast? = some (.waited 4 (some 0x700)) ∧
    ∃ b, (kernelBoard 1 fun _ => ⟨1, 0⟩).Reaches (.addProc 2 :: familyRun)
        (.done :: familyTrace.1) b ∧
      familyTrace.2.toTables = b.toTables ∧
      ∀ i, familyTrace.2.links.toList familyTrace.2.totalProcessesAdded i = b.lists i := by
  refine ⟨by decide +kernel,?_⟩
  rw [familyTrace,smallStart]
  exact scheduler_refines_board 1 2 1000 (fun _ => ⟨1,0⟩) (by decide) (by decide) (by decide)
    familyRun (by decide +kernel)

end Hojicha.Mp
