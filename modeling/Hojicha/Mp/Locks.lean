import Hojicha.Mp.Queues

/-!
# Lock sections across context switches

The counters are global, the sections belong to processes. A process that is switched away from
leaves its decrements behind (`due`), but the stack of a forked child owes none.
-/

namespace Hojicha.Mp

open Framework Function Or

variable {s s' s'' : Sched} {b : Board} {p q task : Proc} {op : Op} {n m k slot : Nat}
  {w : WaitQueue} {pid : Int}

/-- The decrements of `irq_lock_count` that a process has left to do. -/
def due : List Rest → Nat
  | [] => 0
  | .waitpid _ _ _ :: rs => due rs
  | .unlock :: rs => due rs + 1
  | .prelude :: rs => due rs + 1

/-- `n` sections have been entered since `s`, of which `m` postpone switches. -/
structure Inside (n m : Nat) (s s' : Sched) : Prop where
  irq : s'.irqLockCount = s.irqLockCount + n
  switch : s'.switchLockCount = s.switchLockCount + m
  current : s'.current = s.current
  due : due (s'.rest s.current) = due (s.rest s.current)

private theorem inside_postpone (s : Sched) : Inside 1 1 s s.schedPostpone := ⟨rfl,rfl,rfl,rfl⟩

private theorem Inside.quiet (h : Inside n m s s') (h' : Quiet s' s'') : Inside n m s s'' :=
  ⟨h'.irq.trans h.irq,h'.switch.trans h.switch,h'.current.trans h.current,h'.rest ▸ h.due⟩

private theorem Inside.positive (h : Inside n (m + 1) s s') : 0<s'.switchLockCount := by
  rw [h.switch]
  exact Nat.succ_pos _

private theorem Inside.postpone (h : Inside n m s s') : Inside (n + 1) (m + 1) s s'.schedPostpone :=
  ⟨congrArg (· + 1) h.irq,congrArg (· + 1) h.switch,h.current,h.due⟩

private theorem Inside.unlock (h : Inside (n + 1) m s s') : Inside n m s s'.schedUnlock :=
  ⟨congrArg (· - 1) h.irq,h.switch,h.current,h.due⟩

private theorem Inside.resume (h : Inside (n + 1) (m + 2) s s') :
    Inside n (m + 1) s s'.schedResume := by
  rw [schedResume_nested]
  · exact ⟨congrArg (· - 1) h.irq,congrArg (· - 1) h.switch,h.current,h.due⟩
  · rw [h.switch]
    omega

section

variable (h : Inside n (m + 1) s s')
include h

private theorem Inside.advance : Inside n (m + 1) s s'.schedLock.advanceAndUnlock := by
  rw [lockAdvance_postponed h.positive]
  exact ⟨h.irq,h.switch,h.current,h.due⟩

private theorem Inside.block (p : Proc) (st : ProcStatus) :
    Inside n (m + 1) s (s'.mpBlockProc p st) := by
  rw [mpBlockProc_postponed h.positive]
  exact ⟨h.irq,h.switch,h.current,h.due⟩

private theorem Inside.wakeAll (w : WaitQueue) : Inside n (m + 1) s (s'.waitQueueWakeAll w) := by
  apply Inside.resume
  apply (h.postpone.quiet (quiet_wakeLoop w s'.totalProcessesAdded _)).quiet
  exact ⟨rfl,rfl,rfl,rfl,rfl,rfl⟩

private theorem Inside.wakeParent (p : Proc) : Inside n (m + 1) s (s'.wakeParent p) := by
  rw [Sched.wakeParent]
  split_ifs
  · exact (h.wakeAll _).wakeAll _
  · exact h

end

private theorem inside_exitMark (s : Sched) (p : Proc) (code : Int) :
    Inside 1 1 s (s.exitMark p code) := by
  apply Inside.block
  apply Inside.unlock
  have hcode : Inside 2 1 s { s.schedPostpone.schedLock with
      toTables := s.schedPostpone.schedLock.setExitCode p code } := ⟨rfl,rfl,rfl,rfl⟩
  dsimp only
  split_ifs
  · exact (hcode.quiet (quiet_mpRemoveProc _ p)).quiet ⟨rfl,rfl,rfl,rfl,rfl,rfl⟩
  · exact hcode.quiet ⟨rfl,rfl,rfl,rfl,rfl,rfl⟩

/-- `n` sections are left, of which `m` postpone switches; what the process still has to do about
them is due. -/
structure Leaves (n m : Nat) (s s' : Sched) : Prop where
  irq : s'.irqLockCount + n + due (s.rest s.current) =
    s.irqLockCount + due (s'.rest s.current)
  switch : s'.switchLockCount + m = s.switchLockCount
  left : s'.current ≠ s.current → s'.switchLockCount = 0 ∧ 0 < due (s'.rest s.current)

private theorem Inside.leaves (h : Inside n m s s') (h' : Leaves n m s' s'') :
    Leaves 0 0 s s'' := by
  have hirq := h'.irq
  have hleft := h'.left
  rw [h.current,h.due,h.irq] at hirq
  rw [h.current] at hleft
  refine ⟨by omega,?_,hleft⟩
  have hswitch := h'.switch.trans h.switch
  omega

private theorem Inside.leaves_none (h : Inside 0 0 s s') : Leaves 0 0 s s' := by
  refine ⟨by rw [h.irq,h.due]; rfl,h.switch,?_⟩
  intro hne
  exact (hne h.current).elim

private theorem unlock_leaves (hirq : 0<s.irqLockCount) : Leaves 1 0 s s.schedUnlock := by
  refine ⟨?_,rfl,fun hne => (hne rfl).elim⟩
  change s.irqLockCount-1+1+_=_
  rw [Nat.sub_add_cancel hirq]
  rfl

private theorem advance_leaves (hirq : 0<s.irqLockCount)
    (hcpu : s.advanceAndUnlock.cpu = .running) : Leaves 1 0 s s.advanceAndUnlock := by
  rw [Sched.advanceAndUnlock,Sched.scheduleAdvance] at hcpu ⊢
  by_cases hpost : 0<s.switchLockCount
  · rw [if_pos hpost]
    have hunlock := unlock_leaves hirq
    exact ⟨hunlock.irq,hunlock.switch,hunlock.left⟩
  · rw [if_neg hpost] at hcpu ⊢
    by_cases hready : s.queueHead .readyToRun≠0
    · rw [if_pos hready]
      have hrequeue : s.requeueCurrent.irqLockCount=s.irqLockCount ∧
          s.requeueCurrent.switchLockCount=s.switchLockCount ∧
          s.requeueCurrent.current=s.current ∧ s.requeueCurrent.rest=s.rest := by
        rw [Sched.requeueCurrent]
        split_ifs <;> exact ⟨rfl,rfl,rfl,rfl⟩
      obtain ⟨hi,hw,hc,hr⟩ := hrequeue
      let next := s.requeueCurrent.queueHead .readyToRun
      have hrest : (s.requeueCurrent.switchTo .unlock next).rest s.current =
          .unlock::s.rest s.current := by
        change update s.requeueCurrent.rest s.requeueCurrent.current
          (.unlock::s.requeueCurrent.rest s.requeueCurrent.current) s.current=_
        rw [hc,hr,update_self]
      refine ⟨?_,hw,fun _ => ⟨hw.trans (Nat.eq_zero_of_not_pos hpost),?_⟩⟩
      · change s.requeueCurrent.irqLockCount+1+_=s.irqLockCount +
          due ((s.requeueCurrent.switchTo .unlock next).rest s.current)
        rw [hrest,hi,due]
        omega
      · change 0<due ((s.requeueCurrent.switchTo .unlock next).rest s.current)
        rw [hrest,due]
        exact Nat.succ_pos _
    · rw [if_neg hready] at hcpu ⊢
      by_cases hrun : s.status s.current ≠ .running
      · rw [if_pos hrun] at hcpu
        cases hcpu
      · rw [if_neg hrun]
        exact unlock_leaves hirq

private theorem resume_leaves (hirq : 0<s.irqLockCount) (hswitch : 0<s.switchLockCount)
    (hcpu : s.schedResume.cpu = .running) : Leaves 1 1 s s.schedResume := by
  rw [Sched.schedResume] at hcpu ⊢
  dsimp only at hcpu ⊢
  split_ifs at hcpu ⊢ with hflag
  · have hadvance := advance_leaves (s := { s with
      switchLockCount := s.switchLockCount-1, switchLockFlag := false }) hirq hcpu
    refine ⟨hadvance.irq,?_,hadvance.left⟩
    have hcount : _=s.switchLockCount-1 := hadvance.switch
    omega
  · have hunlock := unlock_leaves hirq
    refine ⟨hunlock.irq,?_,fun hne => (hne rfl).elim⟩
    exact Nat.sub_add_cancel hswitch

private theorem Inside.resume_leaves (h : Inside 1 1 s s') (hcpu : s'.schedResume.cpu = .running) :
    Leaves 0 0 s s'.schedResume := by
  apply h.leaves
  apply Hojicha.Mp.resume_leaves _ h.positive hcpu
  rw [h.irq]
  exact Nat.succ_pos _

theorem yield_leaves (hcpu : s.schedYield.cpu = .running) : Leaves 0 0 s s.schedYield := by
  have hlock : Inside 1 0 s s.schedLock := ⟨rfl,rfl,rfl,rfl⟩
  exact hlock.leaves (advance_leaves (Nat.succ_pos _) hcpu)

/-- `sched_resume` looks at the flag when it ends the last postponed section, so that none is left
behind. -/
def Sched.FlagOk (s : Sched) : Prop := s.switchLockFlag = true → 0 < s.switchLockCount

private theorem flagOk_advance (h : s.FlagOk) : s.advanceAndUnlock.FlagOk := by
  rw [Sched.advanceAndUnlock,Sched.scheduleAdvance]
  split_ifs with hpost
  · exact fun _ => hpost
  · intro hflag
    have hsame : s.requeueCurrent.switchLockFlag=s.switchLockFlag := by
      rw [Sched.requeueCurrent]
      split_ifs <;> rfl
    exact (hpost (h (hsame ▸ hflag))).elim
  · exact h
  · exact h

private theorem flagOk_resume (s : Sched) : s.schedResume.FlagOk := by
  rw [Sched.schedResume]
  dsimp only
  split_ifs with hlast
  · exact flagOk_advance fun hflag => by cases hflag
  · intro hflag
    exact Nat.pos_of_ne_zero fun hzero => hlast ⟨hzero,hflag⟩

/-- The requests that can switch to another process: those that sleep or end a process, those that
give up the processor, the end of a section in which a switch was asked for, and the tick at the
end of a quantum. -/
def Sched.maySwitch (s : Sched) : Op → Bool
  | .schedResume => s.switchLockCount ≤ 1 && s.switchLockFlag
  | .schedYield | .exit .. => s.switchLockCount = 0
  | .timer _ => s.switchLockCount = 0 && s.quantumRemaining ≠ 0 &&
    s.quantumRemaining ≤ s.tickInterval
  | op => s.Sleeps op

private theorem resume_current (hflag : s.switchLockCount≤1 → s.switchLockFlag=false) :
    s.schedResume.current=s.current := by
  rw [Sched.schedResume,if_neg]
  · rfl
  · rintro ⟨hlast,hasked⟩
    have hone : s.switchLockCount-1=0 := hlast
    rw [hflag (by omega)] at hasked
    cases hasked

/-- What a call does to the sections: nothing, or it enters one that it leaves in the end. It asks
for a switch only where it may switch. -/
inductive Passes (s : Sched) (op : Op) : Sched → Prop
  | around {s' : Sched} (hinside : Inside 0 0 s s')
      (hflag : s'.switchLockFlag = s.switchLockFlag) : Passes s op s'
  | through {s' : Sched} (hinside : Inside 1 1 s s')
      (hflag : s.maySwitch op = true ∨ 0 < s.switchLockCount ∨
        s'.switchLockFlag = s.switchLockFlag) : Passes s op s'.schedResume

theorem Passes.leaves (h : Passes s op s') (hcpu : s'.cpu = .running) : Leaves 0 0 s s' := by
  cases h with
  | around hinside => exact hinside.leaves_none
  | through hinside => exact hinside.resume_leaves hcpu

private theorem Passes.flagOk (h : Passes s op s') (hs : s.FlagOk) : s'.FlagOk := by
  cases h with
  | around hinside hflag =>
    rw [Sched.FlagOk,hinside.switch,hflag]
    exact hs
  | through => exact flagOk_resume _

private theorem Passes.stays (h : Passes s op s') (hs : s.FlagOk) (hno : s.maySwitch op=false) :
    s'.current=s.current := by
  cases h with
  | around hinside => exact hinside.current
  | through hinside hflag =>
    rw [resume_current]
    · exact hinside.current
    · rw [hinside.switch]
      intro hcount
      rcases hflag with hmay | hpost | hsame
      · rw [hno] at hmay
        cases hmay
      · omega
      · rw [hsame]
        exact Bool.eq_false_of_not_eq_true fun hflag => absurd (hs hflag) (by omega)

private theorem Quiet.passes (h : Quiet s.schedPostpone s') : Passes s op s'.schedResume :=
  .through ((inside_postpone s).quiet h) (inr (inr h.flag))

private theorem addProc_passes (hp : p≠s.current) : Passes s (.addProc p) (s.schedAddProc p) := by
  refine .through ⟨rfl,rfl,rfl,?_⟩ (inr (inr rfl))
  change due (update s.rest p [.prelude] s.current)=_
  rw [update_of_ne hp.symm]

private theorem fork_inside (hp : p≠s.current) (frame : InterruptFrame) :
    Inside 0 0 s (s.forkProc p frame).2 := by
  rw [Sched.forkProc]
  split
  · exact ⟨rfl,rfl,rfl,rfl⟩
  · refine ⟨rfl,rfl,rfl,?_⟩
    change due (update (update s.rest p [.prelude]) p [] s.current)=_
    rw [update_of_ne hp.symm,update_of_ne hp.symm]

private theorem fork_passes (hp : p≠s.current) (frame : InterruptFrame) :
    Passes s (.fork p frame) (s.forkProc p frame).2 := by
  refine .around (fork_inside hp frame) ?_
  rw [Sched.forkProc]
  split <;> rfl

private theorem sleep_passes (timestamp : Nat) :
    Passes s (.sleepUntil timestamp) (s.sleepProcUntil p timestamp) := by
  refine .through (Inside.advance ?_) (inl rfl)
  have hmark : Inside 1 1 s (Sched.setStatus { s.schedPostpone with
      toTables := s.schedPostpone.setSleepUntil p timestamp } p .sleepingTimer) :=
    ⟨rfl,rfl,rfl,rfl⟩
  exact hmark.quiet (quiet_insertSleeper _ timestamp p)

private theorem semaphoreLock_passes (k : Nat) :
    Passes s (.semaphoreLock k) (s.semaphoreLock k) := by
  rw [Sched.semaphoreLock]
  split_ifs with hslot
  · exact Quiet.passes ⟨rfl,rfl,rfl,rfl,rfl,rfl⟩
  · refine .through ?_ (inl (decide_eq_true hslot))
    rw [waitQueueSleep_nested (Nat.succ_pos _)]
    exact ⟨rfl,rfl,rfl,rfl⟩

private theorem semaphoreTryLock_passes (k : Nat) :
    Passes s (.semaphoreTryLock k) (s.semaphoreTryLock k).2 := by
  rw [Sched.semaphoreTryLock]
  split_ifs with hslot
  · dsimp only
    rw [semaphoreLock_nested (Nat.succ_pos _) hslot]
    exact Quiet.passes ⟨rfl,rfl,rfl,rfl,rfl,rfl⟩
  · exact (Quiet.refl _).passes

private theorem semaphoreUnlock_passes (k : Nat) :
    Passes s (.semaphoreUnlock k) (s.semaphoreUnlock k) := by
  rw [Sched.semaphoreUnlock]
  split_ifs
  · exact ((quiet_wakeHead _ _).resume (Nat.succ_pos _)).passes
  · exact Quiet.passes ⟨rfl,rfl,rfl,rfl,rfl,rfl⟩

private theorem exit_passes (p : Proc) (code : Int) :
    Passes s (.exit p code) (s.procExit p code) := by
  rw [Sched.procExit]
  split
  · exact .around ⟨rfl,rfl,rfl,rfl⟩ rfl
  · dsimp only
    split
    · exact Quiet.passes ⟨rfl,rfl,rfl,rfl,rfl,rfl⟩
    · refine .through ((inside_exitMark s p code).wakeParent p) ?_
      rcases Nat.eq_zero_or_pos s.switchLockCount with hzero | hpost
      · exact inl (decide_eq_true hzero)
      · exact inr (inl hpost)

private theorem waitpidSleep_inside (s : Sched) (pid : Int) (child : Proc) (slot : Nat) :
    ∃ s', s.schedPostpone.waitpidSleep pid child slot=s'.schedResume ∧ Inside 1 1 s s' := by
  rw [Sched.waitpidSleep]
  dsimp only
  rw [mpBlockProc_postponed (Nat.succ_pos _)]
  refine ⟨_,rfl,rfl,rfl,rfl,?_⟩
  change due (update s.rest s.current (.waitpid pid child slot::s.rest s.current)
    s.current)=_
  rw [update_self,due]

private theorem waitpid_passes (pid : Int) (options : Nat) :
    Passes s (.waitpid pid options) (s.waitpidProc pid options).2 := by
  have hmay : (s.waitpidProc pid options).1 = .done → s.maySwitch (.waitpid pid options)=true :=
    decide_eq_true
  rw [Sched.waitpidProc] at hmay ⊢
  by_cases hargs : options / 2≠0 ∨ pid=0 ∨ pid < -1
  · rw [if_pos hargs]
    exact .around ⟨rfl,rfl,rfl,rfl⟩ rfl
  · rw [if_neg hargs] at hmay ⊢
    dsimp only at hmay ⊢
    cases hfind : s.schedPostpone.waitChildFind s.schedPostpone.current pid with
    | none => exact (Quiet.refl _).passes
    | some slot =>
      rw [hfind] at hmay
      dsimp only at hmay ⊢
      split_ifs at hmay ⊢
      · exact (quiet_collect _ _ _ _).passes
      · exact (Quiet.refl _).passes
      · obtain ⟨s',heq,hinside⟩ := waitpidSleep_inside s pid _ slot
        rw [heq]
        exact .through hinside (inl (hmay rfl))

private theorem timer_passes (timestamp : Nat) :
    Passes s (.timer timestamp) (s.handleTimer timestamp) := by
  have hwake := quiet_wakeProcs s.schedPostpone timestamp
  have hsame : ∀ s' : Sched,
      (s'.wakeProcsBeforeTimestamp timestamp).quantumRemaining=s'.quantumRemaining ∧
        (s'.wakeProcsBeforeTimestamp timestamp).tickInterval=s'.tickInterval := by
    intro s'
    rw [Sched.wakeProcsBeforeTimestamp]
    split_ifs <;> exact ⟨rfl,rfl⟩
  obtain ⟨hquantum,htick⟩ := hsame s.schedPostpone
  rw [Sched.handleTimer]
  split_ifs with hrun hend
  · refine .through ((inside_postpone s).quiet hwake).advance ?_
    rw [hquantum] at hrun hend
    rw [htick] at hend
    have hrun' : s.quantumRemaining≠0 := hrun
    have hend' : s.quantumRemaining ≤ s.tickInterval := hend
    rcases Nat.eq_zero_or_pos s.switchLockCount with hzero | hpost
    · exact inl (by simp [Sched.maySwitch,hzero,hrun',hend'])
    · exact inr (inl hpost)
  · exact Quiet.passes (hwake.trans ⟨rfl,rfl,rfl,rfl,rfl,rfl⟩)
  · exact hwake.passes

theorem waitpidEnd_passes {child : Proc} :
    Passes s .finish (s.waitpidEnd pid child slot).2 := by
  rw [Sched.waitpidEnd]
  dsimp only
  split
  · exact (Quiet.refl _).passes
  · exact (quiet_collect _ _ _ _).passes

theorem finish_cases (s : Sched) :
    (∃ pid child slot, s.finish.2=(s.dropRest.waitpidEnd pid child slot).2) ∨
      s.finish.2.switchLockCount=s.switchLockCount ∧
        s.finish.2.switchLockFlag=s.switchLockFlag ∧ s.finish.2.current=s.current := by
  rw [Sched.finish]
  split
  · exact inr ⟨rfl,rfl,rfl⟩
  · exact inr ⟨rfl,rfl,rfl⟩
  · dsimp only
    rw [Sched.procPrelude]
    split_ifs <;> exact inr ⟨rfl,rfl,rfl⟩
  · exact inl ⟨_,_,_,rfl⟩

private theorem finish_leaves (hdue : due (s.rest s.current) ≤ s.irqLockCount)
    (hnew : .prelude∈s.rest s.current → s.status s.current = .uninitialized)
    (hcpu : s.finish.2.cpu = .running) : Leaves 0 0 s s.finish.2 := by
  have hdrop : s.dropRest.rest s.current=(s.rest s.current).tail := update_self _ _ _
  rw [Sched.finish] at hcpu ⊢
  cases hrest : s.rest s.current with
  | nil => exact Inside.leaves_none ⟨rfl,rfl,rfl,rfl⟩
  | cons r rs =>
    rw [hrest] at hdue hnew hcpu hdrop
    have htail : s.dropRest.rest s.current=rs := hdrop
    cases r with
    | unlock =>
      rw [due] at hdue
      refine ⟨?_,rfl,fun hne => (hne rfl).elim⟩
      change s.irqLockCount-1+0+_=_+due (s.dropRest.rest s.current)
      rw [htail,hrest,due]
      omega
    | prelude =>
      have hun : s.dropRest.status s.dropRest.current = .uninitialized := hnew List.mem_cons_self
      rw [due] at hdue
      dsimp only
      rw [Sched.procPrelude,if_pos hun]
      refine ⟨?_,rfl,fun hne => (hne rfl).elim⟩
      change s.irqLockCount-1+0+_=_+due (s.dropRest.rest s.current)
      rw [htail,hrest,due]
      omega
    | waitpid pid child slot =>
      have hinside : Inside 0 0 s s.dropRest := by
        refine ⟨rfl,rfl,rfl,?_⟩
        rw [htail,hrest,due]
      exact hinside.leaves (waitpidEnd_passes.leaves hcpu)

def Op.IsSection (op : Op) : Prop :=
  op = .schedLock ∨ op = .schedUnlock ∨ op = .schedPostpone ∨ op = .schedResume

/-- The request is to make a process at `q`. -/
def Op.Creates : Op → Proc → Prop
  | .addProc p, q | .fork p _, q => p = q
  | _, _ => False

/-- The calls other than `sched_yield` and those that end a call that slept. -/
theorem call_passes (hsection : ¬ op.IsSection) (hyield : op ≠ .schedYield)
    (hfinish : op ≠ .finish) (hfresh : ∀ q, op.Creates q → q≠s.current) :
    Passes s op (s.call op).2 := by
  cases op with
  | schedLock => exact (hsection (inl rfl)).elim
  | schedUnlock => exact (hsection (inr (inl rfl))).elim
  | schedPostpone => exact (hsection (inr (inr (inl rfl)))).elim
  | schedResume => exact (hsection (inr (inr (inr rfl)))).elim
  | schedYield => exact (hyield rfl).elim
  | addProc q => exact addProc_passes (hfresh q rfl)
  | fork c frame => exact fork_passes (hfresh c rfl) frame
  | sleepUntil t => exact sleep_passes t
  | waitSleep k n =>
    rw [Sched.call,inSections_waitQueueSleep]
    refine .through (Inside.block ?_ _ _) (inl rfl)
    exact ⟨rfl,rfl,rfl,rfl⟩
  | wakeOne k => exact (quiet_wakeHead _ _).passes
  | wakeAll k => exact (quiet_wakeAll s _).passes
  | semaphoreLock k => exact semaphoreLock_passes k
  | semaphoreTryLock k => exact semaphoreTryLock_passes k
  | semaphoreUnlock k => exact semaphoreUnlock_passes k
  | exit q code => exact exit_passes q code
  | waitpid pid options => exact waitpid_passes pid options
  | reap => exact (quiet_reap s).passes
  | timer t => exact timer_passes t
  | finish => exact (hfinish rfl).elim

/-- All other calls leave the sections they enter, or have what is left of them due. -/
private theorem call_leaves (hsection : ¬ op.IsSection) (hfresh : ∀ q, op.Creates q → q≠s.current)
    (hdue : due (s.rest s.current) ≤ s.irqLockCount)
    (hnew : .prelude∈s.rest s.current → s.status s.current = .uninitialized)
    (hcpu : (s.call op).2.cpu = .running) : Leaves 0 0 s (s.call op).2 := by
  by_cases hyield : op = .schedYield
  · subst hyield
    exact yield_leaves hcpu
  by_cases hfinish : op = .finish
  · subst hfinish
    exact finish_leaves hdue hnew hcpu
  exact (call_passes hsection hyield hfinish hfresh).leaves hcpu

private theorem flagOk_call (h : s.FlagOk) (hfresh : ∀ q, op.Creates q → q≠s.current) :
    (s.call op).2.FlagOk := by
  by_cases hsection : op.IsSection
  · rcases hsection with rfl | rfl | rfl | rfl
    · exact h
    · exact h
    · exact fun _ => Nat.succ_pos _
    · exact flagOk_resume s
  by_cases hyield : op = .schedYield
  · subst hyield
    exact flagOk_advance (s := s.schedLock) h
  by_cases hfinish : op = .finish
  · subst hfinish
    rcases finish_cases s with ⟨pid,child,slot,heq⟩ | ⟨hcount,hflag,-⟩
    · exact heq ▸ waitpidEnd_passes.flagOk (s := s.dropRest) h
    · change s.finish.2.switchLockFlag=true → 0<s.finish.2.switchLockCount
      rw [hcount,hflag]
      exact h
  exact (call_passes hsection hyield hfinish hfresh).flagOk h

/-- No other request switches. -/
private theorem call_stays (h : s.FlagOk) (hfresh : ∀ q, op.Creates q → q≠s.current)
    (hno : s.maySwitch op=false) : (s.call op).2.current=s.current := by
  by_cases hsection : op.IsSection
  · rcases hsection with rfl | rfl | rfl | rfl
    · rfl
    · rfl
    · rfl
    · apply resume_current
      intro hcount
      simpa [Sched.maySwitch,hcount] using hno
  by_cases hyield : op = .schedYield
  · subst hyield
    change s.schedLock.advanceAndUnlock.current=_
    rw [lockAdvance_postponed (Nat.pos_of_ne_zero (of_decide_eq_false hno))]
  by_cases hfinish : op = .finish
  · subst hfinish
    rcases finish_cases s with ⟨pid,child,slot,heq⟩ | ⟨-,-,hcurrent⟩
    · exact heq ▸ waitpidEnd_passes.stays (s := s.dropRest) h rfl
    · exact hcurrent
  exact (call_passes hsection hyield hfinish hfresh).stays h hno

/-- Until its prelude is done a process is uninitialized, unless it is ended first. -/
def Unstarted (b : Board) : Prop :=
  ∀ q, b.allocated q = true → .prelude ∈ b.rest q →
    b.status q = .uninitialized ∨ b.status q = .readyToDie

private theorem collect_rest {c : Proc} : (b.collect q c slot).2.rest=b.rest := by
  rw [Board.collect]
  split_ifs
  · rfl
  · exact (sameBut_procFree _ c).rest

theorem dropRest_sublist (b : Board) (q : Proc) : (b.dropRest.rest q).Sublist (b.rest q) := by
  change (update b.rest b.current _ q).Sublist _
  by_cases hq : q=b.current
  · rw [hq,update_self]
    exact List.tail_sublist _
  · rw [update_of_ne hq]

/-- A process that is there afterwards was there before and has the same left to do. The current
one has not got more decrements to make or its prelude back. -/
structure Older (b b' : Board) (q : Proc) : Prop where
  current : b'.current = b.current
  allocated : b'.allocated q = true → b.allocated q = true
  rest : b'.rest q = b.rest q ∨ q = b.current ∧ due (b'.rest q) ≤ due (b.rest q) ∧
    (.prelude ∈ b'.rest q → .prelude ∈ b.rest q)

private theorem older_of_eq {b' : Board} (hcurrent : b'.current=b.current)
    (halloc : b'.allocated q=b.allocated q) (hrest : b'.rest q=b.rest q) : Older b b' q :=
  ⟨hcurrent,halloc.symm.trans,inl hrest⟩

theorem collect_allocated_mono {c : Proc}
    (hp : (b.collect q c slot).2.allocated p=true) : b.allocated p=true := by
  rw [Board.collect] at hp
  split_ifs at hp
  · exact hp
  · change (Tables.procFree _ c).allocated p=true at hp
    rw [procFree_allocated] at hp
    by_cases hpc : p=c
    · rw [hpc,update_self] at hp
      cases hp
    · rwa [update_of_ne hpc] at hp

private theorem older_collect {c : Proc} : Older b (b.collect p c slot).2 q := by
  refine ⟨?_,collect_allocated_mono,inl (congrFun collect_rest q)⟩
  rw [Board.collect]
  split_ifs
  · rfl
  · exact (sameBut_procFree _ c).current

private theorem due_tail_le (rs : List Rest) : due rs.tail≤due rs := by
  cases rs with
  | nil => exact le_refl _
  | cons r rs =>
    cases r with
    | waitpid => exact le_refl _
    | _ => exact Nat.le_succ _

private theorem older_dropRest : Older b { b with toTables := b.dropRest } q := by
  refine ⟨rfl,id,?_⟩
  change update b.rest b.current _ q=_ ∨ _
  by_cases hq : q=b.current
  · refine inr ⟨hq,?_⟩
    change due (update b.rest b.current _ q)≤_ ∧ (_∈update b.rest b.current _ q → _)
    rw [hq,update_self]
    exact ⟨due_tail_le _,List.mem_of_mem_tail⟩
  · exact inl (update_of_ne hq _ _)

private theorem older_finish : Older b b.finish.2 q := by
  have hdrop := older_dropRest (b := b) (q := q)
  rw [Board.finish]
  split
  · exact older_of_eq rfl rfl rfl
  · exact hdrop
  · dsimp only
    split_ifs
    · exact ⟨hdrop.current,hdrop.allocated,hdrop.rest⟩
    · exact hdrop
  · rw [Board.waitpidEnd]
    split
    · exact hdrop
    · next child slot _ =>
      have hcollect : Older { b with toTables := b.dropRest } (Board.collect
          { b with toTables := b.dropRest } b.current child slot).2 q := older_collect
      refine ⟨hcollect.current,hdrop.allocated ∘ hcollect.allocated,?_⟩
      rw [collect_rest]
      exact hdrop.rest

private theorem older_waitFor (pid : Int) (child : Proc) :
    Older b (b.waitFor pid child slot) q := by
  refine ⟨rfl,id,?_⟩
  change update b.rest b.current _ q=_ ∨ _
  by_cases hq : q=b.current
  · refine inr ⟨hq,?_⟩
    change due (update b.rest b.current _ q)≤_ ∧ (_∈update b.rest b.current _ q → _)
    rw [hq,update_self]
    exact ⟨le_refl _,by simp⟩
  · exact inl (update_of_ne hq _ _)

private theorem Runs.effect_older (h : Runs task s b) (hnew : ¬ op.Creates q) :
    Older b (b.effect op).2 q := by
  cases op with
  | addProc p =>
    have hqp : q≠p := Ne.symm hnew
    exact older_of_eq rfl (update_of_ne hqp _ _) (update_of_ne hqp _ _)
  | fork c frame =>
    have hqc : q≠c := Ne.symm hnew
    change Older b (b.fork c frame).2 q
    rw [Board.fork]
    split
    · exact older_of_eq rfl rfl rfl
    · refine older_of_eq rfl (update_of_ne hqc _ _) ?_
      change update (update b.rest c _) c _ q=_
      rw [update_of_ne hqc,update_of_ne hqc]
  | semaphoreLock k =>
    change Older b (ite _ _ _) q
    split_ifs <;> exact older_of_eq rfl rfl rfl
  | semaphoreTryLock k =>
    rw [Board.effect]
    split_ifs <;> exact older_of_eq rfl rfl rfl
  | semaphoreUnlock k =>
    change Older b (ite _ _ _) q
    split_ifs <;> exact older_of_eq rfl rfl rfl
  | exit p code =>
    change Older b (b.exit p code) q
    rw [Board.exit]
    split_ifs
    · exact older_of_eq rfl rfl rfl
    · rw [Board.wakeParent]
      split_ifs <;> exact older_of_eq rfl rfl rfl
  | waitpid pid options =>
    change Older b (b.waitpid pid options).2 q
    rcases waitpid_cases b pid options with ⟨ret,-,heq⟩ | ⟨slot,-,-,heq⟩ |
      ⟨slot,-,-,-,heq⟩
    · rw [heq]
      exact older_of_eq rfl rfl rfl
    · rw [heq]
      exact older_collect
    · rw [heq]
      exact older_waitFor _ _
  | reap =>
    have hsame := reap_same h.tracks.apart
    exact ⟨hsame.current,allocated_of_reap h.tracks.apart,inl (congrFun hsame.rest q)⟩
  | finish => exact older_finish
  | _ => exact older_of_eq rfl rfl rfl

private theorem fork_rest (frame : InterruptFrame) (hnew : b.allocated q=false)
    (hq : (b.fork q frame).2.allocated q=true) : (b.fork q frame).2.rest q=[] := by
  rw [Board.fork] at hq ⊢
  cases hslot : b.forkSlot q frame with
  | error e =>
    rw [hslot,hnew] at hq
    cases hq
  | ok slot => exact update_self _ _ _

private theorem Runs.effect_unstarted (h : Runs task s b) (hallowed : s.Allowed task op)
    (haccept : s.accepts op=true) (hinv : Unstarted b) : Unstarted (b.effect op).2 := by
  have halloc := h.tracks.allocated
  intro q hq hmem
  by_cases hnew : op.Creates q
  · cases op with
    | addProc p =>
      cases hnew
      exact inl (update_self _ _ _)
    | fork c frame =>
      cases hnew
      have hnone := fork_rest frame (halloc ▸ hallowed.fork q frame rfl) hq
      change _∈(b.fork q frame).2.rest q at hmem
      rw [hnone] at hmem
      cases hmem
    | _ => exact hnew.elim
  · have holder := h.effect_older hnew
    have hold := holder.allocated hq
    have hbefore : .prelude∈b.rest q := by
      rcases holder.rest with heq | ⟨-,-,hback⟩
      · rwa [heq] at hmem
      · exact hback hmem
    have hst := hinv q hold hbefore
    rcases h.effect_status hallowed hold with hsame | rfl | ⟨hwait,-⟩ | hdead
    · rw [hsame]
      exact hst
    · -- the current process has not started: all it can do is its prelude
      have hun := hst.resolve_right h.alive
      have hfinish : op = .finish := by
        by_contra hne
        rw [h.accepted haccept hne] at hun
        cases hun
      subst hfinish
      change _∈b.finish.2.rest b.current at hmem
      rw [Board.finish,h.tracks.ok.fresh _ h.tracks.ok.live hun] at hmem
      dsimp only at hmem
      rw [if_pos hun] at hmem
      change _∈update b.rest b.current (b.rest b.current).tail b.current at hmem
      rw [update_self,h.tracks.ok.fresh _ h.tracks.ok.live hun] at hmem
      cases hmem
    · rcases hst with hst | hst <;> rw [hst] at hwait <;> simp at hwait
    · exact inr hdead

/-- A switch leaves the process it leaves one decrement to make. -/
private theorem dispatch_rest (b : Board) (q : Proc) :
    b.dispatch.rest q=b.rest q ∨ q=b.current ∧ b.dispatch.rest q = .unlock::b.rest q := by
  have hpush : update b.rest b.current (.unlock::b.rest b.current) q=b.rest q ∨
      q=b.current ∧ update b.rest b.current (.unlock::b.rest b.current) q = .unlock::b.rest q := by
    by_cases hq : q=b.current
    · rw [hq,update_self]
      exact inr ⟨rfl,rfl⟩
    · exact inl (update_of_ne hq _ _)
  rw [Board.dispatch]
  split
  · exact inl rfl
  · split_ifs <;> exact hpush

theorem mem_rest_of_dispatch {r : Rest} (hr : r ≠ .unlock) (hmem : r∈b.dispatch.rest q) :
    r∈b.rest q := by
  rcases dispatch_rest b q with heq | ⟨-,heq⟩
  · rwa [heq] at hmem
  · rw [heq] at hmem
    exact List.mem_of_ne_of_mem hr hmem

private theorem dispatch_allocated (b : Board) : b.dispatch.allocated=b.allocated := by
  rw [Board.dispatch]
  split
  · rfl
  · split_ifs <;> rfl

private theorem dispatch_unstarted (hok : BoardOk b) (hinv : Unstarted b) :
    Unstarted b.dispatch := by
  intro q hq hmem
  rw [dispatch_allocated] at hq
  have hst := hinv q hq (mem_rest_of_dispatch (by simp) hmem)
  rcases dispatch_status hok q with hsame | ⟨hrun,-⟩ | ⟨hready,-⟩
  · rw [hsame]
    exact hst
  · rw [hrun] at hst
    simp at hst
  · rw [hready] at hst
    simp at hst

private theorem settled_unstarted {b' : Board} (hok : BoardOk b) (hinv : Unstarted b)
    (hb' : b'=b ∨ b'=b.dispatch) : Unstarted b' := by
  rcases hb' with rfl | rfl
  · exact hinv
  · exact dispatch_unstarted hok hinv

/-- The ready queue in which the request looks for the next process: without the process that it
ends, and with those that it wakes or can wake. -/
def Sched.line (s : Sched) : Op → List Proc
  | .exit p _ =>
    let others i := (s.links.toList s.totalProcessesAdded i).erase p
    others .readyToRun ++ others (.waiting (.exitWaiters p)) ++
      others (.waiting (.childWaiters (s.parent p)))
  | .timer _ => s.ready ++ s.links.toList s.totalProcessesAdded .sleeping
  | _ => s.ready

private theorem exit_line (hok : BoardOk b) (code : Int) :
    (b.exit p code).lists .readyToRun <+: (b.lists .readyToRun).erase p ++
      (b.lists (.waiting (.exitWaiters p))).erase p ++
      (b.lists (.waiting (.childWaiters (b.parent p)))).erase p := by
  rw [Board.exit]
  split_ifs with hdead
  · have hp : p∉b.lists .readyToRun := by
      intro hp
      obtain ⟨halloc,hfits⟩ := hok.queued _ _ hp
      rcases hdead with rfl | hdead
      · rw [hok.null] at halloc
        cases halloc
      · rw [hdead] at hfits
        simp [QueueId.Fits] at hfits
    rw [List.erase_of_not_mem hp,List.append_assoc]
    exact List.prefix_append _ _
  · rw [Board.wakeParent]
    split_ifs
    · exact List.prefix_refl _
    · rw [List.append_assoc]
      exact List.prefix_append _ _

private theorem Tracks.effect_line (h : Tracks s b) (hmay : s.maySwitch op=true) :
    (b.effect op).2.lists .readyToRun <+: s.line op := by
  have hqueue : ∀ i, s.links.toList s.totalProcessesAdded i=b.lists i :=
    fun i => h.links.toList_eq (h.fuel i)
  have hready : b.lists .readyToRun <+: s.ready := by rw [h.ready]
  cases op with
  | semaphoreLock k =>
    change (ite _ _ _ : Board).lists .readyToRun <+: s.ready
    split_ifs <;> exact hready
  | exit p code =>
    have hparent : s.parent p=b.parent p := by rw [h.tables]
    rw [Sched.line]
    simp only [hqueue,hparent]
    exact exit_line h.ok code
  | waitpid pid options =>
    change (b.waitpid pid options).2.lists .readyToRun <+: s.ready
    rcases waitpid_cases b pid options with ⟨ret,-,heq⟩ | ⟨slot,-,-,heq⟩ | ⟨slot,-,-,-,heq⟩
    · rw [heq]
      exact hready
    · rw [heq,Board.collect]
      split_ifs <;> exact hready
    · rw [heq]
      exact hready
  | timer t =>
    rw [Sched.line,h.ready,hqueue]
    exact (List.prefix_append_right_inj _).mpr (List.takeWhile_prefix _)
  | schedResume => exact hready
  | schedYield => exact hready
  | sleepUntil t => exact hready
  | waitSleep k n => exact hready
  | _ => cases hmay

private theorem not_creates (hmay : s.maySwitch op=true) : ¬ op.Creates q := by
  cases op with
  | addProc p => cases hmay
  | fork c frame => cases hmay
  | _ => exact id

/-- A switch takes up the first process of the line, which has as much left to do as before. The
process that is left gets one decrement to make. -/
private theorem Runs.switched {b' : Board} (h : Runs task s b) (hmay : s.maySwitch op=true)
    (hb' : b'=(b.effect op).2 ∨ b'=(b.effect op).2.dispatch) (hne : b'.current≠b.current) :
    b'.current∈(s.line op).head? ∧ b'.rest b'.current=b.rest b'.current ∧
      due (b'.rest b.current)≤due (b.rest b.current)+1 := by
  have holder : ∀ q, Older b (b.effect op).2 q := fun q => h.effect_older (not_creates hmay)
  have hcurrent := (holder b.current).current
  rcases hb' with rfl | rfl
  · exact (hne hcurrent).elim
  cases hready : (b.effect op).2.lists .readyToRun with
  | nil =>
    rw [Board.dispatch,hready] at hne
    exact (hne hcurrent).elim
  | cons next ready =>
    have hline := h.tracks.effect_line hmay
    rw [hready] at hline
    obtain ⟨more,hmore⟩ := hline
    have hnext := (dispatch_first hready).1
    rw [hnext] at hne ⊢
    refine ⟨by rw [← hmore]; rfl,?_,?_⟩
    · rcases dispatch_rest (b.effect op).2 next with heq | ⟨hleft,-⟩
      · rw [heq]
        exact (holder next).rest.resolve_right fun hold => hne hold.1
      · exact (hne (hleft.trans hcurrent)).elim
    · have hdue : due ((b.effect op).2.rest b.current)≤due (b.rest b.current) := by
        rcases (holder b.current).rest with heq | ⟨-,hle,-⟩
        · rw [heq]
        · exact hle
      rcases dispatch_rest (b.effect op).2 b.current with heq | ⟨-,heq⟩
      · rw [heq]
        omega
      · rw [heq,due]
        omega

/-- The scheduler, and beside it the sections that each process has entered itself. -/
structure LockRun where
  sched : Sched
  locks : Proc → Nat
  postpones : Proc → Nat

namespace LockRun

variable (r : LockRun)

/-- What the calls say about the sections of their caller. A new process is in none. -/
def note : Op → LockRun
  | .schedLock =>
    { r with locks := update r.locks r.sched.current (r.locks r.sched.current + 1) }
  | .schedUnlock =>
    { r with locks := update r.locks r.sched.current (r.locks r.sched.current - 1) }
  | .schedPostpone =>
    { r with
      postpones := update r.postpones r.sched.current (r.postpones r.sched.current + 1) }
  | .schedResume =>
    { r with
      postpones := update r.postpones r.sched.current (r.postpones r.sched.current - 1) }
  | .addProc p | .fork p _ =>
    { r with locks := update r.locks p 0, postpones := update r.postpones p 0 }
  | _ => r

def perform (op : Op) : Reply × LockRun :=
  let (reply, s) := r.sched.perform op
  (reply, { (if r.sched.cpu = .running ∧ r.sched.accepts op = true then r.note op else r) with
    sched := s })

/-- The decrements of `irq_lock_count` that a process will make until it is outside of everything. -/
def depth (p : Proc) : Nat := r.locks p + r.postpones p + due (r.sched.rest p)

def Counts : Prop :=
  r.sched.irqLockCount = r.depth r.sched.current ∧
    r.sched.switchLockCount = r.postpones r.sched.current

/-- Before a request that can switch, the caller is in no lock section and has no decrement left to
make, and the process that the switch would find first in the ready queue has one. -/
def Balanced (op : Op) : Prop :=
  r.sched.maySwitch op = true →
    r.locks r.sched.current + due (r.sched.rest r.sched.current) = 0 ∧
      ∀ q ∈ (r.sched.line op).head?, r.locks q + due (r.sched.rest q) = 1

instance (op : Op) : Decidable (r.Balanced op) :=
  inferInstanceAs (Decidable (_ → _ ∧ ∀ q ∈ (r.sched.line op).head?, _))

/-- If another process is switched to, it is as deep as the one that is left. -/
def EvenSwitch (op : Op) : Prop :=
  (r.perform op).2.sched.current ≠ r.sched.current →
    (r.perform op).2.depth r.sched.current = (r.perform op).2.depth (r.perform op).2.sched.current

def Outside : Prop :=
  r.sched.rest r.sched.current = [] ∧ r.locks r.sched.current = 0 ∧
    r.postpones r.sched.current = 0

end LockRun

/-- Sections are left only by those who have entered them. -/
structure LockRun.Allowed (task : Proc) (r : LockRun) (op : Op) : Prop where
  sched : r.sched.Allowed task op
  unlock : op = .schedUnlock → 0 < r.locks r.sched.current
  resume : op = .schedResume → 0 < r.postpones r.sched.current

instance (task : Proc) (r : LockRun) (op : Op) : Decidable (r.Allowed task op) :=
  decidable_of_iff (r.sched.Allowed task op ∧ (op = .schedUnlock → 0 < r.locks r.sched.current) ∧
    (op = .schedResume → 0 < r.postpones r.sched.current))
    ⟨fun h => ⟨h.1, h.2.1, h.2.2⟩, fun h => ⟨h.sched, h.unlock, h.resume⟩⟩

structure LockRun.Ok (task : Proc) (r : LockRun) (b : Board) : Prop where
  runs : Runs task r.sched b
  unstarted : Unstarted b
  counts : r.Counts
  others : ∀ q, q ≠ r.sched.current → r.postpones q = 0
  flag : r.sched.FlagOk

section Step

variable {r : LockRun}

private theorem perform_taken (hcpu : r.sched.cpu = .running) (haccept : r.sched.accepts op=true) :
    (r.perform op).2 = { r.note op with sched := (r.sched.call op).2 } := by
  rw [LockRun.perform]
  dsimp only
  rw [if_pos ⟨hcpu,haccept⟩,perform_call hcpu haccept]

private theorem note_current (hsection : ¬ op.IsSection)
    (hfresh : ∀ q, op.Creates q → q≠r.sched.current) :
    (r.note op).locks r.sched.current=r.locks r.sched.current ∧
      (r.note op).postpones r.sched.current=r.postpones r.sched.current := by
  cases op with
  | schedLock => exact (hsection (inl rfl)).elim
  | schedUnlock => exact (hsection (inr (inl rfl))).elim
  | schedPostpone => exact (hsection (inr (inr (inl rfl)))).elim
  | schedResume => exact (hsection (inr (inr (inr rfl)))).elim
  | addProc q =>
    have hq := (hfresh q rfl).symm
    exact ⟨update_of_ne hq _ _,update_of_ne hq _ _⟩
  | fork q frame =>
    have hq := (hfresh q rfl).symm
    exact ⟨update_of_ne hq _ _,update_of_ne hq _ _⟩
  | _ => exact ⟨rfl,rfl⟩

theorem Runs.fresh (h : Runs task s b) (hallowed : s.Allowed task op) (q : Proc)
    (hq : op.Creates q) : q≠s.current := by
  have hlive : s.allocated s.current=true := by
    rw [h.tracks.tables]
    exact h.tracks.ok.live
  have hnew : s.allocated q=false := by
    cases op with
    | addProc p =>
      cases hq
      exact (hallowed.add q rfl).1
    | fork c frame =>
      cases hq
      exact hallowed.fork q frame rfl
    | _ => exact hq.elim
  rintro rfl
  rw [hlive] at hnew
  cases hnew

/-- The counters are those of the process `p`, which is in no postponed section, and has a
decrement left to do, if it has been switched away from. -/
structure LockRun.CountsFor (r : LockRun) (p : Proc) : Prop where
  irq : r.sched.irqLockCount = r.depth p
  switch : r.sched.switchLockCount = r.postpones p
  left : r.sched.current ≠ p → r.postpones p = 0 ∧ 0 < due (r.sched.rest p)

private theorem Leaves.countsFor {s' : Sched} {r' : LockRun} (hleaves : Leaves n m r.sched s')
    (hsched : r'.sched=s') (hcounts : r.Counts)
    (hdepth : r'.locks r.sched.current + r'.postpones r.sched.current + n =
      r.locks r.sched.current + r.postpones r.sched.current)
    (hpostpones : r'.postpones r.sched.current + m=r.postpones r.sched.current) :
    r'.CountsFor r.sched.current := by
  obtain ⟨hirq,hswitch⟩ := hcounts
  rw [LockRun.depth] at hirq
  have hirq' := hleaves.irq
  have hswitch' := hleaves.switch
  have hpost : s'.switchLockCount=r'.postpones r.sched.current := by omega
  constructor
  · rw [LockRun.depth,hsched]
    omega
  · rw [hsched]
    exact hpost
  · rw [hsched,← hpost]
    exact hleaves.left

/-- The counters after a call are those of its caller, whether it still runs or not. -/
private theorem LockRun.Ok.call (h : LockRun.Ok task r b) (hallowed : r.Allowed task op)
    (hcpu : (r.sched.call op).2.cpu = .running) :
    LockRun.CountsFor { r.note op with sched := (r.sched.call op).2 } r.sched.current := by
  obtain ⟨hirq,hswitch⟩ := h.counts
  rw [LockRun.depth] at hirq
  have hentered : ∀ f : Proc → Nat, ∀ n, update f r.sched.current n r.sched.current=n :=
    fun f n => update_self _ _ _
  by_cases hsection : op.IsSection
  · rcases hsection with rfl | rfl | rfl | rfl
    · refine ⟨?_,hswitch,fun hne => (hne rfl).elim⟩
      change r.sched.irqLockCount+1=update r.locks _ _ _ +
        r.postpones r.sched.current+due (r.sched.rest r.sched.current)
      rw [hentered,hirq]
      omega
    · have hpos := hallowed.unlock rfl
      refine (unlock_leaves (by omega)).countsFor rfl h.counts ?_ rfl
      change update r.locks _ _ _+r.postpones r.sched.current+1=_
      rw [hentered]
      omega
    · refine ⟨?_,?_,fun hne => (hne rfl).elim⟩
      · change r.sched.irqLockCount+1=r.locks r.sched.current +
          update r.postpones _ _ _+due (r.sched.rest r.sched.current)
        rw [hentered,hirq]
        omega
      · change r.sched.switchLockCount+1=update r.postpones _ _ _
        rw [hentered,hswitch]
    · have hpos := hallowed.resume rfl
      refine (resume_leaves (by omega) (by omega) hcpu).countsFor rfl h.counts ?_ ?_
      · change r.locks r.sched.current+update r.postpones _ _ _+1=_
        rw [hentered]
        omega
      · change update r.postpones _ _ _+1=_
        rw [hentered]
        omega
  · have hfresh := h.runs.fresh hallowed.sched
    have hnote := note_current hsection hfresh
    have hnew : .prelude∈r.sched.rest r.sched.current →
        r.sched.status r.sched.current = .uninitialized := by
      rw [h.runs.tracks.tables]
      intro hmem
      exact (h.unstarted _ h.runs.tracks.ok.live hmem).resolve_right h.runs.alive
    have hleaves := call_leaves hsection hfresh (by omega) hnew hcpu
    refine hleaves.countsFor rfl h.counts ?_ hnote.2
    change (r.note op).locks _+(r.note op).postpones _+0=_
    rw [hnote.1,hnote.2]
    rfl

/-- Nobody but the current process is in a postponed section. -/
private theorem LockRun.Ok.note_others (h : LockRun.Ok task r b) (hq : q≠r.sched.current) :
    (r.note op).postpones q=0 := by
  have hnone := h.others q hq
  cases op with
  | schedPostpone =>
    change update r.postpones _ _ q=0
    rw [update_of_ne hq]
    exact hnone
  | schedResume =>
    change update r.postpones _ _ q=0
    rw [update_of_ne hq]
    exact hnone
  | addProc p =>
    change update r.postpones p 0 q=0
    by_cases hqp : q=p
    · rw [hqp,update_self]
    · rw [update_of_ne hqp]
      exact hnone
  | fork p frame =>
    change update r.postpones p 0 q=0
    by_cases hqp : q=p
    · rw [hqp,update_self]
    · rw [update_of_ne hqp]
      exact hnone
  | _ => exact hnone

structure LockRun.After (task : Proc) (p : Proc) (r : LockRun) : Prop where
  board : ∃ b, Runs task r.sched b ∧ Unstarted b
  counts : r.CountsFor p
  others : ∀ q, q ≠ p → r.postpones q = 0
  flag : r.sched.FlagOk

private theorem LockRun.Ok.perform (h : LockRun.Ok task r b) (hallowed : r.Allowed task op) :
    LockRun.After task r.sched.current (r.perform op).2 := by
  rcases h.runs.perform hallowed.sched with ⟨haccept,-,hok,b',hruns,hb'⟩ | ⟨hreject,hstay⟩
  · have hinv := h.runs.effect_unstarted hallowed.sched haccept h.unstarted
    rw [perform_call h.runs.cpu haccept] at hruns
    rw [perform_taken h.runs.cpu haccept]
    exact ⟨⟨b',hruns,settled_unstarted hok hinv hb'⟩,h.call hallowed hruns.cpu,
      fun q hq => h.note_others hq,flagOk_call h.flag (h.runs.fresh hallowed.sched)⟩
  · have hsame : (r.perform op).2=r := by
      rw [LockRun.perform]
      dsimp only
      rw [if_neg fun hc => hreject hc.2,hstay]
    rw [hsame]
    exact ⟨⟨b,h.runs,h.unstarted⟩,⟨h.counts.1,h.counts.2,fun hne => (hne rfl).elim⟩,h.others,
      h.flag⟩

private theorem note_locks (hmay : r.sched.maySwitch op=true) : (r.note op).locks=r.locks := by
  cases op with
  | schedLock => cases hmay
  | schedUnlock => cases hmay
  | addProc p => cases hmay
  | fork c frame => cases hmay
  | _ => rfl

private theorem LockRun.Ok.evenSwitch (h : LockRun.Ok task r b) (hallowed : r.Allowed task op)
    (hbalanced : r.Balanced op) : r.EvenSwitch op := by
  intro hne
  have hafter := h.perform hallowed
  rcases h.runs.perform hallowed.sched with ⟨haccept,-,-,b',hruns,hb'⟩ | ⟨-,hstay⟩
  · have hmay : r.sched.maySwitch op=true := by
      by_contra hno
      apply hne
      change (r.sched.perform op).2.current=_
      rw [perform_call h.runs.cpu haccept]
      exact call_stays h.flag (h.runs.fresh hallowed.sched) (Bool.eq_false_of_not_eq_true hno)
    obtain ⟨hcaller,hnext⟩ := hbalanced hmay
    obtain ⟨hpostpones,howes⟩ := hafter.counts.left hne
    have hothers := hafter.others _ hne
    have hlocks : (r.perform op).2.locks=r.locks := by
      rw [perform_taken h.runs.cpu haccept]
      exact note_locks hmay
    have hcurrent : b'.current=(r.perform op).2.sched.current := hruns.tracks.current.symm
    have hrest : (r.perform op).2.sched.rest=b'.rest := congrArg Tables.rest hruns.tracks.tables
    have hbefore : r.sched.rest=b.rest := congrArg Tables.rest h.runs.tracks.tables
    have hp := h.runs.tracks.current
    obtain ⟨hfirst,hsame,hdue⟩ := h.runs.switched hmay hb' (by rw [hcurrent,← hp]; exact hne)
    have hone := hnext _ hfirst
    rw [hcurrent] at hone hsame
    rw [← hp] at hdue
    rw [LockRun.depth,LockRun.depth,hlocks,hpostpones,hothers]
    rw [hrest] at howes ⊢
    rw [hbefore] at hcaller hone
    rw [hsame]
    omega
  · exact (hne (congrArg (fun result => result.2.current) hstay)).elim

private theorem LockRun.After.counts_iff (h : LockRun.After task p r) :
    r.Counts ↔ (r.sched.current≠p → r.depth p=r.depth r.sched.current) := by
  have hirq := h.counts.irq
  have hswitch := h.counts.switch
  by_cases hp : r.sched.current=p
  · constructor
    · intro _ hne
      exact (hne hp).elim
    · intro _
      rw [LockRun.Counts,hp]
      exact ⟨hirq,hswitch⟩
  · have hzero := (h.counts.left hp).1
    have hnext := h.others _ hp
    constructor
    · intro hcounts _
      rw [← hirq]
      exact hcounts.1
    · intro hbalance
      constructor
      · rw [hirq]
        exact hbalance hp
      · rw [hswitch,hzero,hnext]

/-- If the counters are right, nobody but the current process is in a postponed section. -/
private theorem LockRun.After.ok (h : LockRun.After task p r) (hcounts : r.Counts) :
    ∃ b, LockRun.Ok task r b := by
  obtain ⟨b,hruns,hinv⟩ := h.board
  refine ⟨b,hruns,hinv,hcounts,?_,h.flag⟩
  intro q hq
  by_cases hqp : q=p
  · rw [hqp] at hq ⊢
    exact (h.counts.left hq.symm).1
  · exact h.others q hqp

end Step

def LockRun.Keeps (task : Proc) (r : LockRun) (op : Op) : Prop :=
  r.Allowed task op ∧ r.Balanced op

instance (task : Proc) (r : LockRun) (op : Op) : Decidable (r.Keeps task op) :=
  inferInstanceAs (Decidable (_ ∧ _))

def lockStart (kernel task tickInterval : Nat) (semaphores : Nat → Semaphore) : LockRun :=
  ⟨schedInitialize kernel task tickInterval semaphores, fun _ => 0, fun _ => 0⟩

private theorem lockStart_ok {kernel : Proc} (hkernel : kernel≠0) (htask : task≠0)
    (hne : task≠kernel) (tickInterval : Nat) (semaphores : Nat → Semaphore) :
    ∃ b, LockRun.Ok task (lockStart kernel task tickInterval semaphores) b := by
  have hstart := kernelOnly_runs hkernel tickInterval semaphores
  have hadd : (kernelOnly kernel tickInterval semaphores).Allowed kernel (.addProc task) :=
    allowed_add (by simpa [kernelOnly] using hne) htask
  have hnone : Unstarted (kernelBoard kernel semaphores) := by
    intro q _ hmem
    cases hmem
  have hspawn := hstart.effect_unstarted hadd rfl hnone
  have hok := (hstart.call rfl hadd).2.1
  obtain ⟨b,hruns,hb⟩ := schedInitialize_runs hkernel htask hne tickInterval semaphores
  refine ⟨b,hruns,settled_unstarted hok hspawn hb,⟨?_,rfl⟩,fun q _ => rfl,fun hflag => ?_⟩
  swap
  · cases hflag
  change 0=0+0+due (update (fun _ => []) task [.prelude] kernel)
  rw [update_of_ne hne.symm]
  rfl

/-- Outside of all sections the counters are zero. After the next request they are right exactly
if a switch is even, and a process that is switched to and owes nothing, as the child of a fork at
its first run, finds interrupts counted as locked. -/
def CountsZeroOutside (task : Proc) (r : LockRun) : Prop :=
  (r.Outside → r.sched.irqLockCount = 0 ∧ r.sched.switchLockCount = 0) ∧
    ∀ op, r.Allowed task op →
      ((r.perform op).2.Counts ↔ r.EvenSwitch op) ∧
      ((r.perform op).2.sched.current ≠ r.sched.current →
        (r.perform op).2.Outside → 0 < (r.perform op).2.sched.irqLockCount)

private theorem LockRun.Ok.countsZeroOutside {r : LockRun} (h : LockRun.Ok task r b) :
    CountsZeroOutside task r := by
  constructor
  · rintro ⟨hrest,hlocks,hpostpones⟩
    obtain ⟨hirq,hswitch⟩ := h.counts
    rw [LockRun.depth,hrest,hlocks,hpostpones] at hirq
    exact ⟨hirq,hswitch.trans hpostpones⟩
  · intro op hallowed
    have hafter := h.perform hallowed
    refine ⟨hafter.counts_iff,?_⟩
    intro hne _
    have howes := (hafter.counts.left hne).2
    rw [hafter.counts.irq,LockRun.depth]
    omega

theorem lock_counts_zero_outside (kernel task tickInterval : Nat) (semaphores : Nat → Semaphore)
    (hkernel : kernel ≠ 0) (htask : task ≠ 0) (hne : task ≠ kernel) (ops : List Op)
    (hall : Always LockRun.perform (LockRun.Keeps task)
      (lockStart kernel task tickInterval semaphores) ops) :
    CountsZeroOutside task
      (trace LockRun.perform (lockStart kernel task tickInterval semaphores) ops).2 := by
  have hrun : ∃ b, LockRun.Ok task
      (trace LockRun.perform (lockStart kernel task tickInterval semaphores) ops).2 b := by
    apply trace_invariant (fun r => ∃ b, LockRun.Ok task r b) _ _ hall
    · rintro r op ⟨b,h⟩ ⟨hallowed,hbalanced⟩
      have hafter := h.perform hallowed
      exact hafter.ok (hafter.counts_iff.mpr (h.evenSwitch hallowed hbalanced))
    · exact lockStart_ok hkernel htask hne tickInterval semaphores
  obtain ⟨b,h⟩ := hrun
  exact h.countsZeroOutside

def smallLockStart : LockRun := lockStart 1 2 1000 fun _ => ⟨1, 0⟩

/-- Process 3 sleeps until the timer wakes it, forks process 4 and ends; process 1 waits for a
device. Process 4 does not run. -/
def sectionRun : List Op :=
  [.addProc 3, .schedYield, .finish, .schedYield, .finish, .schedLock, .schedUnlock,
    .sleepUntil 5000, .finish, .waitSleep 0 1, .finish, .timer 5000, .wakeOne 0, .schedYield,
    .finish, .schedPostpone, .schedResume, .fork 4 .insideStack, .exit 3 0, .finish]

theorem lock_counts_zero_outside_run :
    CountsZeroOutside 2 (trace LockRun.perform smallLockStart sectionRun).2 :=
  lock_counts_zero_outside 1 2 1000 (fun _ => ⟨1,0⟩) (by decide) (by decide) (by decide) sectionRun
    (by decide +kernel)

/-- Process 3 is added and forks process 4, which is switched to behind the terminator. -/
def forkedChild : LockRun :=
  (trace LockRun.perform smallLockStart
    [.addProc 3, .schedYield, .finish, .schedYield, .finish, .fork 4 .insideStack, .schedYield,
      .finish, .schedYield, .finish, .schedYield]).2

/-- The child runs outside of all sections, with `irq_lock_count` at one. -/
theorem forked_child_starts_locked :
    forkedChild.sched.current = 4 ∧ forkedChild.Outside ∧ forkedChild.sched.irqLockCount = 1 :=
  ⟨by decide +kernel,⟨by decide +kernel,by decide +kernel,by decide +kernel⟩,by decide +kernel⟩

end Hojicha.Mp
