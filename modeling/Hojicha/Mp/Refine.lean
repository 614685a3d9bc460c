import Hojicha.Mp.Kinship

/-!
# The scheduler refines the board

Each operation is its effect on the board and at most one context switch. The terminator never
sleeps, so there is always a process to switch to.
-/

namespace Hojicha.Mp

open Framework Function List

variable {s : Sched} {b : Board} {i : QueueId} {p q c : Proc} {w : WaitQueue}

structure Tracks (s : Sched) (b : Board) : Prop where
  links : s.links.Holds b.lists
  tables : s.toTables = b.toTables
  ok : BoardOk b
  kin : KinOk b.toTables
  waiters : WaitersOk b.toTables b.lists
  rests : RestsOk b.toTables

section

variable (h : Tracks s b)
include h

theorem Tracks.current : s.current=b.current := congrArg Tables.current h.tables

theorem Tracks.status : s.status=b.status := congrArg Tables.status h.tables

theorem Tracks.allocated : s.allocated=b.allocated := congrArg Tables.allocated h.tables

end

theorem Tracks.apart (h : Tracks s b) : Apart b.lists := apart_of_holds h.links

/-- The counters and the timer are not on the board. -/
theorem Tracks.congr (h : Tracks s b) {s' : Sched} (hlinks : s'.links=s.links)
    (htables : s'.toTables=s.toTables) : Tracks s' b := by
  refine ⟨?_,?_,h.ok,h.kin,h.waiters,h.rests⟩
  · rw [hlinks]
    exact h.links
  · rw [htables]
    exact h.tables

theorem Tracks.fuel (h : Tracks s b) (i : QueueId) :
    (b.lists i).length ≤ s.totalProcessesAdded := by
  rw [h.tables]
  exact h.ok.length_le h.apart i

theorem Tracks.queueHead (h : Tracks s b) : s.queueHead i=0 ↔ b.lists i=[] :=
  h.links.head_eq_zero

theorem dispatch_status (h : BoardOk b) (p : Proc) :
    b.dispatch.status p=b.status p ∨
      b.status p = .running ∧ b.dispatch.status p = .readyToRun ∨
      b.status p = .readyToRun ∧ b.dispatch.status p = .running ∧ b.dispatch.current=p := by
  rw [Board.dispatch]
  split
  · exact Or.inl rfl
  · next next ready hlist =>
    have hin : next∈b.lists .readyToRun := by
      rw [hlist]
      exact mem_cons_self
    have hfit : b.status next = .readyToRun ∨ b.status next = .uninitialized := h.fits hin
    split_ifs with hrun
    · have hnext : next≠b.current := ne_of_mem_of_not_mem hin (h.out_of_running hrun _)
      have hset : (b.setStatus b.current .readyToRun).status next=b.status next :=
        update_of_ne hnext _ _
      dsimp only
      rw [switchTo_status,hset]
      split_ifs with hp
      · obtain ⟨rfl,hne⟩ := hp
        exact Or.inr (Or.inr ⟨hfit.resolve_right hne,rfl,rfl⟩)
      · change update b.status b.current _ p=_ ∨ _ ∧
          update b.status b.current _ p=_ ∨ _
        by_cases hpc : p=b.current
        · rw [hpc,update_self]
          exact Or.inr (Or.inl ⟨hrun,rfl⟩)
        · rw [update_of_ne hpc]
          exact Or.inl rfl
    · dsimp only
      rw [switchTo_status]
      split_ifs with hp
      · obtain ⟨rfl,hne⟩ := hp
        exact Or.inr (Or.inr ⟨hfit.resolve_right hne,rfl,rfl⟩)
      · exact Or.inl rfl

private theorem dispatch_kin (h : KinOk b.toTables) : KinOk b.dispatch.toTables := by
  rw [Board.dispatch]
  split
  · exact h
  · split_ifs
    · exact h.congr rfl rfl rfl
    · exact h.congr rfl rfl rfl

theorem dispatch_lists (hi : i ≠ .readyToRun) : b.dispatch.lists i=b.lists i := by
  rw [Board.dispatch]
  split
  · rfl
  · split_ifs
    · exact update_of_ne hi _ _
    · exact update_of_ne hi _ _

private theorem dispatch_waiters (h : WaitersOk b.toTables b.lists) :
    WaitersOk b.dispatch.toTables b.dispatch.lists := by
  apply h.mono
  · rw [Board.dispatch]
    split
    · rfl
    · split_ifs <;> rfl
  · rw [Board.dispatch]
    split
    · rfl
    · split_ifs <;> rfl
  · intro c p hp
    rwa [dispatch_lists (by simp)] at hp
  · intro q p hp
    rwa [dispatch_lists (by simp)] at hp

private theorem dispatch_rests (hok : BoardOk b) (h : RestsOk b.toTables) :
    RestsOk b.dispatch.toTables := by
  have hpush := h.push hok.live
  rw [Board.dispatch]
  split
  · exact h
  · split_ifs
    · exact hpush.congr rfl rfl rfl
    · exact hpush.congr rfl rfl rfl

private theorem Tracks.advance (h : Tracks s b) (hlock : s.switchLockCount=0)
    (hun : b.status b.current ≠ .uninitialized)
    (hready : b.lists .readyToRun≠[] ∨ b.CurrentOut) :
    Tracks s.advanceAndUnlock b.dispatch ∧ s.advanceAndUnlock.cpu=s.cpu := by
  obtain ⟨hok,hout⟩ := h.ok.dispatch h.apart hun hready
  have hcurrent := h.current
  have hstatus := h.status
  cases hlist : b.lists .readyToRun with
  | nil =>
    -- nothing to switch to, and the current process runs on
    have hrun : s.status s.current = .running := by
      rw [hstatus,hcurrent]
      have hcout := hready.resolve_left fun hne => hne hlist
      exact (h.ok.out hcout).resolve_right hun
    have hstay : s.advanceAndUnlock=s.schedUnlock := by
      rw [Sched.advanceAndUnlock,Sched.scheduleAdvance,if_neg (by omega),if_neg,if_neg]
      · exact not_not.mpr hrun
      · rw [Ne,h.queueHead,hlist]
        exact not_not.mpr rfl
    have hboard : b.dispatch=b := by rw [Board.dispatch,hlist]
    rw [hstay,hboard]
    exact ⟨h.congr rfl rfl,rfl⟩
  | cons next ready =>
    have hgo : s.advanceAndUnlock =
        ({ s.requeueCurrent with quantumRemaining := quantumLength }.popHead
          .readyToRun).multitaskSwitch .unlock (s.requeueCurrent.queueHead .readyToRun) := by
      rw [Sched.advanceAndUnlock,Sched.scheduleAdvance,if_neg (by omega),if_pos]
      rw [Ne,h.queueHead,hlist]
      exact cons_ne_nil next ready
    rw [hgo]
    by_cases hrun : b.status b.current = .running
    · have hrequeue : s.requeueCurrent =
          (s.setStatus s.current .readyToRun).pushTail .readyToRun s.current := by
        rw [Sched.requeueCurrent,hstatus,hcurrent,if_pos hrun]
      have hcout : ∀ j, b.current∉b.lists j := h.ok.out_of_running hrun
      have hpush := h.links.pushTail (h.ok.ne_zero h.ok.live) hcout .readyToRun
      have hfront : update b.lists .readyToRun (b.lists .readyToRun++[b.current])
          .readyToRun=next::(ready++[b.current]) := by
        rw [update_self,hlist]
        rfl
      have hpop := hpush.popHead hfront
      have hhead : s.requeueCurrent.queueHead .readyToRun=next := by
        rw [hrequeue,hcurrent]
        exact hpush.head_cons hfront
      rw [hhead]
      have hdisp := dispatch_of_running hlist hrun
      refine ⟨⟨?_,?_,hok,dispatch_kin h.kin,dispatch_waiters h.waiters,
        dispatch_rests h.ok h.rests⟩,?_⟩
      · have hlists : b.dispatch.lists =
            update b.lists .readyToRun (ready++[b.current]) := by
          rw [Board.dispatch,hlist]
          dsimp only
          rw [if_pos hrun]
          rfl
        rw [update_idem] at hpop
        rw [hrequeue,hlists,hcurrent]
        exact hpop
      · rw [hrequeue,hdisp,hcurrent]
        change (s.toTables.setStatus b.current .readyToRun).switchTo .unlock next=_
        rw [h.tables]
        rfl
      · rw [hrequeue]
        rfl
    · have hrequeue : s.requeueCurrent=s := by
        rw [Sched.requeueCurrent,hstatus,hcurrent,if_neg hrun]
      have hhead : s.queueHead .readyToRun=next := h.links.head_cons hlist
      have hdisp : b.dispatch =
          { b.setList .readyToRun ready with toTables := b.switchTo .unlock next } := by
        rw [Board.dispatch,hlist]
        dsimp only
        rw [if_neg hrun]
      rw [hrequeue,hhead]
      refine ⟨⟨?_,?_,hok,dispatch_kin h.kin,dispatch_waiters h.waiters,
        dispatch_rests h.ok h.rests⟩,rfl⟩
      · rw [hdisp]
        exact h.links.popHead hlist
      · rw [hdisp]
        change s.toTables.switchTo .unlock next=_
        rw [h.tables]

/-- While switching is postponed `schedule_advance` only asks for a switch. -/
private theorem advanceAndUnlock_postponed (hlock : 0<s.switchLockCount) :
    s.advanceAndUnlock = { s with switchLockFlag := true }.schedUnlock := by
  rw [Sched.advanceAndUnlock,Sched.scheduleAdvance,if_pos hlock]

def Awake (b : Board) (p : Proc) : Prop :=
  b.allocated p = true ∧
    (b.status p = .running ∨ b.status p = .readyToRun ∨ b.status p = .uninitialized)

theorem Awake.of_status {b' : Board} (h : Awake b p) (halloc : b'.allocated p=b.allocated p)
    (hstatus : b'.status p=b.status p) : Awake b' p := by
  rw [Awake,halloc,hstatus]
  exact h

theorem BoardOk.ready_of_queued (h : BoardOk b) (hp : Awake b p) (hi : p∈b.lists i) :
    b.lists .readyToRun≠[] := by
  have hfit := h.fits hi
  cases i with
  | readyToRun => exact ne_nil_of_mem hi
  | sleeping => rcases hp.2 with hst | hst | hst <;> simp [hst,QueueId.Fits] at hfit
  | readyToDie => rcases hp.2 with hst | hst | hst <;> simp [hst,QueueId.Fits] at hfit
  | waiting w => rcases hp.2 with hst | hst | hst <;> simp [hst,QueueId.Fits] at hfit
  | parked => rcases hp.2 with hst | hst | hst <;> simp [hst,QueueId.Fits] at hfit

private theorem BoardOk.ready_of_awake (h : BoardOk b) (hp : Awake b p) :
    b.lists .readyToRun≠[] ∨ b.CurrentOut := by
  rcases h.placed p hp.1 with hpc | ⟨i,hi⟩
  · by_cases hout : b.CurrentOut
    · exact Or.inr hout
    · rw [Board.CurrentOut] at hout
      push Not at hout
      obtain ⟨i,hi⟩ := hout
      exact Or.inl (h.ready_of_queued hp (hpc ▸ hi))
  · exact Or.inl (h.ready_of_queued hp hi)

structure Runs (task : Proc) (s : Sched) (b : Board) : Prop where
  tracks : Tracks s b
  out : b.CurrentOut
  cpu : s.cpu = .running
  awake : Awake b task

variable {task : Proc}

theorem Awake.dispatch (h : Awake b p) : Awake b.dispatch p := by
  rw [Board.dispatch]
  split
  · exact h
  · split_ifs with hrun
    · refine ⟨h.1,?_⟩
      rw [switchTo_status]
      split_ifs
      · exact Or.inl rfl
      · change update b.status b.current _ p=_ ∨
          update b.status b.current _ p=_ ∨ update b.status b.current _ p=_
        by_cases hp : p=b.current
        · rw [hp,update_self]
          exact Or.inr (Or.inl rfl)
        · rw [update_of_ne hp]
          exact h.2
    · refine ⟨h.1,?_⟩
      rw [switchTo_status]
      split_ifs
      · exact Or.inl rfl
      · exact h.2

/-- The state shows the board up to a context switch. -/
def Settles (task : Proc) (s : Sched) (b : Board) : Prop :=
  BoardOk b ∧ ∃ b', Runs task s b' ∧ (b' = b ∨ b' = b.dispatch)

theorem Runs.settles (h : Runs task s b) : Settles task s b := ⟨h.tracks.ok,b,h,Or.inl rfl⟩

section

variable (h : Tracks s b) (hcpu : s.cpu = .running) (hawake : Awake b task)
    (hun : b.status b.current ≠ .uninitialized)
include h hcpu hawake hun

theorem Tracks.advance_settles
    (hleave : b.CurrentOut ∨ s.switchLockCount=0) : Settles task s.advanceAndUnlock b := by
  have hready := h.ok.ready_of_awake hawake
  by_cases hlock : s.switchLockCount=0
  · obtain ⟨htracks,hcpu'⟩ := h.advance hlock hun hready
    have hout := (h.ok.dispatch h.apart hun hready).2
    exact ⟨h.ok,b.dispatch,⟨htracks,hout,hcpu'.trans hcpu,hawake.dispatch⟩,Or.inr rfl⟩
  · rw [advanceAndUnlock_postponed (by omega)]
    exact Runs.settles ⟨h.congr rfl rfl,hleave.resolve_right hlock,hcpu,hawake⟩

theorem Tracks.resume (hleave : b.CurrentOut ∨ (s.switchLockCount≤1 ∧ s.switchLockFlag=true)) :
    Settles task s.schedResume b := by
  rw [Sched.schedResume]
  split_ifs with hswitch
  · have htracks : Tracks { s with
        switchLockCount := s.switchLockCount-1, switchLockFlag := false } b := h.congr rfl rfl
    exact htracks.advance_settles hcpu hawake hun (Or.inr hswitch.1)
  · have hout : b.CurrentOut := by
      apply hleave.resolve_right
      rintro ⟨hlock,hflag⟩
      exact hswitch ⟨by dsimp only; omega,hflag⟩
    exact Runs.settles ⟨h.congr rfl rfl,hout,hcpu,hawake⟩

end

/-- Neither the counters, the flag and the processor nor what processes have left to do change. -/
structure Quiet (s s' : Sched) : Prop where
  irq : s'.irqLockCount = s.irqLockCount
  switch : s'.switchLockCount = s.switchLockCount
  flag : s'.switchLockFlag = s.switchLockFlag
  cpu : s'.cpu = s.cpu
  current : s'.current = s.current
  rest : s'.rest = s.rest

theorem Quiet.refl (s : Sched) : Quiet s s := ⟨rfl,rfl,rfl,rfl,rfl,rfl⟩

theorem Quiet.trans {s₁ s₂ s₃ : Sched} (h₁ : Quiet s₁ s₂) (h₂ : Quiet s₂ s₃) : Quiet s₁ s₃ :=
  ⟨h₂.irq.trans h₁.irq,h₂.switch.trans h₁.switch,h₂.flag.trans h₁.flag,h₂.cpu.trans h₁.cpu,
    h₂.current.trans h₁.current,h₂.rest.trans h₁.rest⟩

theorem quiet_wakeHead (s : Sched) (w : WaitQueue) : Quiet s (s.wakeHead w) := by
  rw [Sched.wakeHead]
  split_ifs <;> exact ⟨rfl,rfl,rfl,rfl,rfl,rfl⟩

theorem quiet_wakeLoop (w : WaitQueue) (fuel : Nat) (s : Sched) :
    Quiet s (Sched.wakeLoop w fuel s) := by
  induction fuel generalizing s with
  | zero => exact Quiet.refl s
  | succ fuel ih =>
    rw [Sched.wakeLoop]
    split_ifs
    · exact Quiet.refl s
    · exact (quiet_wakeHead s w).trans (ih _)

/-- All of `wait_queue_wake_all` up to its `sched_resume`. -/
theorem quiet_wakeAll (s : Sched) (w : WaitQueue) :
    let s' := Sched.wakeLoop w s.totalProcessesAdded s.schedPostpone
    Quiet s.schedPostpone { s' with links := s'.links.setTail (.waiting w) 0 } :=
  (quiet_wakeLoop w _ _).trans ⟨rfl,rfl,rfl,rfl,rfl,rfl⟩

theorem schedResume_nested (h : 1<s.switchLockCount) :
    s.schedResume = { s with switchLockCount := s.switchLockCount - 1 }.schedUnlock := by
  rw [Sched.schedResume,if_neg]
  intro hswitch
  have hzero : s.switchLockCount-1=0 := hswitch.1
  omega

theorem Quiet.resume {s' : Sched} (h : Quiet s.schedPostpone s') (hpost : 0<s.switchLockCount) :
    Quiet s s'.schedResume := by
  have hswitch : s'.switchLockCount=s.switchLockCount+1 := h.switch
  rw [schedResume_nested (by omega)]
  exact ⟨congrArg (· - 1) h.irq,congrArg (· - 1) h.switch,h.flag,h.cpu,h.current,h.rest⟩

theorem board_eq {b b' : Board} (htables : b.toTables=b'.toTables) (hlists : b.lists=b'.lists) :
    b=b' := by
  cases b
  cases b'
  cases htables
  cases hlists
  rfl

theorem makeReady_nil (t : Tables) : t.makeReady []=t := by
  simp [Tables.makeReady]

private theorem makeReady_append (t : Tables) (ps qs : List Proc) :
    (t.makeReady ps).makeReady qs=t.makeReady (ps++qs) := by
  simp only [Tables.makeReady,mem_append]
  congr 1
  funext p
  by_cases hp : p∈ps <;> by_cases hq : p∈qs <;> simp [hp,hq]

private theorem makeReady_singleton (t : Tables) (p : Proc) :
    t.makeReady [p]=t.setStatus p .readyToRun := by
  simp only [Tables.makeReady,Tables.setStatus,mem_singleton]
  congr 1
  funext q
  rw [update_apply]

theorem release_waiters {ps qs : List Proc} (h : WaitersOk b.toTables b.lists)
    (hlist : b.lists i=ps++qs) :
    WaitersOk (b.release i ps qs).toTables (b.release i ps qs).lists := by
  have hmem : ∀ j p, j ≠ .readyToRun → p∈(b.release i ps qs).lists j → p∈b.lists j :=
    fun j p hj hp => ((of_mem_release hlist hp).resolve_left fun hr => hj hr.1).1
  exact h.mono rfl rfl (fun c p => hmem _ p (by simp)) (fun q p => hmem _ p (by simp))

theorem release_kin {ps qs : List Proc} (h : KinOk b.toTables) :
    KinOk (b.release i ps qs).toTables := h.congr rfl rfl rfl

private theorem release_nil (hi : b.lists i=[]) : b.release i [] []=b := by
  apply board_eq
  · exact makeReady_nil _
  · change update (update b.lists i []) _ (b.lists .readyToRun++[])=b.lists
    rw [append_nil]
    have hsame : update b.lists i []=b.lists := by
      rw [← hi]
      exact update_eq_self _ _
    rw [hsame]
    exact update_eq_self _ _

private theorem wake_of_nil (hw : b.lists (.waiting w)=[]) : b.wake w=b := by
  rw [Board.wake,hw]
  exact release_nil hw

private theorem wakeAll_of_nil (hw : b.lists (.waiting w)=[]) : b.wakeAll w=b := by
  rw [Board.wakeAll,hw]
  exact release_nil hw

theorem Tracks.wakeHead (h : Tracks s b) (w : WaitQueue) : Tracks (s.wakeHead w) (b.wake w) := by
  cases hw : b.lists (.waiting w) with
  | nil =>
    rw [Sched.wakeHead,if_pos (h.queueHead.mpr hw),wake_of_nil hw]
    exact h
  | cons p ps =>
    have hhead : s.queueHead (.waiting w)=p := h.links.head_cons hw
    have hp0 : p≠0 := h.links.ne_zero (by rw [hw]; exact mem_cons_self)
    have hlist := (take_append_drop 1 (b.lists (.waiting w))).symm
    have hok := h.ok.wake h.apart w
    have hwait := release_waiters h.waiters hlist
    rw [Sched.wakeHead,if_neg (hhead ▸ hp0),hhead]
    refine ⟨?_,?_,hok,release_kin h.kin,hwait,h.rests.congr rfl rfl rfl⟩
    · -- the process taken off its queue is in none until it is put into the ready queue
      have hfree : ∀ j, p∉update b.lists (.waiting w) ps j := by
        intro j hj
        by_cases hjw : j = .waiting w
        · subst hjw
          rw [update_self] at hj
          have hnodup := h.links.nodup (.waiting w)
          rw [hw] at hnodup
          exact (nodup_cons.mp hnodup).1 hj
        · rw [update_of_ne hjw] at hj
          exact hjw (h.links.disjoint _ _ p hj (by rw [hw]; exact mem_cons_self))
      have hpush := (h.links.popHead hw).pushTail hp0 hfree .readyToRun
      simp only [Board.wake,Board.release,setList_lists,hw,take_succ_cons,take_zero,
        drop_succ_cons,drop_zero]
      rw [update_of_ne (by simp)] at hpush
      exact hpush
    · rw [Board.wake,hw]
      change s.toTables.setStatus p .readyToRun=b.toTables.makeReady [p]
      rw [makeReady_singleton,h.tables]

private theorem wakeAll_wake {ps : List Proc} (hw : b.lists (.waiting w)=p::ps) :
    (b.wake w).wakeAll w=b.wakeAll w := by
  have hrest : (b.wake w).lists (.waiting w)=ps := by
    simp [Board.wake,Board.release,hw]
  have hready : (b.wake w).lists .readyToRun=b.lists .readyToRun++[p] := by
    simp [Board.wake,Board.release,hw]
  apply board_eq
  · rw [Board.wakeAll,hrest,Board.wakeAll,hw]
    change ((b.wake w).toTables).makeReady ps=b.makeReady (p::ps)
    rw [Board.wake,hw]
    exact makeReady_append _ [p] ps
  · rw [Board.wakeAll,Board.release,hrest,hready]
    simp [Board.wakeAll,Board.wake,Board.release,hw,update_comm]

private theorem Tracks.wakeLoop (h : Tracks s b) (w : WaitQueue) {fuel : Nat}
    (hfuel : (b.lists (.waiting w)).length≤fuel) :
    Tracks (Sched.wakeLoop w fuel s) (b.wakeAll w) := by
  induction fuel generalizing s b with
  | zero =>
    have hw : b.lists (.waiting w)=[] := length_eq_zero_iff.mp (Nat.le_zero.mp hfuel)
    rw [wakeAll_of_nil hw]
    exact h
  | succ fuel ih =>
    rw [Sched.wakeLoop]
    cases hw : b.lists (.waiting w) with
    | nil =>
      rw [if_pos (h.queueHead.mpr hw),wakeAll_of_nil hw]
      exact h
    | cons p ps =>
      rw [if_neg,← wakeAll_wake hw]
      · apply ih (h.wakeHead w)
        have hrest : (b.wake w).lists (.waiting w)=ps := by
          simp [Board.wake,Board.release,hw]
        rw [hw] at hfuel
        rw [hrest]
        simpa using hfuel
      · rw [h.queueHead,hw]
        exact cons_ne_nil p ps

theorem Tracks.wakeAll (h : Tracks s b) (w : WaitQueue) :
    let s' := Sched.wakeLoop w s.totalProcessesAdded s.schedPostpone
    Tracks { s' with links := s'.links.setTail (.waiting w) 0 } (b.wakeAll w) := by
  have hpost : Tracks s.schedPostpone b := h.congr rfl rfl
  have hloop := hpost.wakeLoop w (h.fuel (.waiting w))
  have hempty : (b.wakeAll w).lists (.waiting w)=[] := by
    simp [Board.wakeAll,Board.release]
  apply hloop.congr
  · have htail := hloop.links.tail_eq_zero.mpr hempty
    simp only [Links.setTail]
    rw [← htail,update_eq_self]
  · rfl

theorem lockAdvance_postponed (h : 0<s.switchLockCount) :
    s.schedLock.advanceAndUnlock = { s with switchLockFlag := true } := by
  have hlock : 0<s.schedLock.switchLockCount := h
  rw [advanceAndUnlock_postponed hlock]
  rfl

/-- In a postponed section a process is marked, and goes on until the section ends. -/
theorem mpBlockProc_postponed {st : ProcStatus} (h : 0<s.switchLockCount) :
    s.mpBlockProc p st = { s.setStatus p st with switchLockFlag := true } := by
  have hlock : 0<(s.schedLock.setStatus p st).switchLockCount := h
  rw [Sched.mpBlockProc,advanceAndUnlock_postponed hlock]
  rfl

theorem Tracks.block (h : Tracks s b) (hout : b.CurrentOut)
    (hw : WaitersOk (b.block w).toTables (b.block w).lists) :
    Tracks ((s.enqueueCurrent w).setStatus s.current .blocked) (b.block w) := by
  have hcurrent := h.current
  refine ⟨?_,?_,h.ok.block hout w,h.kin.congr rfl rfl rfl,hw,h.rests.congr rfl rfl rfl⟩
  · change (s.links.pushTail (.waiting w) s.current).Holds _
    rw [hcurrent]
    exact h.links.pushTail (h.ok.ne_zero h.ok.live) hout _
  · change s.toTables.setStatus s.current .blocked=b.toTables.setStatus b.current .blocked
    rw [hcurrent,h.tables]

theorem waitQueueSleep_eq :
    s.waitQueueSleep w =
      { (s.schedPostpone.enqueueCurrent w).setStatus s.current .blocked with
        switchLockFlag := true }.schedResume := by
  rw [Sched.waitQueueSleep,mpBlockProc_postponed]
  · rfl
  · exact Nat.succ_pos _

private theorem block_waiters (h : WaitersOk b.toTables b.lists) (hexit : ∀ c, w ≠ .exitWaiters c)
    (hchild : ∀ q, w ≠ .childWaiters q) :
    WaitersOk (b.block w).toTables (b.block w).lists := by
  apply h.mono
  · rfl
  · rfl
  · intro c p hp
    rw [Board.block,setList_lists,update_of_ne] at hp
    · exact hp
    · simpa using (hexit c).symm
  · intro q p hp
    rw [Board.block,setList_lists,update_of_ne] at hp
    · exact hp
    · simpa using (hchild q).symm

theorem Runs.running (h : Runs task s b) (hrest : s.rest s.current≠[.prelude]) :
    b.status b.current = .running := by
  apply (h.tracks.ok.out h.out).resolve_right
  intro hun
  apply hrest
  rw [h.tracks.tables]
  exact h.tracks.ok.fresh _ h.tracks.ok.live hun

theorem Awake.block (h : Awake b p) (hp : p≠b.current) (w : WaitQueue) : Awake (b.block w) p :=
  h.of_status rfl (update_of_ne hp _ _)

private theorem block_status (b : Board) (w : WaitQueue) :
    (b.block w).status (b.block w).current = .blocked := update_self _ _ _

theorem Runs.waitQueueSleep (h : Runs task s b) (hlock : s.switchLockCount=0)
    (htask : task≠b.current) (hexit : ∀ c, w ≠ .exitWaiters c)
    (hchild : ∀ q, w ≠ .childWaiters q) : Settles task (s.waitQueueSleep w) (b.block w) := by
  have hpost : Tracks s.schedPostpone b := h.tracks.congr rfl rfl
  have hblock := hpost.block h.out (block_waiters h.tracks.waiters hexit hchild)
  rw [waitQueueSleep_eq]
  have hflag : Tracks { (s.schedPostpone.enqueueCurrent w).setStatus s.current .blocked with
      switchLockFlag := true } (b.block w) := hblock.congr rfl rfl
  refine hflag.resume h.cpu (h.awake.block htask w) ?_ (Or.inr ⟨?_,rfl⟩)
  · rw [block_status]
    decide
  · change s.switchLockCount+1≤1
    omega

end Hojicha.Mp
