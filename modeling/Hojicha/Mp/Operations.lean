import Hojicha.Mp.Refine

/-! # Each operation is its effect on the board -/

namespace Hojicha.Mp

open Framework Function List Quiet

variable {s : Sched} {b : Board} {i : QueueId} {p q c task : Proc} {w : WaitQueue}
  {ps qs kept : List Proc} {t : Tables} {L : QueueId → List Proc} {slot : Nat}

private theorem Awake.release (h : Awake b p) : Awake (b.release i ps qs) p := by
  refine ⟨h.1,?_⟩
  change (b.makeReady ps).status p=_ ∨ (b.makeReady ps).status p=_ ∨
    (b.makeReady ps).status p=_
  rw [makeReady_status]
  split_ifs
  · exact Or.inr (Or.inl rfl)
  · exact h.2

private theorem CurrentOut.release (h : b.CurrentOut) (hlist : b.lists i=ps++qs) :
    (b.release i ps qs).CurrentOut := by
  intro j hj
  rcases of_mem_release hlist hj with ⟨-,hj⟩ | ⟨hj,-⟩
  · exact h i (by rw [hlist]; exact mem_append_left _ hj)
  · exact h j hj

theorem release_status_current (h : b.CurrentOut) (hlist : b.lists i=ps++qs) :
    (b.release i ps qs).status (b.release i ps qs).current=b.status b.current := by
  change (b.makeReady ps).status b.current=_
  rw [makeReady_status,if_neg]
  intro hc
  exact h i (by rw [hlist]; exact mem_append_left _ hc)

private theorem Tracks.resume_nested (h : Tracks s b) (hlock : 1<s.switchLockCount) :
    Tracks s.schedResume b ∧ s.schedResume.switchLockCount=s.switchLockCount - 1 ∧
      s.schedResume.switchLockFlag=s.switchLockFlag ∧ s.schedResume.cpu=s.cpu := by
  rw [schedResume_nested hlock]
  exact ⟨h.congr rfl rfl,rfl,rfl,rfl⟩

theorem waitQueueSleep_nested (h : 0<s.switchLockCount) :
    s.waitQueueSleep w =
      { (s.enqueueCurrent w).setStatus s.current .blocked with switchLockFlag := true } := by
  rw [waitQueueSleep_eq,schedResume_nested]
  · rfl
  · exact Nat.succ_lt_succ h

/-- Sections around a call that sleeps change nothing: the switch is made at the end of the last. -/
theorem inSections_waitQueueSleep (sections : Nat) :
    Sched.inSections (·.waitQueueSleep w) sections s=s.waitQueueSleep w := by
  have hnested : ∀ n s, 0<s.switchLockCount → Sched.inSections (·.waitQueueSleep w) n s =
      { (s.enqueueCurrent w).setStatus s.current .blocked with switchLockFlag := true } := by
    intro n
    induction n with
    | zero => exact fun s h => waitQueueSleep_nested h
    | succ n ih =>
      intro s h
      rw [Sched.inSections,ih _ (Nat.succ_pos _),schedResume_nested (Nat.succ_lt_succ h)]
      rfl
  cases sections with
  | zero => rfl
  | succ n =>
    rw [Sched.inSections,hnested n _ (Nat.succ_pos _),waitQueueSleep_eq]
    rfl

theorem semaphoreLock_nested {k : Nat} (h : 0<s.switchLockCount) (hslot : s.HasSlot k) :
    s.semaphoreLock k=s.setLocks k ((s.semaphores k).currentLocks + 1) := by
  have hslot' : s.schedPostpone.HasSlot k := hslot
  rw [Sched.semaphoreLock,if_pos hslot',schedResume_nested]
  · rfl
  · exact Nat.succ_lt_succ h

private theorem Tracks.resume_running (h : Tracks s b) (hcpu : s.cpu = .running)
    (hawake : Awake b task)
    (hrun : b.status b.current = .running) (hout : b.CurrentOut) : Settles task s.schedResume b :=
  h.resume hcpu hawake (by rw [hrun]; decide) (Or.inl hout)

private theorem Runs.postponed (h : Runs task s b) :
    Tracks s.schedPostpone b := h.tracks.congr rfl rfl

section

variable (h : Runs task s b) (hrun : b.status b.current = .running)
include h hrun

theorem Runs.schedYield : Settles task s.schedYield b := by
  have hlock : Tracks s.schedLock b := h.tracks.congr rfl rfl
  refine hlock.advance_settles h.cpu h.awake ?_ (Or.inl h.out)
  rw [hrun]
  decide

theorem Runs.schedResume : Settles task s.schedResume b :=
  h.tracks.resume_running h.cpu h.awake hrun h.out

private theorem Runs.resumed : Settles task s.schedPostpone.schedResume b :=
  h.postponed.resume_running h.cpu h.awake hrun h.out

theorem Runs.waitQueueWakeOne (w : WaitQueue) : Settles task (s.waitQueueWakeOne w) (b.wake w) := by
  have hlist := (take_append_drop 1 (b.lists (.waiting w))).symm
  have hlocks := quiet_wakeHead s.schedPostpone w
  refine (h.postponed.wakeHead w).resume_running (hlocks.cpu.trans h.cpu) h.awake.release ?_
    (CurrentOut.release h.out hlist)
  rw [Board.wake,release_status_current h.out hlist,hrun]

theorem Runs.waitQueueWakeAll
    (w : WaitQueue) : Settles task (s.waitQueueWakeAll w) (b.wakeAll w) := by
  have hlist : b.lists (.waiting w)=b.lists (.waiting w)++[] := (append_nil _).symm
  have hlocks := quiet_wakeLoop w s.totalProcessesAdded s.schedPostpone
  refine (h.tracks.wakeAll w).resume_running (hlocks.cpu.trans h.cpu) h.awake.release ?_
    (CurrentOut.release h.out hlist)
  rw [Board.wakeAll,release_status_current h.out hlist,hrun]

end

/-- The count of a semaphore is not about places. -/
private theorem Tracks.setLocks (h : Tracks s b) (k locks : Nat) :
    Tracks (s.setLocks k locks) { b with toTables := b.setLocks k locks } := by
  refine ⟨h.links,?_,?_,h.kin.congr rfl rfl rfl,
    ⟨h.waiters.exitWaiters,h.waiters.childWaiters⟩,h.rests.congr rfl rfl rfl⟩
  · change s.toTables.setLocks k locks=_
    rw [h.tables]
  · exact ⟨h.ok.queued,h.ok.placed,h.ok.live,h.ok.null,h.ok.out,h.ok.fresh,h.ok.parked,h.ok.bounded⟩

section

variable (h : Runs task s b)
include h

private theorem Runs.setLocks (hrun : b.status b.current = .running) (k locks : Nat) :
    Settles task (s.schedPostpone.setLocks k locks).schedResume
      { b with toTables := b.setLocks k locks } :=
  (h.postponed.setLocks k locks).resume_running h.cpu ⟨h.awake.1,h.awake.2⟩ hrun h.out

theorem Runs.hasSlot (k : Nat) : s.HasSlot k ↔ b.HasSlot k := by
  rw [h.tracks.tables]

private theorem Runs.semaphores : s.semaphores=b.semaphores := by
  rw [h.tracks.tables]

section

variable (hrun : b.status b.current = .running) (k : Nat)
include hrun k

theorem Runs.semaphoreLock (hblock : b.HasSlot k ∨ (s.switchLockCount=0 ∧ task≠b.current)) :
    Settles task (s.semaphoreLock k) (b.effect (.semaphoreLock k)).2 := by
  rw [Sched.semaphoreLock,Board.effect]
  dsimp only
  by_cases hslot : b.HasSlot k
  · have hslot' : s.schedPostpone.HasSlot k := (h.hasSlot k).mpr hslot
    rw [if_pos hslot',if_pos hslot]
    change Settles task (s.schedPostpone.setLocks k ((s.semaphores k).currentLocks+1)).schedResume _
    rw [h.semaphores]
    exact h.setLocks hrun k _
  · have hslot' : ¬ s.schedPostpone.HasSlot k := fun hs => hslot ((h.hasSlot k).mp hs)
    obtain ⟨hlock,htask⟩ := hblock.resolve_left hslot
    rw [if_neg hslot',if_neg hslot]
    have hsleep := h.waitQueueSleep hlock htask (w := .semaphore k) (by simp) (by simp)
    rwa [← inSections_waitQueueSleep 1] at hsleep

theorem Runs.semaphoreTryLock :
    Reply.locked (s.semaphoreTryLock k).1=(b.effect (.semaphoreTryLock k)).1 ∧
      Settles task (s.semaphoreTryLock k).2 (b.effect (.semaphoreTryLock k)).2 := by
  rw [Sched.semaphoreTryLock,Board.effect]
  dsimp only
  by_cases hslot : b.HasSlot k
  · have hslot' : s.schedPostpone.HasSlot k := (h.hasSlot k).mpr hslot
    rw [if_pos hslot',if_pos hslot,semaphoreLock_nested (Nat.succ_pos _) hslot']
    refine ⟨rfl,?_⟩
    change Settles task (s.schedPostpone.setLocks k ((s.semaphores k).currentLocks+1)).schedResume _
    rw [h.semaphores]
    exact h.setLocks hrun k _
  · have hslot' : ¬ s.schedPostpone.HasSlot k := fun hs => hslot ((h.hasSlot k).mp hs)
    rw [if_neg hslot',if_neg hslot]
    exact ⟨rfl,h.resumed hrun⟩

theorem Runs.semaphoreUnlock :
    Settles task (s.semaphoreUnlock k) (b.effect (.semaphoreUnlock k)).2 := by
  have hhead : s.schedPostpone.queueHead (.waiting (.semaphore k))≠0 ↔
      b.lists (.waiting (.semaphore k))≠[] := not_congr h.postponed.queueHead
  rw [Sched.semaphoreUnlock,Board.effect]
  dsimp only
  by_cases hwait : b.lists (.waiting (.semaphore k))≠[]
  · rw [if_pos (hhead.mpr hwait),if_pos hwait]
    have hlist := (take_append_drop 1 (b.lists (.waiting (.semaphore k)))).symm
    have hpost' : Tracks s.schedPostpone.schedPostpone b := h.tracks.congr rfl rfl
    have hlocks := quiet_wakeHead s.schedPostpone.schedPostpone (.semaphore k)
    have hdeep : 1<(s.schedPostpone.schedPostpone.wakeHead (.semaphore k)).switchLockCount := by
      rw [hlocks.switch]
      change 1<s.switchLockCount+1+1
      omega
    obtain ⟨htracks,-,-,hcpu⟩ := (hpost'.wakeHead (.semaphore k)).resume_nested hdeep
    refine htracks.resume_running (hcpu.trans (hlocks.cpu.trans h.cpu)) h.awake.release ?_
      (CurrentOut.release h.out hlist)
    rw [Board.wake,release_status_current h.out hlist,hrun]
  · rw [if_neg fun hne => hwait (hhead.mp hne),if_neg hwait]
    change Settles task (s.schedPostpone.setLocks k (((s.semaphores k).currentLocks+255) %
      256)).schedResume _
    rw [h.semaphores]
    exact h.setLocks hrun k _

end

end

private theorem takeWhile_congr_mem {α : Type*} {f g : α → Bool} {xs : List α}
    (h : ∀ x∈xs, f x=g x) : xs.takeWhile f=xs.takeWhile g := by
  induction xs with
  | nil => rfl
  | cons x xs ih =>
    rw [takeWhile_cons,takeWhile_cons,h x mem_cons_self,ih fun y hy => h y (mem_cons_of_mem x hy)]

private theorem getLast?_getD_eq_zero {xs : List Proc} (h : 0∉xs) :
    xs.getLast?.getD 0=0 ↔ xs=[] := by
  constructor
  · intro h0
    by_contra hne
    rw [getLast?_eq_some_getLast hne,Option.getD_some] at h0
    exact h (h0 ▸ getLast_mem hne)
  · rintro rfl
    rfl

private theorem Tracks.lastSleeper (h : Tracks s b) (timestamp : Nat) :
    (s.lastSleeper timestamp=0 ∧
        (b.lists .sleeping).takeWhile (b.sleepUntilAtMost timestamp)=[]) ∨
      ∃ xs, s.lastSleeper timestamp≠0 ∧
        (b.lists .sleeping).takeWhile (b.sleepUntilAtMost timestamp)
          = xs++[s.lastSleeper timestamp] ∧
        b.lists .sleeping=xs++s.lastSleeper timestamp ::
          (b.lists .sleeping).dropWhile (b.sleepUntilAtMost timestamp) := by
  have hlast : s.lastSleeper timestamp =
      ((b.lists .sleeping).takeWhile (b.sleepUntilAtMost timestamp)).getLast?.getD 0 := by
    rw [Sched.lastSleeper,Links.findLastPrefix_eq h.links (h.fuel .sleeping),h.tables]
  have hzero : 0∉(b.lists .sleeping).takeWhile (b.sleepUntilAtMost timestamp) := by
    intro h0
    have hpre := takeWhile_prefix (b.sleepUntilAtMost timestamp) (l := b.lists .sleeping)
    exact h.links.zero .sleeping (hpre.subset h0)
  have hsplit : (b.lists .sleeping).takeWhile (b.sleepUntilAtMost timestamp) ++
      (b.lists .sleeping).dropWhile (b.sleepUntilAtMost timestamp)=b.lists .sleeping :=
    takeWhile_append_dropWhile
  by_cases hnil : (b.lists .sleeping).takeWhile (b.sleepUntilAtMost timestamp)=[]
  · left
    refine ⟨?_,hnil⟩
    rw [hlast,hnil]
    rfl
  · right
    have hlast' : s.lastSleeper timestamp=List.getLast _ hnil := by
      rw [hlast,getLast?_eq_some_getLast hnil,Option.getD_some]
    have hcut := dropLast_append_getLast hnil
    rw [← hlast'] at hcut
    refine ⟨_,?_,hcut.symm,?_⟩
    · rw [hlast,Ne,getLast?_getD_eq_zero hzero]
      exact hnil
    · calc b.lists .sleeping
          = (_++[s.lastSleeper timestamp]) ++
            (b.lists .sleeping).dropWhile (b.sleepUntilAtMost timestamp) := by
              rw [hcut]
              exact hsplit.symm
        _=_ := by
              rw [append_assoc]
              rfl

private theorem sleep_kin (timestamp : Nat) (h : KinOk b.toTables) :
    KinOk (b.sleep timestamp).toTables :=
  h.congr rfl rfl rfl

private theorem sleep_waiters (timestamp : Nat) (h : WaitersOk b.toTables b.lists) :
    WaitersOk (b.sleep timestamp).toTables (b.sleep timestamp).lists := by
  apply h.mono
  · rfl
  · rfl
  · intro c p hp
    rwa [Board.sleep,setList_lists,update_of_ne (by simp)] at hp
  · intro q p hp
    rwa [Board.sleep,setList_lists,update_of_ne (by simp)] at hp

private theorem Tracks.sleep (h : Tracks s b) (hout : b.CurrentOut) (timestamp : Nat) :
    Tracks (({ s with toTables := s.setSleepUntil s.current timestamp }.setStatus s.current
      .sleepingTimer).insertSleeper timestamp s.current) (b.sleep timestamp) := by
  have hcurrent := h.current
  have hp0 : b.current≠0 := h.ok.ne_zero h.ok.live
  let s' := { s with toTables := s.setSleepUntil s.current timestamp }.setStatus s.current
    .sleepingTimer
  -- the process itself is not yet among those that the search looks at
  have hlast : s'.lastSleeper timestamp=s.lastSleeper timestamp := by
    rw [Sched.lastSleeper,Sched.lastSleeper,Links.findLastPrefix,Links.findLastPrefix]
    change ((s.links.toList s.totalProcessesAdded .sleeping).takeWhile _).getLast?.getD 0=_
    rw [h.links.toList_eq (h.fuel .sleeping)]
    congr 2
    apply takeWhile_congr_mem
    intro p hp
    have hpc : p≠s.current := by
      rw [hcurrent]
      exact ne_of_mem_of_not_mem hp (hout .sleeping)
    change decide (update s.sleepUntil s.current timestamp p≤timestamp)=_
    rw [update_of_ne hpc]
    rfl
  have htables : (s'.insertSleeper timestamp s.current).toTables =
      (b.setSleepUntil b.current timestamp).setStatus b.current .sleepingTimer := by
    have hsame : (s'.insertSleeper timestamp s.current).toTables=s'.toTables := by
      rw [Sched.insertSleeper]
      split_ifs <;> rfl
    rw [hsame]
    change (s.toTables.setSleepUntil s.current timestamp).setStatus s.current _=_
    rw [hcurrent,h.tables]
  refine ⟨?_,htables,h.ok.sleep hout timestamp,sleep_kin timestamp h.kin,
    sleep_waiters timestamp h.waiters,h.rests.congr rfl rfl rfl⟩
  have hempty : s'.queueHead .sleeping=0 ↔ b.lists .sleeping=[] := h.queueHead
  change (s'.insertSleeper timestamp s.current).links.Holds
    (update b.lists .sleeping ((b.lists .sleeping).takeWhile (b.sleepUntilAtMost timestamp)
      ++ b.current::(b.lists .sleeping).dropWhile (b.sleepUntilAtMost timestamp)))
  have hfront := h.links.pushHead hp0 hout .sleeping
  rw [Sched.insertSleeper,hlast,hcurrent]
  rcases h.lastSleeper timestamp with ⟨hzero,hnil⟩ | ⟨xs,hne,htake,hsplit⟩
  · have hdrop : (b.lists .sleeping).dropWhile (b.sleepUntilAtMost timestamp)=b.lists .sleeping := by
      have hsplit := takeWhile_append_dropWhile (p := b.sleepUntilAtMost timestamp)
        (l := b.lists .sleeping)
      rwa [hnil,nil_append] at hsplit
    rw [hnil,hdrop,nil_append,if_pos hzero]
    split_ifs
    · exact hfront
    · exact hfront
  · have hlist : b.lists .sleeping≠[] := by
      rw [hsplit]
      simp
    rw [if_neg (fun h0 => hlist (hempty.mp h0)),if_neg hne,htake]
    have hins := h.links.insertAfter hsplit hp0 hout
    rw [append_assoc]
    exact hins

theorem quiet_insertSleeper (s : Sched) (timestamp : Nat) (p : Proc) :
    Quiet s (s.insertSleeper timestamp p) := by
  rw [Sched.insertSleeper]
  split_ifs <;> exact ⟨rfl,rfl,rfl,rfl,rfl,rfl⟩

private theorem Awake.sleep (h : Awake b p) (hp : p≠b.current) (timestamp : Nat) :
    Awake (b.sleep timestamp) p :=
  h.of_status rfl (update_of_ne hp _ _)

theorem Runs.sleepProcUntil (h : Runs task s b) (hlock : s.switchLockCount=0)
    (htask : task≠b.current) (timestamp : Nat) :
    Settles task (s.sleepProcUntil s.current timestamp) (b.sleep timestamp) := by
  have hsleep := h.postponed.sleep h.out timestamp
  let s' := ({ s.schedPostpone with
    toTables := s.schedPostpone.setSleepUntil s.current timestamp }.setStatus s.current
      .sleepingTimer).insertSleeper timestamp s.current
  have hmark : Quiet s.schedPostpone ({ s.schedPostpone with
      toTables := s.schedPostpone.setSleepUntil s.current timestamp }.setStatus s.current
        .sleepingTimer) := ⟨rfl,rfl,rfl,rfl,rfl,rfl⟩
  have hlocks : Quiet s.schedPostpone s' := hmark.trans (quiet_insertSleeper _ timestamp s.current)
  have hcount : s'.switchLockCount=1 := by
    rw [hlocks.switch]
    change s.switchLockCount+1=1
    omega
  have heq : s.sleepProcUntil s.current timestamp =
      { s' with switchLockFlag := true }.schedResume := by
    rw [Sched.sleepProcUntil]
    change s'.schedLock.advanceAndUnlock.schedResume=_
    rw [lockAdvance_postponed (by omega)]
  have hflag : Tracks { s' with switchLockFlag := true } (b.sleep timestamp) := hsleep.congr rfl rfl
  rw [heq]
  refine hflag.resume (hlocks.cpu.trans h.cpu) (h.awake.sleep htask timestamp) ?_
    (Or.inr ⟨?_,rfl⟩)
  · change update b.status b.current _ b.current≠_
    rw [update_self]
    decide
  · change s'.switchLockCount≤1
    omega

private theorem Tracks.wakeSleepers (h : Tracks s b) (timestamp : Nat) :
    Tracks (s.wakeProcsBeforeTimestamp timestamp) (b.wakeSleepers timestamp) := by
  have hlist := (takeWhile_append_dropWhile (p := b.sleepUntilAtMost timestamp)
    (l := b.lists .sleeping)).symm
  have hok := h.ok.wakeSleepers h.apart timestamp
  have hwait := release_waiters h.waiters hlist
  rw [Sched.wakeProcsBeforeTimestamp]
  rcases h.lastSleeper timestamp with ⟨hzero,hnil⟩ | ⟨xs,hne,htake,hsplit⟩
  · rw [if_pos hzero]
    have hdrop : (b.lists .sleeping).dropWhile (b.sleepUntilAtMost timestamp)=b.lists .sleeping := by
      rw [hnil,nil_append] at hlist
      exact hlist.symm
    have hsame : b.wakeSleepers timestamp=b := by
      rw [Board.wakeSleepers,hnil,hdrop]
      apply board_eq
      · exact makeReady_nil _
      · simp [Board.release]
    rw [hsame]
    exact h
  · rw [if_neg hne]
    refine ⟨?_,?_,hok,release_kin h.kin,hwait,h.rests.congr rfl rfl rfl⟩
    · have hsplice := h.links.splicePrefixTail (j := .readyToRun) (by simp) hsplit
      rw [Board.wakeSleepers,htake]
      exact hsplice
    · have hups : s.sleepersUpTo (s.lastSleeper timestamp)=xs++[s.lastSleeper timestamp] := by
        rw [Sched.sleepersUpTo,h.links.toList_eq (h.fuel .sleeping)]
        have hnodup := h.links.nodup .sleeping
        rw [hsplit] at hnodup
        have hnot : s.lastSleeper timestamp∉xs :=
          fun hx => (nodup_append.mp hnodup).2.2 _ hx _ mem_cons_self rfl
        rw [hsplit,takeWhile_append_of_pos]
        · simp
        · intro p hp
          exact decide_eq_true (ne_of_mem_of_not_mem hp hnot)
      change s.toTables.makeReady (s.sleepersUpTo (s.lastSleeper timestamp))=_
      rw [hups,Board.wakeSleepers,htake,h.tables]
      rfl

theorem quiet_wakeProcs (s : Sched) (timestamp : Nat) :
    Quiet s (s.wakeProcsBeforeTimestamp timestamp) := by
  rw [Sched.wakeProcsBeforeTimestamp]
  split_ifs <;> exact ⟨rfl,rfl,rfl,rfl,rfl,rfl⟩

theorem Runs.handleTimer (h : Runs task s b) (hrun : b.status b.current = .running)
    (timestamp : Nat) : Settles task (s.handleTimer timestamp) (b.wakeSleepers timestamp) := by
  have hlist := (takeWhile_append_dropWhile (p := b.sleepUntilAtMost timestamp)
    (l := b.lists .sleeping)).symm
  have hwake := h.postponed.wakeSleepers timestamp
  have hlocks := quiet_wakeProcs s.schedPostpone timestamp
  have hrun' : (b.wakeSleepers timestamp).status (b.wakeSleepers timestamp).current
      = .running := by rw [Board.wakeSleepers,release_status_current h.out hlist,hrun]
  have hout : (b.wakeSleepers timestamp).CurrentOut := CurrentOut.release h.out hlist
  have hcpu := hlocks.cpu.trans h.cpu
  rw [Sched.handleTimer]
  split_ifs
  · -- the quantum is over: the switch is asked for, and made at the end
    have hdeep : 0<(s.schedPostpone.wakeProcsBeforeTimestamp timestamp).switchLockCount := by
      rw [hlocks.switch]
      exact Nat.succ_pos _
    rw [lockAdvance_postponed hdeep]
    have hflag : Tracks { s.schedPostpone.wakeProcsBeforeTimestamp timestamp with
        switchLockFlag := true } (b.wakeSleepers timestamp) := hwake.congr rfl rfl
    exact hflag.resume_running hcpu h.awake.release hrun' hout
  · exact Tracks.resume_running (hwake.congr rfl rfl) hcpu h.awake.release hrun' hout
  · exact hwake.resume_running hcpu h.awake.release hrun' hout

section

variable (h : Tracks s b) (hp : b.allocated p = false)
include h hp

private theorem Tracks.no_waiters :
    b.lists (.waiting (.childWaiters p))=[] ∧ b.lists (.waiting (.exitWaiters p))=[] := by
  constructor
  · apply eq_nil_iff_forall_not_mem.mpr
    intro q hq
    have hqp := h.waiters.childWaiters p q hq
    subst hqp
    exact h.ok.not_mem hp _ hq
  · apply eq_nil_iff_forall_not_mem.mpr
    intro q hq
    rw [(h.waiters.exitWaiters p q hq).1] at hp
    cases hp

private theorem Tracks.procNewShared : (s.procNewShared p).links.Holds b.lists ∧
      (s.procNewShared p).toTables=b.toTables.newProc p := by
  obtain ⟨hchild,hexit⟩ := h.no_waiters hp
  constructor
  · change Links.Holds (Links.setNext (Links.setTail (Links.setHead
      ((s.links.setHead (.waiting (.childWaiters p)) 0).setTail (.waiting (.childWaiters p)) 0)
      (.waiting (.exitWaiters p)) 0) (.waiting (.exitWaiters p)) 0) p 0) b.lists
    rw [h.links.clear hchild,h.links.clear hexit]
    exact h.links.setNext (h.ok.not_mem hp) 0
  · change s.toTables.newProc p=_
    rw [h.tables]

private theorem Tracks.create (hp0 : p≠0)
    (hok : BoardOk { b.setList .readyToRun (b.lists .readyToRun++[p]) with toTables := t })
    (hkin : KinOk t) (hrests : RestsOk t)
    (halloc : t.allocated=update b.allocated p true)
    (hparent : ∀ c, c≠p → t.parent c=b.parent c) :
    Tracks ({ s.procNewShared p with toTables := t }.pushTail .readyToRun p)
      { b.setList .readyToRun (b.lists .readyToRun++[p]) with toTables := t } := by
  refine ⟨?_,rfl,hok,hkin,?_,hrests⟩
  · exact (h.procNewShared hp).1.pushTail hp0 (h.ok.not_mem hp) .readyToRun
  · constructor
    · intro c q hq
      rw [setList_lists,update_of_ne (by simp)] at hq
      obtain ⟨hc,hcq⟩ := h.waiters.exitWaiters c q hq
      have hcp : c≠p := by
        rintro rfl
        rw [hp] at hc
        cases hc
      rw [halloc,update_of_ne hcp,hparent c hcp]
      exact ⟨hc,hcq⟩
    · intro q c hc
      rw [setList_lists,update_of_ne (by simp)] at hc
      exact h.waiters.childWaiters q c hc

end

private theorem awake_create (h : Awake b task)
    (hp : b.allocated p=false) (halloc : t.allocated=update b.allocated p true)
    (hstatus : ∀ q, q≠p → t.status q=b.status q) : Awake ⟨t, L⟩ task := by
  have htask : task≠p := by
    rintro rfl
    rw [h.1] at hp
    cases hp
  refine h.of_status ?_ (hstatus task htask)
  change t.allocated task=_
  rw [halloc,update_of_ne htask]

private theorem out_create (h : b.CurrentOut) (hp : p≠b.current)
    (hcurrent : t.current=b.current) :
    Board.CurrentOut { b.setList .readyToRun (b.lists .readyToRun++[p]) with toTables := t } := by
  intro j hj
  change t.current∈update b.lists .readyToRun _ j at hj
  rw [hcurrent] at hj
  rcases mem_push.mp hj with ⟨-,hj⟩ | hj
  · exact hp hj.symm
  · exact h j hj

private theorem Runs.ne_current (h : Runs task s b) (hp : b.allocated p=false) : p≠b.current := by
  rintro rfl
  rw [h.tracks.ok.live] at hp
  cases hp

private theorem newProc_rests (h : RestsOk t) : RestsOk (t.newProc p) := by
  have hrest : ∀ q, (t.newProc p).rest q=if q=p then [.prelude] else t.rest q :=
    fun q => update_apply _ _ _ _
  apply h.newProc (le_refl 1) _ hrest
  · intro q hq halloc
    change update t.allocated p true q=true at halloc
    rwa [update_of_ne hq] at halloc
  · intro q hq _
    exact update_of_ne hq _ _
  · simp

private theorem forkChild_rests (h : RestsOk t) (hrest : t.rest t.current=[]) (slot : Nat) :
    RestsOk (t.forkChild c slot) := by
  have hnew : ∀ q, (t.forkChild c slot).rest q=if q=c then [] else t.rest q := by
    intro q
    change update (update t.rest c [.prelude]) c [] q=_
    rw [update_idem,update_apply]
  have hlen : ([] : List Rest).length≤1 := Nat.zero_le 1
  apply h.newProc hlen _ hnew
  · intro q hq halloc
    change update t.allocated c true q=true at halloc
    rwa [update_of_ne hq] at halloc
  · intro q hq hne
    have hqc : q≠t.current := by
      rintro rfl
      exact hne hrest
    change update (update t.children c _) t.current _ q=_
    rw [update_of_ne hqc,update_of_ne hq]
  · simp

theorem Runs.schedAddProc (h : Runs task s b) (hrun : b.status b.current = .running)
    (hp : b.allocated p=false) (hp0 : p≠0) : Settles task (s.schedAddProc p) (b.spawn p) := by
  have hother : ∀ q, q≠p → (b.newProc p).status q=b.status q :=
    fun q hq => update_of_ne hq _ _
  have hcreate : Tracks ({ s.procNewShared p with toTables := b.newProc p }.pushTail .readyToRun p)
      (b.spawn p) :=
    h.tracks.create hp hp0 (h.tracks.ok.spawn hp hp0) (h.tracks.kin.newProc hp hp0)
      (newProc_rests h.tracks.rests) rfl (fun c hc => update_of_ne hc _ _)
  have htracks : Tracks ((s.procNewShared p).schedPostpone.pushTail .readyToRun p) (b.spawn p) := by
    apply hcreate.congr
    · rfl
    · exact (h.tracks.procNewShared hp).2
  exact htracks.resume_running h.cpu (awake_create h.awake hp rfl hother)
    ((hother _ (h.ne_current hp).symm).trans hrun) (out_create h.out (h.ne_current hp) rfl)

theorem Runs.forkProc (h : Runs task s b) (hrest : b.rest b.current=[])
    (hc : b.allocated c=false) (frame : InterruptFrame) :
    (s.forkProc c frame).1=(b.fork c frame).1 ∧
      Settles task (s.forkProc c frame).2 (b.fork c frame).2 := by
  have hfind : s.forkSlot c frame=b.forkSlot c frame := by rw [h.tracks.tables]
  have hok := h.tracks.ok.fork hc frame
  rw [Board.fork] at hok ⊢
  rw [Sched.forkProc,hfind]
  cases hslot : b.forkSlot c frame with
  | error e => exact ⟨rfl,h.settles⟩
  | ok slot =>
    rw [hslot] at hok
    obtain ⟨hfree,hc0⟩ := forkSlot_ok hslot
    have hkin := h.tracks.kin.forkChild h.tracks.ok.live hc hc0 hfree
    have htables : s.forkChild c slot=b.forkChild c slot := by rw [h.tracks.tables]
    have hparent : ∀ d, d≠c → (b.forkChild c slot).parent d=b.parent d := by
      intro d hd
      change update (update b.parent c _) c _ d=_
      rw [update_of_ne hd,update_of_ne hd]
    have hcreate := h.tracks.create hc hc0 hok hkin (forkChild_rests h.tracks.rests hrest slot)
      rfl hparent
    have hawake : Awake { b.setList .readyToRun (b.lists .readyToRun++[c]) with
        toTables := b.forkChild c slot } task := by
      apply awake_create h.awake hc rfl
      intro q hq
      change update (update b.status c _) c _ q=_
      rw [update_of_ne hq,update_of_ne hq]
    dsimp only
    rw [htables]
    refine ⟨?_,Runs.settles ⟨hcreate,out_create h.out (h.ne_current hc) rfl,h.cpu,hawake⟩⟩
    change ((update b.pid c (b.totalProcessesAdded+1) c : Nat) : Int)=_
    rw [update_self]
    push_cast
    rfl

private theorem erase_eq_update (ha : Apart L) (hp : p∈L i) :
    (fun j => (L j).erase p)=update L i ((L i).erase p) := by
  funext j
  by_cases hj : j=i
  · subst hj
    rw [update_self]
  · rw [update_of_ne hj]
    apply erase_of_not_mem
    intro hpj
    exact hj (ha.disjoint j i p hpj hp)

private theorem erase_of_out (hp : ∀ j, p∉L j) :
    (fun j => (L j).erase p)=L := by
  funext j
  exact erase_of_not_mem (hp j)

private theorem Tracks.mpRemoveProc (h : Tracks s b) (hp : b.allocated p=true) (hpc : p≠b.current)
    (hblocked : b.status p ≠ .blocked) (hdead : b.status p ≠ .readyToDie) :
    (s.mpRemoveProc p).links.Holds (fun j => (b.lists j).erase p) := by
  have hstatus : s.status p=b.status p := by rw [h.tables]
  obtain ⟨i,hi⟩ := (h.ok.placed p hp).resolve_left hpc
  have hfit := h.ok.fits hi
  rw [erase_eq_update h.apart hi,Sched.mpRemoveProc,hstatus]
  cases i with
  | readyToRun =>
    have hremove := h.links.remove (h.fuel .readyToRun) hi
    rcases hfit with hst | hst
    · rw [hst]
      exact hremove
    · rw [hst]
      exact hremove
  | sleeping =>
    have hst : b.status p = .sleepingTimer := hfit
    rw [hst]
    exact h.links.remove (h.fuel .sleeping) hi
  | readyToDie => exact (hdead hfit).elim
  | waiting w => exact (hblocked hfit).elim
  | parked => exact (hdead hfit).elim

private theorem mpRemoveProc_links {s s' : Sched} (hstatus : s'.status p=s.status p)
    (hlinks : s'.links=s.links) (htotal : s'.totalProcessesAdded=s.totalProcessesAdded) :
    (s'.mpRemoveProc p).links=(s.mpRemoveProc p).links := by
  rw [Sched.mpRemoveProc,Sched.mpRemoveProc,hstatus]
  cases s.status p <;> simp only [Sched.remove,hlinks,htotal]

private theorem mpRemoveProc_tables (s : Sched) (p : Proc) :
    (s.mpRemoveProc p).toTables=s.toTables := by
  rw [Sched.mpRemoveProc]
  split <;> rfl

theorem quiet_mpRemoveProc (s : Sched) (p : Proc) : Quiet s (s.mpRemoveProc p) := by
  rw [Sched.mpRemoveProc]
  split <;> exact ⟨rfl,rfl,rfl,rfl,rfl,rfl⟩

private theorem die_waiters {code : Int} (h : WaitersOk b.toTables b.lists) (ha : Apart b.lists) :
    WaitersOk (b.die p code).toTables (b.die p code).lists := by
  have hmem : ∀ w q, q∈(b.die p code).lists (.waiting w) → q∈b.lists (.waiting w) := by
    intro w q hq
    rcases (mem_die ha).mp hq with ⟨hj,-⟩ | ⟨-,hq⟩
    · cases hj
    · exact hq
  exact h.mono rfl rfl (fun c q => hmem _ q) (fun c q => hmem _ q)

def Sched.exitMark (s : Sched) (p : Proc) (code : Int) : Sched :=
  let s := s.schedPostpone.schedLock
  let s := { s with toTables := s.setExitCode p code }
  let s := if p ≠ s.current then s.mpRemoveProc p else s
  ((s.pushHead .readyToDie p).schedUnlock).mpBlockProc p .readyToDie

theorem Tracks.exitMark (h : Tracks s b) (hp : b.allocated p=true)
    (hout : b.CurrentOut) (hblocked : p≠b.current → b.status p ≠ .blocked)
    (hdead : b.status p ≠ .readyToDie) (code : Int) :
    Tracks (s.exitMark p code) (b.die p code) ∧
      (s.exitMark p code).switchLockCount=s.switchLockCount + 1 ∧
      (s.exitMark p code).switchLockFlag=true ∧ (s.exitMark p code).cpu=s.cpu := by
  have hcurrent := h.current
  have hp0 : p≠0 := h.ok.ne_zero hp
  let s₁ : Sched := { s.schedPostpone.schedLock with
    toTables := s.schedPostpone.schedLock.setExitCode p code }
  let s₂ : Sched := if p≠s₁.current then s₁.mpRemoveProc p else s₁
  have hlocks : Quiet s₁ s₂ := by
    simp only [s₂]
    split_ifs
    · exact quiet_mpRemoveProc s₁ p
    · exact refl s₁
  have htables : s₂.toTables=s.toTables.setExitCode p code := by
    simp only [s₂]
    split_ifs
    · exact mpRemoveProc_tables s₁ p
    · rfl
  -- the process is in no queue before it is put into the die queue
  have hlinks : s₂.links.Holds fun j => (b.lists j).erase p := by
    simp only [s₂]
    have hcur : s₁.current=b.current := hcurrent
    rw [hcur]
    split_ifs with hpc
    · have hsame : (s₁.mpRemoveProc p).links=(s.mpRemoveProc p).links :=
        mpRemoveProc_links rfl rfl rfl
      rw [hsame]
      exact h.mpRemoveProc hp hpc (hblocked hpc) hdead
    · rw [not_not.mp hpc,erase_of_out hout]
      exact h.links
  have hfree : ∀ j, p∉(b.lists j).erase p := by
    intro j hj
    exact ((h.apart.nodup j).mem_erase_iff.mp hj).1 rfl
  have hcount : 0<((s₂.pushHead .readyToDie p).schedUnlock).switchLockCount := by
    change 0<s₂.switchLockCount
    rw [hlocks.switch]
    exact Nat.succ_pos _
  have heq : s.exitMark p code =
      { ((s₂.pushHead .readyToDie p).schedUnlock).setStatus p .readyToDie with
        switchLockFlag := true } := mpBlockProc_postponed hcount
  rw [heq]
  refine ⟨⟨?_,?_,h.ok.die h.apart hp code,h.kin.congr rfl rfl rfl,
    die_waiters h.waiters h.apart,h.rests.congr rfl rfl rfl⟩,?_,rfl,?_⟩
  · exact hlinks.pushHead hp0 hfree .readyToDie
  · change s₂.toTables.setStatus p .readyToDie=_
    rw [htables,h.tables]
    rfl
  · change s₂.switchLockCount=_
    rw [hlocks.switch]
    rfl
  · change s₂.cpu=_
    rw [hlocks.cpu]
    rfl

private theorem Tracks.wakeAll_nested (h : Tracks s b) (hlock : 0<s.switchLockCount)
    (w : WaitQueue) :
    Tracks (s.waitQueueWakeAll w) (b.wakeAll w) ∧ Quiet s (s.waitQueueWakeAll w) := by
  have hquiet := quiet_wakeAll s w
  refine ⟨((h.wakeAll w).resume_nested ?_).1,hquiet.resume hlock⟩
  rw [hquiet.switch]
  exact Nat.succ_lt_succ hlock

private theorem Tracks.wakeParent (h : Tracks s b) (hlock : 0<s.switchLockCount) (p : Proc) :
    Tracks (s.wakeParent p) (b.wakeParent p) ∧ Quiet s (s.wakeParent p) := by
  have hparent : s.parent p=b.parent p := by rw [h.tables]
  rw [Sched.wakeParent,Board.wakeParent,hparent]
  split_ifs
  · obtain ⟨hexit,hsame⟩ := h.wakeAll_nested hlock (.exitWaiters p)
    have hlock' : 0<(s.waitQueueWakeAll (.exitWaiters p)).switchLockCount := by
      rw [hsame.switch]
      exact hlock
    obtain ⟨hchild,hsame'⟩ := hexit.wakeAll_nested hlock' (.childWaiters (b.parent p))
    exact ⟨hchild,hsame.trans hsame'⟩
  · exact ⟨h,refl s⟩

private theorem wakeParent_keeps {P : Board → Prop} (h : P b)
    (hwake : ∀ b w, P b → P (b.wakeAll w)) (p : Proc) : P (b.wakeParent p) := by
  rw [Board.wakeParent]
  split_ifs
  · exact hwake _ _ (hwake _ _ h)
  · exact h

private theorem CurrentOut.wakeAll (h : b.CurrentOut) (w : WaitQueue) : (b.wakeAll w).CurrentOut :=
  CurrentOut.release h (append_nil _).symm

private theorem release_not_uninitialized (h : b.status p ≠ .uninitialized) :
    (b.release i ps qs).status p ≠ .uninitialized := by
  change (b.makeReady ps).status p≠_
  rw [makeReady_status]
  split_ifs
  · decide
  · exact h

private theorem Awake.die (h : Awake b q) (hqp : q≠p) (code : Int) : Awake (b.die p code) q :=
  h.of_status rfl (update_of_ne hqp _ _)

theorem Runs.procExit (h : Runs task s b) (hrun : b.status b.current = .running)
    (hp : b.allocated p=true) (htask : task≠p) (hlock : p=b.current → s.switchLockCount=0)
    (hblocked : p≠b.current → b.status p ≠ .blocked) (code : Int) :
    Settles task (s.procExit p code) (b.exit p code) := by
  have hp0 : p≠0 := h.tracks.ok.ne_zero hp
  have hstatus : s.status p=b.status p := by rw [h.tracks.tables]
  have hpst : s.schedPostpone.schedLock.status p=b.status p := hstatus
  rw [Sched.procExit,Board.exit,if_neg hp0]
  dsimp only
  rw [hpst]
  by_cases hdead : b.status p = .readyToDie
  · rw [if_pos hdead,if_pos (Or.inr hdead)]
    exact Tracks.resume_running (h.tracks.congr rfl rfl) h.cpu h.awake hrun h.out
  · have hlive : ¬ (p=0 ∨ b.status p = .readyToDie) := by tauto
    rw [if_neg hdead,if_neg hlive]
    obtain ⟨hmark,hcount,hflag,hcpu⟩ := h.tracks.exitMark hp h.out hblocked hdead code
    change Settles task ((s.exitMark p code).wakeParent p).schedResume _
    obtain ⟨hwake,hsame⟩ := hmark.wakeParent (by omega) p
    have hawake : Awake ((b.die p code).wakeParent p) task :=
      wakeParent_keeps (P := fun b => Awake b task) (h.awake.die htask code)
        (fun b w hb => hb.release) p
    refine hwake.resume (hsame.cpu.trans (hcpu.trans h.cpu)) hawake ?_ ?_
    · apply wakeParent_keeps (P := fun b => b.status b.current ≠ .uninitialized)
      · change update b.status p _ b.current≠_
        by_cases hpc : b.current=p
        · rw [hpc,update_self]
          decide
        · rw [update_of_ne hpc,hrun]
          decide
      · intro b w hb
        exact release_not_uninitialized hb
    · by_cases hpc : p=b.current
      · right
        rw [hsame.switch,hsame.flag,hcount,hflag,hlock hpc]
        exact ⟨le_refl 1,rfl⟩
      · left
        apply wakeParent_keeps (P := Board.CurrentOut)
        · intro j hj
          rcases (mem_die h.tracks.apart).mp hj with ⟨-,hcp⟩ | ⟨-,hj⟩
          · exact hpc hcp.symm
          · exact h.out j hj
        · intro b w hb
          exact CurrentOut.wakeAll hb w

private theorem quiet_procFree (s : Sched) (p : Proc) : Quiet s (s.procFree p) :=
  ⟨rfl,rfl,rfl,rfl,(sameBut_procFree s.toTables p).current,(sameBut_procFree s.toTables p).rest⟩

theorem quiet_collect (s : Sched) (q c : Proc) (slot : Nat) :
    Quiet s (s.processWaitCollect q c slot).2 := by
  rw [Sched.processWaitCollect]
  split_ifs
  · exact Quiet.refl s
  · have hdisown : Quiet s ({ s with
        toTables := (s.setChild q slot 0).setParent c 0 }.remove .readyToDie c) :=
      ⟨rfl,rfl,rfl,rfl,rfl,rfl⟩
    exact hdisown.trans (quiet_procFree _ c)

/-- Nobody but its parent, who is running, can wait for a child that is collected. -/
private theorem collect_waiters (h : Tracks s b) (hout : b.CurrentOut)
    (hslot : b.children b.current slot=c) (hc0 : c≠0) (hst : b.status c = .readyToDie) :
    WaitersOk (((b.setChild b.current slot 0).setParent c 0).procFree c)
      (update b.lists .readyToDie ((b.lists .readyToDie).erase c)) := by
  have hchild := h.kin.child b.current slot h.ok.live (by rw [hslot]; exact hc0)
  rw [hslot] at hchild
  obtain ⟨-,hc,hpar⟩ := hchild
  have hdisowned : WaitersOk ((b.setChild b.current slot 0).setParent c 0) b.lists := by
    constructor
    · intro d p hp
      obtain ⟨hd,hdp⟩ := h.waiters.exitWaiters d p hp
      have hdc : d≠c := by
        rintro rfl
        rw [hpar] at hdp
        exact hout _ (hdp ▸ hp)
      refine ⟨hd,?_⟩
      change update b.parent c 0 d=p
      rw [update_of_ne hdc]
      exact hdp
    · exact h.waiters.childWaiters
  have hdead : ∀ w, c∉b.lists (.waiting w) := by
    intro w hw
    have hfit : b.status c = .blocked := h.ok.fits hw
    rw [hst] at hfit
    cases hfit
  have hfreed := hdisowned.procFree (h.kin.disown h.ok.live hslot hc0) hc
    (update_self _ _ _) hdead (fun w => h.links.zero _)
  apply hfreed.mono rfl rfl
  · intro d p hp
    rwa [update_of_ne (by simp)] at hp
  · intro d p hp
    rwa [update_of_ne (by simp)] at hp

private theorem Tracks.collect (h : Tracks s b) (hout : b.CurrentOut)
    (hrun : b.status b.current = .running) (hrest : b.rest b.current=[])
    (hslot : b.children b.current slot=c) (hc0 : c≠0) :
    (s.processWaitCollect s.current c slot).1=(b.collect b.current c slot).1 ∧
      Tracks (s.processWaitCollect s.current c slot).2 (b.collect b.current c slot).2 := by
  have hcurrent := h.current
  obtain ⟨-,hc,hpar⟩ := h.kin.child b.current slot h.ok.live (hslot ▸ hc0)
  rw [hslot] at hc hpar
  have hnot : b.status b.current ≠ .readyToDie := by
    rw [hrun]
    decide
  have hok := h.ok.collect (q := b.current) h.apart hnot hc slot
  have hstatus : s.status c=b.status c := by rw [h.tables]
  rw [Board.collect] at hok ⊢
  rw [Sched.processWaitCollect,hstatus,hcurrent]
  split_ifs at hok ⊢ with hst
  · exact ⟨rfl,h⟩
  · push Not at hst
    have hcc : c≠b.current := by
      rintro rfl
      exact hnot hst
    have hin := h.ok.mem_die_of_status hc hst hcc
    refine ⟨?_,?_,?_,hok,?_,?_,?_⟩
    · rw [h.tables]
    · exact h.links.remove (h.fuel .readyToDie) hin
    · change ((s.toTables.setChild b.current slot 0).setParent c 0).procFree c=_
      rw [h.tables]
    · apply (h.kin.disown h.ok.live hslot hc0).procFree hc
      exact update_self _ _ _
    · exact collect_waiters h hout hslot hc0 hst
    · have hdisown : RestsOk ((b.setChild b.current slot 0).setParent c 0) := by
        refine h.rests.mono (fun q hq => hq) rfl ?_
        intro q _ hne
        have hqc : q≠b.current := by
          rintro rfl
          exact hne hrest
        exact update_of_ne hqc _ _
      exact hdisown.procFree (update_self _ _ _)

theorem collect_status (slot : Nat) : (b.collect q c slot).2.status=b.status := by
  rw [Board.collect]
  split_ifs
  · rfl
  · exact (sameBut_procFree _ c).status

theorem collect_current (slot : Nat) : (b.collect q c slot).2.current=b.current := by
  rw [Board.collect]
  split_ifs
  · rfl
  · exact (sameBut_procFree _ c).current

private theorem collect_allocated (hp : p≠c ∨ b.status c ≠ .readyToDie) :
    (b.collect q c slot).2.allocated p=b.allocated p := by
  rw [Board.collect]
  split_ifs with hst
  · rfl
  · change (Tables.procFree _ c).allocated p=_
    rw [procFree_allocated,update_of_ne (hp.resolve_right fun hne => hst hne)]
    rfl

private theorem CurrentOut.collect (h : b.CurrentOut) (slot : Nat) :
    (b.collect q c slot).2.CurrentOut := by
  intro j hj
  rw [collect_current] at hj
  rw [Board.collect] at hj
  split_ifs at hj
  · exact h j hj
  · rcases mem_update.mp hj with ⟨-,hj⟩ | ⟨-,hj⟩
    · exact h _ (mem_of_mem_erase hj)
    · exact h j hj

private theorem Awake.collect (h : Awake b p) (slot : Nat) : Awake (b.collect q c slot).2 p := by
  constructor
  · rw [collect_allocated]
    · exact h.1
    · by_contra hne
      push Not at hne
      rw [← hne.1] at hne
      rcases h.2 with hst | hst | hst <;> rw [hne.2] at hst <;> cases hst
  · rw [collect_status]
    exact h.2

private theorem Runs.collect (h : Runs task s b) (hrun : b.status b.current = .running)
    (hrest : b.rest b.current=[])
    (hslot : b.children b.current slot=c) (hc0 : c≠0) :
    (s.schedPostpone.processWaitCollect s.schedPostpone.current c slot).1 =
        (b.collect b.current c slot).1 ∧
      Settles task (s.schedPostpone.processWaitCollect s.schedPostpone.current c slot).2.schedResume
        (b.collect b.current c slot).2 := by
  obtain ⟨hreply,htracks⟩ := h.postponed.collect h.out hrun hrest hslot hc0
  have hquiet := quiet_collect s.schedPostpone s.schedPostpone.current c slot
  refine ⟨hreply,htracks.resume_running (hquiet.cpu.trans h.cpu) (h.awake.collect slot) ?_
    (CurrentOut.collect h.out slot)⟩
  rw [collect_status,collect_current,hrun]

private theorem waitFor_waiters (h : Tracks s b) (pid : Int)
    (hslot : b.children b.current slot=c) (hc0 : c≠0) :
    WaitersOk (b.block (b.waitQueueFor pid c)).toTables (b.block (b.waitQueueFor pid c)).lists := by
  have hchild := h.kin.child b.current slot h.ok.live (by rw [hslot]; exact hc0)
  rw [hslot] at hchild
  have hmem : ∀ i p, p∈(b.block (b.waitQueueFor pid c)).lists i →
      (i = .waiting (b.waitQueueFor pid c) ∧ p=b.current) ∨ p∈b.lists i :=
    fun i p hp => mem_push.mp hp
  constructor
  · intro d p hp
    rcases hmem _ p hp with ⟨hd,rfl⟩ | hp
    · rw [Tables.waitQueueFor] at hd
      split_ifs at hd
      · simp at hd
      · simp only [QueueId.waiting.injEq,WaitQueue.exitWaiters.injEq] at hd
        subst hd
        exact hchild.2
    · exact h.waiters.exitWaiters d p hp
  · intro q p hp
    rcases hmem _ p hp with ⟨hq,rfl⟩ | hp
    · rw [Tables.waitQueueFor] at hq
      split_ifs at hq
      · simp only [QueueId.waiting.injEq,WaitQueue.childWaiters.injEq] at hq
        exact hq.symm
      · simp at hq
    · exact h.waiters.childWaiters q p hp

private theorem Awake.waitFor (h : Awake b p) (hp : p≠b.current) (pid : Int) (child : Proc)
    (slot : Nat) : Awake (b.waitFor pid child slot) p := by
  have hblock := h.block hp (b.waitQueueFor pid child)
  exact ⟨hblock.1,hblock.2⟩

private theorem Runs.waitpidSleep (h : Runs task s b) (hrest : b.rest b.current=[])
    (hlock : s.switchLockCount=0)
    (htask : task≠b.current) (hslot : b.children b.current slot=c) (hc0 : c≠0)
    (pid : Int) : Settles task (s.schedPostpone.waitpidSleep pid c slot) (b.waitFor pid c slot) := by
  have hqueue : s.schedPostpone.waitQueueFor pid c=b.waitQueueFor pid c := by
    change s.toTables.waitQueueFor pid c=_
    rw [h.tracks.tables]
  have hblock := h.postponed.block h.out (waitFor_waiters h.tracks pid hslot hc0)
  rw [Sched.waitpidSleep,hqueue]
  dsimp only
  rw [mpBlockProc_postponed (Nat.succ_pos _)]
  have hwait : Tracks { { (s.schedPostpone.enqueueCurrent (b.waitQueueFor pid c)).setStatus s.current
      .blocked with switchLockFlag := true } with
      toTables := (s.toTables.setStatus s.current .blocked).setRest s.current
        (.waitpid pid c slot::s.rest s.current) } (b.waitFor pid c slot) := by
    refine ⟨hblock.links,?_,h.tracks.ok.waitFor h.out pid c slot,hblock.kin.congr rfl rfl rfl,
      ⟨hblock.waiters.exitWaiters,hblock.waiters.childWaiters⟩,?_⟩
    · rw [h.tracks.tables]
      rfl
    · have hset :
          RestsOk (b.toTables.setRest b.current (.waitpid pid c slot::b.rest b.current)) := by
        rw [hrest]
        apply h.tracks.rests.setRest
        · simp
        · intro pid' child' slot' hmem
          rw [mem_singleton] at hmem
          cases hmem
          exact ⟨hslot,hc0⟩
      exact hset.congr rfl rfl rfl
  refine hwait.resume h.cpu (h.awake.waitFor htask pid c slot) ?_ (Or.inr ⟨?_,rfl⟩)
  · change update b.status b.current _ b.current≠_
    rw [update_self]
    decide
  · change s.switchLockCount+1≤1
    omega

theorem Runs.waitpidProc (h : Runs task s b) (hrun : b.status b.current = .running)
    (hrest : b.rest b.current=[]) {pid : Int} {options : Nat}
    (hsleep : (s.waitpidProc pid options).1 = .done →
      s.switchLockCount=0 ∧ task≠b.current) :
    (s.waitpidProc pid options).1=(b.waitpid pid options).1 ∧
      Settles task (s.waitpidProc pid options).2 (b.waitpid pid options).2 := by
  rw [Sched.waitpidProc] at hsleep ⊢
  rw [Board.waitpid]
  by_cases hargs : options / 2≠0 ∨ pid=0 ∨ pid < -1
  · rw [if_pos hargs,if_pos hargs]
    exact ⟨rfl,h.settles⟩
  · rw [if_neg hargs] at hsleep ⊢
    rw [if_neg hargs]
    have hfind : s.schedPostpone.waitChildFind s.schedPostpone.current pid =
        b.waitChildFind b.current pid := by
      change s.toTables.waitChildFind s.toTables.current pid=_
      rw [h.tracks.tables]
    dsimp only at hsleep ⊢
    rw [hfind] at hsleep ⊢
    cases hfound : b.waitChildFind b.current pid with
    | none => exact ⟨rfl,h.resumed hrun⟩
    | some slot =>
      rw [hfound] at hsleep
      obtain ⟨-,hc0,-⟩ := waitChildFind_some hfound
      have hchild : s.schedPostpone.children s.schedPostpone.current slot =
          b.children b.current slot := by
        change s.toTables.children s.toTables.current slot=_
        rw [h.tracks.tables]
      have hstatus : s.schedPostpone.status (b.children b.current slot) =
          b.status (b.children b.current slot) := by
        change s.toTables.status _=_
        rw [h.tracks.tables]
      dsimp only at hsleep ⊢
      rw [hchild,hstatus] at hsleep ⊢
      split_ifs at hsleep ⊢ with hdead
      · exact h.collect hrun hrest rfl hc0
      · exact ⟨rfl,h.resumed hrun⟩
      · obtain ⟨hlock,htask⟩ := hsleep rfl
        exact ⟨rfl,h.waitpidSleep hrest hlock htask rfl hc0 pid⟩

private theorem quiet_reapLoop (fuel : Nat) (s : Sched) : Quiet s (Sched.reapLoop fuel s) := by
  induction fuel generalizing s with
  | zero => exact refl s
  | succ fuel ih =>
    have hpop : Quiet s (s.popHead .readyToDie) := ⟨rfl,rfl,rfl,rfl,rfl,rfl⟩
    rw [Sched.reapLoop]
    dsimp only
    split_ifs
    · exact refl s
    · have hpark : Quiet s ((s.popHead .readyToDie).pushHead .parked (s.queueHead .readyToDie)) :=
        ⟨rfl,rfl,rfl,rfl,rfl,rfl⟩
      exact hpark.trans (ih _)
    · exact (hpop.trans (quiet_procFree _ _)).trans (ih _)

private theorem quiet_unparkLoop (fuel : Nat) (s : Sched) : Quiet s (Sched.unparkLoop fuel s) := by
  induction fuel generalizing s with
  | zero => exact refl s
  | succ fuel ih =>
    have hmove : Quiet s ((s.popHead .parked).pushTail .readyToDie (s.queueHead .parked)) :=
      ⟨rfl,rfl,rfl,rfl,rfl,rfl⟩
    rw [Sched.unparkLoop]
    split_ifs
    · exact refl s
    · exact hmove.trans (ih _)

/-- All of the terminator's loop up to its `sched_resume`. -/
theorem quiet_reap (s : Sched) :
    let s' := { s.schedPostpone with
      links := (s.schedPostpone.links.setHead .parked 0).setTail .parked 0 }
    let s'' := Sched.reapLoop s.totalProcessesAdded s'
    Quiet s.schedPostpone (Sched.unparkLoop s''.totalProcessesAdded s'') := by
  intro s' s''
  have hclear : Quiet s.schedPostpone s' := ⟨rfl,rfl,rfl,rfl,rfl,rfl⟩
  exact (hclear.trans (quiet_reapLoop _ _)).trans (quiet_unparkLoop _ _)

def reapLists (L : QueueId → List Proc) (dying parked : List Proc) : QueueId → List Proc :=
  update (update L .readyToDie dying) .parked parked

private theorem reapLists_dying (L : QueueId → List Proc) (ps qs : List Proc) :
    reapLists L ps qs .readyToDie=ps := by
  rw [reapLists,update_of_ne (by simp),update_self]

private theorem reapLists_parked (L : QueueId → List Proc) (ps qs : List Proc) :
    reapLists L ps qs .parked=qs := update_self _ _ _

private theorem update_reapLists_dying (L : QueueId → List Proc) (ps ps' qs : List Proc) :
    update (reapLists L ps qs) .readyToDie ps'=reapLists L ps' qs := by
  rw [reapLists,reapLists,update_comm (by simp),update_idem]

private theorem update_reapLists_parked (L : QueueId → List Proc) (ps qs qs' : List Proc) :
    update (reapLists L ps qs) .parked qs'=reapLists L ps qs' := by
  rw [reapLists,reapLists,update_idem]

private theorem out_of_head {l : Links QueueId Proc} (h : l.Holds L) (hlist : L i=p::ps)
    (j : QueueId) : p∉update L i ps j := by
  intro hj
  have hnodup := h.nodup i
  rw [hlist] at hnodup
  rcases mem_update.mp hj with ⟨-,hj⟩ | ⟨hji,hj⟩
  · exact (nodup_cons.mp hnodup).1 hj
  · exact hji (h.disjoint j i p hj (by rw [hlist]; exact mem_cons_self))

private theorem reapLoop_spec {fuel : Nat}
    (h : s.links.Holds (reapLists L ps kept)) (hfuel : ps.length≤fuel) :
    (Sched.reapLoop fuel s).links.Holds
        (reapLists L [] (Board.reapList ps s.toTables kept).2) ∧
      (Sched.reapLoop fuel s).toTables=(Board.reapList ps s.toTables kept).1 := by
  induction ps generalizing s kept fuel with
  | nil =>
    have hhead : s.queueHead .readyToDie=0 :=
      h.head_eq_zero.mpr (reapLists_dying L [] kept)
    have hstop : Sched.reapLoop fuel s=s := by
      cases fuel with
      | zero => rfl
      | succ fuel => rw [Sched.reapLoop,if_pos hhead]
    rw [hstop]
    exact ⟨h,rfl⟩
  | cons p ps ih =>
    obtain ⟨fuel,rfl⟩ := Nat.exists_eq_add_of_lt (Nat.lt_of_lt_of_le (Nat.succ_pos _) hfuel)
    rw [Nat.zero_add] at hfuel ⊢
    have hlist : reapLists L (p::ps) kept .readyToDie=p::ps := reapLists_dying _ _ _
    have hp : s.queueHead .readyToDie=p := h.head_cons hlist
    have hp0 : p≠0 := h.ne_zero (by rw [hlist]; exact mem_cons_self)
    have hpop := h.popHead hlist
    have hout := out_of_head h hlist
    rw [update_reapLists_dying] at hpop hout
    rw [Sched.reapLoop,hp,Board.reapList]
    dsimp only
    rw [if_neg hp0]
    have hparent : (s.popHead .readyToDie).parent p=s.parent p := rfl
    rw [hparent]
    split_ifs with hpar
    · have hpark := hpop.pushHead hp0 hout .parked
      rw [reapLists_parked,update_reapLists_parked] at hpark
      exact ih hpark (by simpa using hfuel)
    · have hfree : ((s.popHead .readyToDie).procFree p).links.Holds (reapLists L ps kept) := hpop
      exact ih hfree (by simpa using hfuel)

private theorem unparkLoop_spec {fuel : Nat}
    (h : s.links.Holds (reapLists L ps kept)) (hfuel : kept.length≤fuel) :
    (Sched.unparkLoop fuel s).links.Holds (reapLists L (ps++kept) []) ∧
      (Sched.unparkLoop fuel s).toTables=s.toTables := by
  induction kept generalizing s ps fuel with
  | nil =>
    have hhead : s.queueHead .parked=0 := h.head_eq_zero.mpr (reapLists_parked L ps [])
    have hstop : Sched.unparkLoop fuel s=s := by
      cases fuel with
      | zero => rfl
      | succ fuel => rw [Sched.unparkLoop,if_pos hhead]
    rw [hstop,append_nil]
    exact ⟨h,rfl⟩
  | cons p kept ih =>
    obtain ⟨fuel,rfl⟩ := Nat.exists_eq_add_of_lt (Nat.lt_of_lt_of_le (Nat.succ_pos _) hfuel)
    rw [Nat.zero_add] at hfuel ⊢
    have hlist : reapLists L ps (p::kept) .parked=p::kept := reapLists_parked _ _ _
    have hp : s.queueHead .parked=p := h.head_cons hlist
    have hp0 : p≠0 := h.ne_zero (by rw [hlist]; exact mem_cons_self)
    have hpop := h.popHead hlist
    have hout := out_of_head h hlist
    rw [update_reapLists_parked] at hpop hout
    rw [Sched.unparkLoop,hp,if_neg hp0]
    have hpush := hpop.pushTail hp0 hout .readyToDie
    rw [reapLists_dying,update_reapLists_dying] at hpush
    obtain ⟨hlinks,htables⟩ := ih (s := (s.popHead .parked).pushTail .readyToDie p) hpush
      (by simpa using hfuel)
    rw [append_assoc] at hlinks
    exact ⟨hlinks,htables⟩

private theorem reapList_length (ps kept : List Proc) (t : Tables) :
    (Board.reapList ps t kept).2.length≤ps.length + kept.length := by
  induction ps generalizing t kept with
  | nil => simp [Board.reapList]
  | cons p ps ih =>
    rw [Board.reapList]
    split_ifs
    · have hlen := ih (p::kept) t
      simp only [length_cons] at hlen ⊢
      omega
    · have hlen := ih kept (t.procFree p)
      simp only [length_cons] at hlen ⊢
      omega

private theorem Tracks.reap (h : Tracks s b) (hrun : b.status b.current = .running) :
    let s' := { s with links := (s.links.setHead .parked 0).setTail .parked 0 }
    let s' := Sched.reapLoop s'.totalProcessesAdded s'
    Tracks (Sched.unparkLoop s'.totalProcessesAdded s') b.reap := by
  intro s₁ s₂
  have hclear : s₁.links=s.links := h.links.clear h.ok.parked
  have hlists : reapLists b.lists (b.lists .readyToDie) []=b.lists := by
    rw [reapLists,update_eq_self,← h.ok.parked,update_eq_self]
  have hstart : s₁.links.Holds (reapLists b.lists (b.lists .readyToDie) []) := by
    rw [hclear,hlists]
    exact h.links
  have hsame : s₁.toTables=b.toTables := h.tables
  obtain ⟨hloop,htables⟩ : s₂.links.Holds
      (reapLists b.lists [] (Board.reapList (b.lists .readyToDie) b.toTables []).2) ∧
      s₂.toTables=(Board.reapList (b.lists .readyToDie) b.toTables []).1 := by
    rw [← hsame]
    exact reapLoop_spec hstart (h.fuel .readyToDie)
  have hfuel : (Board.reapList (b.lists .readyToDie) b.toTables []).2.length ≤
      s₂.totalProcessesAdded := by
    apply (reapList_length _ _ _).trans
    rw [htables,show (Board.reapList _ _ _).1.totalProcessesAdded=_ from (reap_same h.apart).total]
    simpa using h.ok.length_le h.apart .readyToDie
  obtain ⟨hunpark,htables'⟩ := unparkLoop_spec hloop hfuel
  have hboard : b.reap = { b.setList .readyToDie
      (Board.reapList (b.lists .readyToDie) b.toTables []).2 with
      toTables := (Board.reapList (b.lists .readyToDie) b.toTables []).1 } := rfl
  have hnot : b.status b.current ≠ .readyToDie := by
    rw [hrun]
    decide
  have hdead : ∀ p∈b.lists .readyToDie, ∀ w, p∉b.lists (.waiting w) := by
    intro p hp w hw
    cases h.apart.disjoint _ _ p hp hw
  have hkin := reapList_kin (b.lists .readyToDie) [] b.toTables h.kin h.waiters
    (h.apart.nodup _) (fun p hp => (h.ok.queued _ p hp).1) hdead (fun w => h.links.zero _)
  refine ⟨?_,?_,h.ok.reap h.apart hnot,?_,?_,reapList_rests _ _ _ h.rests⟩
  · rw [hboard,setList_lists]
    rw [nil_append,reapLists] at hunpark
    have hparked : update b.lists .readyToDie
        (Board.reapList (b.lists .readyToDie) b.toTables []).2 .parked=[] := by
      rw [update_of_ne (by simp)]
      exact h.ok.parked
    nth_rewrite 2 [← hparked] at hunpark
    rw [update_eq_self] at hunpark
    exact hunpark
  · rw [hboard,htables']
    exact htables
  · rw [hboard]
    exact hkin.1
  · rw [hboard]
    apply hkin.2.mono rfl rfl
    · intro c p hp
      rwa [setList_lists,update_of_ne (by simp)] at hp
    · intro q p hp
      rwa [setList_lists,update_of_ne (by simp)] at hp

theorem Runs.reap (h : Runs task s b) (hrun : b.status b.current = .running) :
    Settles task s.reap b.reap := by
  have hreap := h.postponed.reap hrun
  have hsame := reap_same h.tracks.apart
  have hawake : Awake b.reap task := by
    constructor
    · by_contra hfreed
      have hfit : b.status task = .readyToDie := h.tracks.ok.fits
        (mem_die_of_reap h.tracks.apart h.awake.1 (Bool.eq_false_of_not_eq_true hfreed))
      rcases h.awake.2 with hst | hst | hst <;> rw [hfit] at hst <;> cases hst
    · rw [hsame.status]
      exact h.awake.2
  refine hreap.resume_running ((quiet_reap s).cpu.trans h.cpu) hawake ?_ ?_
  · rw [hsame.status,hsame.current,hrun]
  · intro j hj
    rw [hsame.current] at hj
    exact h.out j (mem_of_reap h.tracks.apart hj)

private theorem Tracks.dropRest (h : Tracks s b) (hun : b.status b.current ≠ .uninitialized) :
    Tracks s.dropRest { b with toTables := b.dropRest } := by
  refine ⟨h.links,?_,h.ok.dropRest hun,h.kin.congr rfl rfl rfl,
    ⟨h.waiters.exitWaiters,h.waiters.childWaiters⟩,(h.rests.pop h.ok.live).congr rfl rfl rfl⟩
  change s.toTables.dropRest=_
  rw [h.tables]

private theorem Runs.dropRest (h : Runs task s b) (hun : b.status b.current ≠ .uninitialized) :
    Runs task s.dropRest { b with toTables := b.dropRest } :=
  ⟨h.tracks.dropRest hun,h.out,h.cpu,⟨h.awake.1,h.awake.2⟩⟩

theorem Runs.waitpid_last {pid : Int} {rs : List Rest} (h : Runs task s b)
    (hrest : b.rest b.current = .waitpid pid c slot::rs) : b.dropRest.rest b.current=[] := by
  have hlast := h.tracks.rests.waitpid_last h.tracks.ok.live hrest
  change update b.rest b.current (b.rest b.current).tail b.current=[]
  rw [update_self,hrest,hlast]
  rfl

theorem waitedChild_own {pid : Int} {child : Proc} {found : Proc × Nat}
    (hslot : t.children t.current slot=child) (hc0 : child≠0)
    (hfound : t.waitedChild pid child slot=some found) :
    t.children t.current found.2=found.1 ∧ found.1≠0 := by
  rw [Tables.waitedChild] at hfound
  split_ifs at hfound
  · obtain ⟨slot',hfind,hpair⟩ := Option.map_eq_some_iff.mp hfound
    cases hpair
    exact ⟨rfl,(waitChildFind_some hfind).2.1⟩
  · cases hfound
    exact ⟨hslot,hc0⟩

private theorem Runs.waitpidEnd (h : Runs task s b) (hrun : b.status b.current = .running)
    (hrest : b.rest b.current=[]) {pid : Int}
    (hslot : b.children b.current slot=c) (hc0 : c≠0) :
    (s.waitpidEnd pid c slot).1=(b.waitpidEnd pid c slot).1 ∧
      Settles task (s.waitpidEnd pid c slot).2 (b.waitpidEnd pid c slot).2 := by
  have hwaited : s.schedPostpone.waitedChild pid c slot=b.waitedChild pid c slot := by
    change s.toTables.waitedChild pid c slot=_
    rw [h.tracks.tables]
  rw [Sched.waitpidEnd,Board.waitpidEnd]
  dsimp only
  rw [hwaited]
  cases hfound : b.waitedChild pid c slot with
  | none => exact ⟨rfl,h.resumed hrun⟩
  | some found =>
    obtain ⟨hown,hown0⟩ := waitedChild_own hslot hc0 hfound
    exact h.collect hrun hrest hown hown0

private theorem Runs.procPrelude (h : Runs task s b) (hun : b.status b.current = .uninitialized) :
    Settles task s.dropRest.procPrelude
      { b with toTables := b.dropRest.setStatus b.current .running } := by
  have hcurrent := h.tracks.current
  have hstatus : s.dropRest.status s.dropRest.current = .uninitialized := by
    change s.status s.current=_
    rw [h.tracks.tables]
    exact hun
  rw [Sched.procPrelude,if_pos hstatus]
  refine Runs.settles ⟨⟨h.tracks.links,?_,h.tracks.ok.prelude h.out,h.tracks.kin.congr rfl rfl rfl,
    ⟨h.tracks.waiters.exitWaiters,h.tracks.waiters.childWaiters⟩,?_⟩,h.out,h.cpu,?_⟩
  · change s.toTables.dropRest.setStatus s.current .running=_
    rw [hcurrent,h.tracks.tables]
  · exact (h.tracks.rests.pop h.tracks.ok.live).congr rfl rfl rfl
  · by_cases htask : task=b.current
    · exact ⟨h.awake.1,Or.inl (by rw [htask]; exact update_self _ _ _)⟩
    · exact h.awake.of_status rfl (update_of_ne htask _ _)

theorem Runs.finish (h : Runs task s b) :
    s.finish.1=b.finish.1 ∧ Settles task s.finish.2 b.finish.2 := by
  have hrests : s.rest s.current=b.rest b.current := by rw [h.tracks.tables]
  rw [Sched.finish,Board.finish,hrests]
  cases hrest : b.rest b.current with
  | nil => exact ⟨rfl,h.settles⟩
  | cons r rs =>
    -- a process that has not started has only its prelude to do
    have hfresh : r ≠ .prelude → b.status b.current ≠ .uninitialized := by
      intro hr hun
      rw [h.tracks.ok.fresh _ h.tracks.ok.live hun] at hrest
      cases hrest
      exact hr rfl
    cases r with
    | unlock =>
      have hruns := h.dropRest (hfresh (by simp))
      exact ⟨rfl,Runs.settles ⟨hruns.tracks.congr rfl rfl,hruns.out,hruns.cpu,hruns.awake⟩⟩
    | prelude =>
      refine ⟨rfl,?_⟩
      by_cases hun : b.status b.current = .uninitialized
      · dsimp only
        rw [if_pos hun]
        exact h.procPrelude hun
      · have hstatus : s.dropRest.status s.dropRest.current ≠ .uninitialized := by
          change s.status s.current≠_
          rw [h.tracks.tables]
          exact hun
        dsimp only
        rw [if_neg hun,Sched.procPrelude,if_neg hstatus]
        exact (h.dropRest hun).settles
    | waitpid pid child slot =>
      have hun := hfresh (by simp)
      have hrun : b.status b.current = .running := (h.tracks.ok.out h.out).resolve_right hun
      obtain ⟨hslot,hc0⟩ := h.tracks.rests.slot _ h.tracks.ok.live pid child slot (by
        rw [hrest]
        exact mem_cons_self)
      exact (h.dropRest hun).waitpidEnd hrun (h.waitpid_last hrest) hslot hc0

end Hojicha.Mp
