import Hojicha.Mp.Board

/-! # Every operation leaves each process in one place -/

namespace Hojicha.Mp

open Framework Function List Or

variable {b b' : Board} {i j : QueueId} {p q c : Proc} {ps qs : List Proc} {w : WaitQueue}

structure Apart (L : QueueId → List Proc) : Prop where
  nodup : ∀ i, (L i).Nodup
  disjoint : ∀ i j p, p ∈ L i → p ∈ L j → i = j

theorem apart_of_holds {l : Links QueueId Proc} {L : QueueId → List Proc} (h : l.Holds L) :
    Apart L := ⟨h.nodup,h.disjoint⟩

private theorem Apart.push {L : QueueId → List Proc} (h : Apart L) (hp : ∀ j, p∉L j) (i : QueueId) :
    Apart (update L i (L i++[p])) := by
  constructor
  · intro k
    by_cases hki : k=i
    · subst hki
      rw [update_self]
      exact nodup_append.mpr ⟨h.nodup k,nodup_singleton p,by
        intro x hx y hy hxy
        rw [mem_singleton.mp hy] at hxy
        exact hp k (hxy ▸ hx)⟩
    · rw [update_of_ne hki]
      exact h.nodup k
  · intro j k q hj hk
    rcases mem_push.mp hj with ⟨rfl,rfl⟩ | hj' <;> rcases mem_push.mp hk with ⟨rfl,hqk⟩ | hk'
    · rfl
    · exact (hp k hk').elim
    · exact (hp j (hqk ▸ hj')).elim
    · exact h.disjoint j k q hj' hk'

@[simp] theorem setList_lists : (b.setList i ps).lists=update b.lists i ps := rfl

theorem BoardOk.length_le (h : BoardOk b) (ha : Apart b.lists) (i : QueueId) :
    (b.lists i).length≤b.totalProcessesAdded := by
  obtain ⟨ps,hps,hlen⟩ := h.bounded
  apply le_trans _ hlen
  apply ((ha.nodup i).subperm _).length_le
  intro p hp
  exact hps p (h.queued i p hp).1

theorem BoardOk.ne_zero (h : BoardOk b) (hp : b.allocated p=true) : p≠0 := by
  rintro rfl
  rw [h.null] at hp
  cases hp

theorem BoardOk.not_mem (h : BoardOk b) (hp : b.allocated p=false) (i : QueueId) :
    p∉b.lists i := by
  intro hi
  rw [(h.queued i p hi).1] at hp
  cases hp

theorem BoardOk.fits (h : BoardOk b) (hp : p∈b.lists i) : i.Fits (b.status p) :=
  (h.queued i p hp).2

private theorem BoardOk.parked_nil (h : BoardOk b) (hsub : ps⊆b.lists .parked) : ps=[] := by
  rw [h.parked] at hsub
  exact subset_nil.mp hsub

section Effects

private theorem BoardOk.enter (h : BoardOk b) (hout : b.CurrentOut) {st : ProcStatus}
    (hfit : i.Fits st) (hst : st ≠ .uninitialized) (hi : i ≠ .parked)
    (hlists : ∀ j p, p∈b'.lists j ↔ (j=i ∧ p=b.current) ∨ p∈b.lists j)
    (hstatus : b'.status=update b.status b.current st)
    (halloc : b'.allocated=b.allocated) (hcurrent : b'.current=b.current)
    (hrest : ∀ p, p≠b.current → b'.rest p=b.rest p)
    (htotal : b'.totalProcessesAdded=b.totalProcessesAdded) : BoardOk b' := by
  have hin : b.current∈b'.lists i := (hlists i _).mpr (inl ⟨rfl,rfl⟩)
  constructor
  · intro j p hp
    rw [halloc,hstatus]
    rcases (hlists j p).mp hp with ⟨rfl,rfl⟩ | hp
    · rw [update_self]
      exact ⟨h.live,hfit⟩
    · rw [update_of_ne (ne_of_mem_of_not_mem hp (hout j))]
      exact h.queued j p hp
  · intro p hp
    rw [halloc] at hp
    rw [hcurrent]
    rcases h.placed p hp with hp | ⟨j,hj⟩
    · exact inl hp
    · exact inr ⟨j,(hlists j p).mpr (inr hj)⟩
  · rw [halloc,hcurrent]
    exact h.live
  · rw [halloc]
    exact h.null
  · intro hout'
    rw [← hcurrent] at hin
    exact (hout' i hin).elim
  · intro p hp hun
    rw [halloc] at hp
    rw [hstatus] at hun
    by_cases hpc : p=b.current
    · rw [hpc,update_self] at hun
      exact (hst hun).elim
    · rw [update_of_ne hpc] at hun
      rw [hrest p hpc]
      exact h.fresh p hp hun
  · exact h.parked_nil fun p hp => ((hlists _ p).mp hp).resolve_left fun hp => hi hp.1.symm
  · rw [halloc,htotal]
    exact h.bounded

theorem BoardOk.block (h : BoardOk b) (hout : b.CurrentOut) (w : WaitQueue) :
    BoardOk (b.block w) := by
  have hfit : QueueId.Fits (.waiting w) .blocked := rfl
  exact h.enter hout hfit (by decide) (by simp) (fun _ _ => mem_push) rfl rfl rfl
    (fun _ _ => rfl) rfl

theorem BoardOk.waitFor (h : BoardOk b) (hout : b.CurrentOut) (pid : Int) (child : Proc)
    (slot : Nat) : BoardOk (b.waitFor pid child slot) := by
  have hfit : QueueId.Fits (.waiting (b.waitQueueFor pid child)) .blocked := rfl
  exact h.enter hout hfit (by decide) (by simp) (fun _ _ => mem_push) rfl rfl rfl
    (fun p hp => update_of_ne hp _ _) rfl

theorem mem_takeWhile_append_dropWhile {α : Type*} (f : α → Bool) (xs : List α) (x y : α) :
    x∈xs.takeWhile f++y::xs.dropWhile f ↔ x=y ∨ x∈xs := by
  conv_rhs => rw [← takeWhile_append_dropWhile (p := f) (l := xs)]
  simp only [mem_append,mem_cons]
  tauto

theorem BoardOk.sleep (h : BoardOk b) (hout : b.CurrentOut) (timestamp : Nat) :
    BoardOk (b.sleep timestamp) := by
  have hfit : QueueId.Fits .sleeping .sleepingTimer := rfl
  refine h.enter hout hfit (by decide) (by simp) ?_ rfl rfl rfl (fun _ _ => rfl) rfl
  intro j p
  by_cases hj : j = .sleeping
  · subst hj
    rw [Board.sleep,setList_lists,update_self,mem_takeWhile_append_dropWhile]
    simp
  · simp [Board.sleep,hj]

theorem makeReady_status (t : Tables) (ps : List Proc) (p : Proc) :
    (t.makeReady ps).status p=if p∈ps then .readyToRun else t.status p := rfl

private theorem mem_release (hlist : b.lists i=ps++qs) (hi : i ≠ .readyToRun) (hj : p∈b.lists j) :
    ∃ k, p∈(b.release i ps qs).lists k := by
  by_cases hjr : j = .readyToRun
  · subst hjr
    exact ⟨.readyToRun,by simp [Board.release,hj]⟩
  · by_cases hji : j=i
    · subst hji
      rw [hlist] at hj
      rcases mem_append.mp hj with hp | hq
      · exact ⟨.readyToRun,by simp [Board.release,hp]⟩
      · exact ⟨j,by simp [Board.release,hi,hq]⟩
    · exact ⟨j,by simp [Board.release,hji,hjr,hj]⟩

theorem of_mem_release (hlist : b.lists i=ps++qs) (hj : p∈(b.release i ps qs).lists j) :
    (j = .readyToRun ∧ p∈ps) ∨ (p∈b.lists j ∧ (j=i → i ≠ .readyToRun → p∈qs)) := by
  rcases mem_update.mp hj with ⟨rfl,hin⟩ | ⟨-,hin⟩
  · rcases mem_append.mp hin with hin | hin
    · exact inr ⟨hin,fun hji hi => (hi hji.symm).elim⟩
    · exact inl ⟨rfl,hin⟩
  · rcases mem_update.mp hin with ⟨rfl,hqs⟩ | ⟨hji,hin⟩
    · exact inr ⟨by rw [hlist]; exact mem_append_right _ hqs,fun _ _ => hqs⟩
    · exact inr ⟨hin,fun hji' => (hji hji').elim⟩

section

variable (h : BoardOk b) (ha : Apart b.lists)
include h ha

private theorem BoardOk.release (hlist : b.lists i=ps++qs)
    (hi : i ≠ .readyToRun) (hp : i ≠ .parked) : BoardOk (b.release i ps qs) := by
  have hps : ∀ p∈ps, p∈b.lists i := fun p hp => by rw [hlist]; exact mem_append_left _ hp
  constructor
  · intro j p hj
    change _ ∧ j.Fits ((b.makeReady ps).status p)
    rw [makeReady_status]
    rcases of_mem_release hlist hj with ⟨rfl,hp⟩ | ⟨hp,hqs⟩
    · rw [if_pos hp]
      exact ⟨(h.queued i p (hps p hp)).1,inl rfl⟩
    · -- a process that stays in its queue does not change its status
      have hnot : p∉ps := by
        intro hin
        have hji := ha.disjoint j i p hp (hps p hin)
        have hnodup := ha.nodup i
        rw [hlist] at hnodup
        exact (nodup_append.mp hnodup).2.2 p hin p (hqs hji hi) rfl
      rw [if_neg hnot]
      exact h.queued j p hp
  · intro p hp
    rcases h.placed p hp with hp | ⟨j,hj⟩
    · exact inl hp
    · exact inr (mem_release hlist hi hj)
  · exact h.live
  · exact h.null
  · intro hout
    have hout' : b.CurrentOut := by
      intro j hj
      obtain ⟨k,hk⟩ := mem_release hlist hi hj
      exact hout k hk
    change (b.makeReady ps).status b.current=_ ∨ (b.makeReady ps).status b.current=_
    rw [makeReady_status,if_neg fun hc => hout' i (hps _ hc)]
    exact h.out hout'
  · intro p hp hun
    change (b.makeReady ps).status p=_ at hun
    rw [makeReady_status] at hun
    split_ifs at hun
    exact h.fresh p hp hun
  · rw [Board.release]
    simp [hp.symm,h.parked]
  · exact h.bounded

theorem BoardOk.wake (w : WaitQueue) : BoardOk (b.wake w) :=
  h.release ha (take_append_drop 1 _).symm (by simp) (by simp)

theorem BoardOk.wakeAll (w : WaitQueue) : BoardOk (b.wakeAll w) :=
  h.release ha (append_nil _).symm (by simp) (by simp)

theorem BoardOk.wakeSleepers (timestamp : Nat) : BoardOk (b.wakeSleepers timestamp) :=
  h.release ha takeWhile_append_dropWhile.symm (by simp) (by simp)

end

private theorem BoardOk.create (h : BoardOk b) (hp : b.allocated p=false) (hp0 : p≠0)
    (hlists : b'.lists=update b.lists .readyToRun (b.lists .readyToRun++[p]))
    (hstatus : ∀ q, q≠p → b'.status q=b.status q)
    (hnew : b'.status p = .readyToRun ∨ (b'.status p = .uninitialized ∧ b'.rest p=[.prelude]))
    (hrest : ∀ q, q≠p → b'.rest q=b.rest q)
    (halloc : b'.allocated=update b.allocated p true)
    (hcurrent : b'.current=b.current)
    (htotal : b'.totalProcessesAdded=b.totalProcessesAdded + 1) : BoardOk b' := by
  have hmem : ∀ j q, q∈b'.lists j ↔ (j = .readyToRun ∧ q=p) ∨ q∈b.lists j := by
    intro j q
    rw [hlists]
    exact mem_push
  have hnot : ∀ q, b.allocated q=true → q≠p := by
    rintro q hq rfl
    rw [hp] at hq
    cases hq
  have hkeep : ∀ q, b.allocated q=true → b'.allocated q=true ∧ b'.status q=b.status q := by
    intro q hq
    rw [halloc,update_of_ne (hnot q hq)]
    exact ⟨hq,hstatus q (hnot q hq)⟩
  constructor
  · intro j q hq
    rcases (hmem j q).mp hq with ⟨rfl,rfl⟩ | hq
    · rw [halloc,update_self]
      exact ⟨rfl,hnew.imp id And.left⟩
    · obtain ⟨halloc,hfit⟩ := h.queued j q hq
      rw [(hkeep q halloc).2]
      exact ⟨(hkeep q halloc).1,hfit⟩
  · intro q hq
    rw [hcurrent]
    by_cases hqp : q=p
    · exact inr ⟨.readyToRun,(hmem _ q).mpr (inl ⟨rfl,hqp⟩)⟩
    · rw [halloc,update_of_ne hqp] at hq
      rcases h.placed q hq with hq | ⟨j,hj⟩
      · exact inl hq
      · exact inr ⟨j,(hmem j q).mpr (inr hj)⟩
  · rw [hcurrent]
    exact (hkeep _ h.live).1
  · rw [halloc,update_of_ne hp0.symm]
    exact h.null
  · intro hout
    rw [hcurrent,(hkeep _ h.live).2]
    apply h.out
    intro j hj
    apply hout j
    rw [hcurrent]
    exact (hmem j _).mpr (inr hj)
  · intro q hq hun
    by_cases hqp : q=p
    · subst hqp
      rcases hnew with hnew | hnew
      · rw [hnew] at hun
        cases hun
      · exact hnew.2
    · rw [halloc,update_of_ne hqp] at hq
      rw [hstatus q hqp] at hun
      rw [hrest q hqp]
      exact h.fresh q hq hun
  · rw [hlists,update_of_ne (by simp)]
    exact h.parked
  · obtain ⟨ps,hps,hlen⟩ := h.bounded
    refine ⟨p::ps,?_,?_⟩
    · intro q hq
      by_cases hqp : q=p
      · exact mem_cons.mpr (inl hqp)
      · rw [halloc,update_of_ne hqp] at hq
        exact mem_cons_of_mem p (hps q hq)
    · rw [htotal,length_cons]
      omega

theorem BoardOk.spawn (h : BoardOk b) (hp : b.allocated p=false) (hp0 : p≠0) :
    BoardOk (b.spawn p) := by
  refine h.create hp hp0 rfl ?_ (inr ⟨?_,?_⟩) ?_ rfl rfl rfl
  · intro q hq
    exact update_of_ne hq _ _
  · exact update_self _ _ _
  · exact update_self _ _ _
  · intro q hq
    exact update_of_ne hq _ _

theorem forkSlot_ok {t : Tables} {frame : InterruptFrame} {slot : Nat}
    (h : t.forkSlot c frame = .ok slot) : t.procChildFindNull t.current=some slot ∧ c≠0 := by
  rw [Tables.forkSlot] at h
  cases hslot : t.procChildFindNull t.current with
  | none =>
    rw [hslot] at h
    split_ifs at h
  | some slot' =>
    rw [hslot] at h
    split_ifs at h with _ _ hc
    cases h
    exact ⟨rfl,hc⟩

theorem forkSlot_error {t : Tables} {frame : InterruptFrame} {e : Int}
    (h : t.forkSlot c frame = .error e) : 0<e := by
  rw [Tables.forkSlot] at h
  cases hslot : t.procChildFindNull t.current <;> rw [hslot] at h <;> split_ifs at h <;> cases h <;>
    decide

theorem BoardOk.fork (h : BoardOk b) (hc : b.allocated c=false) (frame : InterruptFrame) :
    BoardOk (b.fork c frame).2 := by
  rw [Board.fork]
  split
  · exact h
  · next hslot =>
    refine h.create hc (forkSlot_ok hslot).2 rfl ?_ (inl ?_) ?_ rfl rfl rfl
    · intro q hq
      change update (update b.status c _) c _ q=_
      rw [update_of_ne hq,update_of_ne hq]
    · exact update_self _ _ _
    · intro q hq
      change update (update b.rest c _) c _ q=_
      rw [update_of_ne hq,update_of_ne hq]

theorem mem_die (ha : Apart b.lists) {code : Int} :
    q∈(b.die p code).lists j ↔ (j = .readyToDie ∧ q=p) ∨ (q≠p ∧ q∈b.lists j) := by
  by_cases hj : j = .readyToDie
  · subst hj
    simp only [Board.die,update_self,mem_cons,(ha.nodup _).mem_erase_iff,true_and]
  · simp only [Board.die,update_of_ne hj,(ha.nodup _).mem_erase_iff,hj,false_and,false_or]

theorem BoardOk.die (h : BoardOk b) (ha : Apart b.lists) (hp : b.allocated p=true)
    (code : Int) : BoardOk (b.die p code) := by
  have hother : ∀ q, q≠p → (b.die p code).status q=b.status q :=
    fun q hq => update_of_ne hq _ _
  have hself : (b.die p code).status p = .readyToDie := update_self _ _ _
  constructor
  · intro j q hq
    rcases (mem_die ha).mp hq with ⟨rfl,rfl⟩ | ⟨hqp,hq⟩
    · exact ⟨hp,hself⟩
    · rw [hother q hqp]
      exact h.queued j q hq
  · intro q hq
    by_cases hqp : q=p
    · exact inr ⟨.readyToDie,(mem_die ha).mpr (inl ⟨rfl,hqp⟩)⟩
    · rcases h.placed q hq with hq | ⟨j,hj⟩
      · exact inl hq
      · exact inr ⟨j,(mem_die ha).mpr (inr ⟨hqp,hj⟩)⟩
  · exact h.live
  · exact h.null
  · intro hout
    have hcp : b.current≠p := fun hcp => hout .readyToDie ((mem_die ha).mpr (inl ⟨rfl,hcp⟩))
    change (b.die p code).status b.current=_ ∨ (b.die p code).status b.current=_
    rw [hother _ hcp]
    exact h.out fun j hj => hout j ((mem_die ha).mpr (inr ⟨hcp,hj⟩))
  · intro q hq hun
    by_cases hqp : q=p
    · rw [hqp,hself] at hun
      cases hun
    · rw [hother q hqp] at hun
      exact h.fresh q hq hun
  · exact h.parked_nil fun q hq => (((mem_die ha).mp hq).resolve_left (by simp)).2
  · exact h.bounded

theorem BoardOk.out_of_running (h : BoardOk b) (hp : b.status p = .running) (i : QueueId) :
    p∉b.lists i := by
  intro hi
  have hfit := h.fits hi
  rw [hp] at hfit
  cases i <;> simp [QueueId.Fits] at hfit

theorem switchTo_status (t : Tables) (r : Rest) (p q : Proc) :
    (t.switchTo r p).status q =
      if q=p ∧ t.status p ≠ .uninitialized then .running else t.status q := by
  rw [Tables.switchTo]
  split_ifs with hun hq hq
  · exact (hq.2 hun).elim
  · rfl
  · rw [hq.1]
    exact update_self _ _ _
  · apply update_of_ne
    intro hqp
    exact hq ⟨hqp,hun⟩

private theorem BoardOk.switch (h : BoardOk b) (ha : Apart b.lists) (hin : ∃ i, b.current∈b.lists i)
    {next : Proc} {ready : List Proc} (hready : b.lists .readyToRun=next::ready)
    (hun : b.status b.current ≠ .uninitialized) {r : Rest}
    (hlists : b'.lists=update b.lists .readyToRun ready)
    (htables : b'.toTables=b.switchTo r next) : BoardOk b' ∧ b'.CurrentOut := by
  have hnext : next∈b.lists .readyToRun := by rw [hready]; exact mem_cons_self
  have hnodup := ha.nodup .readyToRun
  rw [hready,nodup_cons] at hnodup
  have hmem : ∀ j q, q∈b'.lists j ↔ q≠next ∧ q∈b.lists j := by
    intro j q
    rw [hlists]
    constructor
    · intro hq
      rcases mem_update.mp hq with ⟨rfl,hq⟩ | ⟨hj,hq⟩
      · exact ⟨ne_of_mem_of_not_mem hq hnodup.1,by rw [hready]; exact mem_cons_of_mem _ hq⟩
      · refine ⟨?_,hq⟩
        rintro rfl
        exact hj (ha.disjoint _ _ q hq hnext)
    · rintro ⟨hqn,hq⟩
      by_cases hj : j = .readyToRun
      · rw [hj,hready] at hq
        exact mem_update.mpr (inl ⟨hj,(mem_cons.mp hq).resolve_left hqn⟩)
      · exact mem_update.mpr (inr ⟨hj,hq⟩)
  have hstatus : ∀ q, b'.status q =
      if q=next ∧ b.status next ≠ .uninitialized then .running else b.status q := by
    intro q
    rw [htables]
    exact switchTo_status _ _ _ _
  have halloc : b'.allocated=b.allocated := by
    rw [htables]
    rfl
  have hcurrent : b'.current=next := congrArg Tables.current htables
  have hrest : b'.rest=update b.rest b.current (r::b.rest b.current) :=
    congrArg Tables.rest htables
  have htotal : b'.totalProcessesAdded=b.totalProcessesAdded := by
    rw [htables]
    rfl
  have hfit := h.fits hnext
  have hout : b'.CurrentOut := by
    intro j hj
    rw [hcurrent] at hj
    exact ((hmem j next).mp hj).1 rfl
  refine ⟨?_,hout⟩
  constructor
  · intro j q hq
    obtain ⟨hqn,hq⟩ := (hmem j q).mp hq
    rw [halloc,hstatus,if_neg fun hq => hqn hq.1]
    exact h.queued j q hq
  · intro q hq
    rw [halloc] at hq
    rw [hcurrent]
    by_cases hqn : q=next
    · exact inl hqn
    · rcases h.placed q hq with rfl | ⟨j,hj⟩
      · obtain ⟨j,hj⟩ := hin
        exact inr ⟨j,(hmem j _).mpr ⟨hqn,hj⟩⟩
      · exact inr ⟨j,(hmem j q).mpr ⟨hqn,hj⟩⟩
  · rw [halloc,hcurrent]
    exact (h.queued _ next hnext).1
  · rw [halloc]
    exact h.null
  · intro _
    rw [hcurrent,hstatus]
    split_ifs with hq
    · exact inl rfl
    · right
      by_contra hne
      exact hq ⟨rfl,hne⟩
  · intro q hq hqun
    rw [halloc] at hq
    rw [hstatus] at hqun
    split_ifs at hqun
    rw [hrest,update_of_ne]
    · exact h.fresh q hq hqun
    · rintro rfl
      exact hun hqun
  · exact h.parked_nil fun q hq => ((hmem _ q).mp hq).2
  · rw [halloc,htotal]
    exact h.bounded

def Board.requeue (b : Board) : Board :=
  { b.setList .readyToRun (b.lists .readyToRun ++ [b.current]) with
    toTables := b.setStatus b.current .readyToRun }

private theorem BoardOk.requeue (h : BoardOk b) (hrun : b.status b.current = .running) :
    BoardOk b.requeue := by
  have hfit : QueueId.Fits .readyToRun .readyToRun := inl rfl
  have hout : b.CurrentOut := h.out_of_running hrun
  exact h.enter hout hfit (by decide) (by simp) (fun _ _ => mem_push) rfl rfl rfl
    (fun _ _ => rfl) rfl

theorem dispatch_of_running {next : Proc} {ready : List Proc}
    (hready : b.lists .readyToRun=next::ready) (hrun : b.status b.current = .running) :
    b.dispatch = { b.requeue.setList .readyToRun (ready++[b.current]) with
      toTables := b.requeue.switchTo .unlock next } := by
  rw [Board.dispatch,hready]
  dsimp only
  rw [if_pos hrun]
  simp [Board.requeue,Board.setList]

/-- A context switch leaves every process in one place, and the current one in no queue, unless
there is nothing to switch to. -/
theorem BoardOk.dispatch (h : BoardOk b) (ha : Apart b.lists)
    (hun : b.status b.current ≠ .uninitialized) (hready : b.lists .readyToRun≠[] ∨ b.CurrentOut) :
    BoardOk b.dispatch ∧ b.dispatch.CurrentOut := by
  cases hlist : b.lists .readyToRun with
  | nil =>
    have hstay : b.dispatch=b := by
      rw [Board.dispatch,hlist]
    rw [hstay]
    exact ⟨h,hready.resolve_left fun hne => hne hlist⟩
  | cons next ready =>
    by_cases hrun : b.status b.current = .running
    · have hout : b.CurrentOut := h.out_of_running hrun
      have happ : b.requeue.lists .readyToRun=next::(ready++[b.current]) := by
        simp [Board.requeue,hlist]
      have hap : Apart b.requeue.lists := ha.push hout .readyToRun
      rw [dispatch_of_running hlist hrun]
      refine (h.requeue hrun).switch hap ⟨.readyToRun,?_⟩ happ ?_ rfl rfl
      · rw [happ]
        change b.current∈_
        simp
      · change update b.status b.current _ b.current≠_
        rw [update_self]
        decide
    · have hin : ∃ i, b.current∈b.lists i := by
        by_contra hno
        push Not at hno
        rcases h.out hno with hr | hu
        · exact hrun hr
        · exact hun hu
      rw [Board.dispatch,hlist]
      dsimp only
      rw [if_neg hrun]
      exact h.switch ha hin hlist hun rfl rfl

/-- The fields of a table that freeing a process does not touch. -/
structure SameBut (t t' : Tables) : Prop where
  status : t'.status = t.status
  rest : t'.rest = t.rest
  current : t'.current = t.current
  total : t'.totalProcessesAdded = t.totalProcessesAdded
  pid : t'.pid = t.pid
  exitCode : t'.exitCode = t.exitCode
  semaphores : t'.semaphores = t.semaphores

private theorem SameBut.refl (t : Tables) : SameBut t t := ⟨rfl,rfl,rfl,rfl,rfl,rfl,rfl⟩

private theorem SameBut.trans {t₁ t₂ t₃ : Tables} (h₁ : SameBut t₁ t₂) (h₂ : SameBut t₂ t₃) :
    SameBut t₁ t₃ :=
  ⟨h₂.status.trans h₁.status,h₂.rest.trans h₁.rest,h₂.current.trans h₁.current,
    h₂.total.trans h₁.total,h₂.pid.trans h₁.pid,h₂.exitCode.trans h₁.exitCode,
    h₂.semaphores.trans h₁.semaphores⟩

private theorem BoardOk.free (h : BoardOk b) (ha : Apart b.lists)
    (hrun : b.status b.current ≠ .readyToDie) (hsame : SameBut b.toTables b'.toTables)
    (hlists : b'.lists=update b.lists .readyToDie ps)
    (hkept : ∀ q, q∈ps ↔ q∈b.lists .readyToDie ∧ b'.allocated q=true)
    (hother : ∀ q, q∉b.lists .readyToDie → b'.allocated q=b.allocated q) : BoardOk b' := by
  have hmem : ∀ j q, q∈b'.lists j ↔ q∈b.lists j ∧ b'.allocated q=true := by
    intro j q
    rw [hlists]
    by_cases hj : j = .readyToDie
    · rw [hj,update_self]
      exact hkept q
    · rw [update_of_ne hj]
      refine ⟨fun hq => ⟨hq,?_⟩,And.left⟩
      rw [hother q fun hdie => hj (ha.disjoint _ _ q hq hdie)]
      exact (h.queued j q hq).1
  have halloc : ∀ q, b'.allocated q=true → b.allocated q=true := by
    intro q hq
    by_cases hdie : q∈b.lists .readyToDie
    · exact (h.queued _ q hdie).1
    · rwa [hother q hdie] at hq
  have hlive : b'.allocated b.current=true := by
    rw [hother _ fun hdie => hrun (h.fits hdie)]
    exact h.live
  constructor
  · intro j q hq
    obtain ⟨hq,hfree⟩ := (hmem j q).mp hq
    rw [hsame.status]
    exact ⟨hfree,h.fits hq⟩
  · intro q hq
    rw [hsame.current]
    rcases h.placed q (halloc q hq) with hqc | ⟨j,hj⟩
    · exact inl hqc
    · exact inr ⟨j,(hmem j q).mpr ⟨hj,hq⟩⟩
  · rw [hsame.current]
    exact hlive
  · by_contra h0
    have h0' := halloc 0 (by simpa using h0)
    rw [h.null] at h0'
    cases h0'
  · intro hout
    rw [hsame.current,hsame.status]
    apply h.out
    intro j hj
    apply hout j
    rw [hsame.current]
    exact (hmem j _).mpr ⟨hj,hlive⟩
  · intro q hq hun
    rw [hsame.rest]
    rw [hsame.status] at hun
    exact h.fresh q (halloc q hq) hun
  · exact h.parked_nil fun q hq => ((hmem _ q).mp hq).1
  · obtain ⟨ps,hps,hlen⟩ := h.bounded
    rw [hsame.total]
    exact ⟨ps,fun q hq => hps q (halloc q hq),hlen⟩

section Free

variable {t : Tables}

private theorem sameBut_clearSlotOf (t : Tables) (p : Proc) :
    SameBut t (t.clearSlotOf p) ∧ (t.clearSlotOf p).allocated=t.allocated := by
  rw [Tables.clearSlotOf]
  split
  · exact ⟨SameBut.refl t,rfl⟩
  · exact ⟨⟨rfl,rfl,rfl,rfl,rfl,rfl,rfl⟩,rfl⟩

theorem sameBut_procFree (t : Tables) (p : Proc) : SameBut t (t.procFree p) := by
  rw [Tables.procFree]
  split_ifs
  · apply (sameBut_clearSlotOf t p).1.trans
    exact ⟨rfl,rfl,rfl,rfl,rfl,rfl,rfl⟩
  · exact ⟨rfl,rfl,rfl,rfl,rfl,rfl,rfl⟩

theorem procFree_allocated (t : Tables) (p : Proc) :
    (t.procFree p).allocated=update t.allocated p false := by
  rw [Tables.procFree]
  split_ifs
  · change update (t.clearSlotOf p).allocated p false=_
    rw [(sameBut_clearSlotOf t p).2]
  · rfl

/-- What a round of the terminator keeps of the die queue, and that it frees the rest. -/
private theorem reapList_spec (ps kept : List Proc) (t : Tables) (hps : (ps++kept).Nodup) :
    SameBut t (Board.reapList ps t kept).1 ∧
      (∀ p∈(Board.reapList ps t kept).2, p∈kept ∨ p∈ps) ∧
      (∀ p∈kept, p∈(Board.reapList ps t kept).2) ∧
      ∀ p, (Board.reapList ps t kept).1.allocated p =
        if p∈ps ∧ p∉(Board.reapList ps t kept).2 then false else t.allocated p := by
  induction ps generalizing t kept with
  | nil => exact ⟨SameBut.refl t,fun p hp => inl hp,fun p hp => hp,fun p => by
      rw [if_neg (by simp)]
      rfl⟩
  | cons p ps ih =>
    obtain ⟨hpnot,hnodup⟩ := nodup_cons.mp hps
    rw [Board.reapList]
    split_ifs with hpar
    · have hnodup' : (ps++p::kept).Nodup := by
        rw [perm_middle.nodup_iff]
        exact hps
      obtain ⟨hsame,hfrom,hkeep,halloc⟩ := ih (p::kept) t hnodup'
      have hpkept : p∈(Board.reapList ps t (p::kept)).2 := hkeep p mem_cons_self
      refine ⟨hsame,?_,fun q hq => hkeep q (mem_cons_of_mem p hq),?_⟩
      · intro q hq
        rcases hfrom q hq with hq | hq
        · rcases mem_cons.mp hq with rfl | hq
          · exact inr mem_cons_self
          · exact inl hq
        · exact inr (mem_cons_of_mem p hq)
      · intro q
        rw [halloc q]
        congr 1
        rw [mem_cons,eq_iff_iff]
        constructor
        · exact fun hq => ⟨inr hq.1,hq.2⟩
        · rintro ⟨rfl | hq,hnot⟩
          · exact (hnot hpkept).elim
          · exact ⟨hq,hnot⟩
    · obtain ⟨hsame,hfrom,hkeep,halloc⟩ := ih kept (t.procFree p) hnodup
      refine ⟨(sameBut_procFree t p).trans hsame,?_,hkeep,?_⟩
      · intro q hq
        exact (hfrom q hq).imp id (mem_cons_of_mem p)
      · intro q
        rw [halloc q,procFree_allocated,update_apply]
        by_cases hqp : q=p
        · subst hqp
          have hnot : q∉(Board.reapList ps (t.procFree q) kept).2 := by
            intro hq
            rcases hfrom q hq with hq | hq
            · exact hpnot (mem_append_right _ hq)
            · exact hpnot (mem_append_left _ hq)
          simp [hnot]
        · simp [hqp]

private theorem reap_spec (ha : Apart b.lists) :
    SameBut b.toTables b.reap.toTables ∧
      (∀ p∈(Board.reapList (b.lists .readyToDie) b.toTables []).2, p∈b.lists .readyToDie) ∧
      ∀ p, b.reap.allocated p =
        if p∈b.lists .readyToDie ∧ p∉(Board.reapList (b.lists .readyToDie) b.toTables []).2 then
          false else b.allocated p := by
  have hnodup : (b.lists .readyToDie++[]).Nodup := by
    rw [append_nil]
    exact ha.nodup _
  obtain ⟨hsame,hfrom,-,halloc⟩ := reapList_spec _ [] b.toTables hnodup
  exact ⟨hsame,fun p hp => (hfrom p hp).resolve_left not_mem_nil,halloc⟩

theorem reap_same (ha : Apart b.lists) : SameBut b.toTables b.reap.toTables := (reap_spec ha).1

theorem mem_of_reap (ha : Apart b.lists) (hp : p∈b.reap.lists i) : p∈b.lists i := by
  rcases mem_update.mp hp with ⟨rfl,hp⟩ | ⟨-,hp⟩
  · exact (reap_spec ha).2.1 p hp
  · exact hp

theorem allocated_of_reap (ha : Apart b.lists) (hp : b.reap.allocated p=true) :
    b.allocated p=true := by
  rw [(reap_spec ha).2.2 p] at hp
  split_ifs at hp
  exact hp

/-- A round of the terminator frees only those in the die queue. -/
theorem mem_die_of_reap (ha : Apart b.lists) (hp : b.allocated p=true)
    (hfreed : b.reap.allocated p=false) : p∈b.lists .readyToDie := by
  rw [(reap_spec ha).2.2 p] at hfreed
  split_ifs at hfreed with hin
  · exact hin.1
  · rw [hp] at hfreed
    cases hfreed

theorem BoardOk.reap (h : BoardOk b) (ha : Apart b.lists)
    (hrun : b.status b.current ≠ .readyToDie) : BoardOk b.reap := by
  obtain ⟨hsame,hdie,halloc⟩ := reap_spec ha
  refine h.free ha hrun hsame rfl ?_ ?_
  · intro q
    rw [halloc q]
    constructor
    · intro hq
      rw [if_neg (by tauto)]
      exact ⟨hdie q hq,(h.queued _ q (hdie q hq)).1⟩
    · rintro ⟨hq,hfree⟩
      split_ifs at hfree with hcond
      tauto
  · intro q hq
    rw [halloc q,if_neg fun hcond => hq hcond.1]

theorem BoardOk.mem_die_of_status (h : BoardOk b) (hc : b.allocated c=true)
    (hst : b.status c = .readyToDie) (hcur : c≠b.current) : c∈b.lists .readyToDie := by
  obtain ⟨i,hi⟩ := (h.placed c hc).resolve_left hcur
  have hfit := h.fits hi
  rw [hst] at hfit
  cases i with
  | readyToDie => exact hi
  | parked =>
    rw [h.parked] at hi
    cases hi
  | readyToRun => simp [QueueId.Fits] at hfit
  | sleeping => simp [QueueId.Fits] at hfit
  | waiting w => simp [QueueId.Fits] at hfit

theorem BoardOk.collect (h : BoardOk b) (ha : Apart b.lists)
    (hrun : b.status b.current ≠ .readyToDie) (hc : b.allocated c=true) (slot : Nat) :
    BoardOk (b.collect q c slot).2 := by
  rw [Board.collect]
  split_ifs with hst
  · exact h
  · push Not at hst
    have hcc : c≠b.current := by
      rintro rfl
      exact hrun hst
    have hin := h.mem_die_of_status hc hst hcc
    have hset : SameBut b.toTables ((b.setChild q slot 0).setParent c 0) :=
      ⟨rfl,rfl,rfl,rfl,rfl,rfl,rfl⟩
    have halloc : ∀ p, (((b.setChild q slot 0).setParent c 0).procFree c).allocated p =
        if p=c then false else b.allocated p := by
      intro p
      rw [procFree_allocated,update_apply]
      rfl
    refine h.free ha hrun (hset.trans (sameBut_procFree _ c)) rfl ?_ ?_
    · intro p
      rw [halloc,(ha.nodup _).mem_erase_iff]
      constructor
      · rintro ⟨hpc,hp⟩
        rw [if_neg hpc]
        exact ⟨hp,(h.queued _ p hp).1⟩
      · rintro ⟨hp,hfree⟩
        split_ifs at hfree with hpc
        exact ⟨hpc,hp⟩
    · intro p hp
      rw [halloc,if_neg (ne_of_mem_of_not_mem hin hp).symm]

end Free

theorem BoardOk.dropRest (h : BoardOk b) (hun : b.status b.current ≠ .uninitialized) :
    BoardOk { b with toTables := b.dropRest } := by
  refine ⟨h.queued,h.placed,h.live,h.null,h.out,?_,h.parked,h.bounded⟩
  intro p hp hst
  change update b.rest b.current _ p=_
  rw [update_of_ne]
  · exact h.fresh p hp hst
  · rintro rfl
    exact hun hst

theorem BoardOk.prelude (h : BoardOk b) (hout : b.CurrentOut) :
    BoardOk { b with toTables := b.dropRest.setStatus b.current .running } := by
  have hother : ∀ p, p≠b.current →
      update b.status b.current .running p=b.status p :=
    fun p hp => update_of_ne hp _ _
  refine ⟨?_,h.placed,h.live,h.null,?_,?_,h.parked,h.bounded⟩
  · intro j p hp
    change b.allocated p=true ∧ j.Fits (update b.status b.current .running p)
    rw [hother p (ne_of_mem_of_not_mem hp (hout j))]
    exact h.queued j p hp
  · intro _
    exact inl (update_self _ _ _)
  · intro p hp hst
    change update b.status b.current .running p=_ at hst
    by_cases hpc : p=b.current
    · rw [hpc,update_self] at hst
      cases hst
    · rw [hother p hpc] at hst
      change update b.rest b.current _ p=_
      rw [update_of_ne hpc]
      exact h.fresh p hp hst

end Effects

end Hojicha.Mp
