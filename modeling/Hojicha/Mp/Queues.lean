import Hojicha.Mp.Places

/-!
# The process queues and the order of the ready queue

The operations of `kernel/mp/proc_queue.c` are those of lists, on queues that share no process.
The ready queue is first in, first out, except for processes that are ended in it.
-/

namespace Hojicha.Mp

open Framework Function List Or

variable {s : Sched} {b : Board} {p task : Proc} {op : Op} {L : QueueId → List Proc}

structure ActsOnLists (s : Sched) (L : QueueId → List Proc) : Prop where
  chain : ∀ i fuel, (L i).length ≤ fuel → s.links.toList fuel i = L i
  tail : ∀ i, s.links.tail i = (L i).getLast?.getD 0 ∧ (s.links.tail i = 0 ↔ L i = [])
  pushHead : ∀ i p, p ≠ 0 → (∀ j, p ∉ L j) → (s.pushHead i p).links.Holds (update L i (p :: L i))
  pushTail : ∀ i p, p ≠ 0 → (∀ j, p ∉ L j) →
    (s.pushTail i p).links.Holds (update L i (L i ++ [p]))
  popHead : ∀ i, s.queueHead i = (L i).headD 0 ∧
    (s.popHead i).links.Holds (update L i (L i).tail) ∧
    (L i ≠ [] → (s.popHead i).links.next (s.queueHead i) = 0)
  insertAfter : ∀ i xs a ys p, L i = xs ++ a :: ys → p ≠ 0 → (∀ j, p ∉ L j) →
    (s.insertAfter i a p).links.Holds (update L i (xs ++ a :: p :: ys))
  removeFirst : ∀ i, s.links.removeAfter i 0 = (s.queueHead i, (s.popHead i).links)
  removeAfter : ∀ i xs a ys, L i = xs ++ a :: ys →
    (s.links.removeAfter i a).1 = ys.headD 0 ∧
    (s.links.removeAfter i a).2.Holds (update L i (xs ++ a :: ys.tail)) ∧
    (ys ≠ [] → (s.links.removeAfter i a).2.next (ys.headD 0) = 0)
  remove : ∀ i p fuel, (L i).length ≤ fuel →
    (s.links.remove fuel i p).Holds (update L i ((L i).erase p)) ∧
    (p ∈ L i → (s.links.remove fuel i p).next p = 0)
  splicePrefixTail : ∀ dst src xs z ys, dst ≠ src → L src = xs ++ z :: ys →
    (s.links.splicePrefixTail dst src z).Holds (update (update L src ys) dst (L dst ++ (xs ++ [z])))

private theorem holds_popHead (h : s.links.Holds L) (i : QueueId) :
    s.queueHead i=(L i).headD 0 ∧ (s.popHead i).links.Holds (update L i (L i).tail) ∧
      (L i≠[] → (s.popHead i).links.next (s.queueHead i)=0) := by
  cases hL : L i with
  | nil =>
    have hhead := h.head_eq_zero.mpr hL
    refine ⟨hhead,?_,fun hne => (hne rfl).elim⟩
    rw [Sched.popHead,Links.popHead,if_pos hhead,tail_nil,← hL,update_eq_self]
    exact h
  | cons p ps =>
    refine ⟨h.head_cons hL,h.popHead hL,fun _ => ?_⟩
    have hhead : s.links.head i≠0 := by
      rw [Ne,h.head_eq_zero,hL]
      simp
    rw [Sched.popHead,Links.popHead,if_neg hhead]
    exact update_self _ _ _

private theorem holds_remove (h : s.links.Holds L) {i : QueueId} {fuel : Nat}
    (hfuel : (L i).length≤fuel) : (s.links.remove fuel i p).Holds (update L i ((L i).erase p)) ∧
      (p∈L i → (s.links.remove fuel i p).next p=0) := by
  by_cases hp : p∈L i
  · refine ⟨h.remove hfuel hp,fun _ => ?_⟩
    rw [Links.remove,h.toList_eq hfuel,if_pos hp]
    exact update_self _ _ _
  · refine ⟨?_,fun hmem => (hp hmem).elim⟩
    rw [Links.remove,h.toList_eq hfuel,if_neg hp,erase_of_not_mem hp,update_eq_self]
    exact h

private theorem actsOnLists (h : s.links.Holds L) : ActsOnLists s L where
  chain _ _ hfuel := h.toList_eq hfuel
  tail i := ⟨h.tail i,h.tail_eq_zero⟩
  pushHead i _ hp0 hp := h.pushHead hp0 hp i
  pushTail i _ hp0 hp := h.pushTail hp0 hp i
  popHead := holds_popHead h
  insertAfter _ _ _ _ _ hL hp0 hp := h.insertAfter hL hp0 hp
  removeFirst _ := if_pos rfl
  removeAfter _ _ _ _ hL := h.removeAfter hL
  remove _ _ _ hfuel := holds_remove h hfuel
  splicePrefixTail _ _ _ _ _ hne hL := h.splicePrefixTail hne hL

/-- The processes in the ready queue, in their order. -/
def Sched.ready (s : Sched) : List Proc := s.links.toList s.totalProcessesAdded .readyToRun

/-- The processes that are switched to. -/
def dispatched : Sched → List Op → List Proc
  | _, [] => []
  | s, op :: ops =>
    let s' := (s.perform op).2
    if s'.current = s.current then dispatched s' ops else s'.current :: dispatched s' ops

/-- The step `op` ends `a` in the ready queue. -/
def EndsReady (a : Proc) (s : Sched) (op : Op) : Prop :=
  a ∈ s.ready ∧ s.accepts op = true ∧ ∃ code, op = .exit a code

def TakenOut (a : Proc) : Sched → List Op → Prop
  | _, [] => False
  | s, op :: ops => EndsReady a s op ∨ TakenOut a (s.perform op).2 ops

theorem Tracks.ready (h : Tracks s b) : s.ready=b.lists .readyToRun :=
  h.links.toList_eq (h.fuel .readyToRun)

/-- The same process is current, and the ready queue begins with `ps`. -/
def Begins (b b' : Board) (ps : List Proc) : Prop :=
  b'.current = b.current ∧ ∃ xs, b'.lists .readyToRun = ps ++ xs

private theorem Begins.refl (b : Board) : Begins b b (b.lists .readyToRun) :=
  ⟨rfl,[],(List.append_nil _).symm⟩

private theorem Begins.wakeAll {b' : Board} {ps : List Proc} (h : Begins b b' ps) (w : WaitQueue) :
    Begins b (b'.wakeAll w) ps := by
  obtain ⟨hcurrent,xs,hxs⟩ := h
  refine ⟨hcurrent,xs++b'.lists (.waiting w),?_⟩
  rw [← append_assoc,← hxs]
  rfl

private theorem begins_collect (q c : Proc) (slot : Nat) :
    Begins b (b.collect q c slot).2 (b.lists .readyToRun) := by
  refine ⟨collect_current slot,[],?_⟩
  rw [append_nil,Board.collect]
  split_ifs <;> rfl

private theorem begins_waitpid (pid : Int) (options : Nat) :
    Begins b (b.waitpid pid options).2 (b.lists .readyToRun) := by
  rcases waitpid_cases b pid options with ⟨ret,-,heq⟩ | ⟨slot,-,-,heq⟩ | ⟨slot,-,-,-,heq⟩
  · rw [heq]
    exact Begins.refl b
  · rw [heq]
    exact begins_collect _ _ _
  · rw [heq]
    exact Begins.refl b

private theorem begins_finish : Begins b b.finish.2 (b.lists .readyToRun) := by
  rw [Board.finish]
  split
  · exact Begins.refl b
  · exact Begins.refl b
  · dsimp only
    split_ifs <;> exact Begins.refl b
  · rw [Board.waitpidEnd]
    split
    · exact Begins.refl b
    · exact begins_collect _ _ _

/-- An operation takes nobody out of the ready queue but a process that it ends, and puts others
behind those that are there. -/
private theorem begins_effect (h : Apart b.lists) (op : Op) :
    Begins b (b.effect op).2 (b.lists .readyToRun) ∨
      ∃ q code, op = .exit q code ∧ Begins b (b.effect op).2 ((b.lists .readyToRun).erase q) := by
  cases op with
  | exit q code =>
    rw [show (b.effect (.exit q code)).2=b.exit q code from rfl,Board.exit]
    split_ifs
    · exact inl (Begins.refl b)
    · refine inr ⟨q,code,rfl,?_⟩
      have hdie : Begins b (b.die q code) ((b.lists .readyToRun).erase q) :=
        ⟨rfl,[],(append_nil _).symm⟩
      rw [Board.wakeParent]
      split_ifs
      · exact (hdie.wakeAll _).wakeAll _
      · exact hdie
  | fork c frame =>
    left
    change Begins b (b.fork c frame).2 _
    rw [Board.fork]
    split
    · exact Begins.refl b
    · exact ⟨rfl,[c],rfl⟩
  | semaphoreLock k =>
    left
    change Begins b (ite _ _ _ : Board) _
    split_ifs <;> exact Begins.refl b
  | semaphoreTryLock k =>
    left
    rw [Board.effect]
    split_ifs <;> exact Begins.refl b
  | semaphoreUnlock k =>
    left
    change Begins b (ite _ _ _ : Board) _
    split_ifs
    · exact ⟨rfl,_,rfl⟩
    · exact Begins.refl b
  | waitpid pid options => exact inl (begins_waitpid pid options)
  | reap => exact inl ⟨(reap_same h).current,[],(append_nil _).symm⟩
  | finish => exact inl begins_finish
  | addProc p => exact inl ⟨rfl,[p],rfl⟩
  | wakeOne k => exact inl ⟨rfl,_,rfl⟩
  | wakeAll k => exact inl ⟨rfl,_,rfl⟩
  | timer t => exact inl ⟨rfl,_,rfl⟩
  | _ => exact inl (Begins.refl b)

theorem dispatch_first {next : Proc} {ready : List Proc}
    (hready : b.lists .readyToRun=next::ready) :
    b.dispatch.current=next ∧ ∃ xs, b.dispatch.lists .readyToRun=ready++xs := by
  rw [Board.dispatch,hready]
  dsimp only
  split_ifs
  · exact ⟨rfl,[b.current],rfl⟩
  · exact ⟨rfl,[],(append_nil _).symm⟩

/-- Those ahead of `p` in the ready queue, after what the operation did and before the switch. -/
private theorem Runs.ahead_effect (h : Runs task s b) (haccept : s.accepts op=true)
    {ahead behind : List Proc} (hready : b.lists .readyToRun=ahead++p::behind)
    (hp : ¬ EndsReady p s op) :
    ∃ ahead' removed, Begins b (b.effect op).2 (ahead'++[p]) ∧ ahead.Perm (ahead'++removed) ∧
      ahead'.Sublist ahead ∧ ∀ a∈removed, EndsReady a s op := by
  have hsched : s.ready=ahead++p::behind := h.tracks.ready.trans hready
  rcases begins_effect h.tracks.apart op with ⟨hcurrent,xs,hxs⟩ | ⟨q,code,rfl,hcurrent,xs,hxs⟩
  · refine ⟨ahead,[],⟨hcurrent,behind++xs,?_⟩,by simp,List.Sublist.refl _,by simp⟩
    rw [hxs,hready]
    simp
  · have hqp : q≠p := by
      rintro rfl
      exact hp ⟨by rw [hsched]; simp,haccept,code,rfl⟩
    by_cases hq : q∈ahead
    · refine ⟨ahead.erase q,[q],⟨hcurrent,behind++xs,?_⟩,?_,erase_sublist,?_⟩
      · rw [hxs,hready,erase_append_left _ hq]
        simp
      · exact (perm_cons_erase hq).trans (perm_append_singleton q _).symm
      · intro a ha
        rw [mem_singleton.mp ha]
        exact ⟨by rw [hsched]; simp [hq],haccept,code,rfl⟩
    · refine ⟨ahead,[],⟨hcurrent,behind.erase q++xs,?_⟩,by simp,List.Sublist.refl _,by simp⟩
      rw [hxs,hready,erase_append_right _ hq,erase_cons_tail (by simpa using hqp.symm)]
      simp

/-- A step leaves `p` where it is, or dispatches the first of those up to `p`. -/
private theorem Runs.ahead_step (h : Runs task s b) (hallowed : s.Allowed task op)
    {ahead behind : List Proc} (hready : b.lists .readyToRun=ahead++p::behind)
    (hp : ¬ EndsReady p s op) :
    ∃ b' ahead' removed, Runs task (s.perform op).2 b' ∧ ahead.Perm (ahead'++removed) ∧
      ahead'.Sublist ahead ∧ (∀ a∈removed, EndsReady a s op) ∧
      ((s.perform op).2.current=s.current ∧
          (∃ behind', b'.lists .readyToRun=ahead'++p::behind') ∨
        ∃ next rest, ahead'++[p]=next::rest ∧ (s.perform op).2.current=next ∧ next≠s.current ∧
          ∃ xs, b'.lists .readyToRun=rest++xs) := by
  have hcurrent := h.tracks.current
  rcases h.perform hallowed with ⟨haccept,-,-,b',hruns,hb'⟩ | ⟨-,hstay⟩
  · obtain ⟨ahead',removed,⟨hsame,xs,hxs⟩,hperm,hsub,hremoved⟩ := h.ahead_effect haccept hready hp
    have hcurrent' : (s.perform op).2.current=b'.current := by rw [hruns.tracks.tables]
    refine ⟨b',ahead',removed,hruns,hperm,hsub,hremoved,?_⟩
    rcases hb' with rfl | rfl
    · refine inl ⟨hcurrent'.trans (hsame.trans hcurrent.symm),xs,?_⟩
      rw [hxs]
      simp
    · obtain ⟨next,rest,hnext⟩ : ∃ next rest, ahead'++[p]=next::rest :=
        exists_cons_of_ne_nil (by simp)
      obtain ⟨hdispatch,ys,hys⟩ := dispatch_first (show _=next::(rest++xs) by rw [hxs,hnext]; rfl)
      refine inr ⟨next,rest,hnext,hcurrent'.trans hdispatch,?_,xs++ys,by rw [hys]; simp⟩
      -- the first process was in the ready queue before, and the current one in no queue
      have hmem : next∈ahead'++[p] := by
        rw [hnext]
        exact mem_cons_self
      rintro rfl
      refine h.out .readyToRun ?_
      rw [← hcurrent,hready]
      rcases mem_append.mp hmem with hmem | hmem
      · exact mem_append_left _ (hsub.subset hmem)
      · rw [mem_singleton.mp hmem]
        simp
  · rw [hstay]
    exact ⟨b,ahead,[],h,by simp,List.Sublist.refl _,by simp,inl ⟨rfl,behind,hready⟩⟩

private theorem Runs.dispatched_behind {ops : List Op} {ahead behind earlier : List Proc}
    (h : Runs task s b) (hall : Always Sched.perform (Sched.Allowed task) s ops)
    (hready : b.lists .readyToRun=ahead++p::behind) (hrun : dispatched s ops=earlier++[p])
    (hfirst : p∉earlier) (hp : ¬ TakenOut p s ops) :
    ∃ removed, ahead.Perm (earlier++removed) ∧ earlier.Sublist ahead ∧
      ∀ a∈removed, TakenOut a s ops := by
  induction ops generalizing s b ahead behind earlier with
  | nil => simp [dispatched] at hrun
  | cons op ops ih =>
    have hnot : p∉ahead := by
      have hnodup := h.tracks.apart.nodup .readyToRun
      rw [hready] at hnodup
      exact fun hmem => (nodup_append.mp hnodup).2.2 p hmem p mem_cons_self rfl
    obtain ⟨b',ahead',removed,hruns,hperm,hsub,hremoved,hstep⟩ :=
      h.ahead_step hall.1 hready fun hends => hp (inl hends)
    have hp' : ¬ TakenOut p (s.perform op).2 ops := fun hlater => hp (inr hlater)
    rw [dispatched] at hrun
    rcases hstep with ⟨hsame,behind',hready'⟩ | ⟨next,rest,hnext,hcurrent,hne,xs,hready'⟩
    · rw [if_pos hsame] at hrun
      obtain ⟨removed',hperm',hsub',hremoved'⟩ := ih hruns hall.2 hready' hrun hfirst hp'
      refine ⟨removed'++removed,?_,hsub'.trans hsub,?_⟩
      · rw [← append_assoc]
        exact hperm.trans (hperm'.append_right removed)
      · intro a ha
        exact (mem_append.mp ha).symm.imp (hremoved a) (hremoved' a)
    · rw [if_neg (by rwa [hcurrent]),hcurrent] at hrun
      cases ahead' with
      | nil =>
        -- it is the turn of `p`, which is not dispatched before
        cases earlier with
        | nil => exact ⟨removed,hperm,nil_sublist _,fun a ha => inl (hremoved a ha)⟩
        | cons e earlier =>
          have hpn : p=next := (cons.inj hnext).1
          have hen : next=e := (cons.inj hrun).1
          exact (hfirst (by rw [hpn,hen]; exact mem_cons_self)).elim
      | cons a ahead' =>
        obtain ⟨rfl,hrest⟩ := cons.inj hnext
        cases earlier with
        | nil =>
          have hap : a=p := (cons.inj hrun).1
          exact (hnot (hsub.subset (by rw [hap]; exact mem_cons_self))).elim
        | cons e earlier =>
          obtain ⟨rfl,hlater⟩ := cons.inj hrun
          rw [← hrest,append_eq,append_assoc] at hready'
          obtain ⟨removed',hperm',hsub',hremoved'⟩ := ih hruns hall.2 hready' hlater
            (fun hmem => hfirst (mem_cons_of_mem a hmem)) hp'
          refine ⟨removed'++removed,?_,(hsub'.cons_cons a).trans hsub,?_⟩
          · rw [← append_assoc]
            exact hperm.trans ((hperm'.cons a).append_right removed)
          · intro a ha
            exact (mem_append.mp ha).symm.imp (hremoved a) (hremoved' a)

/-- The queue operations act on lists. In a run, a ready process is first dispatched behind exactly
those that were ahead of it and are not ended in the ready queue. -/
theorem queues_act_on_lists (kernel task tickInterval : Nat) (semaphores : Nat → Semaphore)
    (hkernel : kernel ≠ 0) (htask : task ≠ 0) (hne : task ≠ kernel) (before ops : List Op)
    (hbefore : Always Sched.perform (Sched.Allowed task)
      (schedInitialize kernel task tickInterval semaphores) before) :
    let s := (trace Sched.perform (schedInitialize kernel task tickInterval semaphores) before).2
    (∀ (s' : Sched) (L : QueueId → List Proc), s'.links.Holds L → ActsOnLists s' L) ∧
      (Always Sched.perform (Sched.Allowed task) s ops → ∀ p ahead behind earlier,
        s.ready = ahead ++ p :: behind → dispatched s ops = earlier ++ [p] → p ∉ earlier →
        ¬ TakenOut p s ops →
        ∃ removed, ahead.Perm (earlier ++ removed) ∧ earlier.Sublist ahead ∧
          ∀ a ∈ removed, TakenOut a s ops) := by
  obtain ⟨b,h⟩ := run_runs hkernel htask hne hbefore
  refine ⟨fun s' L hholds => actsOnLists hholds,?_⟩
  intro hall p ahead behind earlier hready hrun hfirst hp
  exact h.dispatched_behind hall (h.tracks.ready.symm.trans hready) hrun hfirst hp

/-- Processes 2 and 3 are ready, and process 1 and then process 2 yield. -/
theorem queues_act_on_lists_yields :
    ∃ removed, [2].Perm ([2] ++ removed) ∧ [2].Sublist [2] ∧
      ∀ a ∈ removed, TakenOut a (trace Sched.perform smallStart [.addProc 3]).2
        [.schedYield, .finish, .schedYield] := by
  have hplain : ∀ (s : Sched) (op : Op), op = .schedYield ∨ op = .finish → s.Allowed 2 op := by
    rintro s op (rfl | rfl) <;> exact allowed_of_plain id (by simp) (by simp) (by simp)
  apply (queues_act_on_lists 1 2 1000 (fun _ => ⟨1,0⟩) (by decide) (by decide) (by decide)
    [.addProc 3] [.schedYield,.finish,.schedYield] ⟨allowed_add rfl (by decide),trivial⟩).2
    ⟨hplain _ _ (inl rfl),hplain _ _ (inr rfl),hplain _ _ (inl rfl),trivial⟩ 3 [2] [] [2]
  · decide +kernel
  · decide +kernel
  · decide
  · rintro (⟨-,-,code,h⟩ | ⟨-,-,code,h⟩ | ⟨-,-,code,h⟩ | h) <;> cases h

end Hojicha.Mp
