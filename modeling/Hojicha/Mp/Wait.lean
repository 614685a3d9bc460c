import Hojicha.Mp.Family

/-!
# Waiting for children

A process that waits for a child is in the queue of the child, or of itself, until the child has
exited: `wait_queue_sleep_postponed` puts it there before any other process can run.
-/

namespace Hojicha.Mp

open Framework Function

variable {s : Sched} {b b' : Board} {p q c task : Proc} {op : Op} {slot : Nat} {pid code : Int}

def waitQueueOf (p : Proc) (pid : Int) (child : Proc) : QueueId :=
  .waiting (if pid = -1 then .childWaiters p else .exitWaiters child)

def Answered (t : Tables) (p : Proc) (pid : Int) (child : Proc) : Prop :=
  if pid = -1 then ∃ slot, t.children p slot ≠ 0 ∧ t.status (t.children p slot) = .readyToDie
  else t.status child = .readyToDie

/-- Nobody waits for what has happened, and who has to go on with a wait is in the queue or has
been woken. -/
structure WaitsOk (b : Board) : Prop where
  exitAsleep : ∀ c p, p ∈ b.lists (.waiting (.exitWaiters c)) → b.status c ≠ .readyToDie
  childAsleep : ∀ q p, p ∈ b.lists (.waiting (.childWaiters q)) → ∀ slot,
    b.children q slot ≠ 0 → b.status (b.children q slot) ≠ .readyToDie
  pidMatches : ∀ p, b.allocated p = true → ∀ pid child slot,
    .waitpid pid child slot ∈ b.rest p → b.Matches pid child
  answered : ∀ p, b.allocated p = true → ∀ pid child slot, .waitpid pid child slot ∈ b.rest p →
    p ∈ b.lists (waitQueueOf p pid child) ∨
      Answered b.toTables p pid child ∧ b.status p ≠ .blocked

structure Settled (b : Board) : Prop where
  ok : BoardOk b
  kin : KinOk b.toTables
  waiters : WaitersOk b.toTables b.lists
  slots : ∀ q, b.allocated q = true → ∀ pid child slot, .waitpid pid child slot ∈ b.rest q →
    b.children q slot = child ∧ child ≠ 0

theorem Tracks.settled (h : Tracks s b) : Settled b := ⟨h.ok,h.kin,h.waiters,h.rests.slot⟩

theorem mem_dispatch_rest {r : Rest} (hr : r∈b.rest q) : r∈b.dispatch.rest q := by
  have hpush : r∈update b.rest b.current (.unlock::b.rest b.current) q := by
    by_cases hq : q=b.current
    · rw [hq] at hr ⊢
      rw [update_self]
      exact List.mem_cons_of_mem _ hr
    · rw [update_of_ne hq]
      exact hr
  rw [Board.dispatch]
  split
  · exact hr
  · split_ifs <;> exact hpush

theorem Settled.of_dispatch (hok : BoardOk b) (h : Settled b.dispatch) : Settled b := by
  have hcalm := calm_dispatch hok
  refine ⟨hok,h.kin.congr hcalm.allocated.symm hcalm.parent.symm hcalm.children.symm,?_,?_⟩
  · apply h.waiters.mono hcalm.allocated.symm hcalm.parent.symm
    · intro c p hp
      rw [hcalm.exitWaiters]
      exact hp
    · intro q p hp
      rw [hcalm.childWaiters]
      exact hp
  · intro q hq pid child slot hmem
    rw [← hcalm.children]
    rw [← hcalm.allocated] at hq
    exact h.slots q hq pid child slot (mem_dispatch_rest hmem)

theorem Settled.waited (h : Settled b) (hp : b.allocated p=true) {child : Proc}
    (hmem : .waitpid pid child slot∈b.rest p) :
    slot∈childSlots ∧ b.children p slot=child ∧ child≠0 ∧ b.allocated child=true ∧
      b.parent child=p := by
  obtain ⟨hslot,hc0⟩ := h.slots p hp pid child slot hmem
  obtain ⟨hs,halloc,hpar⟩ := h.kin.child p slot hp (by rw [hslot]; exact hc0)
  rw [hslot] at halloc hpar
  exact ⟨hs,hslot,hc0,halloc,hpar⟩

private theorem Settled.childWaiter (h : Settled b) (hp : p∈b.lists (.waiting (.childWaiters q))) :
    p=q ∧ b.allocated q=true := by
  have hpq := h.waiters.childWaiters q p hp
  subst hpq
  exact ⟨rfl,(h.ok.queued _ p hp).1⟩

/-- Waits are kept by a step that leaves the queues, the dead and the children of those who wait
alone. -/
private theorem WaitsOk.mono (h : WaitsOk b) (hb : Settled b)
    (hexit : ∀ c, b'.lists (.waiting (.exitWaiters c))=b.lists (.waiting (.exitWaiters c)))
    (hchild : ∀ q, b'.lists (.waiting (.childWaiters q))=b.lists (.waiting (.childWaiters q)))
    (hrest : ∀ p, b'.allocated p=true → ∀ pid child slot, .waitpid pid child slot∈b'.rest p →
      b.allocated p=true ∧ .waitpid pid child slot∈b.rest p ∧
        (b'.status p = .blocked → b.status p = .blocked))
    (hdead : ∀ c, b.allocated c=true →
      (b'.status c = .readyToDie ↔ b.status c = .readyToDie))
    (hpid : ∀ c, b.allocated c=true → b'.pid c=b.pid c)
    (hchildren : ∀ q, b.allocated q=true → (q∈b.lists (.waiting (.childWaiters q)) ∨
      ∃ pid child slot, .waitpid pid child slot∈b'.rest q) → b'.children q=b.children q) :
    WaitsOk b' := by
  have hqueue : ∀ p pid child, b'.lists (waitQueueOf p pid child) =
      b.lists (waitQueueOf p pid child) := by
    intro p pid child
    rw [waitQueueOf]
    split_ifs
    · exact hchild p
    · exact hexit child
  constructor
  · intro c p hp
    rw [hexit] at hp
    rw [Ne,hdead c (hb.waiters.exitWaiters c p hp).1]
    exact h.exitAsleep c p hp
  · intro q p hp slot hslot
    rw [hchild] at hp
    obtain ⟨rfl,halloc⟩ := hb.childWaiter hp
    rw [hchildren p halloc (Or.inl hp)] at hslot ⊢
    rw [Ne,hdead _ (hb.kin.child p slot halloc hslot).2.1]
    exact h.childAsleep p p hp slot hslot
  · intro p hp pid child slot hmem
    obtain ⟨hold,hback,-⟩ := hrest p hp pid child slot hmem
    rw [Tables.Matches,hpid child (hb.waited hold hback).2.2.2.1]
    exact h.pidMatches p hold pid child slot hback
  · intro p hp pid child slot hmem
    obtain ⟨hold,hback,hblocked⟩ := hrest p hp pid child slot hmem
    rw [hqueue]
    apply (h.answered p hold pid child slot hback).imp_right
    rintro ⟨hanswered,hawake⟩
    refine ⟨?_,fun hst => hawake (hblocked hst)⟩
    have hsame := hchildren p hold (Or.inr ⟨pid,child,slot,hmem⟩)
    rw [Answered] at hanswered ⊢
    split_ifs at hanswered ⊢
    · obtain ⟨i,hi,hst⟩ := hanswered
      refine ⟨i,?_,?_⟩
      · rw [hsame]
        exact hi
      · rw [hsame,hdead _ (hb.kin.child p i hold hi).2.1]
        exact hst
    · rw [hdead child (hb.waited hold hback).2.2.2.1]
      exact hanswered

theorem WaitsOk.calm (h : WaitsOk b) (hb : Settled b) (hcalm : Calm b b') : WaitsOk b' := by
  refine h.mono hb hcalm.exitWaiters hcalm.childWaiters ?_ hcalm.dead ?_ ?_
  · intro p hp pid child slot hmem
    rw [hcalm.allocated] at hp
    exact ⟨hp,hcalm.waits p pid child slot hmem⟩
  · intro c _
    rw [hcalm.pid]
  · intro q _ _
    rw [hcalm.children]

theorem ne_of_fresh (hp : b.allocated p=false) (hq : b.allocated q=true) : q≠p := by
  rintro rfl
  rw [hp] at hq
  cases hq

theorem WaitsOk.spawn (h : WaitsOk b) (hb : Settled b) (hp : b.allocated p=false) :
    WaitsOk (b.spawn p) := by
  have hlists : ∀ w, (b.spawn p).lists (.waiting w)=b.lists (.waiting w) := by
    intro w
    rw [Board.spawn,setList_lists,update_of_ne (by simp)]
  refine h.mono hb (fun c => hlists _) (fun q => hlists _) ?_ ?_ ?_ ?_
  · intro q hq pid child slot hmem
    change update b.allocated p true q=true at hq
    change _∈update b.rest p [.prelude] q at hmem
    change _ ∧ _ ∧ (update b.status p .uninitialized q=_ → _)
    by_cases hqp : q=p
    · rw [hqp,update_self] at hmem
      simp at hmem
    · rw [update_of_ne hqp] at hq hmem ⊢
      exact ⟨hq,hmem,id⟩
  · intro c hc
    change update b.status p .uninitialized c=_ ↔ _
    rw [update_of_ne (ne_of_fresh hp hc)]
  · intro c hc
    exact update_of_ne (ne_of_fresh hp hc) _ _
  · intro q hq _
    exact update_of_ne (ne_of_fresh hp hq) _ _

private theorem WaitsOk.fork (h : WaitsOk b) (hb : Settled b) (hout : b.CurrentOut)
    (hc : b.allocated c=false) (hrest : b.rest b.current=[]) {ps : List Proc} :
    WaitsOk { b.setList .readyToRun ps with toTables := b.forkChild c slot } := by
  have hlists : ∀ w, update b.lists .readyToRun ps (.waiting w)=b.lists (.waiting w) :=
    fun w => update_of_ne (by simp) _ _
  have hrests : ∀ q, q≠c → (b.forkChild c slot).rest q=b.rest q := by
    intro q hq
    change update (update b.rest c [.prelude]) c [] q=_
    rw [update_of_ne hq,update_of_ne hq]
  have hstatus : ∀ q, q≠c → (b.forkChild c slot).status q=b.status q := by
    intro q hq
    change update (update b.status c _) c _ q=_
    rw [update_of_ne hq,update_of_ne hq]
  have hmine : ∀ q pid child slot', q≠c →
      .waitpid pid child slot'∈(b.forkChild c slot).rest q → q≠b.current := by
    rintro q pid child slot' hq hmem rfl
    rw [hrests _ hq,hrest] at hmem
    cases hmem
  refine h.mono hb ?_ ?_ ?_ ?_ ?_ ?_
  · exact fun c => hlists _
  · exact fun q => hlists _
  · intro q hq pid child slot' hmem
    have hqc : q≠c := by
      rintro rfl
      change _∈update (update b.rest q [.prelude]) q [] q at hmem
      rw [update_self] at hmem
      cases hmem
    change update b.allocated c true q=true at hq
    rw [update_of_ne hqc] at hq
    refine ⟨hq,?_,?_⟩
    · rw [← hrests q hqc]
      exact hmem
    · rw [← hstatus q hqc]
      exact id
  · intro q hq
    have hst := hstatus q (ne_of_fresh hc hq)
    change (b.forkChild c slot).status q=_ ↔ _
    rw [hst]
  · intro q hq
    exact update_of_ne (ne_of_fresh hc hq) _ _
  · intro q hq hwait
    have hqcur : q≠b.current := by
      rcases hwait with hwait | ⟨pid,child,slot',hmem⟩
      · exact ne_of_mem_of_not_mem hwait (hout _)
      · exact hmine q pid child slot' (ne_of_fresh hc hq) hmem
    change update (update b.children c _) b.current _ q=_
    rw [update_of_ne hqcur,update_of_ne (ne_of_fresh hc hq)]

private theorem wakeAll_lists (b : Board) (w w' : WaitQueue) :
    (b.wakeAll w).lists (.waiting w')=if w'=w then [] else b.lists (.waiting w') := by
  rw [Board.wakeAll,Board.release]
  simp only [setList_lists]
  rw [update_of_ne (by simp)]
  split_ifs with hw
  · rw [hw,update_self]
  · rw [update_of_ne (by simpa using hw)]

private theorem wakeAll_status (b : Board) (w : WaitQueue) (q : Proc) :
    (b.wakeAll w).status q=if q∈b.lists (.waiting w) then .readyToRun else b.status q :=
  makeReady_status _ _ _

private theorem die_lists {w : WaitQueue} (hp : p∉b.lists (.waiting w)) :
    (b.die p code).lists (.waiting w)=b.lists (.waiting w) := by
  rw [Board.die]
  dsimp only
  rw [update_of_ne (by simp)]
  exact List.erase_of_not_mem hp

def AwaitsEnd (b : Board) (p : Proc) (w : WaitQueue) : Prop :=
  b.parent p ≠ 0 ∧ (w = .exitWaiters p ∨ w = .childWaiters (b.parent p))

private theorem exit_lists (code : Int) (hp : ∀ w, p∉b.lists (.waiting w)) (w : WaitQueue) :
    (AwaitsEnd b p w → ((b.die p code).wakeParent p).lists (.waiting w)=[]) ∧
      (¬ AwaitsEnd b p w →
        ((b.die p code).wakeParent p).lists (.waiting w)=b.lists (.waiting w)) := by
  have hparent : (b.die p code).parent p=b.parent p := rfl
  rw [AwaitsEnd,Board.wakeParent,hparent]
  by_cases hpar : b.parent p=0
  · rw [if_neg (not_not.mpr hpar),die_lists (hp w)]
    exact ⟨fun hw => (hw.1 hpar).elim,fun _ => rfl⟩
  · rw [if_pos hpar,wakeAll_lists,wakeAll_lists,die_lists (hp w)]
    constructor
    · rintro ⟨-,rfl | rfl⟩
      · simp
      · simp
    · intro hw
      rw [if_neg fun hchild => hw ⟨hpar,Or.inr hchild⟩,if_neg fun hexit => hw ⟨hpar,Or.inl hexit⟩]

private theorem exit_status (code : Int) (hp : ∀ w, p∉b.lists (.waiting w)) (q : Proc) :
    (q=p → ((b.die p code).wakeParent p).status q = .readyToDie) ∧
      (q≠p → (∃ w, AwaitsEnd b p w ∧ q∈b.lists (.waiting w)) →
        ((b.die p code).wakeParent p).status q = .readyToRun) ∧
      (q≠p → (¬ ∃ w, AwaitsEnd b p w ∧ q∈b.lists (.waiting w)) →
        ((b.die p code).wakeParent p).status q=b.status q) := by
  have hparent : (b.die p code).parent p=b.parent p := rfl
  have hself : (b.die p code).status p = .readyToDie := update_self _ _ _
  have hother : q≠p → (b.die p code).status q=b.status q :=
    fun hq => update_of_ne hq _ _
  rw [Board.wakeParent,hparent]
  by_cases hpar : b.parent p=0
  · rw [if_neg (not_not.mpr hpar)]
    refine ⟨?_,?_,?_⟩
    · rintro rfl
      exact hself
    · rintro - ⟨w,hw,-⟩
      exact (hw.1 hpar).elim
    · intro hq _
      exact hother hq
  · have hne : WaitQueue.childWaiters (b.parent p) ≠ .exitWaiters p := by simp
    rw [if_pos hpar,wakeAll_status,wakeAll_status,wakeAll_lists,die_lists (hp _),
      die_lists (hp _),if_neg hne]
    refine ⟨?_,?_,?_⟩
    · rintro rfl
      rw [if_neg (hp _),if_neg (hp _)]
      exact hself
    · rintro - ⟨w,⟨-,rfl | rfl⟩,hmem⟩
      · split_ifs <;> rfl
      · rw [if_pos hmem]
    · intro hq hnone
      rw [if_neg fun hmem => hnone ⟨_,⟨hpar,Or.inr rfl⟩,hmem⟩,
        if_neg fun hmem => hnone ⟨_,⟨hpar,Or.inl rfl⟩,hmem⟩]
      exact hother hq

theorem exit_dead_iff (code : Int) (hok : BoardOk b) (hp : ∀ w, p∉b.lists (.waiting w))
    (q : Proc) : ((b.die p code).wakeParent p).status q = .readyToDie ↔
      q=p ∨ b.status q = .readyToDie := by
  obtain ⟨hself,hwoken,hother⟩ := exit_status code hp q
  by_cases hq : q=p
  · exact iff_of_true (hself hq) (Or.inl hq)
  · by_cases hwait : ∃ w, AwaitsEnd b p w ∧ q∈b.lists (.waiting w)
    · rw [hwoken hq hwait]
      obtain ⟨w,-,hmem⟩ := hwait
      have hfit : b.status q = .blocked := hok.fits hmem
      rw [hfit]
      simp [hq]
    · rw [hother hq hwait]
      simp [hq]

private theorem exit_blocked (hp : ∀ w, p∉b.lists (.waiting w)) (q : Proc)
    (hst : ((b.die p code).wakeParent p).status q = .blocked) :
    b.status q = .blocked ∧ ¬ ∃ w, AwaitsEnd b p w ∧ q∈b.lists (.waiting w) := by
  obtain ⟨hself,hwoken,hother⟩ := exit_status code hp q
  have hq : q≠p := by
    intro hq
    rw [hself hq] at hst
    cases hst
  have hwait : ¬ ∃ w, AwaitsEnd b p w ∧ q∈b.lists (.waiting w) := by
    intro hwait
    rw [hwoken hq hwait] at hst
    cases hst
  rw [hother hq hwait] at hst
  exact ⟨hst,hwait⟩

theorem exit_tables (b : Board) (p : Proc) (code : Int) :
    ((b.die p code).wakeParent p).allocated=b.allocated ∧
      ((b.die p code).wakeParent p).pid=b.pid ∧
      ((b.die p code).wakeParent p).parent=b.parent ∧
      ((b.die p code).wakeParent p).children=b.children ∧
      ((b.die p code).wakeParent p).rest=b.rest ∧
      ((b.die p code).wakeParent p).exitCode=update b.exitCode p code ∧
      ((b.die p code).wakeParent p).totalProcessesAdded=b.totalProcessesAdded := by
  rw [Board.wakeParent]
  split_ifs <;> exact ⟨rfl,rfl,rfl,rfl,rfl,rfl,rfl⟩

private theorem WaitsOk.exit (h : WaitsOk b) (hb : Settled b)
    (hp : b.allocated p=true) (hnot : ∀ w, p∉b.lists (.waiting w)) :
    WaitsOk ((b.die p code).wakeParent p) := by
  obtain ⟨halloc,hpid,-,hchildren,hrest,-,-⟩ := exit_tables b p code
  have hdead := exit_dead_iff code hb.ok hnot
  have hmem : ∀ w q, q∈((b.die p code).wakeParent p).lists (.waiting w) →
      ¬ AwaitsEnd b p w ∧ q∈b.lists (.waiting w) := by
    intro w q hq
    obtain ⟨hempty,hsame⟩ := exit_lists code hnot w
    by_cases hw : AwaitsEnd b p w
    · rw [hempty hw] at hq
      cases hq
    · rw [hsame hw] at hq
      exact ⟨hw,hq⟩
  constructor
  · intro c q hin
    obtain ⟨hw,hq⟩ := hmem _ q hin
    rw [Ne,hdead]
    rintro (hcp | hst)
    · -- the parent would have been woken
      obtain ⟨-,hpar⟩ := hb.waiters.exitWaiters c q hq
      apply hw
      refine ⟨?_,Or.inl (by rw [hcp])⟩
      rw [← hcp,hpar]
      exact hb.ok.ne_zero (hb.ok.queued _ q hq).1
    · exact h.exitAsleep c q hq hst
  · intro q r hr slot hslot
    obtain ⟨hw,hr⟩ := hmem _ r hr
    rw [hchildren] at hslot ⊢
    obtain ⟨rfl,hq⟩ := hb.childWaiter hr
    rw [Ne,hdead]
    rintro (hpc | hst)
    · obtain ⟨-,-,hpar⟩ := hb.kin.child r slot hq hslot
      rw [hpc] at hpar
      apply hw
      refine ⟨?_,Or.inr (by rw [hpar])⟩
      rw [hpar]
      exact hb.ok.ne_zero hq
    · exact h.childAsleep r r hr slot hslot hst
  · intro q hq pid child slot hwait
    rw [halloc] at hq
    rw [hrest] at hwait
    rw [Tables.Matches,hpid]
    exact h.pidMatches q hq pid child slot hwait
  · intro q hq pid child slot hwait
    rw [halloc] at hq
    rw [hrest] at hwait
    obtain ⟨-,-,-,hc,hpar⟩ := hb.waited hq hwait
    have hq0 := hb.ok.ne_zero hq
    rcases h.answered q hq pid child slot hwait with hin | ⟨hanswered,hawake⟩
    · rw [waitQueueOf] at hin ⊢
      obtain ⟨-,hsame⟩ := exit_lists code hnot
        (if pid = -1 then .childWaiters q else .exitWaiters child)
      by_cases hends : AwaitsEnd b p (if pid = -1 then .childWaiters q else .exitWaiters child)
      · right
        refine ⟨?_,fun hst => (exit_blocked hnot q hst).2 ⟨_,hends,hin⟩⟩
        obtain ⟨hpar0,hqueue⟩ := hends
        rw [Answered]
        split_ifs at hqueue ⊢
        · -- `p` is one of the children
          have hqp : q=b.parent p := by simpa using hqueue
          obtain ⟨-,i,hi⟩ := hb.kin.parent p hp hpar0
          refine ⟨i,?_,?_⟩
          · rw [hchildren,hqp,hi]
            exact hb.ok.ne_zero hp
          · rw [hdead,hchildren,hqp,hi]
            exact Or.inl rfl
        · rw [hdead]
          left
          simpa using hqueue
      · rw [hsame hends]
        exact Or.inl hin
    · right
      refine ⟨?_,fun hst => hawake (exit_blocked hnot q hst).1⟩
      rw [Answered] at hanswered ⊢
      split_ifs at hanswered ⊢
      · obtain ⟨i,hi,hst⟩ := hanswered
        rw [hchildren]
        exact ⟨i,hi,(hdead _).mpr (Or.inr hst)⟩
      · exact (hdead _).mpr (Or.inr hanswered)

theorem waitChildFind_dead (hslot : slot∈childSlots) (hc0 : b.children q slot≠0)
    (hmatch : b.Matches pid (b.children q slot))
    (hdead : b.status (b.children q slot) = .readyToDie) :
    ∃ found, b.waitChildFind q pid=some found ∧
      b.status (b.children q found) = .readyToDie := by
  rw [Tables.waitChildFind]
  cases hfind : childSlots.find? fun slot => (b.children q slot≠0 ∧
      b.Matches pid (b.children q slot)) ∧ b.status (b.children q slot) = .readyToDie with
  | none =>
    have hnone := List.find?_eq_none.mp hfind slot hslot
    simp only [decide_eq_true_eq] at hnone
    exact (hnone ⟨⟨hc0,hmatch⟩,hdead⟩).elim
  | some found =>
    have hfound := List.find?_some hfind
    simp only [decide_eq_true_eq] at hfound
    exact ⟨found,by rw [Option.some_or],hfound.2⟩

private theorem waitChildFind_live {found : Nat} (hfind : b.waitChildFind q pid=some found)
    (hlive : b.status (b.children q found) ≠ .readyToDie) (hslot : slot∈childSlots)
    (hc0 : b.children q slot≠0) (hmatch : b.Matches pid (b.children q slot)) :
    b.status (b.children q slot) ≠ .readyToDie := by
  intro hdead
  obtain ⟨found',hfind',hdead'⟩ := waitChildFind_dead hslot hc0 hmatch hdead
  rw [hfind] at hfind'
  cases hfind'
  exact hlive hdead'

theorem waitFor_lists {child : Proc} (w : WaitQueue) :
    (b.waitFor pid child slot).lists (.waiting w) =
      if w=b.waitQueueFor pid child then b.lists (.waiting w)++[b.current]
      else b.lists (.waiting w) := by
  change update b.lists (.waiting (b.waitQueueFor pid child)) _ (.waiting w)=_
  split_ifs with hw
  · rw [hw,update_self]
  · rw [update_of_ne (by simpa using hw)]

private theorem WaitsOk.wait (h : WaitsOk b) (hb : Settled b) (hrest : b.rest b.current=[])
    (halive : b.status b.current ≠ .readyToDie)
    (hfind : b.waitChildFind b.current pid=some slot)
    (hlive : b.status (b.children b.current slot) ≠ .readyToDie) :
    WaitsOk (b.waitFor pid (b.children b.current slot) slot) := by
  have hdead : ∀ c, (b.waitFor pid (b.children b.current slot) slot).status c = .readyToDie ↔
      b.status c = .readyToDie := fun c => update_dead halive (by decide) c
  have hmem : ∀ w q, q∈(b.waitFor pid (b.children b.current slot) slot).lists (.waiting w) →
      q∈b.lists (.waiting w) ∨ w=b.waitQueueFor pid (b.children b.current slot) := by
    intro w q hq
    rw [waitFor_lists] at hq
    split_ifs at hq with hw
    · exact Or.inr hw
    · exact Or.inl hq
  constructor
  · intro c q hq
    rw [Ne,hdead]
    rcases hmem _ q hq with hq | hw
    · exact h.exitAsleep c q hq
    · rw [Tables.waitQueueFor] at hw
      split_ifs at hw
      cases hw
      exact hlive
  · intro q r hr slot' hslot'
    change b.children q slot'≠0 at hslot'
    change ((b.waitFor pid (b.children b.current slot) slot).status (b.children q slot'))≠_
    rw [Ne,hdead]
    rcases hmem _ r hr with hr | hw
    · exact h.childAsleep q r hr slot' hslot'
    · rw [Tables.waitQueueFor] at hw
      split_ifs at hw with hany
      cases hw
      obtain ⟨hs,-,-⟩ := hb.kin.child b.current slot' hb.ok.live hslot'
      exact waitChildFind_live hfind hlive hs hslot' (Or.inl hany)
  · intro q hq pid' child' slot' hwait
    change _∈update b.rest b.current _ q at hwait
    by_cases hqc : q=b.current
    · rw [hqc,update_self,hrest,List.mem_singleton] at hwait
      cases hwait
      exact (waitChildFind_some hfind).2.2
    · rw [update_of_ne hqc] at hwait
      exact h.pidMatches q hq pid' child' slot' hwait
  · intro q hq pid' child' slot' hwait
    change _∈update b.rest b.current _ q at hwait
    change _ ∨ _ ∧ update b.status b.current .blocked q≠_
    by_cases hqc : q=b.current
    · rw [hqc,update_self,hrest,List.mem_singleton] at hwait
      cases hwait
      left
      rw [waitQueueOf,waitFor_lists,if_pos]
      · rw [hqc]
        exact List.mem_append_right _ (List.mem_singleton_self _)
      · rw [Tables.waitQueueFor,hqc]
    · rw [update_of_ne hqc] at hwait ⊢
      rcases h.answered q hq pid' child' slot' hwait with hin | ⟨hanswered,hawake⟩
      · left
        rw [waitQueueOf] at hin ⊢
        rw [waitFor_lists]
        split_ifs at hin ⊢
        · exact List.mem_append_left _ hin
        · exact hin
        · exact List.mem_append_left _ hin
        · exact hin
      · refine Or.inr ⟨?_,hawake⟩
        rw [Answered] at hanswered ⊢
        split_ifs at hanswered ⊢
        · obtain ⟨i,hi,hst⟩ := hanswered
          exact ⟨i,hi,(hdead _).mpr hst⟩
        · exact (hdead _).mpr hanswered

theorem collect_eq (hdead : b.status c = .readyToDie) :
    (b.collect q c slot).2 =
      { b.setList .readyToDie ((b.lists .readyToDie).erase c) with
        toTables := ((b.setChild q slot 0).setParent c 0).procFree c } := by
  rw [Board.collect,if_neg (not_not.mpr hdead)]

private theorem disown_free (t : Tables) (q c : Proc) (slot : Nat) :
    ((t.setChild q slot 0).setParent c 0).procFree c =
      { (t.setChild q slot 0).setParent c 0 with
        parent := fun d => if d≠0 ∧ ∃ slot'∈childSlots, (t.setChild q slot 0).children c slot'=d
          then 0 else update t.parent c 0 d
        allocated := update t.allocated c false } :=
  procFree_orphan (update_self _ _ _)

theorem collect_same (hdead : b.status c = .readyToDie) :
    SameBut b.toTables (b.collect q c slot).2.toTables := by
  rw [collect_eq hdead,disown_free]
  exact ⟨rfl,rfl,rfl,rfl,rfl,rfl,rfl⟩

private theorem WaitsOk.collect {b₀ : Board} (h : WaitsOk b) (hb : Settled b) (hout : b.CurrentOut)
    (hdrop : Calm b b₀) (hrest : b₀.rest b.current=[]) (hdead : b₀.status c = .readyToDie) :
    WaitsOk (b₀.collect b.current c slot).2 := by
  have hlists : ∀ w, (b₀.collect b.current c slot).2.lists (.waiting w) =
      b₀.lists (.waiting w) := by
    intro w
    rw [collect_eq hdead]
    dsimp only
    rw [setList_lists,update_of_ne (by simp)]
  have hsame : SameBut b₀.toTables (b₀.collect b.current c slot).2.toTables := collect_same hdead
  refine h.mono hb ?_ ?_ ?_ ?_ ?_ ?_
  · intro d
    rw [hlists,hdrop.exitWaiters]
  · intro q
    rw [hlists,hdrop.childWaiters]
  · intro p hp pid child slot' hmem
    rw [hsame.rest] at hmem
    rw [hsame.status]
    have hold := collect_allocated_mono hp
    rw [hdrop.allocated] at hold
    exact ⟨hold,hdrop.waits p pid child slot' hmem⟩
  · intro d hd
    rw [hsame.status]
    exact hdrop.dead d hd
  · intro d _
    rw [hsame.pid,hdrop.pid]
  · intro q hq hwait
    have hqc : q≠b.current := by
      rcases hwait with hwait | ⟨pid,child,slot',hmem⟩
      · exact ne_of_mem_of_not_mem hwait (hout _)
      · rintro rfl
        rw [hsame.rest,hrest] at hmem
        cases hmem
    rw [collect_eq hdead,disown_free,← hdrop.children]
    exact update_of_ne hqc _ _

private theorem reapList_children (ps kept : List Proc) (t : Tables) :
    (Board.reapList ps t kept).1.children=t.children := by
  induction ps generalizing t kept with
  | nil => rfl
  | cons p ps ih =>
    rw [Board.reapList]
    split_ifs with hpar
    · exact ih (p::kept) t
    · rw [ih kept,procFree_orphan (not_not.mp hpar)]

private theorem WaitsOk.reap (h : WaitsOk b) (hb : Settled b) (ha : Apart b.lists) :
    WaitsOk b.reap := by
  have hlists : ∀ w, b.reap.lists (.waiting w)=b.lists (.waiting w) := by
    intro w
    simp only [Board.reap,setList_lists]
    rw [update_of_ne (by simp)]
  have hsame := reap_same ha
  refine h.mono hb (fun _ => hlists _) (fun _ => hlists _) ?_ ?_ ?_ ?_
  · intro p hp pid child slot' hmem
    rw [hsame.rest] at hmem
    rw [hsame.status]
    exact ⟨allocated_of_reap ha hp,hmem,id⟩
  · intro d _
    rw [hsame.status]
  · intro d _
    rw [hsame.pid]
  · intro q _ _
    exact congrFun (reapList_children _ _ _) q

/-- A process that another one ends, or that ends itself, waits for nothing. -/
theorem Settled.not_waiting (hb : Settled b) (hout : b.CurrentOut)
    (hblocked : p≠b.current → b.status p ≠ .blocked) (w : WaitQueue) :
    p∉b.lists (.waiting w) := by
  intro hw
  by_cases hpc : p=b.current
  · rw [hpc] at hw
    exact hout _ hw
  · exact hblocked hpc (hb.ok.fits hw)

theorem WaitsOk.step {reply : Reply} (h : WaitsOk b) (hb : Settled b) (ha : Apart b.lists)
    (hout : b.CurrentOut) (halive : b.status b.current ≠ .readyToDie)
    (hstep : KinStep b op reply b') : WaitsOk b' := by
  cases hstep with
  | calm hcalm _ => exact h.calm hb hcalm
  | spawn hp _ => exact h.spawn hb hp
  | fork _ hc _ hrest => exact h.fork hb hout hc hrest
  | exit hp _ hblocked => exact h.exit hb hp (hb.not_waiting hout hblocked)
  | wait hrest hfind hlive => exact h.wait hb hrest halive hfind hlive
  | collect hdrop _ hrest hc0 hdead _ =>
    apply h.collect hb hout hdrop hrest
    rw [hdrop.dead _ (hb.kin.child _ _ hb.ok.live hc0).2.1]
    exact hdead
  | reap => exact h.reap hb ha

end Hojicha.Mp
