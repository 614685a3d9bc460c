import Hojicha.Framework.OrderedQueue
import Hojicha.Mp.Locks

/-!
# Sleepers and the timer

The sleeping queue is in the order of the deadlines, which are sums in 64 bits
(`kernel/mp/sleep.c`).
-/

namespace Hojicha.Mp

open Framework Function Board

variable {s : Sched} {b b' : Board} {p q c task : Proc} {op : Op} {i : QueueId}

private theorem procFree_sleepUntil (t : Tables) (p : Proc) :
    (t.procFree p).sleepUntil=t.sleepUntil := by
  rw [Tables.procFree]
  split_ifs
  · rw [Tables.clearSlotOf]
    split <;> rfl
  · rfl

private theorem reapList_sleepUntil (ps kept : List Proc) (t : Tables) :
    (Board.reapList ps t kept).1.sleepUntil=t.sleepUntil := by
  induction ps generalizing t kept with
  | nil => rfl
  | cons p ps ih =>
    rw [reapList]
    split_ifs
    · exact ih _ _
    · rw [ih,procFree_sleepUntil]

/-- Some sleepers may leave the queue; those that stay keep their order and their deadlines. -/
structure KeepsSleepers (b b' : Board) : Prop where
  sleeping : (b'.lists .sleeping).Sublist (b.lists .sleeping)
  deadline : ∀ p ∈ b'.lists .sleeping, b'.sleepUntil p = b.sleepUntil p

private theorem KeepsSleepers.refl (b : Board) : KeepsSleepers b b :=
  ⟨List.Sublist.refl _,fun _ _ => rfl⟩

private theorem KeepsSleepers.trans {b₁ b₂ b₃ : Board} (h₁ : KeepsSleepers b₁ b₂)
    (h₂ : KeepsSleepers b₂ b₃) : KeepsSleepers b₁ b₃ := by
  refine ⟨h₂.sleeping.trans h₁.sleeping,?_⟩
  intro p hp
  rw [h₂.deadline p hp]
  exact h₁.deadline p (h₂.sleeping.subset hp)

private theorem setList_sleepers {t : Tables} {ps : List Proc} (hi : i ≠ .sleeping)
    (huntil : ∀ p∈b.lists .sleeping, t.sleepUntil p=b.sleepUntil p) :
    KeepsSleepers b { b.setList i ps with toTables := t } := by
  have hlists : (b.setList i ps).lists .sleeping=b.lists .sleeping :=
    update_of_ne hi.symm _ _
  constructor
  · exact hlists ▸ List.Sublist.refl _
  · intro p hp
    exact huntil p (hlists ▸ hp)

private theorem setTables_sleepers {t : Tables} (huntil : t.sleepUntil=b.sleepUntil) :
    KeepsSleepers b { b with toTables := t } :=
  ⟨List.Sublist.refl _,fun p _ => congrFun huntil p⟩

private theorem dispatch_sleepUntil (b : Board) : b.dispatch.sleepUntil=b.sleepUntil := by
  rw [dispatch]
  split
  · rfl
  · split_ifs <;> rfl

private theorem dispatch_sleepers (b : Board) : KeepsSleepers b b.dispatch := by
  constructor
  · rw [dispatch_lists (by simp)]
  · intro p _
    rw [dispatch_sleepUntil]

private theorem settled_sleepers (h : b'=b ∨ b'=b.dispatch) : KeepsSleepers b b' := by
  rcases h with rfl | rfl
  · exact KeepsSleepers.refl b'
  · exact dispatch_sleepers b

private theorem release_sleepers {ps qs : List Proc} (hi : i ≠ .sleeping) :
    KeepsSleepers b (b.release i ps qs) := by
  have hleave : KeepsSleepers b (b.setList i qs) := setList_sleepers hi fun _ _ => rfl
  have henter : KeepsSleepers (b.setList i qs) (b.release i ps qs) :=
    setList_sleepers (by simp) fun _ _ => rfl
  exact hleave.trans henter

private theorem block_sleepers {w : WaitQueue} : KeepsSleepers b (b.block w) :=
  setList_sleepers (by simp) fun _ _ => rfl

private theorem collect_sleepers {slot : Nat} : KeepsSleepers b (b.collect q c slot).2 := by
  rw [collect]
  split_ifs
  · exact KeepsSleepers.refl b
  · apply setList_sleepers (by simp)
    intro p _
    rw [procFree_sleepUntil]
    rfl

private theorem waitpid_sleepers {pid : Int} {options : Nat} :
    KeepsSleepers b (b.waitpid pid options).2 := by
  rcases waitpid_cases b pid options with ⟨ret,-,heq⟩ | ⟨slot,-,-,heq⟩ | ⟨slot,-,-,-,heq⟩
  · rw [heq]
    exact KeepsSleepers.refl b
  · rw [heq]
    exact collect_sleepers
  · rw [heq]
    exact setList_sleepers (by simp) fun _ _ => rfl

private theorem finish_sleepers : KeepsSleepers b b.finish.2 := by
  rw [finish]
  split
  · exact KeepsSleepers.refl b
  · exact setTables_sleepers rfl
  · dsimp only
    split_ifs <;> exact setTables_sleepers rfl
  · have hdrop : KeepsSleepers b { b with toTables := b.dropRest } := setTables_sleepers rfl
    rw [waitpidEnd]
    split
    · exact hdrop
    · exact hdrop.trans collect_sleepers

private theorem exit_sleepers {code : Int} : KeepsSleepers b (b.exit p code) := by
  have hdie : KeepsSleepers b (b.die p code) := by
    refine ⟨?_,fun _ _ => rfl⟩
    rw [die]
    dsimp only
    rw [update_of_ne (by simp)]
    exact List.erase_sublist
  rw [exit]
  split_ifs
  · exact KeepsSleepers.refl b
  · rw [wakeParent]
    split_ifs
    · have hwait : KeepsSleepers b ((b.die p code).wakeAll (.exitWaiters p)) :=
        hdie.trans (release_sleepers (by simp))
      exact hwait.trans (release_sleepers (by simp))
    · exact hdie

private theorem timer_sleepers (t : Nat) : KeepsSleepers b (b.wakeSleepers t) := by
  refine ⟨?_,fun _ _ => rfl⟩
  rw [wakeSleepers,release]
  dsimp only
  rw [setList_lists,update_of_ne (by simp),setList_lists,update_self]
  exact List.dropWhile_sublist _

private theorem Runs.effect_sleepers (h : Runs task s b) (hallowed : s.Allowed task op)
    (hop : ∀ t, op ≠ .sleepUntil t) : KeepsSleepers b (b.effect op).2 := by
  have halloc := h.tracks.allocated
  have hnew : ∀ q, b.allocated q=false → ∀ p∈b.lists .sleeping, p≠q := by
    rintro q hq p hp rfl
    rw [(h.tracks.ok.queued _ p hp).1] at hq
    cases hq
  cases op with
  | schedLock => exact KeepsSleepers.refl b
  | schedUnlock => exact KeepsSleepers.refl b
  | schedPostpone => exact KeepsSleepers.refl b
  | schedResume => exact KeepsSleepers.refl b
  | schedYield => exact KeepsSleepers.refl b
  | addProc q =>
    have hq := (hallowed.add q rfl).1
    rw [halloc] at hq
    apply setList_sleepers (by simp)
    intro p hp
    exact update_of_ne (hnew q hq p hp) _ _
  | fork c frame =>
    have hc := hallowed.fork c frame rfl
    rw [halloc] at hc
    change KeepsSleepers b (b.fork c frame).2
    rw [fork]
    split
    · exact KeepsSleepers.refl b
    · apply setList_sleepers (by simp)
      intro p hp
      exact update_of_ne (hnew c hc p hp) _ _
  | sleepUntil t => exact (hop t rfl).elim
  | waitSleep => exact block_sleepers
  | wakeOne k => exact release_sleepers (by simp)
  | wakeAll k => exact release_sleepers (by simp)
  | semaphoreLock k =>
    change KeepsSleepers b (ite _ _ _)
    split_ifs
    · exact setTables_sleepers rfl
    · exact block_sleepers
  | semaphoreTryLock k =>
    rw [effect]
    split_ifs
    · exact setTables_sleepers rfl
    · exact KeepsSleepers.refl b
  | semaphoreUnlock k =>
    change KeepsSleepers b (ite _ _ _)
    split_ifs
    · exact release_sleepers (by simp)
    · exact setTables_sleepers rfl
  | exit q code => exact exit_sleepers
  | waitpid pid options => exact waitpid_sleepers
  | reap =>
    apply setList_sleepers (by simp)
    intro p _
    rw [reapList_sleepUntil]
  | timer t => exact timer_sleepers t
  | finish => exact finish_sleepers

def dueSleepers (s : Sched) (t : Nat) (ps : List Proc) : List Proc :=
  ps.filter (s.sleepUntilAtMost t)

/-- A tick at time `t` with the queues `L` before and `L'` behind it: all that are due are ready,
in their order and behind those who were ready before, and the others stay asleep in their order.
At the end of a quantum the current process goes to the end of the ready queue, and the first
takes its place. -/
structure Wakes (t : Nat) (s s' : Sched) (L L' : QueueId → List Proc) : Prop where
  asleep : L' .sleeping = (L .sleeping).filter fun p => !s.sleepUntilAtMost t p
  ready : s'.current = s.current ∧
      L' .readyToRun = L .readyToRun ++ dueSleepers s t (L .sleeping) ∨
    s'.current :: L' .readyToRun = L .readyToRun ++ dueSleepers s t (L .sleeping) ++ [s.current]
  status : ∀ p ∈ dueSleepers s t (L .sleeping),
    s'.status p = .readyToRun ∨ s'.current = p ∧ s'.status p = .running

private theorem wakeSleepers_sleeping (t : Nat) : (b.wakeSleepers t).lists .sleeping =
    (b.lists .sleeping).dropWhile (b.sleepUntilAtMost t) := by
  rw [wakeSleepers,release]
  dsimp only
  rw [setList_lists,update_of_ne (by simp),setList_lists,update_self]

private theorem wakeSleepers_ready (t : Nat) : (b.wakeSleepers t).lists .readyToRun =
    b.lists .readyToRun++(b.lists .sleeping).takeWhile (b.sleepUntilAtMost t) := by
  rw [wakeSleepers,release]
  dsimp only
  rw [setList_lists,update_self]

private theorem dispatch_requeues (hrun : b.status b.current = .running) :
    b.dispatch.current=b.current ∧ b.dispatch.lists .readyToRun=b.lists .readyToRun ∨
      b.dispatch.current::b.dispatch.lists .readyToRun =
        b.lists .readyToRun++[b.current] := by
  cases hlist : b.lists .readyToRun with
  | nil =>
    left
    rw [dispatch,hlist]
    exact ⟨rfl,hlist⟩
  | cons next ready =>
    right
    rw [dispatch,hlist]
    dsimp only
    rw [if_pos hrun]
    dsimp only
    rw [setList_lists,update_self]
    rfl

private theorem Runs.timer_status (h : Runs task s b) (t : Nat)
    (haccept : s.accepts (.timer t)=true)
    (hp : p∈(b.lists .sleeping).takeWhile (b.sleepUntilAtMost t)) :
    (s.perform (.timer t)).2.status p = .readyToRun ∨
      (s.perform (.timer t)).2.current=p ∧ (s.perform (.timer t)).2.status p = .running := by
  have hallowed : s.Allowed task (.timer t) := allowed_of_plain id (by simp) (by simp) (by simp)
  have hready : (b.wakeSleepers t).status p = .readyToRun := if_pos hp
  rcases h.perform hallowed with ⟨-,-,hok,b',hruns,hb'⟩ | ⟨hreject,-⟩
  · rw [hruns.tracks.tables]
    rcases hb' with rfl | rfl
    · exact Or.inl hready
    · rcases dispatch_status hok p with hsame | ⟨hrun,-⟩ | ⟨-,hrun,hcurrent⟩
      · exact Or.inl (hsame.trans hready)
      · rw [show (b.effect (.timer t)).2.status p = .readyToRun from hready] at hrun
        cases hrun
      · exact Or.inr ⟨hcurrent,hrun⟩
  · exact (hreject haccept).elim

private theorem Runs.timer_wakes (h : Runs task s b) (t : Nat) (haccept : s.accepts (.timer t)=true)
    (hcut : Cuts (b.sleepUntilAtMost t) (b.lists .sleeping)) :
    ∃ L', (s.perform (.timer t)).2.links.Holds L' ∧
      Wakes t s (s.perform (.timer t)).2 b.lists L' := by
  have hallowed : s.Allowed task (.timer t) := allowed_of_plain id (by simp) (by simp) (by simp)
  have htables : s.sleepUntilAtMost t=b.sleepUntilAtMost t := by rw [h.tracks.tables]
  have hcurrent := h.tracks.current
  have hdue : dueSleepers s t (b.lists .sleeping) =
      (b.lists .sleeping).takeWhile (b.sleepUntilAtMost t) := by
    rw [dueSleepers,htables,hcut.takeWhile_eq]
  have hrun : (b.wakeSleepers t).status (b.wakeSleepers t).current = .running := by
    have hlist := (List.takeWhile_append_dropWhile (p := b.sleepUntilAtMost t)
      (l := b.lists .sleeping)).symm
    rw [wakeSleepers,release_status_current h.out hlist]
    exact h.accepted haccept (by simp)
  rcases h.perform hallowed with ⟨-,-,hok,b',hruns,hb'⟩ | ⟨hreject,-⟩
  · have hasleep : b'.lists .sleeping=(b.wakeSleepers t).lists .sleeping := by
      rcases hb' with rfl | rfl
      · rfl
      · exact dispatch_lists (by simp)
    refine ⟨b'.lists,hruns.tracks.links,?_,?_,?_⟩
    · rw [hasleep,wakeSleepers_sleeping,hcut.dropWhile_eq,htables]
    · rw [hdue,← wakeSleepers_ready,hruns.tracks.tables,hcurrent]
      rcases hb' with rfl | rfl
      · exact Or.inl ⟨rfl,rfl⟩
      · exact dispatch_requeues hrun
    · rw [hdue]
      intro p hp
      exact h.timer_status t haccept hp
  · exact (hreject haccept).elim

structure SleepRun where
  sched : Sched
  requests : Nat
  since : Proc → Nat

namespace SleepRun

variable (r : SleepRun)

def note : Op → SleepRun
  | .sleepUntil _ => { r with since := update r.since r.sched.current r.requests }
  | _ => r

def perform (op : Op) : Reply × SleepRun :=
  let (reply, s) := r.sched.perform op
  (reply, { (if r.sched.cpu = .running ∧ r.sched.accepts op = true then r.note op else r) with
    sched := s, requests := r.requests + 1 })

/-- `p` is due before `q`, or together with it and has slept for longer. -/
def Before (p q : Proc) : Prop :=
  r.sched.sleepUntil p < r.sched.sleepUntil q ∨
    r.sched.sleepUntil p = r.sched.sleepUntil q ∧ r.since p < r.since q

end SleepRun

/-- Switching is postponed inside of calls only, and the terminator stays awake. -/
structure SleepRun.Allowed (task : Proc) (r : SleepRun) (op : Op) : Prop where
  sections : op ≠ .schedPostpone ∧ op ≠ .schedResume
  sleeps : r.sched.Sleeps op → r.sched.current ≠ task
  exit : ∀ p code, op = .exit p code → r.sched.allocated p = true ∧ p ≠ task ∧
    (p ≠ r.sched.current → r.sched.status p ≠ .blocked)
  fork : ∀ c frame, op = .fork c frame → r.sched.allocated c = false
  add : ∀ p, op = .addProc p → r.sched.allocated p = false ∧ p ≠ 0

instance (task : Proc) (r : SleepRun) (op : Op) : Decidable (r.Allowed task op) :=
  decidable_of_iff ((op ≠ .schedPostpone ∧ op ≠ .schedResume) ∧
    (r.sched.Sleeps op → r.sched.current ≠ task) ∧ r.sched.allows task op = true)
    ⟨fun h => ⟨h.1, h.2.1, (Sched.allows_iff.mp h.2.2).1, (Sched.allows_iff.mp h.2.2).2.1,
        (Sched.allows_iff.mp h.2.2).2.2⟩,
      fun h => ⟨h.sections, h.sleeps, Sched.allows_iff.mpr ⟨h.exit, h.fork, h.add⟩⟩⟩

structure SleepRun.Ok (task : Proc) (r : SleepRun) (b : Board) : Prop where
  runs : Runs task r.sched b
  unlocked : r.sched.switchLockCount = 0
  past : ∀ p ∈ b.lists .sleeping, r.since p < r.requests
  ordered : (b.lists .sleeping).Pairwise r.Before

section Step

variable {r : SleepRun}

private theorem SleepRun.Allowed.sched (h : r.Allowed task op) (hlock : r.sched.switchLockCount=0) :
    r.sched.Allowed task op :=
  ⟨fun hsleeps => ⟨hlock,h.sleeps hsleeps⟩,h.exit,h.fork,h.add⟩

private theorem call_switchLockCount (hop : op ≠ .schedPostpone ∧ op ≠ .schedResume)
    (hfresh : ∀ q, op.Creates q → q≠s.current)
    (hcpu : (s.call op).2.cpu = .running) :
    (s.call op).2.switchLockCount=s.switchLockCount := by
  by_cases hsection : op.IsSection
  · rcases hsection with rfl | rfl | rfl | rfl
    · rfl
    · rfl
    · exact (hop.1 rfl).elim
    · exact (hop.2 rfl).elim
  by_cases hyield : op = .schedYield
  · subst hyield
    exact (yield_leaves hcpu).switch
  by_cases hfinish : op = .finish
  · subst hfinish
    rcases finish_cases s with ⟨pid,child,slot,heq⟩ | ⟨hcount,-,-⟩
    · have hcall : (s.call .finish).2=(s.dropRest.waitpidEnd pid child slot).2 := heq
      rw [hcall] at hcpu ⊢
      exact (waitpidEnd_passes.leaves hcpu).switch
    · exact hcount
  exact ((call_passes hsection hyield hfinish hfresh).leaves hcpu).switch

private theorem SleepRun.Ok.cuts (h : SleepRun.Ok task r b) (t : Nat) :
    Cuts (b.sleepUntilAtMost t) (b.lists .sleeping) := by
  have huntil : r.sched.sleepUntil=b.sleepUntil := by rw [h.runs.tracks.tables]
  refine h.ordered.imp ?_
  intro p q hbefore hq
  rw [SleepRun.Before,huntil] at hbefore
  have hq' : b.sleepUntil q≤t := of_decide_eq_true hq
  exact decide_eq_true (by omega)

private theorem SleepRun.perform_taken (hcpu : r.sched.cpu = .running)
    (haccept : r.sched.accepts op=true) :
    (r.perform op).2 =
      { r.note op with sched := (r.sched.call op).2, requests := r.requests + 1 } := by
  rw [SleepRun.perform]
  dsimp only
  rw [if_pos ⟨hcpu,haccept⟩,perform_call hcpu haccept]

private theorem SleepRun.note_since (hop : ∀ t, op ≠ .sleepUntil t) :
    (r.note op).since=r.since := by
  cases op with
  | sleepUntil t => exact (hop t rfl).elim
  | _ => rfl

private theorem SleepRun.Ok.keeps {r' : SleepRun} (h : SleepRun.Ok task r b)
    (hkeeps : KeepsSleepers b b') (hruns : Runs task r'.sched b')
    (hlock : r'.sched.switchLockCount=0) (hsince : r'.since=r.since)
    (hrequests : r.requests≤r'.requests) : SleepRun.Ok task r' b' := by
  have huntil : r.sched.sleepUntil=b.sleepUntil := by rw [h.runs.tracks.tables]
  have huntil' : r'.sched.sleepUntil=b'.sleepUntil := by rw [hruns.tracks.tables]
  refine ⟨hruns,hlock,?_,?_⟩
  · intro p hp
    rw [hsince]
    exact (h.past p (hkeeps.sleeping.subset hp)).trans_le hrequests
  · refine (h.ordered.sublist hkeeps.sleeping).imp_of_mem ?_
    intro p q hp hq hbefore
    rw [SleepRun.Before,huntil',hkeeps.deadline p hp,hkeeps.deadline q hq,hsince,← huntil]
    exact hbefore

private theorem settled_sleep {t : Nat} (hb' : b'=b.sleep t ∨ b'=(b.sleep t).dispatch) :
    b'.lists .sleeping=(b.lists .sleeping).takeWhile (b.sleepUntilAtMost t) ++
        b.current::(b.lists .sleeping).dropWhile (b.sleepUntilAtMost t) ∧
      b'.sleepUntil=update b.sleepUntil b.current t := by
  have hlist : (b.sleep t).lists .sleeping=(b.lists .sleeping).takeWhile (b.sleepUntilAtMost t) ++
      b.current::(b.lists .sleeping).dropWhile (b.sleepUntilAtMost t) := by
    rw [sleep,setList_lists,update_self]
  rcases hb' with rfl | rfl
  · exact ⟨hlist,rfl⟩
  · rw [dispatch_lists (by simp),dispatch_sleepUntil]
    exact ⟨hlist,rfl⟩

/-- The process that falls asleep goes behind those that are not due later than it. -/
private theorem SleepRun.Ok.sleep {r' : SleepRun} (h : SleepRun.Ok task r b) {t : Nat}
    (hb' : b'=b.sleep t ∨ b'=(b.sleep t).dispatch) (hruns : Runs task r'.sched b')
    (hlock : r'.sched.switchLockCount=0)
    (hsince : r'.since=update r.since b.current r.requests)
    (hrequests : r'.requests=r.requests + 1) : SleepRun.Ok task r' b' := by
  have huntil : r.sched.sleepUntil=b.sleepUntil := by rw [h.runs.tracks.tables]
  obtain ⟨hlist,hdeadlines⟩ := settled_sleep hb'
  have huntil' : r'.sched.sleepUntil=update b.sleepUntil b.current t := by
    rw [hruns.tracks.tables,hdeadlines]
  have hother : ∀ p∈b.lists .sleeping, r'.sched.sleepUntil p=b.sleepUntil p ∧
      r'.since p=r.since p := by
    intro p hp
    have hpc : p≠b.current := ne_of_mem_of_not_mem hp (h.runs.out .sleeping)
    rw [huntil',hsince,update_of_ne hpc,update_of_ne hpc]
    exact ⟨rfl,rfl⟩
  have hnew : r'.sched.sleepUntil b.current=t ∧ r'.since b.current=r.requests := by
    rw [huntil',hsince,update_self,update_self]
    exact ⟨rfl,rfl⟩
  refine ⟨hruns,hlock,?_,?_⟩
  · intro p hp
    rw [hlist,mem_takeWhile_append_dropWhile] at hp
    rw [hrequests]
    rcases hp with rfl | hp
    · rw [hnew.2]
      exact Nat.lt_succ_self _
    · rw [(hother p hp).2]
      exact (h.past p hp).trans (Nat.lt_succ_self _)
  · rw [hlist]
    apply (h.cuts t).insert
    · refine h.ordered.imp_of_mem ?_
      intro p q hp hq hbefore
      rw [SleepRun.Before,(hother p hp).1,(hother q hq).1,(hother p hp).2,(hother q hq).2,← huntil]
      exact hbefore
    · -- sleepers with the same deadline came earlier
      intro p hp hdue
      have hle : b.sleepUntil p≤t := of_decide_eq_true hdue
      rw [SleepRun.Before,(hother p hp).1,(hother p hp).2,hnew.1,hnew.2]
      rcases Nat.lt_or_eq_of_le hle with hlt | heq
      · exact Or.inl hlt
      · exact Or.inr ⟨heq,h.past p hp⟩
    · intro p hp hdue
      have hlt : ¬ b.sleepUntil p≤t := fun hle => hdue (decide_eq_true hle)
      rw [SleepRun.Before,(hother p hp).1,hnew.1]
      exact Or.inl (Nat.lt_of_not_le hlt)

private theorem SleepRun.Ok.perform (h : SleepRun.Ok task r b) (hallowed : r.Allowed task op) :
    ∃ b', SleepRun.Ok task (r.perform op).2 b' := by
  have hcurrent : r.sched.current=b.current := by rw [h.runs.tracks.tables]
  have hsched := hallowed.sched h.unlocked
  rcases h.runs.perform hsched with ⟨haccept,-,-,b',hruns,hb'⟩ | ⟨hreject,hstay⟩
  · rw [perform_call h.runs.cpu haccept] at hruns
    have hlock := (call_switchLockCount hallowed.sections (h.runs.fresh hsched) hruns.cpu).trans
      h.unlocked
    rw [SleepRun.perform_taken h.runs.cpu haccept]
    refine ⟨b',?_⟩
    by_cases hop : ∃ t, op = .sleepUntil t
    · obtain ⟨t,rfl⟩ := hop
      refine h.sleep hb' hruns hlock ?_ rfl
      rw [← hcurrent]
      rfl
    · have hop' : ∀ t, op ≠ .sleepUntil t := fun t ht => hop ⟨t,ht⟩
      have hkeeps := (h.runs.effect_sleepers hsched hop').trans (settled_sleepers hb')
      exact h.keeps hkeeps hruns hlock (SleepRun.note_since hop') (Nat.le_succ _)
  · have hsame : (r.perform op).2 = { r with requests := r.requests+1 } := by
      rw [SleepRun.perform]
      dsimp only
      rw [if_neg fun hc => hreject hc.2,hstay]
    rw [hsame]
    exact ⟨b,h.keeps (KeepsSleepers.refl b) h.runs h.unlocked rfl (Nat.le_succ _)⟩

end Step

def sleepStart (kernel task tickInterval : Nat) (semaphores : Nat → Semaphore) : SleepRun :=
  ⟨schedInitialize kernel task tickInterval semaphores, 0, fun _ => 0⟩

private theorem sleepStart_ok {kernel : Proc} (hkernel : kernel≠0) (htask : task≠0)
    (hne : task≠kernel) (tickInterval : Nat) (semaphores : Nat → Semaphore) :
    ∃ b, SleepRun.Ok task (sleepStart kernel task tickInterval semaphores) b := by
  obtain ⟨b,hruns,hb⟩ := schedInitialize_runs hkernel htask hne tickInterval semaphores
  have hnone : b.lists .sleeping=[] := by
    have hspawn : ((kernelBoard kernel semaphores).spawn task).lists .sleeping=[] := by
      rw [spawn,setList_lists,update_of_ne (by simp)]
      rfl
    rcases hb with rfl | rfl
    · exact hspawn
    · rwa [dispatch_lists (by simp)]
  refine ⟨b,hruns,rfl,?_,?_⟩
  · rw [hnone]
    exact fun p hp => (List.not_mem_nil hp).elim
  · rw [hnone]
    exact List.Pairwise.nil

/-- The process that calls sleeps until `t`, behind the sleepers that are not due later. -/
structure FallsAsleep (t : Nat) (s s' : Sched) (L L' : QueueId → List Proc) : Prop where
  sleeping : L' .sleeping = (L .sleeping).takeWhile (s.sleepUntilAtMost t) ++
    s.current :: (L .sleeping).dropWhile (s.sleepUntilAtMost t)
  deadline : s'.sleepUntil = update s.sleepUntil s.current t
  status : s'.status s.current = .sleepingTimer

/-- The processes that sleep are those in the sleeping queue, which is in order. A call to sleep,
when the current process can make it, puts it into the queue with its deadline; and a tick, when it
can come, wakes exactly those that are due. -/
def SleepersInOrder (task : Proc) (r : SleepRun) : Prop :=
  ∃ L, r.sched.links.Holds L ∧ (L .sleeping).Pairwise r.Before ∧
    (∀ p, r.sched.allocated p = true →
      (p ∈ L .sleeping ↔ r.sched.status p = .sleepingTimer)) ∧
    (∀ t, r.sched.accepts (.sleepUntil t) = true → r.sched.current ≠ task →
      ∃ L', (r.sched.perform (.sleepUntil t)).2.links.Holds L' ∧
        FallsAsleep t r.sched (r.sched.perform (.sleepUntil t)).2 L L') ∧
    ∀ t, r.sched.accepts (.timer t) = true →
      ∃ L', (r.sched.perform (.timer t)).2.links.Holds L' ∧
        Wakes t r.sched (r.sched.perform (.timer t)).2 L L'

private theorem Runs.mem_sleeping_iff (h : Runs task s b) (hp : b.allocated p=true) :
    p∈b.lists .sleeping ↔ b.status p = .sleepingTimer := by
  have hok := h.tracks.ok
  constructor
  · exact hok.fits
  · intro hst
    rcases hok.placed p hp with rfl | ⟨i,hi⟩
    · rcases hok.out h.out with hrun | hun
      · rw [hrun] at hst
        cases hst
      · rw [hun] at hst
        cases hst
    · have hfit := hok.fits hi
      rw [hst] at hfit
      cases i <;> simp_all [QueueId.Fits]

private theorem Runs.fallsAsleep (h : Runs task s b) (t : Nat)
    (haccept : s.accepts (.sleepUntil t)=true)
    (hlock : s.switchLockCount=0) (htask : s.current≠task) :
    ∃ L', (s.perform (.sleepUntil t)).2.links.Holds L' ∧
      FallsAsleep t s (s.perform (.sleepUntil t)).2 b.lists L' := by
  have hallowed : s.Allowed task (.sleepUntil t) :=
    ⟨fun _ => ⟨hlock,htask⟩,by simp,by simp,by simp⟩
  have hcurrent := h.tracks.current
  rcases h.perform hallowed with ⟨-,-,-,b',hruns,hb'⟩ | ⟨hreject,-⟩
  · obtain ⟨hlist,huntil⟩ := settled_sleep hb'
    refine ⟨b'.lists,hruns.tracks.links,?_,?_,?_⟩
    · rw [hlist,h.tracks.tables]
    · rw [hruns.tracks.tables,huntil,h.tracks.tables]
    · rw [hruns.tracks.tables,hcurrent]
      apply hruns.tracks.ok.fits (i := .sleeping)
      rw [hlist,mem_takeWhile_append_dropWhile]
      exact Or.inl rfl
  · exact (hreject haccept).elim

private theorem SleepRun.Ok.inOrder {r : SleepRun} (h : SleepRun.Ok task r b) :
    SleepersInOrder task r := by
  refine ⟨b.lists,h.runs.tracks.links,h.ordered,?_,?_,?_⟩
  · intro p hp
    rw [h.runs.tracks.tables] at hp ⊢
    exact h.runs.mem_sleeping_iff hp
  · intro t haccept htask
    exact h.runs.fallsAsleep t haccept h.unlocked htask
  · intro t haccept
    exact h.runs.timer_wakes t haccept (h.cuts t)

theorem sleepers_wake_in_order (kernel task tickInterval : Nat) (semaphores : Nat → Semaphore)
    (hkernel : kernel ≠ 0) (htask : task ≠ 0) (hne : task ≠ kernel) (ops : List Op)
    (hall : Always SleepRun.perform (SleepRun.Allowed task)
      (sleepStart kernel task tickInterval semaphores) ops) :
    SleepersInOrder task
      (trace SleepRun.perform (sleepStart kernel task tickInterval semaphores) ops).2 := by
  have hrun : ∃ b, SleepRun.Ok task
      (trace SleepRun.perform (sleepStart kernel task tickInterval semaphores) ops).2 b := by
    apply trace_invariant (fun r => ∃ b, SleepRun.Ok task r b) _ _ hall
    · rintro r op ⟨b,h⟩ hallowed
      exact h.perform hallowed
    · exact sleepStart_ok hkernel htask hne tickInterval semaphores
  obtain ⟨b,h⟩ := hrun
  exact h.inOrder

def smallSleepStart : SleepRun := sleepStart 1 2 1000 fun _ => ⟨1, 0⟩

/-- Process 3 sleeps until 9, then processes 4 and 1 until 5. -/
def threeSleepers : List Op :=
  [.addProc 3, .addProc 4, .schedYield, .finish, .schedYield, .finish, .sleepUntil 9, .finish,
    .sleepUntil 5, .finish, .sleepUntil 5, .finish]

/-- The sleepers that are due together are queued in the order in which they came, ahead of the
first, and the tick at 5 makes the two ready. -/
theorem sleepers_wake_in_order_tie :
    let r := (trace SleepRun.perform smallSleepStart threeSleepers).2
    SleepersInOrder 2 r ∧ r.sched.links.toList 4 .sleeping = [4, 1, 3] ∧
      (r.sched.perform (.timer 5)).2.links.toList 4 .readyToRun = [4, 1] ∧
      (r.sched.perform (.timer 5)).2.links.toList 4 .sleeping = [3] :=
  ⟨sleepers_wake_in_order 1 2 1000 (fun _ => ⟨1,0⟩) (by decide) (by decide) (by decide)
    threeSleepers (by decide +kernel),by decide +kernel,by decide +kernel,by decide +kernel⟩

namespace Sched

variable (s : Sched)

/-- `elapsed` is what `pit_get_ns_elapsed_since_init` returns. -/
def sleepCurrentNs (elapsed ns : BitVec 64) : Sched :=
  s.sleepProcUntil s.current (elapsed + ns).toNat

def sleepCurrent (elapsed secs : BitVec 64) : Sched :=
  s.sleepCurrentNs elapsed (secs * 1000000000#64)

def syscallNanosleep (elapsed ns : BitVec 64) : Nat × Sched := (0, s.sleepCurrentNs elapsed ns)

end Sched

/-- The ways in which a process can ask to sleep for a while. -/
inductive SleepCall
  | nanosleep (ns : BitVec 64)
  | sleepCurrent (secs : BitVec 64)

namespace SleepCall

def run (elapsed : BitVec 64) (s : Sched) : SleepCall → Sched
  | nanosleep ns => (s.syscallNanosleep elapsed ns).2
  | sleepCurrent secs => s.sleepCurrent elapsed secs

def duration : SleepCall → Nat
  | nanosleep ns => ns.toNat
  | sleepCurrent secs => secs.toNat * 1000000000

def deadline (elapsed : BitVec 64) (call : SleepCall) : Nat :=
  (elapsed.toNat + call.duration) % 2 ^ 64

private theorem run_eq (elapsed : BitVec 64) (s : Sched) (call : SleepCall) :
    call.run elapsed s=s.sleepProcUntil s.current (call.deadline elapsed) := by
  cases call with
  | nanosleep ns =>
    change s.sleepProcUntil s.current (elapsed+ns).toNat=_
    rw [BitVec.toNat_add]
    rfl
  | sleepCurrent secs =>
    change s.sleepProcUntil s.current (elapsed+secs * 1000000000#64).toNat=_
    rw [BitVec.toNat_add,BitVec.toNat_mul,deadline,Nat.add_mod_mod]
    rfl

end SleepCall

/-- The states of runs from `sched_initialize` on. -/
def Reached (task : Proc) (s : Sched) : Prop :=
  ∃ kernel tickInterval semaphores ops, kernel ≠ 0 ∧ task ≠ 0 ∧ task ≠ kernel ∧
    Always Sched.perform (Sched.Allowed task)
      (schedInitialize kernel task tickInterval semaphores) ops ∧
    s = (trace Sched.perform (schedInitialize kernel task tickInterval semaphores) ops).2

/-- The process `p`, not the terminator, has made the call at the time `elapsed`, outside of any
other, and has been asleep since then. -/
inductive AsleepSince (task : Proc) (elapsed : BitVec 64) (call : SleepCall) (p : Proc) :
    Sched → Prop
  | call {s : Sched} (hreached : Reached task s) (hcurrent : s.current = p) (htask : p ≠ task)
      (hrest : s.rest p = []) (hlock : s.switchLockCount = 0) :
      AsleepSince task elapsed call p (call.run elapsed s)
  | step {s : Sched} {op : Op} (h : AsleepSince task elapsed call p s)
      (hallowed : s.Allowed task op) (hlive : (s.perform op).2.allocated p = true)
      (hasleep : (s.perform op).2.status p = .sleepingTimer) :
      AsleepSince task elapsed call p (s.perform op).2

/-- Whenever a tick of a time that has come by then wakes the caller, the duration it has asked for
has passed. -/
def NeverEarly (elapsed : BitVec 64) (call : SleepCall) : Prop :=
  ∀ (task p : Proc) (s : Sched) (tick : BitVec 64), AsleepSince task elapsed call p s →
    elapsed ≤ tick → (s.perform (.timer tick.toNat)).2.status p ≠ .sleepingTimer →
    elapsed.toNat + call.duration ≤ tick.toNat

section Deadline

variable {elapsed : BitVec 64} {call : SleepCall}

private theorem Reached.runs (h : Reached task s) : ∃ b, Runs task s b := by
  obtain ⟨kernel,tickInterval,semaphores,ops,hkernel,htask,hne,hall,rfl⟩ := h
  exact run_runs hkernel htask hne hall

private theorem AsleepSince.deadline (h : AsleepSince task elapsed call p s) :
    ∃ b, Runs task s b ∧ p∈b.lists .sleeping ∧ b.sleepUntil p=call.deadline elapsed := by
  induction h with
  | call hreached hcurrent htask hrest hlock =>
    obtain ⟨b,h⟩ := hreached.runs
    have hcurrent' : b.current=p := by
      rw [← hcurrent,h.tracks.tables]
    rw [SleepCall.run_eq]
    obtain ⟨-,b',hruns,hb'⟩ := h.sleepProcUntil hlock (by
      rw [hcurrent']
      exact htask.symm) (call.deadline elapsed)
    obtain ⟨hlist,huntil⟩ := settled_sleep hb'
    refine ⟨b',hruns,?_,?_⟩
    · rw [hlist,mem_takeWhile_append_dropWhile]
      exact Or.inl hcurrent'.symm
    · rw [huntil,hcurrent',update_self]
  | @step s op h hallowed hlive hasleep ih =>
    obtain ⟨b,hruns,hin,huntil⟩ := ih
    rcases hruns.perform hallowed with ⟨-,-,-,b',hruns',hb'⟩ | ⟨-,hstay⟩
    · rw [hruns'.tracks.tables] at hlive hasleep
      have hin' := (hruns'.mem_sleeping_iff hlive).mpr hasleep
      refine ⟨b',hruns',hin',?_⟩
      rw [(settled_sleepers hb').deadline p hin',← huntil]
      have hin'' := (settled_sleepers hb').sleeping.subset hin'
      by_cases hop : ∃ t, op = .sleepUntil t
      · obtain ⟨t,rfl⟩ := hop
        have hpc : p≠b.current := ne_of_mem_of_not_mem hin (hruns.out .sleeping)
        exact update_of_ne hpc _ _
      · exact (hruns.effect_sleepers hallowed fun t ht => hop ⟨t,ht⟩).deadline p hin''
    · rw [hstay]
      exact ⟨b,hruns,hin,huntil⟩

private theorem Runs.timer_keeps (h : Runs task s b) {t : Nat} (hin : p∈b.lists .sleeping)
    (hlate : t<b.sleepUntil p) : (s.perform (.timer t)).2.status p = .sleepingTimer := by
  have hallowed : s.Allowed task (.timer t) := allowed_of_plain id (by simp) (by simp) (by simp)
  rcases h.perform hallowed with ⟨-,-,-,b',hruns,hb'⟩ | ⟨-,hstay⟩
  · have hstays : p∈(b.wakeSleepers t).lists .sleeping := by
      rw [wakeSleepers_sleeping]
      rw [← List.takeWhile_append_dropWhile (p := b.sleepUntilAtMost t)
        (l := b.lists .sleeping)] at hin
      rcases List.mem_append.mp hin with hdue | hstays
      · have hdue' : b.sleepUntilAtMost t p=true := List.mem_takeWhile_imp hdue
        have hle : b.sleepUntil p≤t := of_decide_eq_true hdue'
        omega
      · exact hstays
    have hin' : p∈b'.lists .sleeping := by
      rcases hb' with rfl | rfl
      · exact hstays
      · rwa [dispatch_lists (by simp)]
    rw [hruns.tracks.tables]
    exact hruns.tracks.ok.fits hin'
  · rw [hstay,h.tracks.tables]
    exact h.tracks.ok.fits hin

def kernelAsleep (elapsed : BitVec 64) (call : SleepCall) : Sched :=
  ((call.run elapsed smallStart).perform .finish).2

private theorem kernelAsleep_since (elapsed : BitVec 64) (call : SleepCall) :
    AsleepSince 2 elapsed call 1 (kernelAsleep elapsed call) := by
  have hreached : Reached 2 smallStart :=
    ⟨1,1000,fun _ => ⟨1,0⟩,[],by decide,by decide,by decide,trivial,rfl⟩
  apply AsleepSince.step
  · exact AsleepSince.call hreached rfl (by decide) rfl rfl
  · exact allowed_of_plain id (by simp) (by simp) (by simp)
  · rw [SleepCall.run_eq]
    rfl
  · rw [SleepCall.run_eq]
    rfl

/-- It is woken by the first tick at or behind its deadline. -/
private theorem kernelAsleep_wakes (elapsed : BitVec 64) (call : SleepCall) {t : Nat}
    (hdue : call.deadline elapsed≤t) :
    ((kernelAsleep elapsed call).perform (.timer t)).2.status 1 ≠ .sleepingTimer := by
  obtain ⟨b,hruns,-,huntil⟩ := (kernelAsleep_since elapsed call).deadline
  have halone : b.lists .sleeping=[1] := by
    rw [← hruns.tracks.links.toList_eq (hruns.tracks.fuel .sleeping),kernelAsleep,SleepCall.run_eq]
    rfl
  have hfront : 1∈(b.lists .sleeping).takeWhile (b.sleepUntilAtMost t) := by
    have hdue' : b.sleepUntilAtMost t 1=true := decide_eq_true (huntil.trans_le hdue)
    rw [halone,List.takeWhile_cons_of_pos hdue']
    exact List.mem_cons_self
  have haccept : (kernelAsleep elapsed call).accepts (.timer t)=true := by
    rw [kernelAsleep,SleepCall.run_eq]
    rfl
  rcases hruns.timer_status t haccept hfront with hst | ⟨-,hst⟩
  · rw [hst]
    decide
  · rw [hst]
    decide

end Deadline

/-- A sleeper is never woken early exactly if the sum of the time and the duration fits into 64
bits. -/
theorem neverEarly_iff (elapsed : BitVec 64) (call : SleepCall) :
    NeverEarly elapsed call ↔ elapsed.toNat + call.duration < 2 ^ 64 := by
  constructor
  · intro hnever
    by_contra hover
    -- the wrapped deadline or the present, whichever is later, is a time before the real deadline
    have hdeadline : call.deadline elapsed<2 ^ 64 := Nat.mod_lt _ (by positivity)
    have htick : max elapsed.toNat (call.deadline elapsed)<2 ^ 64 := max_lt elapsed.isLt hdeadline
    let tick := BitVec.ofNat 64 (max elapsed.toNat (call.deadline elapsed))
    have htoNat : tick.toNat=max elapsed.toNat (call.deadline elapsed) := by
      rw [BitVec.toNat_ofNat,Nat.mod_eq_of_lt htick]
    have hpast : elapsed≤tick := by
      rw [BitVec.le_def,htoNat]
      exact le_max_left _ _
    have hdue : call.deadline elapsed≤tick.toNat := by
      rw [htoNat]
      exact le_max_right _ _
    have hwakes := kernelAsleep_wakes elapsed call hdue
    have hlate := hnever 2 1 _ tick (kernelAsleep_since elapsed call) hpast hwakes
    omega
  · intro hfits task p s tick hasleep _ hwoken
    obtain ⟨b,hruns,hin,huntil⟩ := hasleep.deadline
    have hdeadline : call.deadline elapsed=elapsed.toNat+call.duration := Nat.mod_eq_of_lt hfits
    by_contra hearly
    apply hwoken
    apply hruns.timer_keeps hin
    rw [huntil,hdeadline]
    exact Nat.lt_of_not_le hearly

/-- A millisecond after the start, the longest sleep ends at once. -/
theorem longest_sleep_ends_at_once :
    ¬ NeverEarly 1000000#64 (.nanosleep 0xffffffffffffffff#64) := by
  intro hnever
  have hwakes := kernelAsleep_wakes 1000000#64 (.nanosleep 0xffffffffffffffff#64) (t := 1000000)
    (by decide)
  have hlate := hnever 2 1 _ 1000000#64 (kernelAsleep_since _ _) (by decide) hwakes
  revert hlate
  decide

end Hojicha.Mp
