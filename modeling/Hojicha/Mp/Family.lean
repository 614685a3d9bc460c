import Hojicha.Mp.Locks

/-!
# What an operation does to families

Most operations leave families, the dead and those who wait for them alone (`Calm`), and so does a
context switch. `KinStep` has the others.
-/

namespace Hojicha.Mp

open Framework Function

variable {s : Sched} {b b' b₁ b₂ b₃ : Board} {p q c task : Proc} {op : Op} {slot : Nat}
  {i : QueueId} {ps : List Proc}

/-- Nobody is born, ended or freed, and nobody begins or ends to wait for a child. What a process
has left to do behind such a wait can only be done. -/
structure Calm (b b' : Board) : Prop where
  allocated : b'.allocated = b.allocated
  pid : b'.pid = b.pid
  parent : b'.parent = b.parent
  children : b'.children = b.children
  exitCode : b'.exitCode = b.exitCode
  total : b'.totalProcessesAdded = b.totalProcessesAdded
  dead : ∀ p, b.allocated p = true → (b'.status p = .readyToDie ↔ b.status p = .readyToDie)
  dying : b'.lists .readyToDie = b.lists .readyToDie
  exitWaiters : ∀ c, b'.lists (.waiting (.exitWaiters c)) = b.lists (.waiting (.exitWaiters c))
  childWaiters : ∀ q, b'.lists (.waiting (.childWaiters q)) = b.lists (.waiting (.childWaiters q))
  waits : ∀ p pid child slot, .waitpid pid child slot ∈ b'.rest p →
    .waitpid pid child slot ∈ b.rest p ∧ (b'.status p = .blocked → b.status p = .blocked)

theorem Calm.refl (b : Board) : Calm b b :=
  ⟨rfl,rfl,rfl,rfl,rfl,rfl,fun _ _ => Iff.rfl,rfl,fun _ => rfl,fun _ => rfl,fun _ _ _ _ h => ⟨h,id⟩⟩

private theorem Calm.trans (h : Calm b₁ b₂) (h' : Calm b₂ b₃) : Calm b₁ b₃ where
  allocated := h'.allocated.trans h.allocated
  pid := h'.pid.trans h.pid
  parent := h'.parent.trans h.parent
  children := h'.children.trans h.children
  exitCode := h'.exitCode.trans h.exitCode
  total := h'.total.trans h.total
  dead := fun p hp => (h'.dead p (by rw [h.allocated]; exact hp)).trans (h.dead p hp)
  dying := h'.dying.trans h.dying
  exitWaiters := fun c => (h'.exitWaiters c).trans (h.exitWaiters c)
  childWaiters := fun q => (h'.childWaiters q).trans (h.childWaiters q)
  waits := fun p pid child slot hmem =>
    have hback := h'.waits p pid child slot hmem
    have hfirst := h.waits p pid child slot hback.1
    ⟨hfirst.1,fun hst => hfirst.2 (hback.2 hst)⟩

def QueueId.OfFamily (i : QueueId) : Prop :=
  i = .readyToDie ∨ (∃ c, i = .waiting (.exitWaiters c)) ∨ ∃ q, i = .waiting (.childWaiters q)

private theorem calm_of_lists (hlists : ∀ i : QueueId, i.OfFamily → b'.lists i=b.lists i)
    (htables : b'.allocated=b.allocated ∧ b'.pid=b.pid ∧ b'.parent=b.parent ∧
      b'.children=b.children ∧ b'.exitCode=b.exitCode ∧
      b'.totalProcessesAdded=b.totalProcessesAdded)
    (hdead : ∀ p, b.allocated p=true → (b'.status p = .readyToDie ↔ b.status p = .readyToDie))
    (hwaits : ∀ p pid child slot, .waitpid pid child slot∈b'.rest p →
      .waitpid pid child slot∈b.rest p ∧ (b'.status p = .blocked → b.status p = .blocked)) :
    Calm b b' := by
  obtain ⟨halloc,hpid,hparent,hchildren,hcode,htotal⟩ := htables
  exact ⟨halloc,hpid,hparent,hchildren,hcode,htotal,hdead,hlists _ (Or.inl rfl),
    fun c => hlists _ (Or.inr (Or.inl ⟨c,rfl⟩)),fun q => hlists _ (Or.inr (Or.inr ⟨q,rfl⟩)),
    hwaits⟩

private theorem update_lists (hi : ¬ i.OfFamily) (j : QueueId)
    (hj : j.OfFamily) : update b.lists i ps j=b.lists j := by
  apply update_of_ne
  rintro rfl
  exact hi hj

theorem update_dead {st : ProcStatus} (hp : b.status p ≠ .readyToDie) (hst : st ≠ .readyToDie)
    (q : Proc) : update b.status p st q = .readyToDie ↔ b.status q = .readyToDie := by
  by_cases hqp : q=p
  · rw [hqp,update_self]
    exact iff_of_false hst hp
  · rw [update_of_ne hqp]

private theorem calm_sleep {st : ProcStatus} {t : Tables}
    (hi : ¬ i.OfFamily) (hrest : b.rest b.current=[])
    (hrun : b.status b.current ≠ .readyToDie) (hst : st ≠ .readyToDie)
    (ht : t=b.setStatus b.current st ∨
      ∃ timestamp, t=(b.setSleepUntil b.current timestamp).setStatus b.current st) :
    Calm b { b.setList i ps with toTables := t } := by
  have hwaits : ∀ p pid child slot, .waitpid pid child slot∈b.rest p →
      .waitpid pid child slot∈b.rest p ∧
        (update b.status b.current st p = .blocked → b.status p = .blocked) := by
    intro p pid child slot hmem
    refine ⟨hmem,?_⟩
    have hp : p≠b.current := by
      rintro rfl
      rw [hrest] at hmem
      cases hmem
    rw [update_of_ne hp]
    exact id
  rcases ht with rfl | ⟨timestamp,rfl⟩
  · exact calm_of_lists (update_lists hi) ⟨rfl,rfl,rfl,rfl,rfl,rfl⟩
      (fun q _ => update_dead hrun hst q) hwaits
  · exact calm_of_lists (update_lists hi) ⟨rfl,rfl,rfl,rfl,rfl,rfl⟩
      (fun q _ => update_dead hrun hst q) hwaits

private theorem calm_release {qs : List Proc} (hok : BoardOk b) (hi : ¬ i.OfFamily)
    (hps : ∀ q∈ps, q∈b.lists i) (hfit : ¬ i.Fits .readyToDie) :
    Calm b (b.release i ps qs) := by
  apply calm_of_lists
  · intro j hj
    have hready : ¬ QueueId.OfFamily .readyToRun := by simp [QueueId.OfFamily]
    simp only [Board.release,setList_lists]
    rw [update_of_ne,update_lists hi j hj]
    rintro rfl
    exact hready hj
  · exact ⟨rfl,rfl,rfl,rfl,rfl,rfl⟩
  · intro q _
    change (b.makeReady ps).status q=_ ↔ _
    rw [makeReady_status]
    split_ifs with hmem
    · apply iff_of_false (by decide)
      intro hdead
      have hq := hok.fits (hps q hmem)
      rw [hdead] at hq
      exact hfit hq
    · rfl
  · intro q pid child slot hmem
    refine ⟨hmem,?_⟩
    change (b.makeReady ps).status q=_ → _
    rw [makeReady_status]
    split_ifs
    · intro hst
      cases hst
    · exact id

theorem calm_dispatch (hok : BoardOk b) : Calm b b.dispatch := by
  have htables : b.dispatch.allocated=b.allocated ∧ b.dispatch.pid=b.pid ∧
      b.dispatch.parent=b.parent ∧ b.dispatch.children=b.children ∧
      b.dispatch.exitCode=b.exitCode ∧
      b.dispatch.totalProcessesAdded=b.totalProcessesAdded := by
    rw [Board.dispatch]
    split
    · exact ⟨rfl,rfl,rfl,rfl,rfl,rfl⟩
    · split_ifs <;> exact ⟨rfl,rfl,rfl,rfl,rfl,rfl⟩
  refine calm_of_lists ?_ htables ?_ ?_
  · rintro i hi
    apply dispatch_lists
    rintro rfl
    simp [QueueId.OfFamily] at hi
  · intro p _
    rcases dispatch_status hok p with hst | ⟨hst,hst'⟩ | ⟨hst,hst',-⟩
    · rw [hst]
    · rw [hst,hst']
      decide
    · rw [hst,hst']
      decide
  · intro p pid child slot hmem
    refine ⟨mem_rest_of_dispatch (by simp) hmem,?_⟩
    rcases dispatch_status hok p with hst | ⟨-,hst⟩ | ⟨-,hst,-⟩
    · rw [hst]
      exact id
    · rw [hst]
      intro hblocked
      cases hblocked
    · rw [hst]
      intro hblocked
      cases hblocked

def Reply.Silent : Reply → Prop
  | .done | .locked _ => True
  | .forked ret => ret < 0
  | .waited _ wstatus => wstatus = none

inductive KinStep (b : Board) : Op → Reply → Board → Prop
  | calm {op : Op} {reply : Reply} {b' : Board} (hcalm : Calm b b') (hreply : reply.Silent) :
    KinStep b op reply b'
  | spawn {p : Proc} (hp : b.allocated p = false) (hp0 : p ≠ 0) :
    KinStep b (.addProc p) .done (b.spawn p)
  | fork {c : Proc} {frame : InterruptFrame} {slot : Nat}
      (hslot : b.procChildFindNull b.current = some slot)
      (hc : b.allocated c = false) (hc0 : c ≠ 0) (hrest : b.rest b.current = []) :
    KinStep b (.fork c frame) (.forked (b.totalProcessesAdded + 1))
      { b.setList .readyToRun (b.lists .readyToRun ++ [c]) with toTables := b.forkChild c slot }
  | exit {p : Proc} {code : Int} (hp : b.allocated p = true) (hlive : b.status p ≠ .readyToDie)
      (hblocked : p ≠ b.current → b.status p ≠ .blocked) :
    KinStep b (.exit p code) .done ((b.die p code).wakeParent p)
  | wait {pid : Int} {options slot : Nat} (hrest : b.rest b.current = [])
      (hfind : b.waitChildFind b.current pid = some slot)
      (hlive : b.status (b.children b.current slot) ≠ .readyToDie) :
    KinStep b (.waitpid pid options) .done (b.waitFor pid (b.children b.current slot) slot)
  -- behind a wait the board is `b₀`, on which the wait is over
  | collect {op : Op} {b₀ : Board} {slot : Nat} (hdrop : Calm b b₀)
      (hcurrent : b₀.current = b.current) (hrest : b₀.rest b.current = [])
      (hc0 : b.children b.current slot ≠ 0)
      (hdead : b.status (b.children b.current slot) = .readyToDie)
      (hop : ∀ p code, op ≠ .exit p code) :
    KinStep b op (.waited (b.pid (b.children b.current slot))
        (some (b.wstatus (b.children b.current slot))))
      (b₀.collect b.current (b.children b.current slot) slot).2
  | reap : KinStep b .reap .done b.reap

private theorem not_family_sleeping : ¬ QueueId.OfFamily .sleeping := by simp [QueueId.OfFamily]

private theorem not_family_device (k : Nat) : ¬ QueueId.OfFamily (.waiting (.device k)) := by
  simp [QueueId.OfFamily]

private theorem not_family_semaphore (k : Nat) : ¬ QueueId.OfFamily (.waiting (.semaphore k)) := by
  simp [QueueId.OfFamily]

private theorem calm_wake (hok : BoardOk b) {w : WaitQueue} (hw : ¬ QueueId.OfFamily (.waiting w)) :
    Calm b (b.wake w) :=
  calm_release hok hw (fun _ hq => List.mem_of_mem_take hq) (by simp [QueueId.Fits])

private theorem calm_wakeAll (hok : BoardOk b) {w : WaitQueue}
    (hw : ¬ QueueId.OfFamily (.waiting w)) : Calm b (b.wakeAll w) :=
  calm_release hok hw (fun _ hq => hq) (by simp [QueueId.Fits])

private theorem calm_setLocks (b : Board) (k locks : Nat) :
    Calm b { b with toTables := b.setLocks k locks } :=
  calm_of_lists (fun _ _ => rfl) ⟨rfl,rfl,rfl,rfl,rfl,rfl⟩ (fun _ _ => Iff.rfl)
    fun _ _ _ _ h => ⟨h,id⟩

private theorem calm_dropRest (b : Board) : Calm b { b with toTables := b.dropRest } :=
  calm_of_lists (fun _ _ => rfl) ⟨rfl,rfl,rfl,rfl,rfl,rfl⟩ (fun _ _ => Iff.rfl)
    fun p _ _ _ hmem => ⟨(dropRest_sublist b p).subset hmem,id⟩

theorem collect_of_dead (hdead : b.status c = .readyToDie) (slot : Nat) :
    (b.collect q c slot).1 = .waited (b.pid c) (some (b.wstatus c)) := by
  rw [Board.collect,if_neg (not_not.mpr hdead)]

private theorem collect_of_live (hlive : b.status c ≠ .readyToDie) (slot : Nat) :
    b.collect q c slot=(.waited (-ECHILD) none, b) := by
  rw [Board.collect,if_pos hlive]

private theorem waitpid_step {pid : Int} {options : Nat} (hrest : b.rest b.current=[]) :
    KinStep b (.waitpid pid options) (b.waitpid pid options).1 (b.waitpid pid options).2 := by
  rcases waitpid_cases b pid options with ⟨ret,-,heq⟩ | ⟨slot,hfind,hdead,heq⟩ |
    ⟨slot,hfind,hlive,-,heq⟩
  · rw [heq]
    exact .calm (Calm.refl b) rfl
  · have hc0 := (waitChildFind_some hfind).2.1
    have hstep : KinStep b (.waitpid pid options) _ _ :=
      .collect (Calm.refl b) rfl hrest hc0 hdead (by simp)
    rw [heq,collect_of_dead hdead]
    exact hstep
  · rw [heq]
    exact .wait hrest hfind hlive

private theorem Runs.finish_step (h : Runs task s b) : KinStep b .finish b.finish.1 b.finish.2 := by
  have hdrop := calm_dropRest b
  rw [Board.finish]
  cases hrest : b.rest b.current with
  | nil => exact .calm (Calm.refl b) trivial
  | cons r rs =>
    cases r with
    | unlock => exact .calm hdrop trivial
    | prelude =>
      refine .calm ?_ trivial
      dsimp only
      split_ifs with hun
      · apply hdrop.trans
        refine calm_of_lists (fun _ _ => rfl) ⟨rfl,rfl,rfl,rfl,rfl,rfl⟩ ?_ ?_
        · intro q _
          exact update_dead h.alive (by decide) q
        · intro q pid child slot hmem
          refine ⟨hmem,?_⟩
          change update b.status b.current .running q=_ → b.status q=_
          by_cases hq : q=b.current
          · rw [hq,update_self]
            intro hst
            cases hst
          · rw [update_of_ne hq]
            exact id
      · exact hdrop
    | waitpid pid child slot =>
      obtain ⟨hslot,hc0⟩ := h.tracks.rests.slot _ h.tracks.ok.live pid child slot (by
        rw [hrest]
        exact List.mem_cons_self)
      dsimp only
      rw [Board.waitpidEnd]
      cases hfound : b.dropRest.waitedChild pid child slot with
      | none => exact .calm hdrop rfl
      | some found =>
        obtain ⟨hown,hown0⟩ := waitedChild_own (t := b.dropRest) hslot hc0 hfound
        have hown' : b.children b.current found.2=found.1 := hown
        let b₀ : Board := { b with toTables := b.dropRest }
        change KinStep b .finish (b₀.collect b.current found.1 found.2).1
          (b₀.collect b.current found.1 found.2).2
        by_cases hdead : b.status found.1 = .readyToDie
        · have hdead₀ : b₀.status found.1 = .readyToDie := hdead
          rw [collect_of_dead hdead₀]
          rw [← hown'] at hdead hown0 ⊢
          exact .collect hdrop rfl (h.waitpid_last hrest) hown0 hdead (by simp)
        · have hlive₀ : b₀.status found.1 ≠ .readyToDie := hdead
          rw [collect_of_live hlive₀]
          exact .calm hdrop rfl

theorem Runs.kinStep (h : Runs task s b) (haccept : s.accepts op=true)
    (hallowed : s.Allowed task op) : KinStep b op (b.effect op).1 (b.effect op).2 := by
  have halloc := h.tracks.allocated
  have hcurrent := h.tracks.current
  have hstatus := h.tracks.status
  have hok := h.tracks.ok
  have hlive := h.alive
  have hrest : (∀ t, op ≠ .timer t) → op ≠ .finish → b.rest b.current=[] := by
    intro htimer hfinish
    have hnone := accepted_rest haccept htimer hfinish
    rwa [h.tracks.tables] at hnone
  cases op with
  | schedLock => exact .calm (Calm.refl b) trivial
  | schedUnlock => exact .calm (Calm.refl b) trivial
  | schedPostpone => exact .calm (Calm.refl b) trivial
  | schedResume => exact .calm (Calm.refl b) trivial
  | schedYield => exact .calm (Calm.refl b) trivial
  | addProc p =>
    obtain ⟨hp,hp0⟩ := hallowed.add p rfl
    rw [halloc] at hp
    exact .spawn hp hp0
  | fork c frame =>
    have hc := hallowed.fork c frame rfl
    rw [halloc] at hc
    change KinStep b (.fork c frame) (.forked (b.fork c frame).1) (b.fork c frame).2
    rw [Board.fork]
    cases hslot : b.forkSlot c frame with
    | error e => exact .calm (Calm.refl b) (Int.neg_neg_of_pos (forkSlot_error hslot))
    | ok slot =>
      obtain ⟨hnull,hc0⟩ := forkSlot_ok hslot
      exact .fork hnull hc hc0 (hrest (by simp) (by simp))
  | sleepUntil t =>
    refine .calm ?_ trivial
    exact calm_sleep not_family_sleeping (hrest (by simp) (by simp)) hlive (by decide)
      (Or.inr ⟨t,rfl⟩)
  | waitSleep k n =>
    refine .calm ?_ trivial
    exact calm_sleep (not_family_device k) (hrest (by simp) (by simp)) hlive (by decide)
      (Or.inl rfl)
  | wakeOne k => exact .calm (calm_wake hok (not_family_device k)) trivial
  | wakeAll k => exact .calm (calm_wakeAll hok (not_family_device k)) trivial
  | semaphoreLock k =>
    refine .calm ?_ trivial
    rw [Board.effect]
    dsimp only
    split_ifs
    · exact calm_setLocks b k _
    · exact calm_sleep (not_family_semaphore k) (hrest (by simp) (by simp)) hlive (by decide)
        (Or.inl rfl)
  | semaphoreTryLock k =>
    rw [Board.effect]
    split_ifs
    · exact .calm (calm_setLocks b k _) trivial
    · exact .calm (Calm.refl b) trivial
  | semaphoreUnlock k =>
    refine .calm ?_ trivial
    rw [Board.effect]
    dsimp only
    split_ifs
    · exact calm_wake hok (not_family_semaphore k)
    · exact calm_setLocks b k _
  | exit p code =>
    obtain ⟨hp,-,hblocked⟩ := hallowed.exit p code rfl
    rw [halloc] at hp
    rw [hcurrent,hstatus] at hblocked
    change KinStep b (.exit p code) .done (b.exit p code)
    rw [Board.exit]
    split_ifs with hgone
    · exact .calm (Calm.refl b) trivial
    · exact .exit hp (fun hst => hgone (Or.inr hst)) hblocked
  | waitpid pid options =>
    exact waitpid_step (hrest (by simp) (by simp))
  | reap => exact .reap
  | timer t =>
    refine .calm (calm_release hok not_family_sleeping ?_ (by simp [QueueId.Fits])) trivial
    exact fun q hq => (List.takeWhile_prefix _).subset hq
  | finish => exact h.finish_step

end Hojicha.Mp
