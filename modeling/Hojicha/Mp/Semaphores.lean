import Hojicha.Framework.HandOver
import Hojicha.Mp.Places

/-!
# Semaphores

`kernel/mp/semaphore.c` hands a slot over by not counting it down when a waiter is woken. A process
that has to wait, but calls with switching already postponed, comes back without a slot.
-/

namespace Hojicha.Mp

open Framework Function List Board

variable {s : Sched} {b : Board} {p task : Proc} {op : Op} {k limit : Nat}

def SameSemaphore (k : Nat) (b b' : Board) : Prop :=
  b'.semaphores k = b.semaphores k ∧
    b'.lists (.waiting (.semaphore k)) = b.lists (.waiting (.semaphore k))

private theorem SameSemaphore.refl (k : Nat) (b : Board) : SameSemaphore k b b := ⟨rfl,rfl⟩

private theorem SameSemaphore.trans {b₁ b₂ b₃ : Board} (h₁ : SameSemaphore k b₁ b₂)
    (h₂ : SameSemaphore k b₂ b₃) : SameSemaphore k b₁ b₃ :=
  ⟨h₂.1.trans h₁.1,h₂.2.trans h₁.2⟩

private theorem setList_semaphore {i : QueueId} {ps : List Proc} {t : Tables}
    (hi : i ≠ .waiting (.semaphore k)) (ht : t.semaphores k=b.semaphores k) :
    SameSemaphore k b { b.setList i ps with toTables := t } :=
  ⟨ht,update_of_ne hi.symm _ _⟩

private theorem release_semaphore {i : QueueId} {ps qs : List Proc}
    (hi : i ≠ .waiting (.semaphore k)) : SameSemaphore k b (b.release i ps qs) := by
  refine ⟨rfl,?_⟩
  simp only [release,setList_lists]
  rw [update_of_ne (by simp),update_of_ne hi.symm]

private theorem dispatch_semaphore (k : Nat) (b : Board) : SameSemaphore k b b.dispatch := by
  refine ⟨?_,dispatch_lists (by simp)⟩
  rw [dispatch]
  split
  · rfl
  · split_ifs <;> rfl

private theorem collect_semaphore {q c : Proc} {slot : Nat} :
    SameSemaphore k b (b.collect q c slot).2 := by
  rw [collect]
  split_ifs
  · exact SameSemaphore.refl k b
  · apply setList_semaphore (by simp)
    rw [(sameBut_procFree _ c).semaphores]
    rfl

private theorem waitFor_semaphore {pid : Int} {child : Proc} {slot : Nat} :
    SameSemaphore k b (b.waitFor pid child slot) := by
  refine ⟨rfl,?_⟩
  change update b.lists (.waiting (b.waitQueueFor pid child)) _ _=_
  apply update_of_ne
  rw [Tables.waitQueueFor]
  split_ifs <;> simp

private theorem waitpid_semaphore {pid : Int} {options : Nat} :
    SameSemaphore k b (b.waitpid pid options).2 := by
  rcases waitpid_cases b pid options with ⟨ret,-,heq⟩ | ⟨slot,-,-,heq⟩ | ⟨slot,-,-,-,heq⟩
  · rw [heq]
    exact SameSemaphore.refl k b
  · rw [heq]
    exact collect_semaphore
  · rw [heq]
    exact waitFor_semaphore

private theorem finish_semaphore : SameSemaphore k b b.finish.2 := by
  rw [finish]
  split
  · exact SameSemaphore.refl k b
  · exact ⟨rfl,rfl⟩
  · dsimp only
    split_ifs <;> exact ⟨rfl,rfl⟩
  · rw [waitpidEnd]
    split
    · exact ⟨rfl,rfl⟩
    · exact collect_semaphore

private theorem exit_semaphore {code : Int} (hp : p∉b.lists (.waiting (.semaphore k))) :
    SameSemaphore k b (b.exit p code) := by
  have hdie : SameSemaphore k b (b.die p code) := by
    refine ⟨rfl,?_⟩
    rw [die]
    dsimp only
    rw [update_of_ne (by simp)]
    exact erase_of_not_mem hp
  rw [exit]
  split_ifs
  · exact SameSemaphore.refl k b
  · rw [wakeParent]
    split_ifs
    · exact (hdie.trans (release_semaphore (by simp))).trans (release_semaphore (by simp))
    · exact hdie

def Op.IsFor (k : Nat) (op : Op) : Prop :=
  op = .semaphoreLock k ∨ op = .semaphoreTryLock k ∨ op = .semaphoreUnlock k

private theorem Runs.effect_semaphore (h : Runs task s b) (hallowed : s.Allowed task op)
    (hop : ¬ op.IsFor k) : SameSemaphore k b (b.effect op).2 := by
  have hcurrent := h.tracks.current
  have hstatus := h.tracks.status
  have hother : ∀ j, (op = .semaphoreLock j ∨ op = .semaphoreTryLock j ∨
      op = .semaphoreUnlock j) → k≠j := by
    rintro j hj rfl
    exact hop hj
  have hlocks : ∀ j locks, k≠j →
      SameSemaphore k b { b with toTables := b.setLocks j locks } := by
    intro j locks hj
    exact ⟨update_of_ne hj _ _,rfl⟩
  cases op with
  | schedLock => exact SameSemaphore.refl k b
  | schedUnlock => exact SameSemaphore.refl k b
  | schedPostpone => exact SameSemaphore.refl k b
  | schedResume => exact SameSemaphore.refl k b
  | schedYield => exact SameSemaphore.refl k b
  | addProc q => exact setList_semaphore (by simp) rfl
  | fork c frame =>
    change SameSemaphore k b (b.fork c frame).2
    rw [fork]
    split
    · exact SameSemaphore.refl k b
    · exact setList_semaphore (by simp) rfl
  | sleepUntil t => exact setList_semaphore (by simp) rfl
  | waitSleep => exact setList_semaphore (by simp) rfl
  | wakeOne j => exact release_semaphore (by simp)
  | wakeAll j => exact release_semaphore (by simp)
  | semaphoreLock j =>
    have hj := hother j (Or.inl rfl)
    change SameSemaphore k b (ite _ _ _)
    split_ifs
    · exact hlocks j _ hj
    · exact setList_semaphore (by simpa using hj.symm) rfl
  | semaphoreTryLock j =>
    have hj := hother j (Or.inr (Or.inl rfl))
    rw [effect]
    split_ifs
    · exact hlocks j _ hj
    · exact SameSemaphore.refl k b
  | semaphoreUnlock j =>
    have hj := hother j (Or.inr (Or.inr rfl))
    change SameSemaphore k b (ite _ _ _)
    split_ifs
    · exact release_semaphore (by simpa using hj.symm)
    · exact hlocks j _ hj
  | exit q code =>
    apply exit_semaphore
    intro hq
    by_cases hqc : q=b.current
    · exact h.out _ (hqc ▸ hq)
    · have hblocked := (hallowed.exit q code rfl).2.2
      rw [hcurrent,hstatus] at hblocked
      exact hblocked hqc (h.tracks.ok.fits hq)
  | waitpid pid options => exact waitpid_semaphore
  | reap =>
    apply setList_semaphore (by simp)
    rw [show (Board.reapList _ _ _).1.semaphores=_ from (reap_same h.tracks.apart).semaphores]
  | timer t => exact release_semaphore (by simp)
  | finish => exact finish_semaphore

/-- What the processes do, as seen from one semaphore. A slot is given back for one of those who
hold it. -/
inductive SemaphoreOp
  | lock
  | tryLock
  | unlock (holder : Proc)
  | other (op : Op)

@[simp]
def SemaphoreOp.call (k : Nat) : SemaphoreOp → Op
  | .lock => .semaphoreLock k
  | .tryLock => .semaphoreTryLock k
  | .unlock _ => .semaphoreUnlock k
  | .other op => op

/-- The scheduler, and beside it who holds the semaphore and who waits for it. -/
structure SemaphoreRun where
  sched : Sched
  slots : HandOver Proc

namespace SemaphoreRun

variable (k limit : Nat) (r : SemaphoreRun)

def note : SemaphoreOp → HandOver Proc
  | .lock => r.slots.take limit r.sched.current
  | .tryLock => r.slots.tryTake limit r.sched.current
  | .unlock holder => r.slots.give holder
  | .other _ => r.slots

def perform (a : SemaphoreOp) : Reply × SemaphoreRun :=
  let (reply, s) := r.sched.perform (a.call k)
  (reply, ⟨s, if r.sched.cpu = .running ∧ r.sched.accepts (a.call k) = true then r.note limit a
    else r.slots⟩)

private theorem perform_accepted {a : SemaphoreOp} (hcpu : r.sched.cpu = .running)
    (haccept : r.sched.accepts (a.call k)=true) :
    (r.perform k limit a).2=⟨(r.sched.perform (a.call k)).2, r.note limit a⟩ := by
  rw [perform]
  dsimp only
  rw [if_pos ⟨hcpu,haccept⟩]

end SemaphoreRun

/-- Slots are given back only for those who hold them, and all calls for the semaphore are seen. -/
structure SemaphoreRun.Allowed (k : Nat) (task : Proc) (r : SemaphoreRun) (a : SemaphoreOp) :
    Prop where
  sched : r.sched.Allowed task (a.call k)
  holder : ∀ p, a = .unlock p → p ∈ r.slots.holders
  seen : ∀ op, a = .other op → ¬ op.IsFor k

structure SemaphoreOk (k limit : Nat) (slots : HandOver Proc) (b : Board) : Prop where
  count : b.semaphores k = ⟨limit, slots.holders.length⟩
  queue : b.lists (.waiting (.semaphore k)) = slots.waiting
  fair : slots.Fair limit

section Step

variable {slots : HandOver Proc}

section

variable (h : SemaphoreOk k limit slots b)
include h

private theorem SemaphoreOk.congr {b' : Board}
    (hsame : SameSemaphore k b b') : SemaphoreOk k limit slots b' :=
  ⟨hsame.1.trans h.count,hsame.2.trans h.queue,h.fair⟩

private theorem SemaphoreOk.hasSlot : b.HasSlot k ↔ slots.holders.length<limit := by
  rw [Tables.HasSlot,h.count]

private theorem SemaphoreOk.taken (hfree : slots.holders.length<limit) (p : Proc) :
    SemaphoreOk k limit { slots with holders := p::slots.holders }
      { b with toTables := b.setLocks k ((b.semaphores k).currentLocks + 1) } := by
  have hfair := h.fair.take p
  rw [HandOver.take,if_pos hfree] at hfair
  refine ⟨?_,h.queue,hfair⟩
  simp only [Tables.setLocks,update_self,h.count,length_cons]

private theorem SemaphoreOk.lock :
    SemaphoreOk k limit (slots.take limit b.current) (b.effect (.semaphoreLock k)).2 := by
  rw [effect]
  dsimp only
  by_cases hfree : slots.holders.length<limit
  · rw [if_pos (h.hasSlot.mpr hfree),HandOver.take,if_pos hfree]
    exact h.taken hfree b.current
  · have hfair := h.fair.take b.current
    rw [HandOver.take,if_neg hfree] at hfair
    rw [if_neg fun hs => hfree (h.hasSlot.mp hs),HandOver.take,if_neg hfree]
    refine ⟨h.count,?_,hfair⟩
    simp only [block,setList_lists,update_self,h.queue]

private theorem SemaphoreOk.tryLock :
    SemaphoreOk k limit (slots.tryTake limit b.current) (b.effect (.semaphoreTryLock k)).2 := by
  rw [effect]
  by_cases hfree : slots.holders.length<limit
  · rw [if_pos (h.hasSlot.mpr hfree),HandOver.tryTake,if_pos hfree]
    exact h.taken hfree b.current
  · rw [if_neg fun hs => hfree (h.hasSlot.mp hs),HandOver.tryTake,if_neg hfree]
    exact h

/-- With nobody waiting the count goes down, otherwise it stays and the first waiter is woken. -/
private theorem SemaphoreOk.unlock (hlimit : limit≤255) (hp : p∈slots.holders) :
    SemaphoreOk k limit (slots.give p) (b.effect (.semaphoreUnlock k)).2 := by
  have hfair := h.fair.give hp
  have hlen := length_erase_of_mem hp
  have hpos := length_pos_of_mem hp
  have hbound := h.fair.bounded
  rw [effect,h.queue]
  dsimp only
  cases hwait : slots.waiting with
  | nil =>
    rw [HandOver.give,hwait] at hfair ⊢
    rw [if_neg (by simp)]
    refine ⟨?_,h.queue.trans hwait,hfair⟩
    simp only [Tables.setLocks,update_self,h.count,hlen]
    congr 1
    omega
  | cons w ws =>
    rw [HandOver.give,hwait] at hfair ⊢
    rw [if_pos (by simp)]
    refine ⟨?_,?_,hfair⟩
    · have hkeep : slots.holders.length=(slots.holders.erase p).length+1 := by omega
      exact h.count.trans (by rw [hkeep]; rfl)
    · simp only [wake,release,setList_lists,h.queue,hwait]
      rw [update_of_ne (by simp),update_self]
      rfl

end

private theorem Runs.slots_effect {a : SemaphoreOp} {r : SemaphoreRun} (h : Runs task r.sched b)
    (hsem : SemaphoreOk k limit r.slots b) (hlimit : limit≤255)
    (hallowed : SemaphoreRun.Allowed k task r a) :
    SemaphoreOk k limit (r.note limit a) (b.effect (a.call k)).2 := by
  have hcurrent : r.sched.current=b.current := by rw [h.tracks.tables]
  cases a with
  | lock =>
    rw [SemaphoreRun.note,hcurrent]
    exact hsem.lock
  | tryLock =>
    rw [SemaphoreRun.note,hcurrent]
    exact hsem.tryLock
  | unlock holder => exact hsem.unlock hlimit (hallowed.holder holder rfl)
  | other op => exact hsem.congr (h.effect_semaphore hallowed.sched (hallowed.seen op rfl))

end Step

private theorem SemaphoreOk.settled {slots : HandOver Proc} {b' : Board}
    (h : SemaphoreOk k limit slots b)
    (hb' : b'=b ∨ b'=b.dispatch) : SemaphoreOk k limit slots b' := by
  rcases hb' with rfl | rfl
  · exact h
  · exact h.congr (dispatch_semaphore k b)

def Observed (k limit : Nat) (task : Proc) (r : SemaphoreRun) : Prop :=
  ∃ b, Runs task r.sched b ∧ SemaphoreOk k limit r.slots b

private theorem Observed.perform {r : SemaphoreRun} {a : SemaphoreOp} (h : Observed k limit task r)
    (hlimit : limit≤255) (hallowed : SemaphoreRun.Allowed k task r a) :
    Observed k limit task (r.perform k limit a).2 := by
  obtain ⟨b,hruns,hsem⟩ := h
  rcases hruns.perform hallowed.sched with ⟨haccept,-,-,b',hruns',hb'⟩ | ⟨hreject,hstay⟩
  · rw [r.perform_accepted k limit hruns.cpu haccept]
    exact ⟨b',hruns',(hruns.slots_effect hsem hlimit hallowed).settled hb'⟩
  · rw [SemaphoreRun.perform]
    dsimp only
    rw [if_neg fun h => hreject h.2,hstay]
    exact ⟨b,hruns,hsem⟩

def semaphoreStart (kernel task tickInterval : Nat) (semaphores : Nat → Semaphore) : SemaphoreRun :=
  ⟨schedInitialize kernel task tickInterval semaphores, ⟨[], []⟩⟩

private theorem semaphoreStart_observed {kernel : Proc} (hkernel : kernel≠0) (htask : task≠0)
    (hne : task≠kernel) (tickInterval : Nat) {semaphores : Nat → Semaphore}
    (hinit : semaphores k=⟨limit, 0⟩) :
    Observed k limit task (semaphoreStart kernel task tickInterval semaphores) := by
  obtain ⟨b,hruns,hb⟩ := schedInitialize_runs hkernel htask hne tickInterval semaphores
  have hkernelOk : SemaphoreOk k limit ⟨[],[]⟩ (kernelBoard kernel semaphores) := by
    refine ⟨hinit,rfl,Nat.zero_le limit,?_⟩
    intro hwait
    exact (hwait rfl).elim
  have hspawn : SemaphoreOk k limit ⟨[],[]⟩ ((kernelBoard kernel semaphores).spawn task) :=
    hkernelOk.congr (setList_semaphore (by simp) rfl)
  exact ⟨b,hruns,hspawn.settled hb⟩

private theorem run_observed {kernel : Proc} (hkernel : kernel≠0) (htask : task≠0)
    (hne : task≠kernel) {tickInterval : Nat} {semaphores : Nat → Semaphore} (hlimit : limit≤255)
    (hinit : semaphores k=⟨limit, 0⟩) {acts : List SemaphoreOp}
    (hall : Always (SemaphoreRun.perform k limit) (SemaphoreRun.Allowed k task)
      (semaphoreStart kernel task tickInterval semaphores) acts) :
    Observed k limit task (trace (SemaphoreRun.perform k limit)
      (semaphoreStart kernel task tickInterval semaphores) acts).2 := by
  apply trace_invariant (Observed k limit task) _ _ hall
  · intro r a h hallowed
    exact h.perform hlimit hallowed
  · exact semaphoreStart_observed hkernel htask hne tickInterval hinit

/-- An unlock while `w` has waited longest makes it a holder, and ready. -/
def HandsOver (k limit : Nat) (r : SemaphoreRun) (holder w : Proc) (ws : List Proc) : Prop :=
  let r' := (r.perform k limit (.unlock holder)).2
  r'.slots = ⟨w :: r.slots.holders.erase holder, ws⟩ ∧
    (r'.sched.semaphores k).currentLocks = (r.sched.semaphores k).currentLocks ∧
    (r'.sched.status w = .readyToRun ∨ r'.sched.current = w)

/-- `semaphore_try_lock` makes its caller a holder and says so, or says no with all slots taken. -/
def TriesLock (k limit : Nat) (r : SemaphoreRun) : Prop :=
  let r' := r.perform k limit .tryLock
  r'.1 = .locked true ∧ r'.2.slots = { r.slots with holders := r.sched.current :: r.slots.holders } ∨
    r'.1 = .locked false ∧ r'.2.slots = r.slots ∧ r.slots.holders.length = limit

structure SemaphoreSafe (k limit : Nat) (r : SemaphoreRun) : Prop where
  bounded : r.slots.holders.length ≤ limit
  count : (r.sched.semaphores k).currentLocks = r.slots.holders.length
  /-- The wait queue has the waiters in the order in which they came. -/
  queue : ∃ L, r.sched.links.Holds L ∧ L (.waiting (.semaphore k)) = r.slots.waiting
  asleep : ∀ p ∈ r.slots.waiting, p ≠ r.sched.current ∧ r.sched.status p = .blocked
  full : r.sched.queueHead (.waiting (.semaphore k)) ≠ 0 →
    (r.sched.semaphores k).currentLocks = limit
  handOver : r.sched.accepts (.semaphoreUnlock k) = true → ∀ holder ∈ r.slots.holders, ∀ w ws,
    r.slots.waiting = w :: ws → HandsOver k limit r holder w ws
  tryLock : r.sched.accepts (.semaphoreTryLock k) = true → TriesLock k limit r

private theorem dispatch_ready (hok : BoardOk b) (hp : b.status p = .readyToRun) :
    b.dispatch.status p = .readyToRun ∨ b.dispatch.current=p := by
  rcases dispatch_status hok p with hst | ⟨-,hst⟩ | ⟨-,-,hcurrent⟩
  · exact Or.inl (hst.trans hp)
  · exact Or.inl hst
  · exact Or.inr hcurrent

private theorem wake_ready {w : WaitQueue} {q : Proc} {qs : List Proc}
    (hlist : b.lists (.waiting w)=q::qs) : (b.wake w).status q = .readyToRun := by
  change (b.makeReady ((b.lists (.waiting w)).take 1)).status q=_
  rw [makeReady_status,if_pos]
  rw [hlist]
  exact mem_cons_self

private theorem allowed_unlock (k : Nat) : s.Allowed task (.semaphoreUnlock k) :=
  allowed_of_plain id (by simp) (by simp) (by simp)

private theorem Observed.handsOver {r : SemaphoreRun} (h : Observed k limit task r)
    (hlimit : limit≤255)
    (haccept : r.sched.accepts (.semaphoreUnlock k)=true) {holder w : Proc} {ws : List Proc}
    (hholder : holder∈r.slots.holders) (hwait : r.slots.waiting=w::ws) :
    HandsOver k limit r holder w ws := by
  obtain ⟨b,hruns,hsem⟩ := h
  have hafter := hsem.unlock hlimit hholder
  have hgive : r.slots.give holder=⟨w::r.slots.holders.erase holder,ws⟩ := by
    rw [HandOver.give,hwait]
  have hlist : b.lists (.waiting (.semaphore k))=w::ws := hsem.queue.trans hwait
  have hready : (b.effect (.semaphoreUnlock k)).2.status w = .readyToRun := by
    rw [effect]
    dsimp only
    rw [if_pos (by rw [hlist]; simp)]
    exact wake_ready hlist
  have hpos := length_pos_of_mem hholder
  have hlen := length_erase_of_mem hholder
  rw [HandsOver,r.perform_accepted k limit (a := .unlock holder) hruns.cpu haccept]
  dsimp only [SemaphoreOp.call]
  rcases hruns.perform (allowed_unlock k) with ⟨-,-,hok,b',hruns',hb'⟩ | ⟨hreject,-⟩
  · rw [hruns'.tracks.tables,hruns.tracks.tables,hsem.count,(hafter.settled hb').count,hgive]
    refine ⟨hgive,?_,?_⟩
    · dsimp only [length_cons]
      omega
    · rcases hb' with rfl | rfl
      · exact Or.inl hready
      · exact dispatch_ready hok hready
  · exact (hreject haccept).elim

private theorem Observed.triesLock {r : SemaphoreRun} (h : Observed k limit task r)
    (haccept : r.sched.accepts (.semaphoreTryLock k)=true) : TriesLock k limit r := by
  obtain ⟨b,hruns,hsem⟩ := h
  have hallowed : r.sched.Allowed task (.semaphoreTryLock k) :=
    allowed_of_plain id (by simp) (by simp) (by simp)
  rcases hruns.perform hallowed with ⟨-,hreply,-⟩ | ⟨hreject,-⟩
  · rw [TriesLock,r.perform_accepted k limit (a := .tryLock) hruns.cpu haccept]
    have hanswer : (r.perform k limit .tryLock).1=(b.effect (.semaphoreTryLock k)).1 := hreply
    rw [hanswer,effect,SemaphoreRun.note,HandOver.tryTake]
    by_cases hfree : r.slots.holders.length<limit
    · rw [if_pos (hsem.hasSlot.mpr hfree),if_pos hfree]
      exact Or.inl ⟨rfl,rfl⟩
    · rw [if_neg fun hs => hfree (hsem.hasSlot.mp hs),if_neg hfree]
      exact Or.inr ⟨rfl,rfl,le_antisymm hsem.fair.bounded (not_lt.mp hfree)⟩
  · exact (hreject haccept).elim

private theorem Observed.safe {r : SemaphoreRun} (h : Observed k limit task r)
    (hlimit : limit≤255) : SemaphoreSafe k limit r := by
  have hobserved := h
  obtain ⟨b,hruns,hsem⟩ := h
  have hcount : (r.sched.semaphores k).currentLocks=r.slots.holders.length := by
    rw [hruns.tracks.tables,hsem.count]
  constructor
  · exact hsem.fair.bounded
  · exact hcount
  · exact ⟨b.lists,hruns.tracks.links,hsem.queue⟩
  · intro p hp
    rw [← hsem.queue] at hp
    rw [hruns.tracks.tables]
    exact ⟨ne_of_mem_of_not_mem hp (hruns.out _),hruns.tracks.ok.fits hp⟩
  · intro hhead
    rw [hcount]
    apply hsem.fair.busy
    intro hwait
    exact hhead (hruns.tracks.links.head_eq_zero.mpr (hsem.queue.trans hwait))
  · intro haccept holder hholder w ws hwait
    exact hobserved.handsOver hlimit haccept hholder hwait
  · exact hobserved.triesLock

/-- In every run, at most as many processes hold a semaphore as it has slots, processes wait only
while all slots are taken, and a slot that is given back goes to the one who has waited longest. -/
theorem semaphore_slots_handed_over (kernel task tickInterval : Nat)
    (semaphores : Nat → Semaphore) (hkernel : kernel ≠ 0) (htask : task ≠ 0) (hne : task ≠ kernel)
    (k limit : Nat) (hlimit : limit ≤ 255) (hinit : semaphores k = ⟨limit, 0⟩)
    (acts : List SemaphoreOp)
    (hall : Always (SemaphoreRun.perform k limit) (SemaphoreRun.Allowed k task)
      (semaphoreStart kernel task tickInterval semaphores) acts) :
    SemaphoreSafe k limit (trace (SemaphoreRun.perform k limit)
      (semaphoreStart kernel task tickInterval semaphores) acts).2 :=
  (run_observed hkernel htask hne hlimit hinit hall).safe hlimit

def contention : List SemaphoreOp :=
  [.lock, .other (.addProc 3), .other .schedYield, .other .finish, .other .schedYield,
    .other .finish, .lock, .other .finish]

def oneSlot : SemaphoreRun := semaphoreStart 1 2 1000 fun _ => ⟨1, 0⟩

private theorem contention_allowed :
    Always (SemaphoreRun.perform 0 1) (SemaphoreRun.Allowed 0 2) oneSlot contention := by
  have hyield : ∀ r, SemaphoreRun.Allowed 0 2 r (.other .schedYield) := fun r =>
    ⟨allowed_of_plain id (by simp) (by simp) (by simp),by simp,by simp [Op.IsFor]⟩
  have hfinish : ∀ r, SemaphoreRun.Allowed 0 2 r (.other .finish) := fun r =>
    ⟨allowed_of_plain id (by simp) (by simp) (by simp),by simp,by simp [Op.IsFor]⟩
  refine ⟨⟨?_,by simp,by simp⟩,⟨?_,by simp,by simp [Op.IsFor]⟩,hyield _,hfinish _,
    hyield _,hfinish _,⟨?_,by simp,by simp⟩,hfinish _,trivial⟩
  · apply allowed_of_plain _ (by simp) (by simp) (by simp)
    intro hsleeps
    exact hsleeps (by decide +kernel)
  · exact allowed_add (by decide +kernel) (by decide)
  · refine ⟨fun _ => ?_,by simp,by simp,by simp⟩
    decide +kernel

theorem semaphore_slots_handed_over_contention :
    SemaphoreSafe 0 1 (trace (SemaphoreRun.perform 0 1) oneSlot contention).2 :=
  semaphore_slots_handed_over 1 2 1000 (fun _ => ⟨1,0⟩) (by decide) (by decide) (by decide) 0 1
    (by decide) rfl contention contention_allowed

/-- The call comes back to its caller, which is the last in the wait queue. -/
def Sched.ReturnsWaiting (s : Sched) (k : Nat) : Prop :=
  let s' := (s.perform (.semaphoreLock k)).2
  s'.cpu = .running ∧ s'.current = s.current ∧ s'.rest s'.current = [] ∧
    s'.links.tail (.waiting (.semaphore k)) = s.current

private theorem pushTail_tail (l : Links QueueId Proc) (i : QueueId) (p : Proc) :
    (l.pushTail i p).tail i=p := by
  rw [Links.pushTail]
  split_ifs <;> exact update_self _ _ _

private theorem semaphoreLock_postponed (hslot : ¬ s.HasSlot k) (hlock : 0<s.switchLockCount) :
    s.semaphoreLock k =
      { (s.enqueueCurrent (.semaphore k)).setStatus s.current .blocked with
        switchLockFlag := true } := by
  have hslot' : ¬ s.schedPostpone.HasSlot k := hslot
  rw [Sched.semaphoreLock,if_neg hslot',waitQueueSleep_nested (Nat.succ_pos _),schedResume_nested]
  · rfl
  · exact Nat.succ_lt_succ hlock

/-- The call comes back without a slot exactly when there is none and switching is postponed. -/
private theorem Runs.returnsWaiting_iff (h : Runs task s b)
    (haccept : s.accepts (.semaphoreLock k)=true) (htask : s.current≠task) :
    s.ReturnsWaiting k ↔ ¬ s.HasSlot k ∧ 0<s.switchLockCount := by
  constructor
  · rintro ⟨-,hcurrent,-,htail⟩
    by_contra hcond
    have hallowed : s.Allowed task (.semaphoreLock k) := by
      refine ⟨?_,by simp,by simp,by simp⟩
      intro hsleeps
      refine ⟨?_,htask⟩
      by_contra hlock
      exact hcond ⟨hsleeps,Nat.pos_of_ne_zero hlock⟩
    obtain ⟨b',hnext⟩ := h.next hallowed
    have hlive : s.current≠0 := by
      intro h0
      have hnull := h.tracks.ok.null
      rw [← h0,h.tracks.tables,h.tracks.ok.live] at hnull
      cases hnull
    have hmem := hnext.tracks.links.tail_mem (i := .waiting (.semaphore k)) (by
      intro hnil
      exact hlive (htail ▸ hnext.tracks.links.tail_eq_zero.mpr hnil))
    rw [htail,← hcurrent,hnext.tracks.tables] at hmem
    exact hnext.out _ hmem
  · rintro ⟨hslot,hlock⟩
    have hcall : (s.perform (.semaphoreLock k)).2=s.semaphoreLock k := by
      rw [perform_call h.cpu haccept]
      rfl
    have hrest := accepted_rest haccept (by simp) (by simp)
    rw [Sched.ReturnsWaiting,hcall,semaphoreLock_postponed hslot hlock]
    exact ⟨h.cpu,rfl,hrest,pushTail_tail _ _ _⟩

/-- The process that runs is not waiting for the semaphore, one slot is held by one process, and
only a call with switching postponed, while there is no slot, comes back without one. -/
def GrantsBeforeReturn (k limit : Nat) (task : Proc) (r : SemaphoreRun) : Prop :=
  r.sched.current ∉ r.slots.waiting ∧
    (limit = 1 → ∀ p ∈ r.slots.holders, ∀ q ∈ r.slots.holders, p = q) ∧
    (r.sched.accepts (.semaphoreLock k) = true → r.sched.current ≠ task →
      (r.sched.ReturnsWaiting k ↔ ¬ r.sched.HasSlot k ∧ 0 < r.sched.switchLockCount))

theorem semaphore_lock_granted (kernel task tickInterval : Nat) (semaphores : Nat → Semaphore)
    (hkernel : kernel ≠ 0) (htask : task ≠ 0) (hne : task ≠ kernel) (k limit : Nat)
    (hlimit : limit ≤ 255) (hinit : semaphores k = ⟨limit, 0⟩) (acts : List SemaphoreOp)
    (hall : Always (SemaphoreRun.perform k limit) (SemaphoreRun.Allowed k task)
      (semaphoreStart kernel task tickInterval semaphores) acts) :
    GrantsBeforeReturn k limit task (trace (SemaphoreRun.perform k limit)
      (semaphoreStart kernel task tickInterval semaphores) acts).2 := by
  have hobserved := run_observed hkernel htask hne hlimit hinit hall
  have hsafe := hobserved.safe hlimit
  obtain ⟨b,hruns,-⟩ := hobserved
  refine ⟨?_,?_,?_⟩
  · intro hmem
    exact (hsafe.asleep _ hmem).1 rfl
  · rintro rfl p hp q hq
    obtain ⟨x,hx⟩ := length_eq_one_iff.mp
      (Nat.le_antisymm hsafe.bounded (length_pos_of_mem hp))
    rw [hx] at hp hq
    rw [mem_singleton.mp hp,mem_singleton.mp hq]
  · intro haccept hcurrent
    exact hruns.returnsWaiting_iff haccept hcurrent

theorem semaphore_lock_granted_contention :
    GrantsBeforeReturn 0 1 2 (trace (SemaphoreRun.perform 0 1) oneSlot contention).2 :=
  semaphore_lock_granted 1 2 1000 (fun _ => ⟨1,0⟩) (by decide) (by decide) (by decide) 0 1
    (by decide) rfl contention contention_allowed

/-- The kernel process has the only slot, and process 3 runs with switching postponed. -/
def postponedCaller : SemaphoreRun :=
  (trace (SemaphoreRun.perform 0 1) oneSlot
    [.lock, .other (.addProc 3), .other .schedYield, .other .finish, .other .schedYield,
      .other .finish, .other .schedPostpone]).2

/-- Process 3 comes back from `semaphore_lock` while the kernel process still has the slot. -/
theorem postponed_lock_returns_waiting :
    postponedCaller.slots.holders = [1] ∧ postponedCaller.sched.current = 3 ∧
      postponedCaller.sched.ReturnsWaiting 0 :=
  ⟨by decide +kernel,by decide +kernel,by decide +kernel,by decide +kernel,by decide +kernel,
    by decide +kernel⟩

end Hojicha.Mp
