import Hojicha.Mp.Wait

/-!
# What becomes of children

Beside a run stands its history by process ids, which are never used twice. `FamilyOk` relates it
to the board.
-/

namespace Hojicha.Mp

open Framework Function List Board

variable {s : Sched} {b b' : Board} {p q c task child : Proc} {op : Op} {slot : Nat} {t : Tables}
  {reply : Reply}

@[ext]
structure History where
  /-- Parent and child. -/
  forked : List (Nat × Nat)
  exited : List (Nat × Int)
  /-- To whom, about whom, and with what status. -/
  reported : List (Nat × Nat × Int)
  freed : List Nat

/-- What is added to the history by a step from `t` to `t'`, where `dying` are the processes that
were in the die queue. A process exits when a call to end it is taken while it is not dead. Whoever
is not allocated behind the step has been freed. -/
def History.note (g : History) (t t' : Tables) (dying : List Proc) (op : Op) (reply : Reply) :
    History where
  forked := match reply with
    | .forked ret => if 0 ≤ ret then (t.pid t.current, ret.toNat) :: g.forked else g.forked
    | _ => g.forked
  exited := match op with
    | .exit p code =>
      if t.rest t.current = [] ∧ t.status p ≠ .readyToDie then (t.pid p, code) :: g.exited
      else g.exited
    | _ => g.exited
  reported := match reply with
    | .waited ret (some wstatus) => (t.pid t.current, ret.toNat, wstatus) :: g.reported
    | _ => g.reported
  freed := (dying.filter fun p => !t'.allocated p).map t.pid ++ g.freed

structure FamilyOk (b : Board) (g : History) : Prop where
  pids : ∀ p q, b.allocated p = true → b.allocated q = true → b.pid p = b.pid q → p = q
  pidBound : ∀ p, b.allocated p = true → b.pid p ≤ b.totalProcessesAdded
  forkedBound : ∀ x ∈ g.forked, x.2 ≤ b.totalProcessesAdded
  forked : ∀ c, b.allocated c = true → b.parent c ≠ 0 → (b.pid (b.parent c), b.pid c) ∈ g.forked
  forkedBy : ∀ c, b.allocated c = true → ∀ q, (q, b.pid c) ∈ g.forked →
    b.parent c ≠ 0 ∧ q = b.pid (b.parent c) ∨ q ∈ g.freed
  exited : ∀ p, b.allocated p = true → b.status p = .readyToDie →
    (b.pid p, b.exitCode p) ∈ g.exited
  exitedBound : ∀ x ∈ g.exited, x.1 ≤ b.totalProcessesAdded
  exitedKept : ∀ x ∈ g.exited, x.1 ∈ g.freed ∨
    ∃ p, b.allocated p = true ∧ b.status p = .readyToDie ∧ b.pid p = x.1
  exitedOnce : (g.exited.map Prod.fst).Nodup
  freedGone : ∀ x ∈ g.freed, ∀ p, b.allocated p = true → b.pid p ≠ x
  freedOnce : g.freed.Nodup
  freedExited : ∀ x ∈ g.freed, ∃ code, (x, code) ∈ g.exited
  /-- A process is freed when it is reported, or after its parent. -/
  freedAfter : ∀ x ∈ g.freed, (∃ parent wstatus, (parent, x, wstatus) ∈ g.reported) ∨
    ∀ q, (q, x) ∈ g.forked → q ∈ g.freed
  reportedFreed : ∀ x ∈ g.reported, x.2.1 ∈ g.freed
  reportedOnce : (g.reported.map fun x => x.2.1).Nodup
  reportedTrue : ∀ x ∈ g.reported, (x.1, x.2.1) ∈ g.forked ∧
    ∃ code, (x.2.1, code) ∈ g.exited ∧ x.2.2 = code % 256 * 256

/-- The process `p` is new, and `F` are the forks there have been: one more if `q` is its parent. -/
structure Birth (b b' : Board) (p q : Proc) (forks F : List (Nat × Nat)) : Prop where
  null : b.allocated 0 = false
  new : b.allocated p = false
  forked : F = forks ∧ q = 0 ∨
    F = (b.pid q, b.totalProcessesAdded + 1) :: forks ∧ b.allocated q = true
  allocated : b'.allocated = update b.allocated p true
  pid : b'.pid = update b.pid p (b.totalProcessesAdded + 1)
  parent : b'.parent = update b.parent p q
  code : ∀ r, r ≠ p → b'.exitCode r = b.exitCode r
  total : b'.totalProcessesAdded = b.totalProcessesAdded + 1
  status : ∀ r, r ≠ p → b'.status r = b.status r
  alive : b'.status p ≠ .readyToDie
  kin : ∀ c, b.allocated c = true → b.parent c ≠ 0 → b.allocated (b.parent c) = true

section

variable {forks F : List (Nat × Nat)} {x : Nat × Nat} {r : Proc} (h : Birth b b' p q forks F)
include h

private theorem Birth.old (r : Proc) (hr : b'.allocated r=true) :
    r=p ∨ r≠p ∧ b.allocated r=true := by
  rw [h.allocated] at hr
  by_cases hrp : r=p
  · exact Or.inl hrp
  · rw [update_of_ne hrp] at hr
    exact Or.inr ⟨hrp,hr⟩

private theorem Birth.pid_old (hr : r≠p) : b'.pid r=b.pid r := by rw [h.pid,update_of_ne hr]

private theorem Birth.pid_new : b'.pid p=b.totalProcessesAdded+1 := by rw [h.pid,update_self]

private theorem Birth.parent_old (hr : r≠p) :
    b'.parent r=b.parent r := by rw [h.parent,update_of_ne hr]

private theorem Birth.forked_mono (hx : x∈forks) : x∈F := by
  rcases h.forked with ⟨rfl,-⟩ | ⟨rfl,-⟩
  · exact hx
  · exact mem_cons_of_mem _ hx

private theorem Birth.forked_back (hx : x∈F) (hle : x.2≤b.totalProcessesAdded) : x∈forks := by
  rcases h.forked with ⟨rfl,-⟩ | ⟨rfl,-⟩
  · exact hx
  · rcases mem_cons.mp hx with rfl | hx
    · exact (Nat.not_succ_le_self _ hle).elim
    · exact hx

end

variable {g : History}

section

variable (h : FamilyOk b g)
include h

private theorem FamilyOk.dead_of_exited {code : Int} (hp : b.allocated p=true)
    (hexit : (b.pid p, code)∈g.exited) : b.status p = .readyToDie := by
  rcases h.exitedKept _ hexit with hfreed | ⟨q,hq,hdead,hpid⟩
  · exact (h.freedGone _ hfreed p hp rfl).elim
  · rw [← h.pids q p hq hp hpid]
    exact hdead

private theorem FamilyOk.freedBound {x : Nat} (hx : x∈g.freed) : x≤b.totalProcessesAdded := by
  obtain ⟨code,hcode⟩ := h.freedExited x hx
  exact h.exitedBound _ hcode

private theorem FamilyOk.same (halloc : b'.allocated=b.allocated)
    (hpid : b'.pid=b.pid) (hparent : b'.parent=b.parent) (hcode : b'.exitCode=b.exitCode)
    (htotal : b'.totalProcessesAdded=b.totalProcessesAdded)
    (hdead : ∀ p, b.allocated p=true →
      (b'.status p = .readyToDie ↔ b.status p = .readyToDie)) : FamilyOk b' g := by
  constructor
  · rw [halloc,hpid]
    exact h.pids
  · rw [halloc,hpid,htotal]
    exact h.pidBound
  · rw [htotal]
    exact h.forkedBound
  · rw [halloc,hparent,hpid]
    exact h.forked
  · rw [halloc,hparent,hpid]
    exact h.forkedBy
  · intro p hp hst
    rw [halloc] at hp
    rw [hdead p hp] at hst
    rw [hpid,hcode]
    exact h.exited p hp hst
  · rw [htotal]
    exact h.exitedBound
  · intro x hx
    apply (h.exitedKept x hx).imp_right
    rintro ⟨p,hp,hst,heq⟩
    rw [halloc,hpid]
    exact ⟨p,hp,(hdead p hp).mpr hst,heq⟩
  · exact h.exitedOnce
  · rw [halloc,hpid]
    exact h.freedGone
  · exact h.freedOnce
  · exact h.freedExited
  · exact h.freedAfter
  · exact h.reportedFreed
  · exact h.reportedOnce
  · exact h.reportedTrue

section

variable {F : List (Nat × Nat)} (hbirth : Birth b b' p q g.forked F)
include hbirth

private theorem FamilyOk.birth_pids (r r' : Proc) (hr : b'.allocated r=true)
    (hr' : b'.allocated r'=true) (heq : b'.pid r=b'.pid r') : r=r' := by
  rcases hbirth.old r hr with rfl | ⟨hrp,hr⟩ <;> rcases hbirth.old r' hr' with rfl | ⟨hrp',hr'⟩
  · rfl
  · rw [hbirth.pid_new,hbirth.pid_old hrp'] at heq
    have hle := h.pidBound r' hr'
    omega
  · rw [hbirth.pid_new,hbirth.pid_old hrp] at heq
    have hle := h.pidBound r hr
    omega
  · rw [hbirth.pid_old hrp,hbirth.pid_old hrp'] at heq
    exact h.pids r r' hr hr' heq

private theorem FamilyOk.birth_forkedBound (x : Nat × Nat) (hx : x∈F) :
    x.2≤b'.totalProcessesAdded := by
  rw [hbirth.total]
  rcases hbirth.forked with ⟨rfl,-⟩ | ⟨rfl,-⟩
  · exact Nat.le_succ_of_le (h.forkedBound x hx)
  · rcases mem_cons.mp hx with rfl | hx
    · exact le_refl _
    · exact Nat.le_succ_of_le (h.forkedBound x hx)

private theorem FamilyOk.birth_forked (r : Proc) (hr : b'.allocated r=true) (hpar : b'.parent r≠0) :
    (b'.pid (b'.parent r), b'.pid r)∈F := by
  rcases hbirth.old r hr with rfl | ⟨hrp,hr⟩
  · rw [hbirth.parent,update_self] at hpar ⊢
    rcases hbirth.forked with ⟨-,rfl⟩ | ⟨rfl,hq⟩
    · exact (hpar rfl).elim
    · rw [hbirth.pid_new,hbirth.pid_old (ne_of_fresh hbirth.new hq)]
      exact mem_cons_self
  · rw [hbirth.parent_old hrp] at hpar ⊢
    rw [hbirth.pid_old hrp,hbirth.pid_old (ne_of_fresh hbirth.new (hbirth.kin r hr hpar))]
    exact hbirth.forked_mono (h.forked r hr hpar)

private theorem FamilyOk.birth_forkedBy (r : Proc) (hr : b'.allocated r=true) (x : Nat)
    (hx : (x, b'.pid r)∈F) : b'.parent r≠0 ∧ x=b'.pid (b'.parent r) ∨ x∈g.freed := by
  rcases hbirth.old r hr with rfl | ⟨hrp,hr⟩
  · rw [hbirth.pid_new] at hx
    rw [hbirth.parent,update_self]
    rcases hbirth.forked with ⟨rfl,-⟩ | ⟨rfl,hq⟩
    · exact (Nat.not_succ_le_self _ (h.forkedBound _ hx)).elim
    · rcases mem_cons.mp hx with heq | hx
      · cases heq
        left
        refine ⟨?_,(hbirth.pid_old (ne_of_fresh hbirth.new hq)).symm⟩
        rintro rfl
        rw [hbirth.null] at hq
        cases hq
      · exact (Nat.not_succ_le_self _ (h.forkedBound _ hx)).elim
  · rw [hbirth.pid_old hrp] at hx
    rw [hbirth.parent_old hrp]
    apply (h.forkedBy r hr x (hbirth.forked_back hx (h.pidBound r hr))).imp_left
    rintro ⟨hpar,heq⟩
    rw [hbirth.pid_old (ne_of_fresh hbirth.new (hbirth.kin r hr hpar))]
    exact ⟨hpar,heq⟩

private theorem FamilyOk.birth_exitedKept (x : Nat × Int) (hx : x∈g.exited) : x.1∈g.freed ∨
    ∃ r, b'.allocated r=true ∧ b'.status r = .readyToDie ∧ b'.pid r=x.1 := by
  apply (h.exitedKept x hx).imp_right
  rintro ⟨r,hr,hst,heq⟩
  have hrp := ne_of_fresh hbirth.new hr
  rw [← hbirth.status r hrp] at hst
  rw [← hbirth.pid_old hrp] at heq
  refine ⟨r,?_,hst,heq⟩
  rw [hbirth.allocated,update_of_ne hrp]
  exact hr

private theorem FamilyOk.birth : FamilyOk b' { g with forked := F } where
  pids := h.birth_pids hbirth
  pidBound := by
    intro r hr
    rw [hbirth.total]
    rcases hbirth.old r hr with rfl | ⟨hrp,hr⟩
    · rw [hbirth.pid_new]
    · rw [hbirth.pid_old hrp]
      exact Nat.le_succ_of_le (h.pidBound r hr)
  forkedBound := h.birth_forkedBound hbirth
  forked := h.birth_forked hbirth
  forkedBy := h.birth_forkedBy hbirth
  exited := by
    intro r hr hst
    rcases hbirth.old r hr with rfl | ⟨hrp,hr⟩
    · exact (hbirth.alive hst).elim
    · rw [hbirth.status r hrp] at hst
      rw [hbirth.pid_old hrp,hbirth.code r hrp]
      exact h.exited r hr hst
  exitedBound := by
    intro x hx
    rw [hbirth.total]
    exact Nat.le_succ_of_le (h.exitedBound x hx)
  exitedKept := h.birth_exitedKept hbirth
  exitedOnce := h.exitedOnce
  freedGone := by
    intro x hx r hr
    rcases hbirth.old r hr with rfl | ⟨hrp,hr⟩
    · rw [hbirth.pid_new]
      have hle := h.freedBound hx
      omega
    · rw [hbirth.pid_old hrp]
      exact h.freedGone x hx r hr
  freedOnce := h.freedOnce
  freedExited := h.freedExited
  freedAfter := by
    intro x hx
    apply (h.freedAfter x hx).imp_right
    intro hall r hr
    exact hall r (hbirth.forked_back hr (h.freedBound hx))
  reportedFreed := h.reportedFreed
  reportedOnce := h.reportedOnce
  reportedTrue x hx := ⟨hbirth.forked_mono (h.reportedTrue x hx).1,(h.reportedTrue x hx).2⟩

end

private theorem FamilyOk.exit {code : Int} (hp : b.allocated p=true)
    (hlive : b.status p ≠ .readyToDie) (halloc : b'.allocated=b.allocated)
    (hpid : b'.pid=b.pid) (hparent : b'.parent=b.parent)
    (hcode : b'.exitCode=update b.exitCode p code)
    (htotal : b'.totalProcessesAdded=b.totalProcessesAdded)
    (hdead : ∀ q, b'.status q = .readyToDie ↔ q=p ∨ b.status q = .readyToDie) :
    FamilyOk b' { g with exited := (b.pid p, code)::g.exited } := by
  constructor
  · rw [halloc,hpid]
    exact h.pids
  · rw [halloc,hpid,htotal]
    exact h.pidBound
  · rw [htotal]
    exact h.forkedBound
  · rw [halloc,hparent,hpid]
    exact h.forked
  · rw [halloc,hparent,hpid]
    exact h.forkedBy
  · intro q hq hst
    rw [halloc] at hq
    rw [hpid,hcode]
    by_cases hqp : q=p
    · rw [hqp,update_self]
      exact mem_cons_self
    · rw [update_of_ne hqp]
      apply mem_cons_of_mem
      exact h.exited q hq (((hdead q).mp hst).resolve_left hqp)
  · intro x hx
    rw [htotal]
    rcases mem_cons.mp hx with rfl | hx
    · exact h.pidBound p hp
    · exact h.exitedBound x hx
  · intro x hx
    rw [halloc,hpid]
    rcases mem_cons.mp hx with rfl | hx
    · exact Or.inr ⟨p,hp,(hdead p).mpr (Or.inl rfl),rfl⟩
    · apply (h.exitedKept x hx).imp_right
      rintro ⟨q,hq,hst,heq⟩
      exact ⟨q,hq,(hdead q).mpr (Or.inr hst),heq⟩
  · rw [map_cons,nodup_cons]
    refine ⟨?_,h.exitedOnce⟩
    intro hmem
    obtain ⟨⟨x,code'⟩,hx,heq⟩ := mem_map.mp hmem
    have heq' : x=b.pid p := heq
    rw [heq'] at hx
    exact hlive (h.dead_of_exited hp hx)
  · rw [halloc,hpid]
    exact h.freedGone
  · exact h.freedOnce
  · intro x hx
    obtain ⟨code',hcode'⟩ := h.freedExited x hx
    exact ⟨code',mem_cons_of_mem _ hcode'⟩
  · exact h.freedAfter
  · exact h.reportedFreed
  · exact h.reportedOnce
  · intro x hx
    obtain ⟨hforked,code',hcode',hws⟩ := h.reportedTrue x hx
    exact ⟨hforked,code',mem_cons_of_mem _ hcode',hws⟩

end

def freedOf (b b' : Board) : List Nat :=
  ((b.lists .readyToDie).filter fun p => !b'.allocated p).map b.pid

private theorem mem_freedOf {x : Nat} :
    x∈freedOf b b' ↔ ∃ p∈b.lists .readyToDie, b'.allocated p=false ∧ b.pid p=x := by
  simp [freedOf,and_assoc]

private theorem FamilyOk.freedOf_nodup (h : FamilyOk b g) (hb : Settled b) (ha : Apart b.lists) :
    (freedOf b b'++g.freed).Nodup := by
  have halloc : ∀ p∈b.lists .readyToDie, b.allocated p=true :=
    fun p hp => (hb.ok.queued _ p hp).1
  rw [nodup_append]
  refine ⟨?_,h.freedOnce,?_⟩
  · rw [freedOf]
    apply List.Nodup.map_on _ ((ha.nodup .readyToDie).filter _)
    intro p hp q hq heq
    exact h.pids p q (halloc p (mem_of_mem_filter hp)) (halloc q (mem_of_mem_filter hq))
      heq
  · intro x hx y hy heq
    obtain ⟨p,hp,-,hpid⟩ := mem_freedOf.mp hx
    exact h.freedGone y hy p (halloc p hp) (hpid.trans heq)

/-- Processes of the die queue are freed, and at most one of them is reported. -/
private theorem FamilyOk.free (h : FamilyOk b g) (hb : Settled b) (ha : Apart b.lists)
    (hpid : b'.pid=b.pid) (hcode : b'.exitCode=b.exitCode)
    (htotal : b'.totalProcessesAdded=b.totalProcessesAdded)
    (hstatus : ∀ p, b.allocated p=true →
      (b'.status p = .readyToDie ↔ b.status p = .readyToDie))
    (halloc : ∀ p, b'.allocated p=true → b.allocated p=true)
    (hgone : ∀ p, b.allocated p=true → b'.allocated p=false → p∈b.lists .readyToDie)
    (hparent : ∀ c, b'.allocated c=true → b'.parent c≠0 → b'.parent c=b.parent c)
    (hforkedBy : ∀ c, b'.allocated c=true → ∀ q, (q, b.pid c)∈g.forked →
      b'.parent c≠0 ∧ q=b.pid (b'.parent c) ∨ q∈freedOf b b'++g.freed)
    {R : List (Nat × Nat × Int)}
    (hR : R=g.reported ∨ ∃ c, R=(b.pid (b.parent c), b.pid c, b.wstatus c)::g.reported ∧
      c∈b.lists .readyToDie ∧ b'.allocated c=false ∧ b.parent c≠0)
    (hafter : ∀ p∈b.lists .readyToDie, b'.allocated p=false →
      (∃ parent wstatus, (parent, b.pid p, wstatus)∈R) ∨
        ∀ q, (q, b.pid p)∈g.forked → q∈freedOf b b'++g.freed) :
    FamilyOk b' { g with reported := R, freed := freedOf b b'++g.freed } := by
  have hdead : ∀ p∈b.lists .readyToDie, b.allocated p=true ∧ b.status p = .readyToDie :=
    fun p hp => hb.ok.queued _ p hp
  have hold : ∀ x∈g.reported, x∈R := by
    intro x hx
    rcases hR with rfl | ⟨c,rfl,-⟩
    · exact hx
    · exact mem_cons_of_mem _ hx
  constructor
  · rw [hpid]
    intro p q hp hq
    exact h.pids p q (halloc p hp) (halloc q hq)
  · rw [hpid,htotal]
    intro p hp
    exact h.pidBound p (halloc p hp)
  · rw [htotal]
    exact h.forkedBound
  · intro c hc hpar
    have hpar' := hpar
    rw [hparent c hc hpar] at hpar' ⊢
    rw [hpid]
    exact h.forked c (halloc c hc) hpar'
  · rw [hpid]
    exact hforkedBy
  · rw [hpid,hcode]
    intro p hp hst
    exact h.exited p (halloc p hp) ((hstatus p (halloc p hp)).mp hst)
  · rw [htotal]
    exact h.exitedBound
  · rw [hpid]
    intro x hx
    rcases h.exitedKept x hx with hfreed | ⟨p,hp,hst,heq⟩
    · exact Or.inl (mem_append_right _ hfreed)
    · by_cases hp' : b'.allocated p=true
      · exact Or.inr ⟨p,hp',(hstatus p hp).mpr hst,heq⟩
      · rw [Bool.not_eq_true] at hp'
        left
        apply mem_append_left
        exact mem_freedOf.mpr ⟨p,hgone p hp hp',hp',heq⟩
  · exact h.exitedOnce
  · rw [hpid]
    intro x hx p hp heq
    rcases mem_append.mp hx with hx | hx
    · obtain ⟨q,hq,hq',heq'⟩ := mem_freedOf.mp hx
      rw [h.pids p q (halloc p hp) (hdead q hq).1 (heq.trans heq'.symm),hq'] at hp
      cases hp
    · exact h.freedGone x hx p (halloc p hp) heq
  · exact h.freedOf_nodup hb ha
  · intro x hx
    rcases mem_append.mp hx with hx | hx
    · obtain ⟨p,hp,-,rfl⟩ := mem_freedOf.mp hx
      exact ⟨_,h.exited p (hdead p hp).1 (hdead p hp).2⟩
    · exact h.freedExited x hx
  · intro x hx
    rcases mem_append.mp hx with hx | hx
    · obtain ⟨p,hp,hp',rfl⟩ := mem_freedOf.mp hx
      exact hafter p hp hp'
    · rcases h.freedAfter x hx with ⟨parent,wstatus,hrep⟩ | hall
      · exact Or.inl ⟨parent,wstatus,hold _ hrep⟩
      · right
        intro q hq
        exact mem_append_right _ (hall q hq)
  · intro x hx
    rcases hR with rfl | ⟨c,rfl,hc,hc',-⟩
    · exact mem_append_right _ (h.reportedFreed x hx)
    · rcases mem_cons.mp hx with rfl | hx
      · exact mem_append_left _ (mem_freedOf.mpr ⟨c,hc,hc',rfl⟩)
      · exact mem_append_right _ (h.reportedFreed x hx)
  · rcases hR with rfl | ⟨c,rfl,hc,-⟩
    · exact h.reportedOnce
    · rw [map_cons,nodup_cons]
      refine ⟨?_,h.reportedOnce⟩
      intro hmem
      obtain ⟨x,hx,heq⟩ := mem_map.mp hmem
      exact h.freedGone _ (h.reportedFreed x hx) c (hdead c hc).1 heq.symm
  · intro x hx
    rcases hR with rfl | ⟨c,rfl,hc,-,hpar⟩
    · exact h.reportedTrue x hx
    · rcases mem_cons.mp hx with rfl | hx
      · exact ⟨h.forked c (hdead c hc).1 hpar,b.exitCode c,
          h.exited c (hdead c hc).1 (hdead c hc).2,rfl⟩
      · exact h.reportedTrue x hx

/-- Freed parents leave their children without a parent, of whom it is then known. -/
def Orphans (t : Tables) (pid : Proc → Nat) (forked : List (Nat × Nat)) (freed : List Nat)
    (c : Proc) : Prop :=
  ∀ q, (q, pid c) ∈ forked → t.parent c ≠ 0 ∧ q = pid (t.parent c) ∨ q ∈ freed

private theorem Orphans.procFree {pid : Proc → Nat} {forked : List (Nat × Nat)}
    {freed : List Nat} (hk : KinOk t) (hp : t.allocated p=true) (hpar : t.parent p=0)
    (h : Orphans t pid forked freed c) (hfreed : pid p∈freed) :
    Orphans (t.procFree p) pid forked freed c := by
  intro q hq
  rw [procFree_orphan hpar]
  dsimp only
  rcases h q hq with ⟨hpar0,heq⟩ | hq
  · by_cases hcp : t.parent c=p
    · right
      rw [heq,hcp]
      exact hfreed
    · left
      rw [if_neg]
      · exact ⟨hpar0,heq⟩
      · rintro ⟨hc0,i,-,hi⟩
        apply hcp
        rw [← hi]
        exact (hk.child p i hp (by rw [hi]; exact hc0)).2.2
  · exact Or.inr hq

private theorem reapList_allocated (ps kept : List Proc) (t : Tables) (hp : p∉ps) :
    (Board.reapList ps t kept).1.allocated p=t.allocated p := by
  induction ps generalizing t kept with
  | nil => rfl
  | cons x ps ih =>
    rw [mem_cons,not_or] at hp
    rw [reapList]
    split_ifs
    · exact ih (x::kept) t hp.2
    · rw [ih kept _ hp.2,procFree_allocated,update_of_ne hp.1]

private theorem procFree_parent (hpar : t.parent p=0) (hc : (t.procFree p).parent c≠0) :
    (t.procFree p).parent c=t.parent c := by
  rw [procFree_orphan hpar] at hc ⊢
  dsimp only at hc ⊢
  split_ifs at hc ⊢
  · exact (hc rfl).elim
  · rfl

/-- `freed` are the process ids of those that are freed, and of those freed before. -/
private theorem reapList_orphans (pid : Proc → Nat) (forked : List (Nat × Nat)) (freed : List Nat)
    (ps kept : List Proc) (t : Tables) (hk : KinOk t) (hps : ps.Nodup)
    (halloc : ∀ p∈ps, t.allocated p=true)
    (horphans : ∀ c, t.allocated c=true → Orphans t pid forked freed c)
    (hfreed : ∀ p∈ps, (Board.reapList ps t kept).1.allocated p=false → pid p∈freed) :
    (∀ c, (Board.reapList ps t kept).1.allocated c=true →
        Orphans (Board.reapList ps t kept).1 pid forked freed c) ∧
      (∀ p∈ps, (Board.reapList ps t kept).1.allocated p=false →
        ∀ q, (q, pid p)∈forked → q∈freed) ∧
      ∀ c, (Board.reapList ps t kept).1.parent c≠0 →
        (Board.reapList ps t kept).1.parent c=t.parent c := by
  induction ps generalizing t kept with
  | nil => exact ⟨horphans,by simp,fun _ _ => rfl⟩
  | cons p ps ih =>
    obtain ⟨hp,hnodup⟩ := nodup_cons.mp hps
    have hpal := halloc p mem_cons_self
    rw [reapList] at hfreed ⊢
    split_ifs at hfreed ⊢ with hpar
    · obtain ⟨hend,hgone,hparent⟩ := ih (p::kept) t hk hnodup
        (fun q hq => halloc q (mem_cons_of_mem p hq)) horphans
        (fun q hq => hfreed q (mem_cons_of_mem p hq))
      refine ⟨hend,?_,hparent⟩
      intro r hr hr'
      rcases mem_cons.mp hr with rfl | hr
      · rw [reapList_allocated ps _ t hp,hpal] at hr'
        cases hr'
      · exact hgone r hr hr'
    · push Not at hpar
      have hself : (reapList ps (t.procFree p) kept).1.allocated p=false := by
        rw [reapList_allocated ps kept _ hp,procFree_allocated,update_self]
      have hpid := hfreed p mem_cons_self hself
      have hkeep : ∀ q, q≠p → (t.procFree p).allocated q=t.allocated q := by
        intro q hq
        rw [procFree_allocated,update_of_ne hq]
      have hstep : ∀ c, (t.procFree p).allocated c=true →
          Orphans (t.procFree p) pid forked freed c := by
        intro c hc
        have hcp : c≠p := by
          rintro rfl
          rw [procFree_allocated,update_self] at hc
          cases hc
        rw [hkeep c hcp] at hc
        exact (horphans c hc).procFree hk hpal hpar hpid
      obtain ⟨hend,hgone,hparent⟩ := ih kept (t.procFree p) (hk.procFree hpal hpar) hnodup
        (fun q hq => by
          rw [hkeep q (ne_of_mem_of_not_mem hq hp)]
          exact halloc q (mem_cons_of_mem p hq)) hstep
        (fun q hq => hfreed q (mem_cons_of_mem p hq))
      refine ⟨hend,?_,?_⟩
      · intro r hr hr' q hq
        rcases mem_cons.mp hr with rfl | hr
        · exact (horphans r hpal q hq).resolve_left fun hne => hne.1 hpar
        · exact hgone r hr hr' q hq
      · intro c hc
        have hmid := hparent c hc
        rw [hmid] at hc ⊢
        exact procFree_parent hpar hc

private theorem reapList_frees (ps kept : List Proc) (t : Tables) (hps : ps.Nodup) (hp : p∈ps)
    (hpar : t.parent p=0) : (Board.reapList ps t kept).1.allocated p=false := by
  induction ps generalizing t kept with
  | nil => cases hp
  | cons x ps ih =>
    obtain ⟨hx,hnodup⟩ := nodup_cons.mp hps
    rw [reapList]
    split_ifs with hxpar
    · rcases mem_cons.mp hp with rfl | hp
      · exact (hxpar hpar).elim
      · exact ih (x::kept) t hnodup hp hpar
    · push Not at hxpar
      rcases mem_cons.mp hp with rfl | hp
      · rw [reapList_allocated ps kept _ hx,procFree_allocated,update_self]
      · apply ih kept _ hnodup hp
        by_contra hne
        exact hne (procFree_parent hxpar hne ▸ hpar)

private theorem FamilyOk.reap (h : FamilyOk b g) (hb : Settled b) (ha : Apart b.lists) :
    FamilyOk b.reap { g with freed := freedOf b b.reap++g.freed } := by
  have hsame := reap_same ha
  have hdead : ∀ p∈b.lists .readyToDie, b.allocated p=true :=
    fun p hp => (hb.ok.queued _ p hp).1
  obtain ⟨horphans,hgone,hparent⟩ := reapList_orphans b.pid g.forked
    (freedOf b b.reap++g.freed) (b.lists .readyToDie) [] b.toTables hb.kin (ha.nodup _) hdead
    (fun c hc q hq => (h.forkedBy c hc q hq).imp_right (mem_append_right _))
    (fun p hp hp' => mem_append_left _ (mem_freedOf.mpr ⟨p,hp,hp',rfl⟩))
  refine h.free hb ha hsame.pid hsame.exitCode hsame.total ?_ ?_ ?_ ?_ horphans (Or.inl rfl) ?_
  · intro p _
    rw [show b.reap.status=b.status from hsame.status]
  · exact fun p hp => allocated_of_reap ha hp
  · exact fun p hp hp' => mem_die_of_reap ha hp hp'
  · intro c _ hpar
    exact hparent c hpar
  · intro p hp hp'
    exact Or.inr (hgone p hp hp')

private theorem FamilyOk.collect {b₀ : Board} (h : FamilyOk b g) (hb : Settled b)
    (ha : Apart b.lists) (halive : b.status b.current ≠ .readyToDie) (hdrop : Calm b b₀)
    (hslot : b.children b.current slot=c) (hc0 : c≠0) (hdead : b.status c = .readyToDie) :
    FamilyOk (b₀.collect b.current c slot).2
      { g with
        reported := (b.pid b.current, b.pid c, b.wstatus c)::g.reported
        freed := freedOf b (b₀.collect b.current c slot).2++g.freed } := by
  obtain ⟨-,hc,hpar⟩ := hb.kin.child b.current slot hb.ok.live (by rw [hslot]; exact hc0)
  rw [hslot] at hc hpar
  have hcur0 := hb.ok.ne_zero hb.ok.live
  have hdead₀ : b₀.status c = .readyToDie := (hdrop.dead c hc).mpr hdead
  have hcc : c≠b.current := by
    rintro rfl
    exact halive hdead
  have hdying := hb.ok.mem_die_of_status hc hdead hcc
  have hsame : SameBut b₀.toTables (b₀.collect b.current c slot).2.toTables := collect_same hdead₀
  let t : Tables := (b₀.setChild b.current slot 0).setParent c 0
  have hk : KinOk t := by
    apply (hb.kin.congr hdrop.allocated hdrop.parent hdrop.children).disown
    · rw [hdrop.allocated]
      exact hb.ok.live
    · rw [hdrop.children]
      exact hslot
    · exact hc0
  have htables : (b₀.collect b.current c slot).2.toTables=t.procFree c := by
    rw [collect_eq hdead₀]
  have htpar : t.parent c=0 := update_self _ _ _
  have htalloc : t.allocated c=true := by
    change b₀.allocated c=true
    rw [hdrop.allocated]
    exact hc
  have hother : ∀ x, x≠c → t.parent x=b.parent x := by
    intro x hx
    change update b₀.parent c 0 x=_
    rw [update_of_ne hx,hdrop.parent]
  have halloc : ∀ x, (b₀.collect b.current c slot).2.allocated x =
      update b.allocated c false x := by
    intro x
    rw [htables,procFree_allocated]
    change update b₀.allocated c false x=_
    rw [hdrop.allocated]
  have hleft : ∀ x, (b₀.collect b.current c slot).2.allocated x=true →
      x≠c ∧ b.allocated x=true := by
    intro x hx
    rw [halloc] at hx
    by_cases hxc : x=c
    · rw [hxc,update_self] at hx
      cases hx
    · rw [update_of_ne hxc] at hx
      exact ⟨hxc,hx⟩
  have hgone : (b₀.collect b.current c slot).2.allocated c=false := by
    rw [halloc,update_self]
  have hpid : b.pid c∈freedOf b (b₀.collect b.current c slot).2++g.freed :=
    mem_append_left _ (mem_freedOf.mpr ⟨c,hdying,hgone,rfl⟩)
  refine h.free hb ha (hsame.pid.trans hdrop.pid) (hsame.exitCode.trans hdrop.exitCode)
    (hsame.total.trans hdrop.total) ?_ (fun x hx => (hleft x hx).2) ?_ ?_ ?_ (Or.inr ⟨c,?_⟩) ?_
  · intro x hx
    rw [hsame.status]
    exact hdrop.dead x hx
  · intro x hx hx'
    by_cases hxc : x=c
    · rw [hxc]
      exact hdying
    · rw [halloc,update_of_ne hxc,hx] at hx'
      cases hx'
  · intro x hx hxpar
    rw [htables] at hxpar ⊢
    rw [procFree_parent htpar hxpar,hother x (hleft x hx).1]
  · intro x hx q hq
    have hxs := hleft x hx
    have horphan : Orphans t b.pid g.forked
        (freedOf b (b₀.collect b.current c slot).2++g.freed) x := by
      intro q hq
      rw [hother x hxs.1]
      exact (h.forkedBy x hxs.2 q hq).imp_right (mem_append_right _)
    rw [htables]
    exact horphan.procFree hk htalloc htpar hpid q hq
  · rw [hpar]
    exact ⟨rfl,hdying,hgone,hcur0⟩
  · intro x hx hx'
    left
    by_cases hxc : x=c
    · rw [hxc]
      exact ⟨_,_,mem_cons_self⟩
    · rw [halloc,update_of_ne hxc,(hb.ok.queued _ x hx).1] at hx'
      cases hx'

private theorem History.note_silent {t' : Tables} {dying : List Proc}
    (hreply : reply.Silent)
    (hexit : ∀ p code, op = .exit p code → t.rest t.current=[] → t.status p = .readyToDie)
    (hfreed : ∀ p∈dying, t'.allocated p=true) : g.note t t' dying op reply=g := by
  have hnone : dying.filter (fun p => !t'.allocated p)=[] := by
    rw [filter_eq_nil_iff]
    intro p hp
    rw [hfreed p hp]
    simp
  apply History.ext
  · cases reply with
    | forked ret =>
      have hneg : ¬ 0≤ret := not_le.mpr hreply
      exact if_neg hneg
    | _ => rfl
  · cases op with
    | exit p code =>
      apply if_neg
      rintro ⟨hrest,hlive⟩
      exact hlive (hexit p code rfl hrest)
    | _ => rfl
  · cases reply with
    | waited ret wstatus =>
      have hnone : wstatus=none := hreply
      rw [hnone]
      rfl
    | _ => rfl
  · change (dying.filter fun p => !t'.allocated p).map t.pid++g.freed=g.freed
    rw [hnone]
    rfl

private theorem History.note_calm {b₁ b₂ : Board} {dying : List Proc} (hcalm : Calm b₁ b₂) :
    g.note t b₂.toTables dying op reply=g.note t b₁.toTables dying op reply := by
  apply History.ext
  · rfl
  · rfl
  · rfl
  · change (dying.filter fun p => !b₂.allocated p).map t.pid++g.freed=_
    rw [hcalm.allocated]
    rfl

private theorem freedOf_nil (hb : Settled b)
    (halloc : ∀ p, b.allocated p=true → b'.allocated p=true) : freedOf b b'=[] := by
  apply eq_nil_iff_forall_not_mem.mpr
  intro x hx
  obtain ⟨p,hp,hp',-⟩ := mem_freedOf.mp hx
  rw [halloc p (hb.ok.queued _ p hp).1] at hp'
  cases hp'

private theorem update_allocated (hq : b.allocated q=true) :
    update b.allocated p true q=true := by
  by_cases hqp : q=p
  · rw [hqp,update_self]
  · rw [update_of_ne hqp]
    exact hq

private theorem FamilyOk.step (h : FamilyOk b g) (hb : Settled b) (ha : Apart b.lists)
    (hout : b.CurrentOut) (halive : b.status b.current ≠ .readyToDie)
    (hexit : ∀ p code, op = .exit p code →
      b.allocated p=true ∧ b.rest b.current=[] ∧ b'.status p = .readyToDie)
    (hstep : KinStep b op reply b') :
    FamilyOk b' (g.note b.toTables b'.toTables (b.lists .readyToDie) op reply) := by
  have hdying : ∀ p∈b.lists .readyToDie, b.allocated p=true :=
    fun p hp => (hb.ok.queued _ p hp).1
  have hparents : ∀ c, b.allocated c=true → b.parent c≠0 → b.allocated (b.parent c)=true :=
    fun c hc hpar => (hb.kin.parent c hc hpar).1
  cases hstep with
  | calm hcalm hreply =>
    rw [History.note_silent hreply]
    · exact h.same hcalm.allocated hcalm.pid hcalm.parent hcalm.exitCode hcalm.total hcalm.dead
    · intro p code hop _
      obtain ⟨hp,-,hdead⟩ := hexit p code hop
      exact (hcalm.dead p hp).mp hdead
    · rw [hcalm.allocated]
      exact hdying
  | @spawn p hp hp0 =>
    rw [History.note_silent]
    · refine h.birth ⟨hb.ok.null,hp,Or.inl ⟨rfl,rfl⟩,rfl,rfl,rfl,?_,rfl,?_,?_,hparents⟩
      · exact fun r hr => update_of_ne hr _ _
      · exact fun r hr => update_of_ne hr _ _
      · change update b.status p .uninitialized p≠_
        rw [update_self]
        decide
    · exact trivial
    · simp
    · exact fun q hq => update_allocated (hdying q hq)
  | @fork c frame slot hslot hc hc0 hrest =>
    have hnone : freedOf b { b.setList .readyToRun (b.lists .readyToRun++[c]) with
        toTables := b.forkChild c slot } = [] := freedOf_nil hb fun p hp => update_allocated hp
    have hpos : (0 : Int)≤b.totalProcessesAdded+1 := by omega
    have hnote : g.note b.toTables (b.forkChild c slot) (b.lists .readyToDie)
        (.fork c frame) (.forked (b.totalProcessesAdded+1)) =
        { g with forked := (b.pid b.current, b.totalProcessesAdded+1)::g.forked } := by
      apply History.ext
      · change ite ((0 : Int)≤b.totalProcessesAdded+1) ((b.pid b.current,
          ((b.totalProcessesAdded : Int)+1).toNat)::g.forked) g.forked=_
        rewrite [if_pos hpos]
        rfl
      · rfl
      · rfl
      · exact congrArg (· ++ g.freed) hnone
    rw [hnote]
    refine h.birth ⟨hb.ok.null,hc,Or.inr ⟨rfl,hb.ok.live⟩,rfl,rfl,?_,?_,rfl,?_,?_,hparents⟩
    · exact update_idem _ _ _
    · exact fun r hr => update_of_ne hr _ _
    · intro r hr
      change update (update b.status c _) c _ r=_
      rw [update_of_ne hr,update_of_ne hr]
    · change update (update b.status c _) c .readyToRun c≠_
      rw [update_self]
      decide
  | @exit p code hp hlive hblocked =>
    have hnot := hb.not_waiting hout hblocked
    have hdead := exit_dead_iff code hb.ok hnot
    obtain ⟨halloc,hpid,hparent,-,-,hcode,htotal⟩ := exit_tables b p code
    have hnone : freedOf b ((b.die p code).wakeParent p)=[] := by
      apply freedOf_nil hb
      rw [halloc]
      exact fun q hq => hq
    have hnote : g.note b.toTables ((b.die p code).wakeParent p).toTables (b.lists .readyToDie)
        (.exit p code) .done = { g with exited := (b.pid p, code)::g.exited } := by
      apply History.ext
      · rfl
      · exact if_pos ⟨(hexit p code rfl).2.1,hlive⟩
      · rfl
      · exact congrArg (· ++ g.freed) hnone
    rw [hnote]
    exact h.exit hp hlive halloc hpid hparent hcode htotal hdead
  | @wait pid options slot hrest hfind hlive =>
    rw [History.note_silent]
    · exact h.same rfl rfl rfl rfl rfl fun q _ => update_dead halive (by decide) q
    · exact trivial
    · simp
    · exact fun q hq => hdying q hq
  | @collect op b₀ slot hdrop hcurrent hrest hc0 hdead hop =>
    have hcollect := h.collect hb ha halive hdrop rfl hc0 hdead
    have hnote : g.note b.toTables
        (b₀.collect b.current (b.children b.current slot) slot).2.toTables (b.lists .readyToDie) op
        (.waited (b.pid (b.children b.current slot))
          (some (b.wstatus (b.children b.current slot)))) =
        { g with
          reported := (b.pid b.current, b.pid (b.children b.current slot),
            b.wstatus (b.children b.current slot))::g.reported
          freed := freedOf b (b₀.collect b.current (b.children b.current slot) slot).2 ++
            g.freed } := by
      apply History.ext
      · rfl
      · cases op with
        | exit p code => exact (hop p code rfl).elim
        | _ => rfl
      · rfl
      · rfl
    rw [hnote]
    exact hcollect
  | reap => exact h.reap hb ha

structure WaitRun where
  sched : Sched
  history : History

def WaitRun.perform (r : WaitRun) (op : Op) : Reply × WaitRun :=
  let (reply, s) := r.sched.perform op
  (reply, ⟨s, r.history.note r.sched.toTables s.toTables
    (r.sched.links.toList r.sched.totalProcessesAdded .readyToDie) op reply⟩)

structure WaitRunOk (task : Proc) (r : WaitRun) (b : Board) : Prop where
  runs : Runs task r.sched b
  waits : WaitsOk b
  family : FamilyOk b r.history

private theorem Tracks.dying (h : Tracks s b) :
    s.links.toList s.totalProcessesAdded .readyToDie=b.lists .readyToDie :=
  h.links.toList_eq (h.fuel .readyToDie)

private theorem Runs.exit_dies {code : Int} (h : Runs task s b)
    (hallowed : s.Allowed task (.exit p code)) (haccept : s.accepts (.exit p code)=true) :
    b.allocated p=true ∧ b.rest b.current=[] ∧ (b.exit p code).status p = .readyToDie := by
  obtain ⟨hp,-,hblocked⟩ := hallowed.exit p code rfl
  have hrest := accepted_rest haccept (by simp) (by simp)
  rw [h.tracks.tables] at hp hrest hblocked
  refine ⟨hp,hrest,?_⟩
  rw [exit]
  split_ifs with hdead
  · exact hdead.resolve_left (h.tracks.ok.ne_zero hp)
  · have hnot := h.tracks.settled.not_waiting h.out hblocked
    exact (exit_dead_iff code h.tracks.ok hnot p).mpr (Or.inl rfl)

private theorem settled_calm (hok : BoardOk b) (hb' : b'=b ∨ b'=b.dispatch) : Calm b b' := by
  rcases hb' with rfl | rfl
  · exact Calm.refl _
  · exact calm_dispatch hok

private theorem Tracks.settled_before (h : Tracks s b') (hok : BoardOk b)
    (hb' : b'=b ∨ b'=b.dispatch) : Settled b := by
  rcases hb' with rfl | rfl
  · exact h.settled
  · exact h.settled.of_dispatch hok

private theorem WaitRunOk.perform {r : WaitRun} (h : WaitRunOk task r b)
    (hallowed : r.sched.Allowed task op) :
    ∃ b', WaitRunOk task (r.perform op).2 b' ∧
      (r.sched.accepts op=true → (r.perform op).1=(b.effect op).1 ∧ BoardOk (b.effect op).2 ∧
        (b'=(b.effect op).2 ∨ b'=(b.effect op).2.dispatch)) := by
  have hb := h.runs.tracks.settled
  rw [WaitRun.perform]
  dsimp only
  rw [h.runs.tracks.dying]
  rcases h.runs.perform hallowed with ⟨haccept,hreply,hok,b',hruns,hb'⟩ | ⟨hreject,hstay⟩
  · have hstep := h.runs.kinStep haccept hallowed
    have hwaits := h.waits.step hb h.runs.tracks.apart h.runs.out h.runs.alive hstep
    have hfamily := h.family.step hb h.runs.tracks.apart h.runs.out h.runs.alive (by
      rintro p code rfl
      exact h.runs.exit_dies hallowed haccept) hstep
    have hcalm := settled_calm hok hb'
    have hsettled := hruns.tracks.settled_before hok hb'
    refine ⟨b',⟨hruns,hwaits.calm hsettled hcalm,?_⟩,fun _ => ⟨hreply,hok,hb'⟩⟩
    rw [hreply,h.runs.tracks.tables,hruns.tracks.tables,History.note_calm hcalm]
    exact hfamily.same hcalm.allocated hcalm.pid hcalm.parent hcalm.exitCode hcalm.total hcalm.dead
  · rw [hstay,h.runs.tracks.tables,History.note_silent]
    · exact ⟨b,h,fun haccept => (hreject haccept).elim⟩
    · exact trivial
    · rintro p code rfl hrest
      rw [← h.runs.tracks.tables] at hrest
      exact (hreject (decide_eq_true hrest)).elim
    · exact fun p hp => (hb.ok.queued _ p hp).1

/-- `p` gets the id and the exit status of a child of its own that matches and has exited. -/
def ReportsChild (t : Tables) (p : Proc) (pid : Int) (reply : Reply) : Prop :=
  ∃ c, t.parent c = p ∧ t.Matches pid c ∧ t.status c = .readyToDie ∧
    reply = .waited (t.pid c) (some (t.wstatus c))

structure ChildrenSafe (task : Proc) (r : WaitRun) : Prop where
  kin : ∀ p c, r.sched.allocated p = true → r.sched.allocated c = true →
    ((∃ slot ∈ childSlots, r.sched.children p slot = c) ↔ r.sched.parent c = p)
  exitedOnce : (r.history.exited.map Prod.fst).Nodup
  reportedOnce : (r.history.reported.map fun x => x.2.1).Nodup
  reportedTrue : ∀ x ∈ r.history.reported, (x.1, x.2.1) ∈ r.history.forked ∧
    ∃ code, (x.2.1, code) ∈ r.history.exited ∧ x.2.2 = code % 256 * 256
  /-- A wait that goes on sleeps exactly as long as no child it waits for has exited. -/
  asleep : ∀ p, r.sched.allocated p = true → ∀ pid child slot,
    .waitpid pid child slot ∈ r.sched.rest p →
      (r.sched.status p = .blocked ↔ ¬ Answered r.sched.toTables p pid child)
  /-- With a child that matches, the call reports one, or sleeps. -/
  waitReply : ∀ pid, pid = -1 ∨ 0 < pid → r.sched.accepts (.waitpid pid 0) = true →
    r.sched.Allowed task (.waitpid pid 0) →
    (∃ slot ∈ childSlots, r.sched.children r.sched.current slot ≠ 0 ∧
      r.sched.Matches pid (r.sched.children r.sched.current slot)) →
    ReportsChild r.sched.toTables r.sched.current pid (r.perform (.waitpid pid 0)).1 ∨
      (r.perform (.waitpid pid 0)).1 = .done ∧
        (r.perform (.waitpid pid 0)).2.sched.current ≠ r.sched.current ∧
        ∃ child slot, .waitpid pid child slot ∈
          (r.perform (.waitpid pid 0)).2.sched.rest r.sched.current
  /-- Behind the sleep it reports one. -/
  finishReply : ∀ pid child slot rs, r.sched.rest r.sched.current = .waitpid pid child slot :: rs →
    ReportsChild r.sched.toTables r.sched.current pid (r.perform .finish).1
  freedOnce : r.history.freed.Nodup
  freedAfter : ∀ x ∈ r.history.freed, (∃ code, (x, code) ∈ r.history.exited) ∧
    ((∃ parent wstatus, (parent, x, wstatus) ∈ r.history.reported) ∨
      ∀ q, (q, x) ∈ r.history.forked → q ∈ r.history.freed)
  exitedKept : ∀ x ∈ r.history.exited, x.1 ∈ r.history.freed ∨
    ∃ p ∈ r.sched.links.toList r.sched.totalProcessesAdded .readyToDie, r.sched.pid p = x.1
  reapFrees : r.sched.accepts .reap = true → ∀ p, r.sched.allocated p = true →
    r.sched.status p = .readyToDie → r.sched.parent p = 0 →
      (r.perform .reap).2.sched.allocated p = false

private theorem KinOk.children_iff (h : KinOk t) (hp : t.allocated p=true)
    (hc : t.allocated c=true) :
    (∃ slot∈childSlots, t.children p slot=c) ↔ t.parent c=p := by
  have hc0 := h.ne_zero hc
  constructor
  · rintro ⟨slot,-,rfl⟩
    exact (h.child p slot hp hc0).2.2
  · rintro rfl
    obtain ⟨-,slot,hslot⟩ := h.parent c hc (h.ne_zero hp)
    exact ⟨slot,(h.child _ slot hp (by rw [hslot]; exact hc0)).1,hslot⟩

private theorem WaitsOk.unanswered (h : WaitsOk b) {pid : Int}
    (hin : p∈b.lists (waitQueueOf p pid child)) : ¬ Answered b.toTables p pid child := by
  rw [waitQueueOf] at hin
  rw [Answered]
  split_ifs at hin ⊢
  · rintro ⟨slot,hslot,hdead⟩
    exact h.childAsleep p p hin slot hslot hdead
  · exact h.exitAsleep child p hin

private theorem WaitsOk.blocked_iff (h : WaitsOk b) (hok : BoardOk b) (hp : b.allocated p=true)
    {pid : Int} (hmem : .waitpid pid child slot∈b.rest p) :
    b.status p = .blocked ↔ ¬ Answered b.toTables p pid child := by
  rcases h.answered p hp pid child slot hmem with hin | ⟨hanswered,hawake⟩
  · exact iff_of_true (hok.fits hin) (h.unanswered hin)
  · exact iff_of_false hawake (not_not.mpr hanswered)

private theorem WaitRunOk.finish_reports {r : WaitRun} (h : WaitRunOk task r b) {pid : Int}
    {rs : List Rest} (hrest : b.rest b.current = .waitpid pid child slot::rs) :
    ReportsChild b.toTables b.current pid b.finish.1 := by
  have hok := h.runs.tracks.ok
  have hkin := h.runs.tracks.kin
  have hmem : .waitpid pid child slot∈b.rest b.current := by
    rw [hrest]
    exact mem_cons_self
  obtain ⟨-,-,-,-,hpar⟩ := h.runs.tracks.settled.waited hok.live hmem
  have hmatches := h.waits.pidMatches _ hok.live pid child slot hmem
  have hanswered : Answered b.toTables b.current pid child :=
    ((h.waits.answered _ hok.live pid child slot hmem).resolve_left (h.runs.out _)).1
  let b₀ : Board := { b with toTables := b.dropRest }
  have hfinish : b.finish=b₀.waitpidEnd pid child slot := by
    rw [finish,hrest]
  rw [hfinish,waitpidEnd,Tables.waitedChild]
  rw [Answered] at hanswered
  by_cases hany : pid = -1
  · rw [if_pos hany] at hanswered
    obtain ⟨i,hi,hdead⟩ := hanswered
    obtain ⟨hslots,-,-⟩ := hkin.child _ i hok.live hi
    obtain ⟨found,hfind,hdead'⟩ := waitChildFind_dead (b := b₀) hslots hi (Or.inl hany) hdead
    obtain ⟨-,hc0,hmatch⟩ := waitChildFind_some hfind
    rw [if_pos hany]
    have hfind' : b₀.waitChildFind b₀.current pid=some found := hfind
    rw [hfind']
    exact ⟨_,(hkin.child _ found hok.live hc0).2.2,hmatch,hdead',collect_of_dead hdead' _⟩
  · rw [if_neg hany] at hanswered ⊢
    have hdead' : b₀.status child = .readyToDie := hanswered
    exact ⟨child,hpar,hmatches,hanswered,collect_of_dead hdead' _⟩

private theorem waitChildFind_isSome {pid : Int} (hslot : slot∈childSlots)
    (hc0 : t.children q slot≠0) (hmatch : t.Matches pid (t.children q slot)) :
    t.waitChildFind q pid≠none := by
  intro hnone
  rw [Tables.waitChildFind,Option.or_eq_none_iff] at hnone
  have hfind := find?_eq_none.mp hnone.2 slot hslot
  simp only [decide_eq_true_eq] at hfind
  exact hfind ⟨hc0,hmatch⟩

private theorem WaitRunOk.wait_reports {r : WaitRun} (h : WaitRunOk task r b) {pid : Int}
    (hpid : pid = -1 ∨ 0<pid) (haccept : r.sched.accepts (.waitpid pid 0)=true)
    (hallowed : r.sched.Allowed task (.waitpid pid 0))
    (hchild : ∃ slot∈childSlots, b.children b.current slot≠0 ∧
      b.Matches pid (b.children b.current slot)) :
    ReportsChild b.toTables b.current pid (r.perform (.waitpid pid 0)).1 ∨
      (r.perform (.waitpid pid 0)).1 = .done ∧
        (r.perform (.waitpid pid 0)).2.sched.current≠b.current ∧
        ∃ child slot, .waitpid pid child slot ∈
          (r.perform (.waitpid pid 0)).2.sched.rest b.current := by
  obtain ⟨b',hok',hnext⟩ := h.perform hallowed
  obtain ⟨hreply,-,hb'⟩ := hnext haccept
  have heffect : b.effect (.waitpid pid 0)=b.waitpid pid 0 := rfl
  rw [heffect] at hreply hb'
  rw [hreply,hok'.runs.tracks.tables]
  rcases waitpid_cases b pid 0 with ⟨ret,hret,-⟩ | ⟨slot,hfind,hdead,heq⟩ |
    ⟨slot,hfind,hlive,-,heq⟩
  · -- none of the ways to fail
    rcases hret with ⟨-,hargs⟩ | ⟨-,hnone⟩ | ⟨-,hhang⟩
    · omega
    · obtain ⟨slot,hslot,hc0,hmatch⟩ := hchild
      exact (waitChildFind_isSome hslot hc0 hmatch hnone).elim
    · exact (hhang rfl).elim
  · obtain ⟨-,hc0,hmatch⟩ := waitChildFind_some hfind
    left
    rw [heq]
    exact ⟨_,(h.runs.tracks.kin.child _ slot h.runs.tracks.ok.live hc0).2.2,hmatch,hdead,
      collect_of_dead hdead _⟩
  · right
    rw [heq] at hb' ⊢
    let w := b.waitQueueFor pid (b.children b.current slot)
    have hqueued : b.current ∈
        (b.waitFor pid (b.children b.current slot) slot).lists (.waiting w) := by
      rw [waitFor_lists,if_pos rfl]
      exact mem_append_right _ (mem_singleton_self _)
    have hleft : .waitpid pid (b.children b.current slot) slot ∈
        (b.waitFor pid (b.children b.current slot) slot).rest b.current := by
      change _∈update b.rest b.current _ b.current
      rw [update_self]
      exact mem_cons_self
    -- the process that runs now is in no queue
    have hother : b.current∈b'.lists (.waiting w) → b'.current≠b.current := by
      intro hin heq
      exact hok'.runs.out _ (heq ▸ hin)
    rcases hb' with rfl | rfl
    · exact ⟨rfl,hother hqueued,_,_,hleft⟩
    · refine ⟨rfl,hother ?_,_,_,mem_dispatch_rest hleft⟩
      rw [dispatch_lists (by simp)]
      exact hqueued

private theorem WaitRunOk.safe {r : WaitRun} (h : WaitRunOk task r b) : ChildrenSafe task r := by
  have hok := h.runs.tracks.ok
  have htables := h.runs.tracks.tables
  constructor
  · rw [htables]
    intro p c hp hc
    exact h.runs.tracks.kin.children_iff hp hc
  · exact h.family.exitedOnce
  · exact h.family.reportedOnce
  · exact h.family.reportedTrue
  · rw [htables]
    intro p hp pid child slot hmem
    exact h.waits.blocked_iff hok hp hmem
  · intro pid hpid haccept hallowed hchild
    rw [htables] at hchild ⊢
    exact h.wait_reports hpid haccept hallowed hchild
  · intro pid child slot rs hrest
    rw [htables] at hrest ⊢
    have hallowed : r.sched.Allowed task .finish :=
      allowed_of_plain id (by simp) (by simp) (by simp)
    obtain ⟨b',-,hnext⟩ := h.perform hallowed
    rw [(hnext rfl).1]
    exact h.finish_reports hrest
  · exact h.family.freedOnce
  · intro x hx
    exact ⟨h.family.freedExited x hx,h.family.freedAfter x hx⟩
  · intro x hx
    rw [h.runs.tracks.dying,htables]
    apply (h.family.exitedKept x hx).imp_right
    rintro ⟨p,hp,hdead,hpid⟩
    have hpc : p≠b.current := by
      rintro rfl
      exact h.runs.alive hdead
    exact ⟨p,hok.mem_die_of_status hp hdead hpc,hpid⟩
  · intro haccept p hp hdead hpar
    rw [htables] at hp hdead hpar
    have hallowed : r.sched.Allowed task .reap :=
      allowed_of_plain id (by simp) (by simp) (by simp)
    obtain ⟨b',hok',hnext⟩ := h.perform hallowed
    obtain ⟨-,hreap,hb'⟩ := hnext haccept
    have hpc : p≠b.current := by
      rintro rfl
      exact h.runs.alive hdead
    rw [hok'.runs.tracks.tables,(settled_calm hreap hb').allocated]
    exact reapList_frees _ _ _ (h.runs.tracks.apart.nodup _)
      (hok.mem_die_of_status hp hdead hpc) hpar

def waitStart (kernel task tickInterval : Nat) (semaphores : Nat → Semaphore) : WaitRun :=
  ⟨schedInitialize kernel task tickInterval semaphores, ⟨[], [], [], []⟩⟩

private theorem kernelBoard_family (kernel : Proc) (semaphores : Nat → Semaphore) :
    FamilyOk (kernelBoard kernel semaphores) ⟨[], [], [], []⟩ := by
  obtain ⟨halloc,hstatus⟩ := kernelBoard_alone kernel semaphores
  constructor
  · intro p q hp hq _
    rw [halloc p hp,halloc q hq]
  · intro p _
    exact Nat.zero_le _
  · simp
  · intro c _ hpar
    exact (hpar rfl).elim
  · simp
  · intro p hp hdead
    rw [halloc p hp,hstatus] at hdead
    cases hdead
  · simp
  · simp
  · exact nodup_nil
  · simp
  · exact nodup_nil
  · simp
  · simp
  · simp
  · exact nodup_nil
  · simp

private theorem waitStart_ok {kernel : Proc} (hkernel : kernel≠0) (htask : task≠0)
    (hne : task≠kernel) (tickInterval : Nat) (semaphores : Nat → Semaphore) :
    ∃ b, WaitRunOk task (waitStart kernel task tickInterval semaphores) b := by
  have hstart := kernelOnly_runs hkernel tickInterval semaphores
  have hb := hstart.tracks.settled
  have hfresh : (kernelBoard kernel semaphores).allocated task=false := by
    simpa [kernelBoard,kernelOnly] using hne
  have hadd : (kernelOnly kernel tickInterval semaphores).Allowed kernel (.addProc task) :=
    allowed_add hfresh htask
  have hnone : WaitsOk (kernelBoard kernel semaphores) := by
    constructor
    · intro c p hp
      cases hp
    · intro q p hp
      cases hp
    · intro p _ pid child slot hmem
      cases hmem
    · intro p _ pid child slot hmem
      cases hmem
  have hwaits := hnone.spawn hb hfresh
  have hfamily := (kernelBoard_family kernel semaphores).step hb hstart.tracks.apart hstart.out
    hstart.alive (by simp) (.spawn hfresh htask)
  have hok := (hstart.call rfl hadd).2.1
  obtain ⟨b,hruns,hb'⟩ := schedInitialize_runs hkernel htask hne tickInterval semaphores
  have hcalm := settled_calm hok hb'
  refine ⟨b,hruns,hwaits.calm (hruns.tracks.settled_before hok hb') hcalm,?_⟩
  exact hfamily.same hcalm.allocated hcalm.pid hcalm.parent hcalm.exitCode hcalm.total hcalm.dead

/-- In every run of processes that fork, exit and wait, with the terminator in between, families
agree, every exit is reported at most once and to the parent, no wake-up is lost, and whoever has
exited is freed once, when it is reported or after its parent. -/
theorem children_reported_and_freed_once (kernel task tickInterval : Nat)
    (semaphores : Nat → Semaphore) (hkernel : kernel ≠ 0) (htask : task ≠ 0) (hne : task ≠ kernel)
    (ops : List Op)
    (hall : Always WaitRun.perform (fun r op => r.sched.Allowed task op)
      (waitStart kernel task tickInterval semaphores) ops) :
    ChildrenSafe task
      (trace WaitRun.perform (waitStart kernel task tickInterval semaphores) ops).2 := by
  have hrun : ∃ b, WaitRunOk task
      (trace WaitRun.perform (waitStart kernel task tickInterval semaphores) ops).2 b := by
    apply trace_invariant (fun r => ∃ b, WaitRunOk task r b) _ _ hall
    · rintro r op ⟨b,h⟩ hallowed
      obtain ⟨b',h',-⟩ := h.perform hallowed
      exact ⟨b',h'⟩
    · exact waitStart_ok hkernel htask hne tickInterval semaphores
  obtain ⟨b,h⟩ := hrun
  exact h.safe

theorem children_reported_and_freed_once_family :
    ChildrenSafe 2 (trace WaitRun.perform (waitStart 1 2 1000 fun _ => ⟨1, 0⟩) familyRun).2 :=
  children_reported_and_freed_once 1 2 1000 (fun _ => ⟨1,0⟩) (by decide) (by decide) (by decide)
    familyRun (by decide +kernel)

/-- Process 3 is told about process 4. -/
example : (trace WaitRun.perform (waitStart 1 2 1000 fun _ => ⟨1, 0⟩) familyRun).2.history.reported
    = [(3, 4, 7 * 256)] := by
  decide +kernel

end Hojicha.Mp
