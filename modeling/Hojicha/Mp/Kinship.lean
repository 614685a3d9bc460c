import Hojicha.Mp.Placement

/-!
# Parents, children and who waits for them

The effects of the operations on a board keep `KinOk`, `WaitersOk` and `RestsOk`.
-/

namespace Hojicha.Mp

open Framework Function List

variable {b : Board} {t t' : Tables} {L L' : QueueId → List Proc} {p q c : Proc} {slot : Nat}

theorem waitChildFind_some {pid : Int} (h : t.waitChildFind q pid=some slot) :
    slot∈childSlots ∧ t.children q slot≠0 ∧ t.Matches pid (t.children q slot) := by
  rw [Tables.waitChildFind,Option.or_eq_some_iff] at h
  rcases h with h | ⟨-,h⟩
  · have hfound := find?_some h
    simp only [decide_eq_true_eq] at hfound
    exact ⟨mem_of_find?_eq_some h,hfound.1⟩
  · have hfound := find?_some h
    simp only [decide_eq_true_eq] at hfound
    exact ⟨mem_of_find?_eq_some h,hfound⟩

/-- All that `waitpid_proc` can do: fail or return at once, collect a child, or wait for one. -/
theorem waitpid_cases (b : Board) (pid : Int) (options : Nat) :
    (∃ ret, ((ret = -EINVAL ∧ (options / 2≠0 ∨ pid=0 ∨ pid < -1)) ∨
          (ret = -ECHILD ∧ b.waitChildFind b.current pid=none) ∨
          (ret=0 ∧ options % 2≠0)) ∧
        b.waitpid pid options=(.waited ret none, b)) ∨
      (∃ slot, b.waitChildFind b.current pid=some slot ∧
        b.status (b.children b.current slot) = .readyToDie ∧
        b.waitpid pid options=b.collect b.current (b.children b.current slot) slot) ∨
      ∃ slot, b.waitChildFind b.current pid=some slot ∧
        b.status (b.children b.current slot) ≠ .readyToDie ∧ options % 2=0 ∧
        b.waitpid pid options=(.done, b.waitFor pid (b.children b.current slot) slot) := by
  rw [Board.waitpid]
  by_cases hargs : options / 2≠0 ∨ pid=0 ∨ pid < -1
  · rw [if_pos hargs]
    exact Or.inl ⟨_,Or.inl ⟨rfl,hargs⟩,rfl⟩
  · rw [if_neg hargs]
    cases hfind : b.waitChildFind b.current pid with
    | none => exact Or.inl ⟨_,Or.inr (Or.inl ⟨rfl,rfl⟩),rfl⟩
    | some slot =>
      dsimp only
      by_cases hdead : b.status (b.children b.current slot) = .readyToDie
      · rw [if_pos hdead]
        exact Or.inr (Or.inl ⟨slot,rfl,hdead,rfl⟩)
      · rw [if_neg hdead]
        by_cases hhang : options % 2=0
        · rw [if_neg (not_not.mpr hhang)]
          exact Or.inr (Or.inr ⟨slot,rfl,hdead,hhang,rfl⟩)
        · rw [if_pos hhang]
          exact Or.inl ⟨0,Or.inr (Or.inr ⟨rfl,hhang⟩),rfl⟩

theorem KinOk.ne_zero (h : KinOk t) (hp : t.allocated p=true) : p≠0 := by
  rintro rfl
  rw [h.null] at hp
  cases hp

theorem KinOk.newProc (h : KinOk t) (hp : t.allocated p=false) (hp0 : p≠0) :
    KinOk (t.newProc p) := by
  have hnot : ∀ q, t.allocated q=true → q≠p := by
    rintro q hq rfl
    rw [hp] at hq
    cases hq
  have halloc : ∀ q, (t.newProc p).allocated q=if q=p then true else t.allocated q :=
    fun q => update_apply _ _ _ _
  have hparent : ∀ q, (t.newProc p).parent q=if q=p then 0 else t.parent q :=
    fun q => update_apply _ _ _ _
  have hchildren : ∀ q, (t.newProc p).children q=if q=p then fun _ => 0 else t.children q :=
    fun q => update_apply _ _ _ _
  constructor
  · rw [halloc,if_neg hp0.symm]
    exact h.null
  · intro q slot hq hslot
    rw [hchildren] at hslot ⊢
    rw [halloc] at hq
    split_ifs at hq hslot ⊢ with hqp
    · exact (hslot rfl).elim
    · obtain ⟨hs,hc,hpar⟩ := h.child q slot hq hslot
      rw [halloc,hparent,if_neg (hnot _ hc),if_neg (hnot _ hc)]
      exact ⟨hs,hc,hpar⟩
  · intro q i j hq hi hij
    rw [hchildren] at hi hij
    rw [halloc] at hq
    split_ifs at hq hi hij with hqp
    · exact (hi rfl).elim
    · exact h.slots q i j hq hi hij
  · intro c hc hpar
    rw [hparent] at hpar ⊢
    rw [halloc] at hc
    split_ifs at hc hpar ⊢ with hcp
    · exact (hpar rfl).elim
    · obtain ⟨hq,slot,hslot⟩ := h.parent c hc hpar
      rw [halloc,hchildren,if_neg (hnot _ hq),if_neg (hnot _ hq)]
      exact ⟨hq,slot,hslot⟩

private theorem setChild_children (t : Tables) (q : Proc) (slot : Nat) (c p : Proc) (i : Nat) :
    (t.setChild q slot c).children p i=if p=q ∧ i=slot then c else t.children p i := by
  change update t.children q (update (t.children q) slot c) p i=_
  by_cases hpq : p=q
  · subst hpq
    simp [update_apply]
  · simp [hpq]

private theorem KinOk.adopt (h : KinOk t) (hq : t.allocated q=true) (hc : t.allocated c=true)
    (hpar : t.parent c=0) (hslot : slot∈childSlots) (hfree : t.children q slot=0) :
    KinOk ((t.setParent c q).setChild q slot c) := by
  have hparent : ∀ p, ((t.setParent c q).setChild q slot c).parent p =
      if p=c then q else t.parent p := fun p => update_apply _ _ _ _
  have hchildren : ∀ p i, ((t.setParent c q).setChild q slot c).children p i =
      if p=q ∧ i=slot then c else t.children p i := setChild_children _ q slot c
  -- nobody had the orphan in a slot
  have hnobody : ∀ p i, t.allocated p=true → t.children p i≠c := by
    rintro p i hp rfl
    have hkin := h.child p i hp (h.ne_zero hc)
    rw [hpar] at hkin
    exact h.ne_zero hp hkin.2.2.symm
  constructor
  · exact h.null
  · intro p i hp hi
    rw [hchildren] at hi ⊢
    split_ifs at hi ⊢ with hpi
    · obtain ⟨rfl,rfl⟩ := hpi
      rw [hparent,if_pos rfl]
      exact ⟨hslot,hc,rfl⟩
    · obtain ⟨hs,hal,hpa⟩ := h.child p i hp hi
      rw [hparent,if_neg (hnobody p i hp)]
      exact ⟨hs,hal,hpa⟩
  · intro p i j hp hi hij
    rw [hchildren] at hi
    rw [hchildren,hchildren] at hij
    split_ifs at hi hij with hpi hpj hpj
    · exact hpi.2.trans hpj.2.symm
    · exact (hnobody p j hp hij.symm).elim
    · exact (hnobody p i hp hij).elim
    · exact h.slots p i j hp hi hij
  · intro d hd hdpar
    rw [hparent] at hdpar ⊢
    split_ifs at hdpar ⊢ with hdc
    · refine ⟨hq,slot,?_⟩
      rw [hchildren,if_pos ⟨rfl,rfl⟩,hdc]
    · obtain ⟨hal,i,hi⟩ := h.parent d hd hdpar
      refine ⟨hal,i,?_⟩
      rw [hchildren,if_neg]
      · exact hi
      · rintro ⟨hdq,rfl⟩
        rw [hdq,hfree] at hi
        exact h.ne_zero hd hi.symm

theorem KinOk.disown (h : KinOk t) (hq : t.allocated q=true) (hslot : t.children q slot=c)
    (hc0 : c≠0) : KinOk ((t.setChild q slot 0).setParent c 0) := by
  subst hslot
  obtain ⟨-,-,hpar⟩ := h.child q slot hq hc0
  have hparent : ∀ p, ((t.setChild q slot 0).setParent (t.children q slot) 0).parent p =
      if p=t.children q slot then 0 else t.parent p := fun p => update_apply _ _ _ _
  have hchildren : ∀ p i, ((t.setChild q slot 0).setParent (t.children q slot) 0).children p i=_ :=
    setChild_children t q slot 0
  constructor
  · exact h.null
  · intro p i hp hi
    rw [hchildren] at hi ⊢
    split_ifs at hi ⊢ with hpi
    · exact (hi rfl).elim
    · obtain ⟨hs,hal,hpa⟩ := h.child p i hp hi
      rw [hparent,if_neg]
      · exact ⟨hs,hal,hpa⟩
      · -- the same child in another slot
        intro hsame
        have hpq : p=q := by rw [← hpa,hsame,hpar]
        subst hpq
        exact hpi ⟨rfl,h.slots p i slot hp hi hsame⟩
  · intro p i j hp hi hij
    rw [hchildren] at hi
    rw [hchildren,hchildren] at hij
    split_ifs at hi hij with hpi hpj hpj
    · exact (hi rfl).elim
    · exact (hi rfl).elim
    · exact (hi hij).elim
    · exact h.slots p i j hp hi hij
  · intro d hd hdpar
    rw [hparent] at hdpar ⊢
    split_ifs at hdpar ⊢ with hdc
    · exact (hdpar rfl).elim
    · obtain ⟨hal,i,hi⟩ := h.parent d hd hdpar
      refine ⟨hal,i,?_⟩
      rw [hchildren,if_neg]
      · exact hi
      · rintro ⟨hdq,rfl⟩
        rw [hdq] at hi
        exact hdc hi.symm

theorem procFree_orphan (hpar : t.parent p=0) :
    t.procFree p = { t with
      parent := fun c =>
        if c≠0 ∧ ∃ slot∈childSlots, t.children p slot=c then 0 else t.parent c
      allocated := update t.allocated p false } := by
  rw [Tables.procFree,if_neg (not_not.mpr hpar)]

theorem KinOk.procFree (h : KinOk t) (hp : t.allocated p=true) (hpar : t.parent p=0) :
    KinOk (t.procFree p) := by
  rw [procFree_orphan hpar]
  have halloc : ∀ q, update t.allocated p false q=true ↔ q≠p ∧ t.allocated q=true := by
    intro q
    rw [update_apply]
    split_ifs with hqp
    · simp [hqp]
    · simp [hqp]
  constructor
  · by_contra h0
    have h0' := ((halloc 0).mp (by simpa using h0)).2
    rw [h.null] at h0'
    cases h0'
  · intro q slot hq hslot
    dsimp only at hq hslot ⊢
    obtain ⟨hqp,hq⟩ := (halloc q).mp hq
    obtain ⟨hs,hal,hpa⟩ := h.child q slot hq hslot
    have hcp : t.children q slot≠p := by
      intro hcp
      rw [hcp,hpar] at hpa
      exact h.ne_zero hq hpa.symm
    refine ⟨hs,(halloc _).mpr ⟨hcp,hal⟩,?_⟩
    rw [if_neg]
    · exact hpa
    · rintro ⟨-,i,-,hi⟩
      have hi0 : t.children p i≠0 := by rw [hi]; exact hslot
      have hpi := (h.child p i hp hi0).2.2
      rw [hi,hpa] at hpi
      exact hqp hpi
  · intro q i j hq
    exact h.slots q i j ((halloc q).mp hq).2
  · intro c hc hcpar
    dsimp only at hc hcpar ⊢
    obtain ⟨hcp,hc⟩ := (halloc c).mp hc
    split_ifs at hcpar ⊢ with hchild
    · exact (hcpar rfl).elim
    · obtain ⟨hal,i,hi⟩ := h.parent c hc hcpar
      refine ⟨(halloc _).mpr ⟨?_,hal⟩,i,hi⟩
      intro hpp
      rw [hpp] at hi
      have hi0 : t.children p i≠0 := by rw [hi]; exact h.ne_zero hc
      exact hchild ⟨h.ne_zero hc,i,(h.child p i hp hi0).1,hi⟩

theorem KinOk.congr (h : KinOk t) (halloc : t'.allocated=t.allocated)
    (hparent : t'.parent=t.parent) (hchildren : t'.children=t.children) : KinOk t' := by
  constructor
  · rw [halloc]
    exact h.null
  · rw [halloc,hparent,hchildren]
    exact h.child
  · rw [halloc,hchildren]
    exact h.slots
  · rw [halloc,hparent,hchildren]
    exact h.parent

theorem KinOk.forkChild (h : KinOk t) (hcur : t.allocated t.current=true)
    (hc : t.allocated c=false) (hc0 : c≠0)
    (hslot : t.procChildFindNull t.current=some slot) : KinOk (t.forkChild c slot) := by
  have hcc : t.current≠c := by
    rintro hcc
    rw [hcc,hc] at hcur
    cases hcur
  have hfree : t.children t.current slot=0 := by
    have hfound := find?_some hslot
    simpa using hfound
  have hnew : KinOk (((t.newProc c).setParent c t.current).setChild t.current slot c) := by
    apply (h.newProc hc hc0).adopt
    · change update t.allocated c true t.current=true
      rw [update_of_ne hcc]
      exact hcur
    · exact update_self _ _ _
    · exact update_self _ _ _
    · exact mem_of_find?_eq_some hslot
    · change update t.children c (fun _ => 0) t.current slot=0
      rw [update_of_ne hcc]
      exact hfree
  exact hnew.congr rfl rfl rfl

/-- Waiting is kept when waiters only leave the queues and families do not change. -/
theorem WaitersOk.mono (h : WaitersOk t L) (halloc : t'.allocated=t.allocated)
    (hparent : t'.parent=t.parent)
    (hexit : ∀ c p, p∈L' (.waiting (.exitWaiters c)) → p∈L (.waiting (.exitWaiters c)))
    (hchild : ∀ q p, p∈L' (.waiting (.childWaiters q)) → p∈L (.waiting (.childWaiters q))) :
    WaitersOk t' L' := by
  constructor
  · intro c p hp
    rw [halloc,hparent]
    exact h.exitWaiters c p (hexit c p hp)
  · intro q p hp
    exact h.childWaiters q p (hchild q p hp)

theorem WaitersOk.procFree (h : WaitersOk t L) (hk : KinOk t) (hp : t.allocated p=true)
    (hpar : t.parent p=0) (hdead : ∀ w, p∉L (.waiting w)) (hnull : ∀ w, 0∉L (.waiting w)) :
    WaitersOk (t.procFree p) L := by
  rw [procFree_orphan hpar]
  constructor
  · intro c q hq
    obtain ⟨hal,hcq⟩ := h.exitWaiters c q hq
    have hcp : c≠p := by
      rintro rfl
      rw [hpar] at hcq
      exact hnull _ (hcq ▸ hq)
    dsimp only
    rw [update_of_ne hcp,if_neg]
    · exact ⟨hal,hcq⟩
    · rintro ⟨hc0,i,-,hi⟩
      have hi0 : t.children p i≠0 := by rw [hi]; exact hc0
      have hpi := (hk.child p i hp hi0).2.2
      rw [hi,hcq] at hpi
      exact hdead _ (hpi ▸ hq)
  · exact h.childWaiters

theorem reapList_kin (ps kept : List Proc) (t : Tables) (hk : KinOk t) (hw : WaitersOk t L)
    (hps : ps.Nodup) (halloc : ∀ p∈ps, t.allocated p=true)
    (hdead : ∀ p∈ps, ∀ w, p∉L (.waiting w)) (hnull : ∀ w, 0∉L (.waiting w)) :
    KinOk (Board.reapList ps t kept).1 ∧ WaitersOk (Board.reapList ps t kept).1 L := by
  induction ps generalizing t kept with
  | nil => exact ⟨hk,hw⟩
  | cons p ps ih =>
    obtain ⟨hp,hnodup⟩ := nodup_cons.mp hps
    have hrest : ∀ q∈ps, ∀ w, q∉L (.waiting w) :=
      fun q hq => hdead q (mem_cons_of_mem p hq)
    rw [Board.reapList]
    split_ifs with hpar
    · exact ih (p::kept) t hk hw hnodup (fun q hq => halloc q (mem_cons_of_mem p hq)) hrest
    · push Not at hpar
      have hpal := halloc p mem_cons_self
      apply ih kept (t.procFree p) (hk.procFree hpal hpar)
        (hw.procFree hk hpal hpar (hdead p mem_cons_self) hnull) hnodup _ hrest
      intro q hq
      rw [procFree_allocated,update_of_ne (ne_of_mem_of_not_mem hq hp)]
      exact halloc q (mem_cons_of_mem p hq)

section

variable (h : RestsOk t)
include h

theorem RestsOk.congr (halloc : t'.allocated=t.allocated)
    (hrest : t'.rest=t.rest) (hchildren : t'.children=t.children) : RestsOk t' := by
  constructor
  · rw [halloc,hrest]
    exact h.shape
  · rw [halloc,hrest,hchildren]
    exact h.slot

theorem RestsOk.setRest {rs : List Rest} (hshape : ∀ r∈rs.dropLast, r = .unlock)
    (hslot : ∀ pid child slot, .waitpid pid child slot∈rs →
      t.children p slot=child ∧ child≠0) : RestsOk (t.setRest p rs) := by
  have hrest : ∀ q, (t.setRest p rs).rest q=if q=p then rs else t.rest q :=
    fun q => update_apply _ _ _ _
  constructor
  · intro q hq
    rw [hrest]
    split_ifs
    · exact hshape
    · exact h.shape q hq
  · intro q hq pid child slot hmem
    rw [hrest] at hmem
    split_ifs at hmem with hqp
    · subst hqp
      exact hslot pid child slot hmem
    · exact h.slot q hq pid child slot hmem

theorem RestsOk.push (hp : t.allocated p=true) : RestsOk (t.setRest p (.unlock::t.rest p)) := by
  apply h.setRest
  · intro r hr
    cases hrest : t.rest p with
    | nil =>
      rw [hrest] at hr
      cases hr
    | cons r' rs =>
      rw [hrest,dropLast_cons_cons,mem_cons] at hr
      rcases hr with hr | hr
      · exact hr
      · exact h.shape p hp r (by rw [hrest]; exact hr)
  · intro pid child slot hmem
    rcases mem_cons.mp hmem with hmem | hmem
    · cases hmem
    · exact h.slot p hp pid child slot hmem

theorem RestsOk.pop (hp : t.allocated p=true) : RestsOk (t.setRest p (t.rest p).tail) := by
  apply h.setRest
  · intro r hr
    apply h.shape p hp r
    cases hrest : t.rest p with
    | nil =>
      rw [hrest] at hr
      cases hr
    | cons r' rs =>
      rw [hrest,tail_cons] at hr
      cases rs with
      | nil => cases hr
      | cons r'' rs =>
        rw [dropLast_cons_cons]
        exact mem_cons_of_mem r' hr
  · intro pid child slot hmem
    exact h.slot p hp pid child slot (mem_of_mem_tail hmem)

theorem RestsOk.waitpid_last (hp : t.allocated p=true) {pid : Int}
    {rs : List Rest} (hrest : t.rest p = .waitpid pid c slot::rs) : rs=[] := by
  cases rs with
  | nil => rfl
  | cons r rs =>
    have hfirst := h.shape p hp (.waitpid pid c slot) (by
      rw [hrest,dropLast_cons_cons]
      exact mem_cons_self)
    cases hfirst

theorem RestsOk.mono (halloc : ∀ q, t'.allocated q=true → t.allocated q=true)
    (hrest : t'.rest=t.rest)
    (hchildren : ∀ q, t'.allocated q=true → t.rest q≠[] → t'.children q=t.children q) :
    RestsOk t' := by
  constructor
  · intro q hq
    rw [hrest]
    exact h.shape q (halloc q hq)
  · intro q hq pid child slot hmem
    rw [hrest] at hmem
    rw [hchildren q hq (ne_nil_of_mem hmem)]
    exact h.slot q (halloc q hq) pid child slot hmem

theorem RestsOk.newProc {rs : List Rest} (hrs : rs.length≤1)
    (hnot : ∀ pid child slot, .waitpid pid child slot∉rs)
    (hrest : ∀ q, t'.rest q=if q=p then rs else t.rest q)
    (halloc : ∀ q, q≠p → t'.allocated q=true → t.allocated q=true)
    (hchildren : ∀ q, q≠p → t.rest q≠[] → t'.children q=t.children q) : RestsOk t' := by
  constructor
  · intro q hq
    rw [hrest]
    split_ifs with hqp
    · intro r hr
      have hlen := length_pos_of_mem hr
      rw [length_dropLast] at hlen
      omega
    · exact h.shape q (halloc q hqp hq)
  · intro q hq pid child slot hmem
    rw [hrest] at hmem
    split_ifs at hmem with hqp
    · exact (hnot pid child slot hmem).elim
    · rw [hchildren q hqp (ne_nil_of_mem hmem)]
      exact h.slot q (halloc q hqp hq) pid child slot hmem

theorem RestsOk.procFree (hpar : t.parent p=0) : RestsOk (t.procFree p) := by
  rw [procFree_orphan hpar]
  apply h.mono
  · intro q hq
    change update t.allocated p false q=true at hq
    rw [update_apply] at hq
    split_ifs at hq
    exact hq
  · rfl
  · intro q _ _
    rfl

end

theorem reapList_rests (ps kept : List Proc) (t : Tables) (h : RestsOk t) :
    RestsOk (Board.reapList ps t kept).1 := by
  induction ps generalizing t kept with
  | nil => exact h
  | cons p ps ih =>
    rw [Board.reapList]
    split_ifs with hpar
    · exact ih (p::kept) t h
    · exact ih kept (t.procFree p) (h.procFree (not_not.mp hpar))

end Hojicha.Mp
