import Hojicha.Vma.Refinement

/-! # Clearing and copying lists -/

namespace Hojicha.Vma

open Framework Function List

variable {s t : Store} {ls : Nat → List (Haddr × Area)} {l dst src : Nat}

structure Cleared (s s' : Store) (l : Nat) (qs : List Haddr) : Prop where
  head : s'.heads l = NULL
  heads : ∀ l', l' ≠ l → s'.heads l' = s.heads l'
  gone : ∀ q ∈ qs, s'.nodes q = none
  kept : ∀ q, q ∉ qs → s'.nodes q = s.nodes q

private theorem clearLoop_spec {xs : List (Haddr × Area)} {b : Haddr} {fuel : Nat}
    (hl : Linked s.nodes b (s.heads l) xs NULL) (hd : (NULL::ptrs xs).Nodup)
    (hfuel : xs.length<fuel) :
    ∃ s', clearLoop l fuel s=some s' ∧ Cleared s s' l (ptrs xs) := by
  induction xs generalizing s b fuel with
  | nil =>
    obtain ⟨fuel,rfl⟩ := Nat.exists_eq_succ_of_ne_zero (Nat.ne_of_gt hfuel)
    have hhead : s.heads l=NULL := hl
    exact ⟨s,by simp [clearLoop,hhead],hhead,fun _ _ => rfl,by simp,fun _ _ => rfl⟩
  | cons q xs ih =>
    obtain ⟨fuel,rfl⟩ := Nat.exists_eq_succ_of_ne_zero (Nat.ne_of_gt (Nat.zero_lt_of_lt hfuel))
    obtain ⟨hhead,r,hq,hxs⟩ := hl
    simp only [ptrs_cons,nodup_cons,mem_cons,not_or] at hd
    have hq0 : q.1≠NULL := fun h => hd.1.1 h.symm
    obtain ⟨s1,hs1⟩ : ∃ s1, (slabFree q.1 s).setHead l r=s1 := ⟨_,rfl⟩
    have hnodes (a : Haddr) (ha : a≠q.1) : s1.nodes a=s.nodes a := by
      simp [← hs1,slabFree,ha]
    have hgone : s1.nodes q.1=none := by simp [← hs1,slabFree]
    have hheads (l' : Nat) (hl' : l'≠l) : s1.heads l'=s.heads l' := by
      rw [← hs1,setHead_of_ne _ _ hl']
      rfl
    have hxs1 : Linked s1.nodes q.1 (s1.heads l) xs NULL := by
      rw [show s1.heads l=r by simp [← hs1]]
      exact hxs.congr fun a ha => hnodes a fun h => hd.2.1 (h ▸ ha)
    obtain ⟨s',hrun,hc⟩ := ih hxs1 (nodup_cons.mpr ⟨hd.1.2,hd.2.2⟩) (by simpa using hfuel)
    refine ⟨s',?_,hc.head,fun l' hl' => (hc.heads l' hl').trans (hheads l' hl'),?_,?_⟩
    · simp [clearLoop,hhead,hq0,hq,hs1,hrun]
    · intro a ha
      by_cases hax : a∈ptrs xs
      · exact hc.gone a hax
      · obtain rfl : a=q.1 := by simpa [hax] using ha
        rw [hc.kept _ hax,hgone]
    · intro a ha
      simp only [ptrs_cons,mem_cons,not_or] at ha
      rw [hc.kept a ha.2,hnodes a ha.1]

theorem vmaClear_spec (hr : Represents s ls) (l : Nat) :
    ∃ s', vmaClear (some l) s=some s' ∧ Cleared s s' l (ptrs (ls l)) ∧
      Represents s' (update ls l []) := by
  have hc := hr.chain l
  obtain ⟨s',hrun,hcl⟩ := clearLoop_spec hc.linked hc.distinct (length_lt_of_distinct hc.distinct)
  have hw : WritesOnly s s' l (ptrs (ls l)) := ⟨hcl.heads,hcl.kept⟩
  refine ⟨s',hrun,hcl,hr.update ⟨hcl.head,by simp⟩ hw (fun q hq => .inl hq) (by simp) ?_⟩
  exact fun q hq hnode => absurd (hcl.gone q (hq.elim id id)) hnode

/-- The state of the loop of `vma_copy_list`: the copy `zs` made so far consists of new nodes. -/
structure Copying (s t : Store) (ls : Nat → List (Haddr × Area)) (dst : Nat)
    (zs : List (Haddr × Area)) : Prop where
  represents : Represents t (update ls dst zs)
  fresh : ∀ q ∈ ptrs zs, s.nodes q = none
  writes : WritesOnly s t dst (ptrs zs)

theorem Copying.undo {zs : List (Haddr × Area)} (h : Copying s t ls dst zs)
    (hdst : s.heads dst=NULL) : vmaClear (some dst) t=some s := by
  obtain ⟨s',hrun,hc,-⟩ := vmaClear_spec h.represents dst
  rw [update_self] at hc
  suffices hs : s'=s by rwa [hs] at hrun
  have hheads : s'.heads=s.heads := by
    funext l
    by_cases hl : l=dst
    · rw [hl,hc.head,hdst]
    · rw [hc.heads l hl,h.writes.heads l hl]
  have hnodes : s'.nodes=s.nodes := by
    funext q
    by_cases hq : q∈ptrs zs
    · rw [hc.gone q hq,h.fresh q hq]
    · rw [hc.kept q hq,h.writes.nodes q hq]
  cases s'
  cases s
  simp_all

private theorem insertArea_last {xs : List Area} {a : Area} (ys : List Area)
    (hs : Sorted (xs++a::ys)) : insertArea a xs=some (xs++[a]) := by
  obtain ⟨-,hay,hlt⟩ := sorted_append.mp hs
  obtain ⟨hv,-,-⟩ := sorted_cons.mp hay
  have hbefore : ∀ b∈xs, decide (b.end_<a.start)=true := fun b hb => by
    simpa using hlt b hb a (by simp)
  have hfront : front a.start xs=xs := takeWhile_eq_self_iff.mpr hbefore
  have hback : back a.start xs=[] := dropWhile_eq_nil_iff.mpr hbefore
  simp [insertArea,(vmaRangeValid_iff _ _).mpr hv,hfront,hback]

private theorem copyLoop_spec (answers : Nat → SlabAnswer) (hdst : s.heads dst=NULL)
    (hne : src≠dst) (hs : Sorted (areas (ls src))) {todo : List (Haddr × Area)} :
    ∀ (done zs : List (Haddr × Area)) (t : Store) (fuel i : Nat), ls src=done++todo →
      areas zs=areas done → Copying s t ls dst zs → todo.length<fuel →
      copyLoop answers dst fuel i (firstPtr todo) t=some (false, s) ∨
        ∃ s' zs', copyLoop answers dst fuel i (firstPtr todo) t=some (true, s') ∧
          Represents s' (update ls dst zs') ∧ areas zs'=areas (ls src) ∧
          ∀ j<todo.length, answers (i + j) ≠ .refuse := by
  induction todo with
  | nil =>
    intro done zs t fuel i hsrc hzs hcopy hfuel
    obtain ⟨fuel,rfl⟩ := Nat.exists_eq_succ_of_ne_zero (Nat.ne_of_gt hfuel)
    refine .inr ⟨t,zs,by simp [copyLoop,firstPtr],hcopy.represents,?_,by simp⟩
    rw [hzs,hsrc,append_nil]
  | cons y ys ih =>
    intro done zs t fuel i hsrc hzs hcopy hfuel
    obtain ⟨fuel,rfl⟩ := Nat.exists_eq_succ_of_ne_zero (Nat.ne_of_gt (Nat.zero_lt_of_lt hfuel))
    have hchain {t : Store} {zs : List (Haddr × Area)} (h : Copying s t ls dst zs) :
        Chain t src (done++y::ys) := by
      have hc := h.represents.chain src
      rwa [update_of_ne hne,hsrc] at hc
    have hy0 : y.1≠NULL := fun h => by
      have hd := (hchain hcopy).distinct
      simp [h] at hd
    obtain ⟨n,hn,hdata⟩ := (hchain hcopy).linked.node (q := y) (by simp)
    have hins : insertArea y.2 (areas zs)=some (areas done++[y.2]) := by
      rw [hzs]
      refine insertArea_last (areas ys) ?_
      simpa [hsrc] using hs
    rcases vmaInsert_spec hcopy.represents dst (answers i) y.2 with
      ⟨hrun,-⟩ | ⟨p,t',xs',ys',hrun,hgrant,hsplit,hp,hr',hins',hw'⟩
    · left
      have hundo := hcopy.undo hdst
      simp [copyLoop,firstPtr,hy0,hn,hdata,hrun,hundo]
    · rw [update_self] at hsplit hins' hw'
      rw [update_idem] at hr'
      have hpz : p∉ptrs zs := fun hmem => by
        have hnode := hcopy.represents.node (l := dst) (q := p) (by simpa using hmem)
        exact hnode hp
      have hcopy' : Copying s t' ls dst (xs'++(p, y.2)::ys') := by
        refine ⟨hr',?_,?_⟩
        · intro q hq
          have hq' : q=p ∨ q∈ptrs zs := by
            rw [hsplit]
            simp only [ptrs_append,ptrs_cons,mem_append,mem_cons] at hq ⊢
            tauto
          rcases hq' with rfl | hq'
          · rw [← hcopy.writes.nodes _ hpz,hp]
          · exact hcopy.fresh q hq'
        · have hsub : p::ptrs zs ⊆ ptrs (xs'++(p, y.2)::ys') := by
            rw [hsplit]
            intro q hq
            simp only [ptrs_append,ptrs_cons,mem_append,mem_cons] at hq ⊢
            tauto
          exact (hcopy.writes.mono (List.Subset.trans (subset_cons_self _ _) hsub)).trans
            (hw'.mono hsub)
      have hareas : areas (xs'++(p, y.2)::ys')=areas (done++[y]) := by
        have hsome := hins'.symm.trans hins
        rw [Option.some.inj hsome]
        simp
      obtain ⟨c,-,-,r,hn',hys⟩ := linked_append.mp (hchain hcopy').linked
      have hnext : r=firstPtr ys := hys.first_eq
      have hrest := ih (done++[y]) _ t' fuel (i+1) (by simpa using hsrc) hareas hcopy'
        (by simpa using hfuel)
      have hstep : copyLoop answers dst (fuel+1) i (firstPtr (y::ys)) t =
          copyLoop answers dst fuel (i+1) (firstPtr ys) t' := by
        simp [copyLoop,firstPtr,hy0,hn,hdata,hrun,hn',hnext]
      rw [hstep]
      refine hrest.imp_right ?_
      rintro ⟨s',zs',hloop,hrep,hcopied,hanswers⟩
      refine ⟨s',zs',hloop,hrep,hcopied,fun j hj => ?_⟩
      cases j with
      | zero =>
        obtain ⟨q,hq,-⟩ := hgrant
        simp [hq]
      | succ j =>
        rw [← Nat.add_assoc,Nat.add_right_comm]
        exact hanswers j (by simpa using hj)

theorem vmaCopyList_spec (hr : Represents s ls) (answers : Nat → SlabAnswer) (dst : Nat)
    (src : Option Nat) (hs : ∀ l∈src, Sorted (areas (ls l))) :
    vmaCopyList answers (some dst) src s=some (false, s) ∨
      ∃ s' zs, vmaCopyList answers (some dst) src s=some (true, s') ∧
        Represents s' (update ls dst zs) ∧
        (areas zs=src.elim [] fun l => areas (ls l)) ∧
        ∀ l∈src, ∀ j<(ls l).length, answers j ≠ .refuse := by
  by_cases hdst : s.heads dst=NULL
  swap
  · exact .inl (by simp [vmaCopyList,hdst])
  have hempty : ls dst=[] := by
    have hc := hr.chain dst
    cases hl : ls dst with
    | nil => rfl
    | cons q xs =>
      rw [hl] at hc
      have hd := hc.distinct
      have hq : q.1=NULL := hc.linked.1.symm.trans hdst
      simp [hq] at hd
  have hself : Represents s (update ls dst []) := by
    rwa [← hempty,update_eq_self]
  cases src with
  | none =>
    refine .inr ⟨s,[],?_,hself,rfl,by simp⟩
    simp [vmaCopyList,hdst,copyLoop]
  | some src =>
    by_cases hne : src=dst
    · subst hne
      refine .inr ⟨s,[],?_,hself,by simp [hempty],by simp [hempty]⟩
      simp [vmaCopyList,hdst,copyLoop]
    · have hc := hr.chain src
      have hfirst : s.heads src=firstPtr (ls src) := hc.linked.first_eq
      have hcopy : Copying s s ls dst [] := ⟨hself,by simp,fun _ _ => rfl,fun _ _ => rfl⟩
      have hloop := copyLoop_spec answers hdst hne (hs src rfl) [] [] s (2 ^ 64) 0 rfl rfl hcopy
        (length_lt_of_distinct hc.distinct)
      simpa [vmaCopyList,hdst,hfirst] using hloop

end Hojicha.Vma
