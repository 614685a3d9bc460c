import Hojicha.Vma.Runs

/-! # Covered addresses -/

namespace Hojicha.Vma

open Function List
open BitVec (le_def)

variable {xs zs : List Area} {a : Area} {start end_ x : Haddr}

def Covered (xs : List Area) (x : Haddr) : Prop := ∃ a ∈ xs, a.Covers x

theorem covered_append {ys : List Area} : Covered (xs++ys) x ↔ Covered xs x ∨ Covered ys x := by
  simp only [Covered,mem_append,or_and_right,exists_or]

theorem covered_cons : Covered (a::xs) x ↔ a.Covers x ∨ Covered xs x := by
  simp [Covered]

theorem not_covered_nil : ¬ Covered [] x := by
  simp [Covered]

theorem Covered.unique (h : Covered xs x) (hs : Sorted xs) : ∃! a, a∈xs ∧ a.Covers x := by
  obtain ⟨a,ha,hax⟩ := h
  refine ⟨a,⟨ha,hax⟩,fun b ⟨hb,hbx⟩ => ?_⟩
  by_contra hne
  have hpairs : xs.Pairwise fun a b => a.end_<b.start ∨ b.end_<a.start := hs.ordered.imp .inl
  have hsymm : Std.Symm fun a b : Area => a.end_<b.start ∨ b.end_<a.start := ⟨fun _ _ h => h.symm⟩
  have hapart := hpairs.forall ha hb (Ne.symm hne)
  obtain ⟨hax1,hax2⟩ := hax
  obtain ⟨hbx1,hbx2⟩ := hbx
  simp only [BitVec.lt_def,le_def] at *
  omega

section

variable (h : insertArea a xs = some zs)
include h

theorem insertArea_eq :
    zs=front a.start xs++a::back a.start xs ∧ ValidRange a.start a.end_ := by
  rw [insertArea] at h
  split_ifs at h with hc
  exact ⟨(Option.some.inj h).symm,(vmaRangeValid_iff _ _).mp (Bool.and_eq_true _ _ ▸ hc).1⟩

theorem back_insertArea :
    front a.start zs=front a.start xs ∧ back a.start zs=a::back a.start xs := by
  obtain ⟨rfl,hv⟩ := insertArea_eq h
  have hfront : ∀ b∈front a.start xs, decide (b.end_<a.start)=true := fun b hb => by
    simpa using end_lt_of_mem_front hb
  have ha : ¬ a.end_<a.start := BitVec.not_lt.mpr hv.le
  constructor
  · show List.takeWhile _ _=_
    rw [takeWhile_append_of_pos hfront,takeWhile_cons_of_neg (by simpa using ha),append_nil]
  · show List.dropWhile _ _=_
    rw [dropWhile_append_of_pos hfront,dropWhile_cons_of_neg (by simpa using ha)]

theorem not_needsNode_insertArea : ¬ NeedsNode a.start end_ zs := by
  rintro ⟨b,hb,-,hlen⟩
  rw [(back_insertArea h).2] at hb
  obtain rfl : a=b := by simpa using hb
  rw [remainders] at hlen
  split_ifs at hlen with h1 h2 h3
  all_goals simp_all

theorem removeRange_insertArea : removeRange a.start end_ zs =
      front a.start xs++remainders a.start end_ a++back a.start xs := by
  obtain ⟨hfront,hback⟩ := back_insertArea h
  rw [removeRange,hback,hfront]
  exact if_neg (by simp)

/-- Removing from the start of the new area undoes the insertion if it reaches its end. -/
theorem removeRange_insertArea_eq_iff : removeRange a.start end_ zs=xs ↔ a.end_≤end_ := by
  have hxs := front_append_back a.start xs
  have hnil : removeRange a.start end_ zs=xs ↔ remainders a.start end_ a=[] := by
    rw [removeRange_insertArea h]
    conv_lhs => rhs; rw [← hxs]
    rw [append_assoc,append_right_inj,append_left_eq_self]
  rw [hnil,remainders]
  by_cases hlt : end_<a.end_
  · have hne : end_≠a.end_ := fun heq => BitVec.lt_irrefl _ (heq ▸ hlt)
    simp [hlt,hne,BitVec.not_le.mpr hlt]
  · simp [hlt,BitVec.not_lt.mp hlt]

end

theorem covered_start_iff (hs : Sorted xs) :
    Covered xs start ↔ ∃ a rest, back start xs=a::rest ∧ a.start ≤ start := by
  have hsplit := front_append_back start xs
  have hfront : ¬ Covered (front start xs) start := fun ⟨b,hb,_,hbx⟩ =>
    BitVec.not_le.mpr (end_lt_of_mem_front hb) hbx
  have hcov : Covered xs start ↔ Covered (back start xs) start := by
    conv_lhs => rw [← hsplit,covered_append]
    simp only [hfront,false_or]
  rw [hcov]
  cases hback : back start xs with
  | nil => simp [not_covered_nil]
  | cons a rest =>
    have hsort : Sorted (a::rest) := (sorted_append.mp (hback ▸ hsplit.symm ▸ hs)).2.1
    have hend : start≤a.end_ := BitVec.not_lt.mp (not_end_lt_of_back hback)
    constructor
    · rintro ⟨b,hb,hbs,-⟩
      refine ⟨a,rest,rfl,?_⟩
      by_contra hlt
      exact BitVec.not_le.mpr (hsort.starts_after (BitVec.not_le.mp hlt) b hb) hbs
    · rintro ⟨_,_,heq,hlo⟩
      obtain ⟨rfl,rfl⟩ := List.cons.inj heq
      exact ⟨a,by simp,hlo,hend⟩

theorem removeRange_eq_self (hs : Sorted xs) (hc : ¬ Covered xs start) :
    removeRange start end_ xs=xs := by
  rw [removeRange]
  split
  · rfl
  · rename_i a rest hback
    refine if_pos (BitVec.not_le.mp fun hlo => hc ?_)
    exact (covered_start_iff hs).mpr ⟨a,rest,hback,hlo⟩

theorem remainders_attributes {b : Area} (hb : b∈remainders start end_ a) :
    b.access=a.access ∧ b.flags=a.flags := by
  unfold remainders at hb
  generalize (if end_<a.end_ then end_ else a.end_)=re at hb
  dsimp only at hb
  split_ifs at hb
  · simp at hb
  · obtain rfl := mem_singleton.mp hb
    exact ⟨rfl,rfl⟩
  · obtain rfl := mem_singleton.mp hb
    exact ⟨rfl,rfl⟩
  · simp only [mem_cons,not_mem_nil,or_false] at hb
    rcases hb with rfl | rfl <;> exact ⟨rfl,rfl⟩

section Range

variable (hr : ValidRange start end_)
include hr

private theorem covered_remainders (hlo : a.start ≤ start) (hhi : start≤a.end_) :
    Covered (remainders start end_ a) x ↔ a.Covers x ∧ ¬ (start≤x ∧ x≤end_) := by
  obtain ⟨re,hre⟩ : ∃ re, (if end_<a.end_ then end_ else a.end_)=re := ⟨_,rfl⟩
  have hre' : re.toNat≤a.end_.toNat ∧ start.toNat≤re.toNat ∧
      ∀ n, n≤a.end_.toNat → (n≤end_.toNat ↔ n≤re.toNat) := by
    have hle := hr.le
    simp only [BitVec.lt_def,le_def] at *
    subst hre
    split <;> refine ⟨by omega,by omega,by omega⟩
  obtain ⟨hre1,hre2,hcut⟩ := hre'
  have hleft (h : start≠a.start) : (start-1).toNat=start.toNat-1 ∧
      a.start.toNat<start.toNat := by
    simp only [ne_eq,← BitVec.toNat_inj,le_def] at *
    rw [BitVec.toNat_sub_of_le (by simp only [le_def]; change 1≤_; omega)]
    exact ⟨rfl,by omega⟩
  have hright (h : re≠a.end_) : (re+1).toNat=re.toNat+1 := by
    have hlt := a.end_.isLt
    simp only [ne_eq,← BitVec.toNat_inj] at *
    rw [BitVec.toNat_add]
    refine Nat.mod_eq_of_lt ?_
    change re.toNat+1<_
    omega
  have hx := hcut x.toNat
  rw [remainders]
  simp only [hre]
  simp only [le_def] at hlo hhi
  split_ifs with h1 h2 h3
  · obtain ⟨h1,h2⟩ := h1
    subst h1
    subst h2
    simp only [not_covered_nil,Area.Covers,le_def,false_iff]
    omega
  · have hend := hright fun h => h1 ⟨h2,h⟩
    subst h2
    simp only [covered_cons,not_covered_nil,or_false,Area.Covers,le_def,hend]
    omega
  · obtain ⟨hstart,hlt⟩ := hleft h2
    subst h3
    simp only [covered_cons,not_covered_nil,or_false,Area.Covers,le_def,hstart]
    omega
  · obtain ⟨hstart,hlt⟩ := hleft h2
    have hend := hright h3
    simp only [covered_cons,not_covered_nil,or_false,Area.Covers,le_def,hstart,hend]
    omega

theorem covered_removeRange_iff (hs : Sorted xs) :
    Covered (removeRange start end_ xs) x ↔
      Covered xs x ∧ ¬ ∃ a∈xs, a.Covers start ∧ a.Covers x ∧ start≤x ∧ x≤end_ := by
  by_cases hc : Covered xs start
  · obtain ⟨a,rest,hback,hlo⟩ := (covered_start_iff hs).mp hc
    have hsplit : xs=front start xs++a::rest := by
      rw [← hback,front_append_back]
    obtain ⟨-,hsort,-⟩ := sorted_append.mp (hsplit ▸ hs)
    obtain ⟨-,-,hrest⟩ := sorted_cons.mp hsort
    have hhi : start≤a.end_ := BitVec.not_lt.mp (not_end_lt_of_back hback)
    have hmem : a∈xs := by rw [hsplit]; simp
    -- only `a` contains the start, so only `a` loses addresses
    have hcut : (∃ b∈xs, b.Covers start ∧ b.Covers x ∧ start≤x ∧ x≤end_) ↔
        a.Covers x ∧ start≤x ∧ x≤end_ := by
      constructor
      · rintro ⟨b,hb,hbs,hbx⟩
        have hone := (hc.unique hs).unique ⟨hb,hbs⟩ ⟨hmem,hlo,hhi⟩
        rwa [← hone]
      · intro hax
        exact ⟨a,hmem,⟨hlo,hhi⟩,hax⟩
    have hxs : Covered xs x ↔ Covered (front start xs) x ∨ a.Covers x ∨ Covered rest x := by
      conv_lhs => rw [hsplit,covered_append,covered_cons]
    have hbefore : Covered (front start xs) x → ¬ start≤x := by
      rintro ⟨b,hb,-,hbx⟩ hx
      exact BitVec.not_le.mpr (end_lt_of_mem_front hb) (BitVec.le_trans hx hbx)
    have hafter : Covered rest x → ¬ a.Covers x := by
      rintro ⟨b,hb,hbx,-⟩ ⟨-,hx⟩
      exact BitVec.not_le.mpr (hrest b hb) (BitVec.le_trans hbx hx)
    rw [hcut,removeRange,hback]
    simp only [gt_iff_lt,if_neg (BitVec.not_lt.mpr hlo),covered_append,
      covered_remainders hr hlo hhi,hxs]
    tauto
  · rw [removeRange_eq_self hs hc]
    refine ⟨fun hx => ⟨hx,?_⟩,And.left⟩
    rintro ⟨a,ha,has,-⟩
    exact hc ⟨a,ha,has⟩

/-- Every area behind a removal is a part of one before it, with the same access and flags. -/
theorem removeRange_source (hs : Sorted xs) {b : Area}
    (hb : b∈removeRange start end_ xs) :
    ∃ a∈xs, a.start≤b.start ∧ b.end_≤a.end_ ∧ b.access=a.access ∧ b.flags=a.flags := by
  have hself (h : b∈xs) :
      ∃ a∈xs, a.start≤b.start ∧ b.end_≤a.end_ ∧ b.access=a.access ∧ b.flags=a.flags :=
    ⟨b,h,BitVec.le_refl _,BitVec.le_refl _,rfl,rfl⟩
  rw [removeRange] at hb
  split at hb
  · exact hself hb
  · rename_i a rest hback
    have hsplit : xs=front start xs++a::rest := by
      rw [← hback,front_append_back]
    split_ifs at hb with hgt
    · exact hself hb
    · simp only [mem_append] at hb
      rcases hb with (hb | hb) | hb
      · exact hself (by rw [hsplit]; simp [hb])
      · have ha : a∈xs := by rw [hsplit]; simp
        have hlo : a.start ≤ start := BitVec.not_lt.mp hgt
        have hhi : start≤a.end_ := BitVec.not_lt.mp (not_end_lt_of_back hback)
        obtain ⟨h1,h2⟩ := (remainders_spec (hs.valid a ha) hr hlo hhi).2 b hb
        obtain ⟨h3,h4⟩ := remainders_attributes hb
        exact ⟨a,ha,h1,h2,h3,h4⟩
      · exact hself (by rw [hsplit]; simp [hb])

end Range

section Page

variable (hs : Sorted xs) (hr : ValidRange start end_) (hpage : end_.toNat = start.toNat + 4095)
include hs hr hpage

omit hs in
private theorem page_inside (ha : ValidRange a.start a.end_) (hx : a.Covers x) (hlo : start≤x)
    (hhi : x≤end_) : a.start ≤ start ∧ end_≤a.end_ := by
  obtain ⟨-,ha2,ha3⟩ := ha
  obtain ⟨-,hr2,-⟩ := hr
  obtain ⟨hx1,hx2⟩ := hx
  simp only [le_def] at *
  omega

/-- A page lies in one area, so its removal uncovers all of it. -/
theorem covered_removeRange :
    Covered (removeRange start end_ xs) x ↔ Covered xs x ∧ ¬ (start≤x ∧ x≤end_) := by
  rw [covered_removeRange_iff hr hs]
  refine and_congr_right fun hx => not_congr ?_
  constructor
  · rintro ⟨a,-,-,-,hin⟩
    exact hin
  · rintro ⟨hlo,hhi⟩
    obtain ⟨a,ha,hax⟩ := hx
    obtain ⟨h1,h2⟩ := page_inside hr hpage (hs.valid a ha) hax hlo hhi
    exact ⟨a,ha,⟨h1,BitVec.le_trans hr.le h2⟩,hax,hlo,hhi⟩

end Page

/-- After `vma_remove` the list covers what it covered before, without the part of the range that
lies in the area containing its start; every address still covered keeps its access and flags. -/
theorem vmaRemove_covers {s s' : Store} {ls : Nat → List (Haddr × Area)} (hc : Consistent s ls)
    (l : Nat) (answer : SlabAnswer) (hv : ValidRange start end_)
    (hrun : vmaRemove answer (some l) start end_ s = some (true, s')) :
    ∃ zs, Consistent s' (update ls l zs) ∧
      ∀ x, (Covered (areas zs) x ↔ Covered (areas (ls l)) x ∧
          ¬ ∃ a ∈ areas (ls l), a.Covers start ∧ a.Covers x ∧ start ≤ x ∧ x ≤ end_) ∧
        ∀ b ∈ areas zs, b.Covers x →
          ∃ a ∈ areas (ls l), a.Covers x ∧ b.access = a.access ∧ b.flags = a.flags := by
  have hs := hc.sorted l
  rcases vmaRemove_spec hc.represents l answer start end_ with
    ⟨hfail,-⟩ | ⟨s'',zs,hrun',-,hr,hz,-⟩
  · simp [hfail] at hrun
  · obtain rfl : s''=s' := by simpa [hrun'] using hrun
    refine ⟨zs,hc.update hr (hz ▸ hs.removeRange hv),fun x => ⟨?_,?_⟩⟩
    · rw [hz]
      exact covered_removeRange_iff hv hs
    · rintro b hb ⟨hbx1,hbx2⟩
      rw [hz] at hb
      obtain ⟨a,ha,h1,h2,hattr⟩ := removeRange_source hv hs hb
      exact ⟨a,ha,⟨BitVec.le_trans h1 hbx1,BitVec.le_trans hbx2 h2⟩,hattr⟩

def fourPages : Area := ⟨0x1000, 0x4fff, 3, 1, 0⟩

def fourPagesStore : Store :=
  ⟨update (fun _ => none) 1 (some ⟨fourPages, NULL, NULL⟩),update (fun _ => NULL) 0 1⟩

def fourPagesLists : Nat → List (Haddr × Area) := update (fun _ => []) 0 [(1, fourPages)]

theorem fourPages_sorted : Sorted [fourPages] :=
  sorted_cons.mpr ⟨(vmaRangeValid_iff _ _).mp (by decide),⟨by simp,.nil⟩,by simp⟩

theorem fourPagesStore_consistent : Consistent fourPagesStore fourPagesLists := by
  have hother {l : Nat} (hl : l≠0) :
      fourPagesStore.heads l=NULL ∧ fourPagesLists l=[] := by
    simp [fourPagesStore,fourPagesLists,hl]
  have hzero : fourPagesLists 0=[(1, fourPages)] := by simp [fourPagesLists]
  refine ⟨⟨fun l => ?_,fun l l' hne => ?_,fun q hq => ?_⟩,fun l => ?_⟩
  · by_cases hl : l=0
    · subst hl
      rw [hzero]
      exact ⟨⟨rfl,NULL,by simp [fourPagesStore],rfl⟩,by decide⟩
    · obtain ⟨hhead,hlist⟩ := hother hl
      rw [hlist]
      exact ⟨hhead,by simp⟩
  · by_cases hl : l=0
    · rw [(hother fun h => hne (hl.trans h.symm)).2]
      simp
    · rw [(hother hl).2]
      simp
  · refine ⟨0,?_⟩
    rw [hzero]
    by_contra hq1
    have hne : q≠1 := by simpa using hq1
    apply hq
    change update (fun _ => none) 1 _ q=none
    rw [update_of_ne hne]
  · by_cases hl : l=0
    · subst hl
      rw [hzero]
      exact fourPages_sorted
    · rw [(hother hl).2]
      exact ⟨by simp,.nil⟩

theorem vmaRemove_covers_split :
    ∃ s', vmaRemove (.grant 2) (some 0) 0x2000 0x2fff fourPagesStore = some (true, s') ∧
      ∃ zs, Consistent s' (update fourPagesLists 0 zs) ∧
        ¬ Covered (areas zs) 0x2000 ∧ Covered (areas zs) 0x3000 := by
  have hlist : areas (fourPagesLists 0)=[fourPages] := rfl
  have hgrant : Grants (.grant 2) fourPagesStore :=
    ⟨2,rfl,by decide,by simp [fourPagesStore]⟩
  have hv : ValidRange 0x2000 0x2fff := (vmaRangeValid_iff _ _).mp (by decide)
  rcases vmaRemove_spec fourPagesStore_consistent.represents 0 (.grant 2) 0x2000 0x2fff with
    ⟨-,hinvalid | hno⟩ | ⟨s',-,hrun,-⟩
  · exact absurd hv hinvalid
  · exact absurd hgrant hno.2
  · refine ⟨s',hrun,?_⟩
    obtain ⟨zs,hc,hcov⟩ := vmaRemove_covers fourPagesStore_consistent 0 (.grant 2) hv hrun
    refine ⟨zs,hc,?_,?_⟩
    · rw [(hcov 0x2000).1,hlist]
      simp [Covered,Area.Covers,fourPages]
    · rw [(hcov 0x3000).1,hlist]
      simp [Covered,Area.Covers,fourPages]

end Hojicha.Vma
