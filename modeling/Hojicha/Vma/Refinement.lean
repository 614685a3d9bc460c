import Hojicha.Vma.Links

/-! # The linked lists refine lists of areas -/

namespace Hojicha.Vma

open Framework List Function

variable {s s' : Store} {ls : Nat → List (Haddr × Area)} {l : Nat} {xs ys : List (Haddr × Area)}
  {answer : SlabAnswer} {y : Haddr × Area}

def areas (xs : List (Haddr × Area)) : List Area := xs.map Prod.snd

/-- The store holds the lists `ls`, with disjoint nodes, and no other node. -/
structure Represents (s : Store) (ls : Nat → List (Haddr × Area)) : Prop where
  chain : ∀ l, Chain s l (ls l)
  apart : ∀ l l', l ≠ l' → List.Disjoint (ptrs (ls l)) (ptrs (ls l'))
  owned : ∀ q, s.nodes q ≠ none → ∃ l, q ∈ ptrs (ls l)

def Grants (answer : SlabAnswer) (s : Store) : Prop :=
  ∃ p, answer = .grant p ∧ p ≠ NULL ∧ s.nodes p = none

@[simp] theorem areas_nil : areas []=[] := rfl

@[simp] theorem areas_append (xs ys : List (Haddr × Area)) :
    areas (xs++ys)=areas xs++areas ys := by
  simp [areas]

@[simp] theorem areas_cons (q : Haddr × Area) (xs : List (Haddr × Area)) :
    areas (q::xs)=q.2::areas xs := rfl

theorem Represents.empty : Represents .empty fun _ => [] :=
  ⟨fun _ => ⟨rfl,by simp⟩,fun _ _ _ => by simp,fun q hq => absurd rfl hq⟩

theorem Represents.node (hr : Represents s ls) {q : Haddr} (hq : q∈ptrs (ls l)) :
    s.nodes q≠none := by
  obtain ⟨x,hx,rfl⟩ := mem_map.mp hq
  obtain ⟨n,hn,-⟩ := (hr.chain l).linked.node hx
  simp [hn]

theorem Represents.update (hr : Represents s ls) {new : List (Haddr × Area)} {qs : List Haddr}
    (hc : Chain s' l new) (hw : WritesOnly s s' l qs)
    (hqs : ∀ q∈qs, q∈ptrs (ls l) ∨ s.nodes q=none)
    (hnew : ∀ q∈ptrs new, q∈ptrs (ls l) ∨ s.nodes q=none)
    (hown : ∀ q, q∈qs ∨ q∈ptrs (ls l) → s'.nodes q≠none → q∈ptrs new) :
    Represents s' (Function.update ls l new) := by
  have hother {l' : Nat} (hl' : l'≠l) {q : Haddr} (hq : q∈ptrs (ls l'))
      (hq' : q∈ptrs (ls l) ∨ s.nodes q=none) : False :=
    hq'.elim (fun h => hr.apart l' l hl' hq h) (hr.node hq)
  refine ⟨fun l' => ?_,fun l₁ l₂ hne => ?_,fun q hq => ?_⟩
  · by_cases hl' : l'=l
    · subst hl'
      simpa using hc
    · obtain ⟨hl1,hd1⟩ := hr.chain l'
      rw [update_of_ne hl']
      refine ⟨?_,hd1⟩
      rw [hw.heads l' hl']
      exact hl1.congr fun q hq => hw.nodes q fun h => hother hl' hq (hqs q h)
  · by_cases h1 : l₁=l <;> by_cases h2 : l₂=l
    · exact absurd (h1.trans h2.symm) hne
    · subst h1
      rw [update_self,update_of_ne h2]
      exact fun q hq1 hq2 => hother h2 hq2 (hnew q hq1)
    · subst h2
      rw [update_self,update_of_ne h1]
      exact fun q hq1 hq2 => hother h1 hq1 (hnew q hq2)
    · rw [update_of_ne h1,update_of_ne h2]
      exact hr.apart l₁ l₂ hne
  · by_cases hmem : q∈qs ∨ q∈ptrs (ls l)
    · exact ⟨l,by simpa using hown q hmem hq⟩
    · rw [not_or] at hmem
      rw [hw.nodes q hmem.1] at hq
      obtain ⟨l',hl'⟩ := hr.owned q hq
      have hne : l'≠l := by
        rintro rfl
        exact hmem.2 hl'
      exact ⟨l',by simpa [hne] using hl'⟩

theorem Chain.congr (hc : Chain s l xs) (hh : s'.heads l=s.heads l)
    (hm : ∀ q∈ptrs xs, s'.nodes q=s.nodes q) : Chain s' l xs :=
  ⟨hh ▸ hc.linked.congr hm,hc.distinct⟩

theorem slabCalloc_grants (h : Grants answer s) :
    ∃ p, p≠NULL ∧ s.nodes p=none ∧
      slabCalloc answer s=(p, s.put p zeroedNode) := by
  obtain ⟨p,rfl,hp0,hp⟩ := h
  exact ⟨p,hp0,hp,by simp [slabCalloc,hp0,hp]⟩

theorem slabCalloc_refuses (h : ¬ Grants answer s) :
    slabCalloc answer s=(NULL, s) := by
  cases answer with
  | refuse => rfl
  | grant p =>
    simp only [Grants,SlabAnswer.grant.injEq,exists_eq_left',not_and] at h
    simp only [slabCalloc,Option.isNone_iff_eq_none]
    rw [if_neg fun hp => h hp.1 hp.2]

theorem insertBefore_spec (hr : Represents s ls)
    (hl : ls l=xs++ys) (h : Grants answer s) (a : Area) :
    ∃ p s', insertBefore answer l (firstPtr ys) a s=some (true, s') ∧ s.nodes p=none ∧
      Represents s' (Function.update ls l (xs++(p, a)::ys)) ∧
      WritesOnly s s' l (p::ptrs (xs++ys)) := by
  obtain ⟨p,hp0,hp,hcalloc⟩ := slabCalloc_grants h
  have hpl : p∉ptrs (xs++ys) := fun hmem => hr.node (l := l) (hl ▸ hmem) hp
  have hc := hr.chain l
  rw [hl] at hc
  have hc1 : Chain (s.put p ⟨a,NULL,NULL⟩) l (xs++ys) :=
    hc.congr rfl fun q hq => put_nodes_of_ne _ _ _ fun heq => hpl (heq ▸ hq)
  obtain ⟨s',hrun,hc',hw⟩ := vmaLinkBefore_spec hc1 hp0 hpl (put_nodes_self ..)
  have hw0 : WritesOnly s (s.put p ⟨a,NULL,NULL⟩) l (p::ptrs (xs++ys)) :=
    ⟨fun _ _ => rfl,fun q hq => put_nodes_of_ne _ _ _ (by simp at hq; exact hq.1)⟩
  have hw' := hw0.trans hw
  refine ⟨p,s',?_,hp,hr.update hc' hw' ?_ ?_ ?_,hw'⟩
  · simp [insertBefore,hcalloc,hp0,Store.modify,zeroedNode,hrun]
  · intro q hq
    rcases mem_cons.mp hq with rfl | hq
    · exact .inr hp
    · exact .inl (hl ▸ hq)
  · intro q hq
    simp only [ptrs_append,ptrs_cons,mem_append,mem_cons] at hq
    rcases hq with hq | rfl | hq
    · exact .inl (by simp [hl,hq])
    · exact .inr hp
    · exact .inl (by simp [hl,hq])
  · intro q hq _
    rw [hl] at hq
    simp only [ptrs_append,ptrs_cons,mem_append,mem_cons] at hq ⊢
    tauto

theorem split_at (start : Haddr) (ps : List (Haddr × Area)) :
    ∃ xs ys, ps=xs++ys ∧ areas xs=front start (areas ps) ∧
      areas ys=back start (areas ps) := by
  refine ⟨ps.takeWhile fun q => q.2.end_<start,ps.dropWhile fun q => q.2.end_<start,
    takeWhile_append_dropWhile.symm,?_,?_⟩
  · simp only [areas,front,takeWhile_map]
    rfl
  · simp only [areas,back,dropWhile_map]
    rfl

theorem walkNext_spec (hc : Chain s l (xs++ys))
    (cond : Area → Bool) (hxs : ∀ a∈areas xs, cond a=true)
    (hys : ∀ a∈(areas ys).head?, cond a=false) :
    s.walkNext (fun n => cond n.data) (s.heads l)=some (firstPtr ys) := by
  obtain ⟨c,hx,hy⟩ := linked_append.mp hc.linked
  obtain rfl : c=firstPtr ys := hy.first_eq
  have hlen := length_lt_of_distinct hc.distinct
  have hd := hc.distinct
  rw [length_append] at hlen
  simp only [ptrs_append,nodup_cons,mem_append,not_or] at hd
  refine walk_linked hx (by omega) hd.1.1 ?_ ?_
  · intro q hq n hn
    obtain ⟨x,hx',rfl⟩ := mem_map.mp hq
    obtain ⟨n',hn',hdata⟩ := hx.node hx'
    obtain rfl : n'=n := Option.some.inj (hn'.symm.trans hn)
    rw [hdata]
    exact hxs x.2 (mem_map_of_mem hx')
  · cases ys with
    | nil => exact .inl rfl
    | cons y ys =>
      obtain ⟨-,r,hn,-⟩ := hy
      exact .inr ⟨_,hn,hys y.2 (by simp)⟩

/-- The loop of `vma_insert` stops at the first area that does not end in front of the new one;
its test for the end of the address space never holds. -/
private theorem insert_walk (hc : Chain s l (xs++ys)) {a : Area}
    (hxs : areas xs=front a.start (areas (xs++ys)))
    (hys : areas ys=back a.start (areas (xs++ys))) :
    s.walkNext (fun n => decide (n.data.end_<a.start) && n.data.end_ != HADDR_MAX) (s.heads l) =
      some (firstPtr ys) := by
  refine walkNext_spec hc (fun b => decide (b.end_<a.start) && b.end_ != HADDR_MAX) ?_ ?_
  · intro b hb
    rw [hxs] at hb
    have hlt := end_lt_of_mem_front hb
    have hne : b.end_≠HADDR_MAX := fun heq => not_HADDR_MAX_lt a.start (heq ▸ hlt)
    simp [hlt,hne]
  · intro b hb
    cases ys with
    | nil => simp at hb
    | cons y ys =>
      obtain rfl : y.2=b := by simpa using hb
      simp [not_end_lt_of_back hys.symm]

/-- `vma_insert` adds a node exactly when the list takes the area and the allocation succeeds;
otherwise it changes nothing. -/
theorem vmaInsert_spec (hr : Represents s ls) (l : Nat) (answer : SlabAnswer) (a : Area) :
    (vmaInsert answer (some l) a s=some (false, s) ∧
      ¬ (Grants answer s ∧ ∃ zs, insertArea a (areas (ls l))=some zs)) ∨
    ∃ p s' xs ys, vmaInsert answer (some l) a s=some (true, s') ∧ Grants answer s ∧
      ls l=xs++ys ∧ s.nodes p=none ∧
      Represents s' (Function.update ls l (xs++(p, a)::ys)) ∧
      insertArea a (areas (ls l))=some (areas (xs++(p, a)::ys)) ∧
      WritesOnly s s' l (p::ptrs (ls l)) := by
  by_cases hvalid : vmaRangeValid a.start a.end_=true
  swap
  · refine .inl ⟨by simp [vmaInsert,hvalid],?_⟩
    rintro ⟨-,zs,hz⟩
    simp [insertArea,hvalid] at hz
  obtain ⟨xs,ys,hl,hxs,hys⟩ := split_at a.start (ls l)
  have hc := hr.chain l
  rw [hl] at hc
  have hwalk := insert_walk hc (hl ▸ hxs) (hl ▸ hys)
  -- where the place is free, the answer of the allocator decides
  have hplace (hrun : vmaInsert answer (some l) a s=insertBefore answer l (firstPtr ys) a s)
      (hins : insertArea a (areas (ls l))=some (areas xs++a::areas ys)) :
      (vmaInsert answer (some l) a s=some (false, s) ∧
        ¬ (Grants answer s ∧ ∃ zs, insertArea a (areas (ls l))=some zs)) ∨
      ∃ p s' xs ys, vmaInsert answer (some l) a s=some (true, s') ∧ Grants answer s ∧
        ls l=xs++ys ∧ s.nodes p=none ∧
        Represents s' (update ls l (xs++(p, a)::ys)) ∧
        insertArea a (areas (ls l))=some (areas (xs++(p, a)::ys)) ∧
        WritesOnly s s' l (p::ptrs (ls l)) := by
    by_cases hg : Grants answer s
    · obtain ⟨p,s',hins',hp,hr',hw⟩ := insertBefore_spec hr hl hg a
      exact .inr ⟨p,s',xs,ys,hrun.trans hins',hg,hl,hp,hr',by simpa using hins,hl ▸ hw⟩
    · refine .inl ⟨?_,fun h => hg h.1⟩
      rw [hrun]
      simp [insertBefore,slabCalloc_refuses hg]
  cases ys with
  | nil =>
    refine hplace ?_ ?_
    · simp [vmaInsert,hvalid,hwalk,firstPtr]
    · simp [insertArea,hvalid,← hxs,← hys]
  | cons y ys =>
    obtain ⟨-,r,hn,-⟩ := (linked_append.mp hc.linked).choose_spec.2
    have hnot := not_end_lt_of_back hys.symm
    have hy0 : y.1≠NULL := fun h => by
      have hd := hc.distinct
      simp [h] at hd
    have hrun : vmaInsert answer (some l) a s =
        if vmaOverlaps y.2 a.start a.end_ then some (false, s)
        else insertBefore answer l y.1 a s := by
      simp [vmaInsert,hvalid,hwalk,firstPtr,hy0,hn,hnot]
    by_cases hov : vmaOverlaps y.2 a.start a.end_=true
    · refine .inl ⟨by simp [hrun,hov],?_⟩
      rintro ⟨-,zs,hz⟩
      simp [insertArea,← hys,hov] at hz
    · refine hplace ?_ ?_
      · simp [hrun,hov,firstPtr]
      · simp [insertArea,hvalid,← hxs,← hys,hov]

/-- The split of an area needs a node; the other removals do not. -/
def NeedsNode (start end_ : Haddr) (xs : List Area) : Prop :=
  ∃ a ∈ (back start xs).head?, ¬ a.start > start ∧ (remainders start end_ a).length = 2

private theorem remove_walk (hc : Chain s l (xs++ys))
    {start : Haddr} (hxs : areas xs=front start (areas (xs++ys)))
    (hys : areas ys=back start (areas (xs++ys))) :
    s.walkNext (fun n => decide (n.data.end_<start)) (s.heads l)=some (firstPtr ys) := by
  refine walkNext_spec hc (fun b => decide (b.end_<start)) ?_ ?_
  · intro b hb
    rw [hxs] at hb
    simpa using end_lt_of_mem_front hb
  · intro b hb
    cases ys with
    | nil => simp at hb
    | cons y ys =>
      obtain rfl : y.2=b := by simpa using hb
      simp [not_end_lt_of_back hys.symm]

section

variable (hr : Represents s ls) (hl : ls l = xs ++ y :: ys)
include hr hl

private theorem Represents.trim (g : Area → Area) :
    ∃ s', s.modify y.1 (fun n => { n with data := g n.data })=some s' ∧
      Represents s' (Function.update ls l (xs++(y.1, g y.2)::ys)) := by
  have hc := hr.chain l
  rw [hl] at hc
  obtain ⟨s',hrun,hc',hw⟩ := modify_data_spec hc g
  refine ⟨s',hrun,hr.update hc' hw ?_ ?_ ?_⟩ <;> rw [hl] <;> simp <;> tauto

private theorem Represents.unlink :
    ∃ s', vmaUnlink l y.1 s=some s' ∧ Represents s' (Function.update ls l (xs++ys)) := by
  have hc := hr.chain l
  rw [hl] at hc
  obtain ⟨s',hrun,hc',hnone,hw⟩ := vmaUnlink_spec hc
  refine ⟨s',hrun,hr.update hc' hw ?_ ?_ ?_⟩
  · intro q hq
    exact .inl (hl ▸ hq)
  · intro q hq
    rw [hl]
    simp only [ptrs_append,ptrs_cons,mem_append,mem_cons] at hq ⊢
    tauto
  · intro q hq hnode
    rw [hl] at hq
    simp only [ptrs_append,ptrs_cons,mem_append,mem_cons] at hq ⊢
    have hne : q≠y.1 := fun h => hnode (h ▸ hnone)
    tauto

private theorem splitArea_spec (hg : Grants answer s) (start removeEnd : Haddr) :
    ∃ p s', splitArea answer l y.1 start removeEnd s=some (true, s') ∧
      Represents s' (Function.update ls l (xs++(y.1, { y.2 with end_ := start - 1 }) ::
        (p, { y.2 with start := removeEnd + 1 })::ys)) := by
  obtain ⟨p,hp0,hp,hcalloc⟩ := slabCalloc_grants hg
  have hpl : p∉ptrs (ls l) := fun hmem => hr.node hmem hp
  have hc := hr.chain l
  rw [hl] at hc hpl
  obtain ⟨n,hn,hdata⟩ := hc.linked.node (q := y) (by simp)
  have hyp : y.1≠p := fun h => hpl (by simp [h])
  -- the new node, not yet linked
  obtain ⟨s2,hs2⟩ : ∃ s2, s2=s.put p ⟨{ y.2 with start := removeEnd+1 },NULL,NULL⟩ :=
    ⟨_,rfl⟩
  have hw2 : WritesOnly s s2 l [p] :=
    ⟨fun _ _ => by rw [hs2]; rfl,fun q hq => by rw [hs2,put_nodes_of_ne]; simpa using hq⟩
  have hc2 : Chain s2 l (xs++y::ys) :=
    hc.congr (by rw [hs2]; rfl) fun q hq => hw2.nodes q (by simp; rintro rfl; exact hpl hq)
  -- the front part in place
  obtain ⟨s3,hrun3,hc3,hw3⟩ := modify_data_spec hc2 fun a => { a with end_ := start-1 }
  have hc3' : Chain s3 l ((xs++[(y.1, { y.2 with end_ := start-1 })])++ys) := by
    simpa using hc3
  have hp3 : s3.nodes p=some ⟨{ y.2 with start := removeEnd+1 },NULL,NULL⟩ := by
    rw [hw3.nodes p (by simpa using hyp.symm),hs2,put_nodes_self]
  obtain ⟨s',hrun',hc',hw'⟩ := vmaLinkBefore_spec hc3' hp0 (by simpa using hpl) hp3
  have hnext : ∃ n3, s3.nodes y.1=some n3 ∧ n3.next=firstPtr ys := by
    obtain ⟨c,-,hy⟩ := linked_append.mp hc3.linked
    obtain ⟨-,r,hn3,hys⟩ := hy
    exact ⟨_,hn3,hys.first_eq⟩
  obtain ⟨n3,hn3,hnext⟩ := hnext
  have hw : WritesOnly s s' l (p::ptrs (xs++y::ys)) :=
    (hw2.mono (by simp)).trans ((hw3.mono (by simp)).trans (hw'.mono (by simp)))
  refine ⟨p,s',?_,hr.update (by simpa using hc') hw ?_ ?_ ?_⟩
  · have hstep : (s.put p zeroedNode).modify p
        (fun m => { m with data := { n.data with start := removeEnd+1 } })=some s2 := by
      simp [Store.modify,zeroedNode,hs2,hdata]
    have hrun3' : s2.setEnd y.1 (start-1)=some s3 := hrun3
    simp only [splitArea,hcalloc,hp0,if_false,put_nodes_of_ne _ _ _ hyp,hn,
      Option.bind_eq_bind,Option.bind_some,hstep,hrun3',hn3,hnext,hrun']
    rfl
  · rw [hl]
    intro q hq
    rcases mem_cons.mp hq with rfl | hq
    · exact .inr hp
    · exact .inl hq
  · rw [hl]
    intro q hq
    simp only [ptrs_append,ptrs_cons,mem_append,mem_cons] at hq ⊢
    rcases hq with hq | hq | rfl | hq
    · exact .inl (.inl hq)
    · exact .inl (.inr (.inl hq))
    · exact .inr hp
    · exact .inl (.inr (.inr hq))
  · rw [hl]
    intro q hq _
    simp only [ptrs_append,ptrs_cons,mem_append,mem_cons] at hq ⊢
    tauto

end

/-- `vma_remove` removes the range from the area that contains its start. It fails, and changes
nothing, when the range is not valid or a needed node is not granted. -/
theorem vmaRemove_spec (hr : Represents s ls) (l : Nat) (answer : SlabAnswer)
    (start end_ : Haddr) :
    (vmaRemove answer (some l) start end_ s=some (false, s) ∧
      (¬ ValidRange start end_ ∨ NeedsNode start end_ (areas (ls l)) ∧ ¬ Grants answer s)) ∨
    ∃ s' zs, vmaRemove answer (some l) start end_ s=some (true, s') ∧
      ValidRange start end_ ∧ Represents s' (Function.update ls l zs) ∧
      areas zs=removeRange start end_ (areas (ls l)) ∧
      (NeedsNode start end_ (areas (ls l)) → Grants answer s) := by
  by_cases hv : ValidRange start end_
  swap
  · have hvalid := (vmaRangeValid_iff start end_).not.mpr hv
    exact .inl ⟨by simp [vmaRemove,hvalid],.inl hv⟩
  have hvalid := (vmaRangeValid_iff _ _).mpr hv
  obtain ⟨xs,ys,hl,hxs,hys⟩ := split_at start (ls l)
  have hc := hr.chain l
  rw [hl] at hc
  have hwalk := remove_walk hc (hl ▸ hxs) (hl ▸ hys)
  have hself : Represents s (update ls l (ls l)) := by
    rwa [update_eq_self]
  cases ys with
  | nil =>
    refine .inr ⟨s,ls l,?_,hv,hself,?_,?_⟩
    · simp [vmaRemove,hvalid,hwalk,firstPtr]
    · simp [removeRange,← hys]
    · simp [NeedsNode,← hys]
  | cons y ys =>
    obtain ⟨n,hn,hdata⟩ := hc.linked.node (q := y) (by simp)
    have hy0 : y.1≠NULL := fun h => by
      have hd := hc.distinct
      simp [h] at hd
    have hneeds : NeedsNode start end_ (areas (ls l)) ↔
        ¬ y.2.start > start ∧ (remainders start end_ y.2).length=2 := by
      simp [NeedsNode,← hys]
    by_cases hgt : y.2.start > start
    · refine .inr ⟨s,ls l,?_,hv,hself,?_,fun h => absurd hgt (hneeds.mp h).1⟩
      · simp [vmaRemove,hvalid,hwalk,firstPtr,hy0,hn,hdata,hgt]
      · simp [removeRange,← hys,hgt]
    have hrem : removeRange start end_ (areas (ls l)) =
        areas xs++remainders start end_ y.2++areas ys := by
      simp [removeRange,← hys,← hxs,hgt]
    obtain ⟨re,hre⟩ : ∃ re, (if end_<y.2.end_ then end_ else y.2.end_)=re := ⟨_,rfl⟩
    have hrun : vmaRemove answer (some l) start end_ s =
        if start=y.2.start ∧ re=y.2.end_ then (vmaUnlink l y.1 s).bind fun s => some (true, s)
        else if start=y.2.start then
          (s.setStart y.1 (re+1)).bind fun s => some (true, s)
        else if re=y.2.end_ then (s.setEnd y.1 (start-1)).bind fun s => some (true, s)
        else splitArea answer l y.1 start re s := by
      simp only [vmaRemove,hvalid,hwalk,firstPtr,ptrs_cons,head?_cons,Option.getD_some,
        Bool.not_true,Bool.false_eq_true,if_false,Option.bind_eq_bind,Option.bind_some,hy0,hn,
        hdata,hgt,hre]
      rfl
    have hpieces : remainders start end_ y.2 =
        if start=y.2.start ∧ re=y.2.end_ then []
        else if start=y.2.start then [{ y.2 with start := re+1 }]
        else if re=y.2.end_ then [{ y.2 with end_ := start-1 }]
        else [{ y.2 with end_ := start-1 },{ y.2 with start := re+1 }] := by
      simp only [remainders,hre]
    rw [hrun,hrem,hneeds]
    by_cases h1 : start=y.2.start ∧ re=y.2.end_
    · obtain ⟨s',hs',hr'⟩ := hr.unlink hl
      rw [if_pos h1] at hpieces
      refine .inr ⟨s',xs++ys,by simp [h1,hs'],hv,hr',?_,?_⟩
      · rw [hpieces]
        simp
      · simp [hpieces]
    rw [if_neg h1] at hpieces ⊢
    by_cases h2 : start=y.2.start
    · obtain ⟨s',hs',hr'⟩ := hr.trim hl fun a => { a with start := re+1 }
      rw [if_pos h2] at hpieces
      refine .inr ⟨s',_,?_,hv,hr',?_,?_⟩
      · rw [if_pos h2,Store.setStart,hs']
        rfl
      · rw [hpieces]
        simp
      · simp [hpieces]
    rw [if_neg h2] at hpieces ⊢
    by_cases h3 : re=y.2.end_
    · obtain ⟨s',hs',hr'⟩ := hr.trim hl fun a => { a with end_ := start-1 }
      rw [if_pos h3] at hpieces
      refine .inr ⟨s',_,?_,hv,hr',?_,?_⟩
      · rw [if_pos h3,Store.setEnd,hs']
        rfl
      · rw [hpieces]
        simp
      · simp [hpieces]
    rw [if_neg h3] at hpieces ⊢
    by_cases hg : Grants answer s
    · obtain ⟨p,s',hs',hr'⟩ := splitArea_spec hr hl hg start re
      refine .inr ⟨s',_,hs',hv,hr',?_,fun _ => hg⟩
      rw [hpieces]
      simp
    · refine .inl ⟨by simp [splitArea,slabCalloc_refuses hg],.inr ⟨⟨hgt,?_⟩,hg⟩⟩
      rw [hpieces]
      rfl

end Hojicha.Vma
