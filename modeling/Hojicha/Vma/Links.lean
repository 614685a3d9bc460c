import Hojicha.Vma.Areas

/-! # Editing the links -/

namespace Hojicha.Vma

open Framework List

variable {s : Store} {l : Nat} {xs ys : List (Haddr × Area)} {p : Haddr} {d : Area}

def firstPtr (xs : List (Haddr × Area)) : Haddr := ((ptrs xs).head?).getD NULL

/-- The list that starts at the head variable `l`: linked both ways, through distinct nodes. -/
structure Chain (s : Store) (l : Nat) (xs : List (Haddr × Area)) : Prop where
  linked : Linked s.nodes NULL (s.heads l) xs NULL
  distinct : (NULL :: ptrs xs).Nodup

structure WritesOnly (s s' : Store) (l : Nat) (qs : List Haddr) : Prop where
  heads : ∀ l', l' ≠ l → s'.heads l' = s.heads l'
  nodes : ∀ q, q ∉ qs → s'.nodes q = s.nodes q

theorem WritesOnly.trans {s' s'' : Store} {qs : List Haddr} (h₁ : WritesOnly s s' l qs)
    (h₂ : WritesOnly s' s'' l qs) : WritesOnly s s'' l qs :=
  ⟨fun l' hl => (h₂.heads l' hl).trans (h₁.heads l' hl),
    fun q hq => (h₂.nodes q hq).trans (h₁.nodes q hq)⟩

theorem WritesOnly.mono {s' : Store} {qs qs' : List Haddr} (h : WritesOnly s s' l qs)
    (hq : qs ⊆ qs') : WritesOnly s s' l qs' :=
  ⟨h.heads,fun q hq' => h.nodes q fun hmem => hq' (hq hmem)⟩

theorem length_lt_of_distinct (hd : (NULL::ptrs xs).Nodup) : xs.length<2 ^ 64 := by
  have hinj : Function.Injective (BitVec.toNat : Haddr → Nat) := fun a b h => BitVec.eq_of_toNat_eq h
  have hnd := hd.map hinj
  have hsub : (NULL::ptrs xs).map BitVec.toNat ⊆ List.range (2 ^ 64) := by
    intro n hn
    obtain ⟨a,-,rfl⟩ := mem_map.mp hn
    exact mem_range.mpr a.isLt
  have hlen := (hnd.subperm hsub).length_le
  simp only [length_map,length_cons,length_range,ptrs] at hlen
  omega

section Writes

variable (s p) (n : Node Haddr Area)

@[simp] theorem put_heads : (s.put p n).heads=s.heads := rfl

@[simp] theorem put_nodes_self : (s.put p n).nodes p=some n := by simp [Store.put]

theorem put_nodes_of_ne {q : Haddr} (hq : q≠p) : (s.put p n).nodes q=s.nodes q := by
  simp [Store.put,hq]

@[simp] theorem put_put (n' : Node Haddr Area) : (s.put p n).put p n'=s.put p n' := by
  simp [Store.put]

@[simp] theorem setHead_nodes (l : Nat) : (s.setHead l p).nodes=s.nodes := rfl

@[simp] theorem setHead_self (l : Nat) : (s.setHead l p).heads l=p := by simp [Store.setHead]

theorem setHead_of_ne {l l' : Nat} (hl : l'≠l) : (s.setHead l p).heads l'=s.heads l' := by
  simp [Store.setHead,hl]

end Writes

private theorem walk_to_tail {t : Haddr × Area} (hc : Chain s l (xs++[t])) :
    s.walkNext (fun n => n.next != NULL) (s.heads l)=some t.1 := by
  obtain ⟨hxs,ht⟩ := linked_concat.mp hc.linked
  have hlen := length_lt_of_distinct hc.distinct
  have hd := hc.distinct
  simp only [ptrs_append,nodup_cons,mem_append,not_or] at hd
  refine walk_linked hxs (by simp at hlen; omega) hd.1.1 ?_ (.inr ⟨_,ht,by simp⟩)
  intro q hq n hn
  have hnext := hxs.next_mem hq hn
  simp only [bne_iff_ne,ne_eq]
  rintro h0
  rcases hnext with h | h
  · exact hd.1.1 (h0 ▸ h)
  · exact hd.1.2 (by simp [← h0,h])

private theorem linkLast_spec (hc : Chain s l xs) (hp : p∉ptrs xs)
    (hn : s.nodes p=some ⟨d, NULL, NULL⟩) :
    ∃ s', vmaLinkBefore l NULL p s=some s' ∧
      Linked s'.nodes NULL (s'.heads l) (xs++[(p, d)]) NULL ∧
      WritesOnly s s' l (p::ptrs xs) := by
  rcases eq_nil_or_concat' xs with rfl | ⟨zs,t,rfl⟩
  · have hhead : s.heads l=NULL := hc.linked
    refine ⟨s.setHead l p,by simp [vmaLinkBefore,hhead],?_,?_,fun q _ => rfl⟩
    · simp [hn]
    · exact fun l' hl' => setHead_of_ne s p hl'
  · obtain ⟨hzs,ht⟩ := linked_concat.mp hc.linked
    have htail := walk_to_tail hc
    have hd := hc.distinct
    simp only [ptrs_append,ptrs_cons,ptrs_nil,nodup_cons,mem_append,
      mem_singleton,not_or,nodup_append] at hd hp
    have htp : p≠t.1 := hp.2
    have hhead : s.heads l≠NULL := by
      rw [hzs.first_eq]
      cases zs with
      | nil => exact fun h => hd.1.2 h.symm
      | cons q zs => exact fun h => hd.1.1 (by simp at h; simp [h])
    refine ⟨(s.put t.1 ⟨t.2,p,lastPtr NULL zs⟩).put p ⟨d,NULL,t.1⟩,?_,?_,fun _ _ => rfl,?_⟩
    · simp [vmaLinkBefore,hhead,htail,Store.setNext,Store.setPrev,Store.modify,ht,
        put_nodes_of_ne _ _ _ htp,hn]
    · refine linked_concat.mpr ⟨linked_concat.mpr ⟨hzs.congr fun q hq => ?_,?_⟩,?_⟩
      · have hqt : q≠t.1 := hd.2.2.2 q hq t.1 rfl
        have hqp : q≠p := fun h => hp.1 (h ▸ hq)
        rw [put_nodes_of_ne _ _ _ hqp,put_nodes_of_ne _ _ _ hqt]
      · rw [put_nodes_of_ne _ _ _ htp.symm,put_nodes_self]
      · simp
    · intro q hq
      simp only [mem_cons,ptrs_append,mem_append,not_or,ptrs_cons] at hq
      rw [put_nodes_of_ne _ _ _ hq.1,put_nodes_of_ne _ _ _ hq.2.2.1]

private theorem linkFront_spec {q : Haddr × Area} (hc : Chain s l (xs++q::ys))
    (hp : p∉ptrs (xs++q::ys)) (hn : s.nodes p=some ⟨d, NULL, NULL⟩) :
    ∃ s', vmaLinkBefore l q.1 p s=some s' ∧
      Linked s'.nodes NULL (s'.heads l) (xs++(p, d)::q::ys) NULL ∧
      WritesOnly s s' l (p::ptrs (xs++q::ys)) := by
  obtain ⟨c,hxs,rfl,r,hq,hys⟩ := linked_append.mp hc.linked
  have hd := hc.distinct
  simp only [ptrs_append,ptrs_cons,nodup_cons,mem_append,mem_cons,not_or,nodup_append] at hd hp
  have hq0 : q.1≠NULL := fun h => hd.1.2.1 h.symm
  have hpq : p≠q.1 := hp.2.1
  -- the nodes behind the new one, whatever is written in front of it
  have htail (m : NodeHeap Haddr Area) (hmp : m p=some ⟨d,q.1,lastPtr NULL xs⟩)
      (hmq : m q.1=some ⟨q.2,r,p⟩) (hm : ∀ a∈ptrs ys, m a=s.nodes a) :
      Linked m (lastPtr NULL xs) p ((p, d)::q::ys) NULL :=
    ⟨rfl,q.1,hmp,rfl,r,hmq,hys.congr hm⟩
  have hys' : ∀ a∈ptrs ys, a≠p ∧ a≠q.1 := fun a ha =>
    ⟨fun h => hp.2.2 (h ▸ ha),fun h => hd.2.2.1.1 (h ▸ ha)⟩
  rcases eq_nil_or_concat' xs with rfl | ⟨zs,t,rfl⟩
  · refine ⟨((s.put p ⟨d,q.1,NULL⟩).put q.1 ⟨q.2,r,p⟩).setHead l p,?_,?_,
      fun l' hl' => setHead_of_ne _ _ hl',fun a ha => ?_⟩
    · simp [vmaLinkBefore,hq0,Store.setNext,Store.setPrev,Store.modify,hn,hq,lastPtr,
        put_nodes_of_ne _ _ _ hpq,put_nodes_of_ne _ _ _ hpq.symm]
    · rw [setHead_self]
      refine htail _ ?_ (put_nodes_self ..) fun a ha => ?_
      · rw [setHead_nodes,put_nodes_of_ne _ _ _ hpq,put_nodes_self]
        rfl
      · rw [setHead_nodes,put_nodes_of_ne _ _ _ (hys' a ha).2,put_nodes_of_ne _ _ _ (hys' a ha).1]
    · simp only [mem_cons,not_or,nil_append,ptrs_cons] at ha
      rw [setHead_nodes,put_nodes_of_ne _ _ _ ha.2.1,put_nodes_of_ne _ _ _ ha.1]
  · obtain ⟨hzs,ht⟩ := linked_concat.mp hxs
    simp only [ptrs_append,ptrs_cons,mem_append,mem_singleton,ptrs_nil,nodup_append] at hd hp
    have ht0 : t.1≠NULL := fun h => hd.1.1 (by simp [h])
    have htp : t.1≠p := fun h => hp.1 (by simp [h])
    have htq : t.1≠q.1 := hd.2.2.2 t.1 (by simp) q.1 (by simp)
    refine ⟨((s.put p ⟨d,q.1,t.1⟩).put q.1 ⟨q.2,r,p⟩).put t.1 ⟨t.2,p,lastPtr NULL zs⟩,
      ?_,?_,fun _ _ => rfl,fun a ha => ?_⟩
    · simp [vmaLinkBefore,hq0,Store.setNext,Store.setPrev,Store.modify,hn,hq,ht0,ht,
        put_nodes_of_ne _ _ _ hpq,put_nodes_of_ne _ _ _ hpq.symm,put_nodes_of_ne _ _ _ htp,
        put_nodes_of_ne _ _ _ htq]
    · refine linked_append.mpr ⟨p,linked_concat.mpr ⟨hzs.congr fun a ha => ?_,?_⟩,
        htail _ ?_ ?_ fun a ha => ?_⟩
      · have hat : a≠t.1 := hd.2.1.2.2 a ha t.1 rfl
        have haq : a≠q.1 := hd.2.2.2 a (by simp [ha]) q.1 (by simp)
        have hap : a≠p := fun h => hp.1 (by simp [← h,ha])
        rw [put_nodes_of_ne _ _ _ hat,put_nodes_of_ne _ _ _ haq,put_nodes_of_ne _ _ _ hap]
      · simp
      · rw [put_nodes_of_ne _ _ _ htp.symm,put_nodes_of_ne _ _ _ hpq,put_nodes_self]
        simp
      · rw [put_nodes_of_ne _ _ _ htq.symm,put_nodes_self]
      · have hat : a≠t.1 := fun h => hd.2.2.2 t.1 (by simp) a (by simp [ha]) h.symm
        rw [put_nodes_of_ne _ _ _ hat,put_nodes_of_ne _ _ _ (hys' a ha).2,
          put_nodes_of_ne _ _ _ (hys' a ha).1]
    · simp only [mem_cons,ptrs_append,mem_append,not_or,ptrs_cons] at ha
      rw [put_nodes_of_ne _ _ _ ha.2.1.2.1,put_nodes_of_ne _ _ _ ha.2.2.1,
        put_nodes_of_ne _ _ _ ha.1]

theorem vmaLinkBefore_spec (hc : Chain s l (xs++ys)) (hp0 : p≠NULL)
    (hp : p∉ptrs (xs++ys)) (hn : s.nodes p=some ⟨d, NULL, NULL⟩) :
    ∃ s', vmaLinkBefore l (firstPtr ys) p s=some s' ∧ Chain s' l (xs++(p, d)::ys) ∧
      WritesOnly s s' l (p::ptrs (xs++ys)) := by
  have hdist : (NULL::ptrs (xs++(p, d)::ys)).Nodup := by
    have hd := hc.distinct
    simp only [ptrs_append,ptrs_cons] at hd hp ⊢
    rw [← cons_append,nodup_middle,cons_append,nodup_cons]
    refine ⟨?_,hd⟩
    simpa using ⟨hp0,by simpa using hp⟩
  cases ys with
  | nil =>
    obtain ⟨s',hrun,hl,hw⟩ := linkLast_spec (by simpa using hc) (by simpa using hp) hn
    exact ⟨s',hrun,⟨hl,hdist⟩,by simpa using hw⟩
  | cons q ys =>
    obtain ⟨s',hrun,hl,hw⟩ := linkFront_spec hc hp hn
    exact ⟨s',hrun,⟨hl,hdist⟩,hw⟩

private theorem unlinkForward_spec {q : Haddr × Area} (hc : Chain s l (xs++q::ys)) :
    ∃ s' r, unlinkForward l q.1 s=some s' ∧ Linked s'.nodes NULL (s'.heads l) xs r ∧
      s'.nodes q.1=some ⟨q.2, r, lastPtr NULL xs⟩ ∧ Linked s'.nodes q.1 r ys NULL ∧
      WritesOnly s s' l (ptrs xs) := by
  obtain ⟨c,hxs,rfl,r,hq,hys⟩ := linked_append.mp hc.linked
  have hd := hc.distinct
  simp only [ptrs_append,ptrs_cons,nodup_cons,mem_append,mem_cons,not_or,nodup_append] at hd
  rcases eq_nil_or_concat' xs with rfl | ⟨zs,t,rfl⟩
  · refine ⟨s.setHead l r,r,?_,by simp,hq,hys,fun l' hl' => setHead_of_ne _ _ hl',fun _ _ => rfl⟩
    simp [unlinkForward,hq,lastPtr]
  · obtain ⟨hzs,ht⟩ := linked_concat.mp hxs
    simp only [ptrs_append,ptrs_cons,mem_append,mem_singleton,ptrs_nil,nodup_append] at hd
    have ht0 : t.1≠NULL := fun h => hd.1.1 (by simp [h])
    have htq : t.1≠q.1 := hd.2.2.2 t.1 (by simp) q.1 (by simp)
    refine ⟨s.put t.1 ⟨t.2,r,lastPtr NULL zs⟩,r,?_,linked_concat.mpr ⟨?_,by simp⟩,?_,?_,
      fun _ _ => rfl,fun a ha => ?_⟩
    · simp [unlinkForward,hq,ht0,Store.setNext,Store.modify,ht]
    · refine hzs.congr fun a ha => put_nodes_of_ne _ _ _ ?_
      exact hd.2.1.2.2 a ha t.1 rfl
    · rw [put_nodes_of_ne _ _ _ htq.symm,hq]
    · refine hys.congr fun a ha => put_nodes_of_ne _ _ _ ?_
      exact fun h => hd.2.2.2 t.1 (by simp) a (by simp [ha]) h.symm
    · refine put_nodes_of_ne _ _ _ fun h => ha ?_
      simp [h]

private theorem unlinkBackward_spec {q : Haddr × Area} {r : Haddr}
    (hd : (NULL::ptrs (xs++q::ys)).Nodup) (hxs : Linked s.nodes NULL (s.heads l) xs r)
    (hq : s.nodes q.1=some ⟨q.2, r, lastPtr NULL xs⟩) (hys : Linked s.nodes q.1 r ys NULL) :
    ∃ s', unlinkBackward q.1 s=some s' ∧ Linked s'.nodes NULL (s'.heads l) (xs++ys) NULL ∧
      WritesOnly s s' l (ptrs ys) := by
  simp only [ptrs_append,ptrs_cons,nodup_cons,mem_append,mem_cons,not_or,nodup_append] at hd
  cases ys with
  | nil =>
    obtain rfl : r=NULL := hys
    refine ⟨s,by simp [unlinkBackward,hq],by simpa using hxs,fun _ _ => rfl,fun _ _ => rfl⟩
  | cons p ys =>
    obtain ⟨rfl,r',hp,hys⟩ := hys
    simp only [ptrs_cons,mem_cons,not_or,nodup_cons] at hd
    have hp0 : p.1≠NULL := fun h => hd.1.2.2.1 h.symm
    have hpq : p.1≠q.1 := fun h => hd.2.2.1.1.1 h.symm
    refine ⟨s.put p.1 ⟨p.2,r',lastPtr NULL xs⟩,?_,linked_append.mpr
      ⟨p.1,?_,rfl,r',by simp,?_⟩,fun _ _ => rfl,fun a ha => ?_⟩
    · simp [unlinkBackward,hq,hp0,Store.setPrev,Store.modify,hp]
    · refine hxs.congr fun a ha => put_nodes_of_ne _ _ _ ?_
      exact hd.2.2.2 a ha p.1 (by simp)
    · refine hys.congr fun a ha => put_nodes_of_ne _ _ _ fun h => hd.2.2.1.2.1 (h ▸ ha)
    · exact put_nodes_of_ne _ _ _ fun h => ha (by simp [h])

theorem vmaUnlink_spec {q : Haddr × Area} (hc : Chain s l (xs++q::ys)) :
    ∃ s', vmaUnlink l q.1 s=some s' ∧ Chain s' l (xs++ys) ∧ s'.nodes q.1=none ∧
      WritesOnly s s' l (ptrs (xs++q::ys)) := by
  obtain ⟨s1,r,hrun1,hxs,hq,hys,hw1⟩ := unlinkForward_spec hc
  obtain ⟨s2,hrun2,hl,hw2⟩ := unlinkBackward_spec hc.distinct hxs hq hys
  have hd := hc.distinct
  have hqn : q.1∉ptrs (xs++ys) := by
    rw [ptrs_append,ptrs_cons,← cons_append,nodup_middle] at hd
    have hnot := (nodup_cons.mp hd).1
    rw [cons_append,mem_cons,not_or,← ptrs_append] at hnot
    exact hnot.2
  have hfree (a : Haddr) (ha : a≠q.1) : (slabFree q.1 s2).nodes a=s2.nodes a := by
    simp [slabFree,ha]
  refine ⟨slabFree q.1 s2,?_,⟨?_,?_⟩,by simp [slabFree],fun l' hl' => ?_,fun a ha => ?_⟩
  · simp [vmaUnlink,hrun1,hrun2]
  · exact hl.congr fun a ha => hfree a fun h => hqn (h ▸ ha)
  · refine hd.sublist (List.Sublist.cons_cons _ ?_)
    simp only [ptrs_append,ptrs_cons]
    exact (sublist_cons_self _ _).append_left _
  · exact (hw2.heads l' hl').trans (hw1.heads l' hl')
  · simp only [ptrs_append,ptrs_cons,mem_append,mem_cons,not_or] at ha
    rw [hfree a ha.2.1,hw2.nodes a ha.2.2,hw1.nodes a ha.1]

theorem modify_data_spec {q : Haddr × Area} (hc : Chain s l (xs++q::ys)) (g : Area → Area) :
    ∃ s', s.modify q.1 (fun n => { n with data := g n.data })=some s' ∧
      Chain s' l (xs++(q.1, g q.2)::ys) ∧ WritesOnly s s' l [q.1] := by
  obtain ⟨c,hxs,rfl,r,hq,hys⟩ := linked_append.mp hc.linked
  have hd := hc.distinct
  refine ⟨s.put q.1 ⟨g q.2,r,lastPtr NULL xs⟩,by simp [Store.modify,hq],⟨?_,?_⟩,
    fun _ _ => rfl,fun a ha => put_nodes_of_ne _ _ _ (by simpa using ha)⟩
  · simp only [ptrs_append,ptrs_cons,nodup_cons,mem_append,mem_cons,not_or,nodup_append] at hd
    refine linked_append.mpr ⟨q.1,hxs.congr fun a ha => put_nodes_of_ne _ _ _ ?_,rfl,r,
      by simp,hys.congr fun a ha => put_nodes_of_ne _ _ _ ?_⟩
    · exact hd.2.2.2 a ha q.1 (by simp)
    · exact fun h => hd.2.2.1.1 (h ▸ ha)
  · simpa using hd

end Hojicha.Vma
