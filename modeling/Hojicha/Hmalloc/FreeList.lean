import Hojicha.Hmalloc.Layout

/-!
# The free list operations

The loops end because a list inside the heap is shorter than the address space below its end.
-/

namespace Hojicha.Hmalloc

open Framework List

variable {h : Heap} {fs gs xs : List Nat} {a c z : Nat}

theorem next_setNext_self (h : Heap) (a v : Nat) (hv : v<2 ^ 64) : (h.setNext a v).next a=v :=
  load64_store64 h.mem (a+9) v hv

theorem next_setNext_of_apart (h : Heap) {a : Nat} (v : Nat) (hac : a + 8≤c ∨ c + 8≤a) :
    (h.setNext a v).next c=h.next c :=
  load64_store64_of_apart h.mem (a+9) (c+9) v (by omega)

theorem next_setIsFree_of_apart (h : Heap) {a : Nat} (b : Bool)
    (hac : a<c + 9 ∨ c + 17≤a) : (h.setIsFree a b).next c=h.next c :=
  load64_storeByte_of_apart h.mem a (c+9) _ (by omega)

theorem isFree_setNext_of_apart (h : Heap) {a : Nat} (v : Nat)
    (hac : c<a + 9 ∨ a + 17≤c) : (h.setNext a v).isFree c=h.isFree c := by
  simp only [Heap.isFree,Heap.setNext,store64_apply_of_apart h.mem (a+9) c v (by omega)]

@[simp] theorem next_setFreeRegions (h : Heap) (v c : Nat) :
    (h.setFreeRegions v).next c=h.next c := rfl

@[simp] theorem isFree_setIsFree (h : Heap) (a : Nat) (b : Bool) :
    (h.setIsFree a b).isFree a=b := by
  cases b <;> simp [Heap.isFree,Heap.setIsFree]

theorem setNext_agree (h : Heap) (v : Nat) {cs : List Nat} (ha : a∈cs) :
    AgreeOff (LinkByte cs) h.mem (h.setNext a v).mem :=
  (storeBytes_agree h.mem (a+9) 8 v).mono fun _ hx => ⟨a,ha,hx⟩

theorem setIsFree_agree (h : Heap) (a : Nat) (b : Bool) :
    AgreeOff (fun x => x=a) h.mem (h.setIsFree a b).mem :=
  (storeByte_agree h.mem a _).mono fun x hx => by
    unfold InRange at hx
    omega

theorem setNext_region (h : Heap) (a v : Nat) : SameRegion h (h.setNext a v) := ⟨rfl,rfl,rfl⟩

theorem setFreeRegions_region (h : Heap) (v : Nat) : SameRegion h (h.setFreeRegions v) :=
  ⟨rfl,rfl,rfl⟩

theorem setIsFree_region (h : Heap) (a : Nat) (b : Bool) : SameRegion h (h.setIsFree a b) :=
  ⟨rfl,rfl,rfl⟩

private theorem gaps_length (lo top : Nat) (fs : List Nat)
    (hs : fs.Pairwise fun a b => a + 33≤b) (hin : ∀ a∈fs, lo≤a ∧ a + 25≤top) :
    fs=[] ∨ lo + 33 * fs.length≤top + 8 := by
  induction fs generalizing lo with
  | nil => exact .inl rfl
  | cons a fs ih =>
    right
    have ha := hin a (by simp)
    obtain ⟨hhead,htail⟩ := pairwise_cons.mp hs
    have hrest := ih (a+33) htail fun b hb => ⟨hhead b hb,(hin b (by simp [hb])).2⟩
    rcases hrest with rfl | hrest
    · simp
      omega
    · simp only [length_cons]
      omega

theorem FreeList.length_lt (hl : FreeList h fs) (hpos : 1<h.lastFooter) :
    fs.length<h.lastFooter := by
  rcases gaps_length 1 h.lastFooter fs hl.sorted hl.inside with rfl | hlen
  · simp
    omega
  · omega

structure Around (fs : List Nat) (a : Nat) (gs : List Nat) : Prop where
  before : ∀ c ∈ fs, c + 33 ≤ a
  behind : ∀ c ∈ gs, a + 33 ≤ c

/-- A step that writes no link of a listed node keeps the list. -/
theorem FreeList.of_agree {h' : Heap} {p : Nat → Prop} (hl : FreeList h fs)
    (hsame : SameRegion h h') (hfr : h'.freeRegions=h.freeRegions)
    (hag : AgreeOff p h.mem h'.mem) (hp : ∀ c∈fs, ∀ x, p x → ¬ InRange (c + 9) 8 x) :
    FreeList h' fs := by
  refine ⟨?_,hl.sorted,hsame.last ▸ hl.inside⟩
  rw [hfr]
  exact hl.links.congr fun c hc => next_of_agree hag c (hp c hc)

theorem FreeList.setNext_off (hl : FreeList h (fs++gs)) (hf : Around fs a gs) (v : Nat) :
    FreeList (h.setNext a v) (fs++gs) := by
  refine hl.of_agree (setNext_region h a v) rfl (setNext_agree h v (mem_singleton_self a)) ?_
  intro c hc x hx hx'
  have hapart : c+33≤a ∨ a+33≤c :=
    (mem_append.mp hc).imp (hf.before c) (hf.behind c)
  simp only [LinkByte,mem_singleton,exists_eq_left,InRange] at hx hx'
  omega

theorem FreeList.setIsFree (hl : FreeList h fs) (f : Bool)
    (hf : ∀ c∈fs, c=a ∨ c + 33≤a ∨ a + 33≤c) : FreeList (h.setIsFree a f) fs := by
  refine hl.of_agree (setIsFree_region h a f) rfl (setIsFree_agree h a f) ?_
  rintro c hc x rfl hx
  have hapart := hf c hc
  simp only [InRange] at hx
  omega

private theorem sorted_insert (hs : (fs++gs).Pairwise fun a b => a + 33≤b)
    (hf : Around fs a gs) : (fs++a::gs).Pairwise fun a b => a + 33≤b := by
  rw [pairwise_append] at hs ⊢
  refine ⟨hs.1,pairwise_cons.mpr ⟨hf.behind,hs.2.1⟩,?_⟩
  intro c hc d hd
  rcases mem_cons.mp hd with rfl | hd
  · exact hf.before c hc
  · exact hs.2.2 c hc d hd

private theorem around_of_sorted (hs : (fs++a::gs).Pairwise fun a b => a + 33≤b) :
    Around fs a gs := by
  rw [pairwise_append] at hs
  exact ⟨fun c hc => hs.2.2 c hc a (by simp),pairwise_cons.mp hs.2.1 |>.1⟩

theorem FreeList.apart_node (hl : FreeList h (fs++a::gs)) :
    ∀ c∈fs++a::gs, c=a ∨ c + 33≤a ∨ a + 33≤c := by
  have hf := around_of_sorted hl.sorted
  intro c hc
  simp only [mem_append,mem_cons] at hc
  rcases hc with hc | rfl | hc
  · exact .inr (.inl (hf.before c hc))
  · exact .inl rfl
  · exact .inr (.inr (hf.behind c hc))

private theorem before_last
    (hs : (xs++[z]).Pairwise fun a b => a + 33≤b) : ∀ c∈xs, c + 33≤z :=
  (around_of_sorted hs).before

private theorem insertionPoint_eq {p q : Nat}
    (hseg : Segment h.next p (xs++[z]) q) (hin : ∀ c∈xs++[z], 0<c ∧ c<a)
    (hq : q=0 ∨ a≤q) (hlen : xs.length<h.traversalBound) :
    insertionPoint h a p=some z := by
  apply walkWhile_segment hseg _ _ hlen
  · intro c hc
    have hn := hin _ (hseg.next_mem hc)
    simp only [Bool.and_eq_true,bne_iff_ne,ne_eq,decide_eq_true_eq]
    omega
  · rw [((segment_concat _ _ _ _).mp hseg).2]
    simp only [Bool.and_eq_false_imp,bne_iff_ne,ne_eq,decide_eq_false_iff_not]
    omega

private theorem next_behind_lt {q : Nat} (hq : Segment h.next q gs 0) (hgs : ∀ c∈gs, a + 33≤c)
    (hin : ∀ c∈gs, c + 25≤h.lastFooter) (htop : h.lastFooter<2 ^ 64) :
    q<2 ^ 64 ∧ (q=0 ∨ a<q) := by
  rw [hq.start_eq]
  cases gs with
  | nil => simp
  | cons c gs =>
    have hc := hin c (by simp)
    have hca := hgs c (by simp)
    simp only [head?_cons,Option.getD_some]
    omega

private theorem insertFreeBlock_head (hl : FreeList h gs) (hgs : ∀ c∈gs, a + 33≤c)
    (ha : 0<a) (htop : h.lastFooter<2 ^ 64) :
    ∃ h', insertFreeBlock a h=some h' ∧ Segment h'.next h'.freeRegions (a::gs) 0 ∧
      SameRegion h h' ∧ h'.isFree a=true ∧
      AgreeOff (fun x => x=a ∨ LinkByte [a] x) h.mem h'.mem := by
  obtain ⟨hlt,hhead⟩ := next_behind_lt hl.links hgs (fun c hc => (hl.inside c hc).2) htop
  refine ⟨((h.setIsFree a true).setNext a h.freeRegions).setFreeRegions a,?_,⟨rfl,?_⟩,
    ⟨rfl,rfl,rfl⟩,?_,?_⟩
  · rw [insertFreeBlock,if_neg (by omega)]
    exact if_pos hhead
  · change Segment _ (((h.setIsFree a true).setNext a h.freeRegions).next a) gs 0
    rw [next_setNext_self _ _ _ hlt]
    refine hl.links.congr fun c hc => ?_
    have hca := hgs c hc
    change ((h.setIsFree a true).setNext a h.freeRegions).next c=_
    rw [next_setNext_of_apart _ _ (by omega),next_setIsFree_of_apart _ _ (by omega)]
  · change ((h.setIsFree a true).setNext a h.freeRegions).isFree a=true
    rw [isFree_setNext_of_apart _ _ (by omega),isFree_setIsFree]
  · exact ((setIsFree_agree h a true).mono fun x hx => .inl hx).trans
      ((setNext_agree _ _ (by simp)).mono fun x hx => .inr hx)

private theorem insertFreeBlock_behind
    (hl : FreeList h ((xs++[z])++gs)) (hf : Around (xs++[z]) a gs)
    (hlast : a + 25≤h.lastFooter) (htop : h.lastFooter<2 ^ 64) :
    ∃ h', insertFreeBlock a h=some h' ∧
      Segment h'.next h'.freeRegions ((xs++[z])++a::gs) 0 ∧
      SameRegion h h' ∧ h'.isFree a=true ∧
      AgreeOff (fun x => x=a ∨ LinkByte (a::(xs++[z])) x) h.mem h'.mem := by
  obtain ⟨q,hleft,hright⟩ := (segment_append _ _ _ _).mp hl.links
  obtain ⟨hq,hqa⟩ := next_behind_lt hright hf.behind
    (fun c hc => (hl.inside c (by simp [hc])).2) htop
  have hz := hf.before z (by simp)
  have hnz : h.next z=q := ((segment_concat _ _ _ _).mp hleft).2
  have hfirst : h.freeRegions∈xs++[z] := by
    rw [hleft.start_eq]
    cases xs <;> simp
  have hstart : ¬ (h.freeRegions=0 ∨ a<h.freeRegions) := by
    have hin := hl.inside _ (mem_append_left gs hfirst)
    have hlt := hf.before _ hfirst
    omega
  obtain ⟨h1,hh1⟩ : ∃ h1, h.setIsFree a true=h1 := ⟨_,rfl⟩
  have hnext1 : ∀ c, c+33≤a ∨ a+33≤c → h1.next c=h.next c := fun c hc =>
    hh1 ▸ next_setIsFree_of_apart h true (by omega)
  have hpoint : insertionPoint h1 a h.freeRegions=some z := by
    have hseg1 : Segment h1.next h.freeRegions (xs++[z]) q :=
      hleft.congr fun c hc => hnext1 c (.inl (hf.before c hc))
    refine insertionPoint_eq hseg1 (fun c hc => ?_) (by omega) ?_
    · have hin := hl.inside c (mem_append_left gs hc)
      have hlt := hf.before c hc
      omega
    · have hlen := hl.length_lt (by omega)
      simp only [length_append,length_singleton] at hlen
      rw [← hh1]
      change xs.length<h.lastFooter
      omega
  refine ⟨(h1.setNext a (h1.next z)).setNext z a,?_,?_,?_,?_,?_⟩
  · rw [insertFreeBlock,if_neg (by omega),hh1]
    have hfr : h1.freeRegions=h.freeRegions := by rw [← hh1]; rfl
    simp only [hfr,if_neg hstart,hpoint]
    rfl
  · have hfr : ((h1.setNext a (h1.next z)).setNext z a).freeRegions=h.freeRegions := by
      rw [← hh1]; rfl
    have hnext3 : ∀ c, c+33≤z ∨ a+33≤c →
        ((h1.setNext a (h1.next z)).setNext z a).next c=h.next c := by
      intro c hc
      rw [next_setNext_of_apart _ _ (by omega),next_setNext_of_apart _ _ (by omega),
        hnext1 c (by omega)]
    have hnexta : ((h1.setNext a (h1.next z)).setNext z a).next a=q := by
      rw [next_setNext_of_apart _ _ (by omega),hnext1 z (.inl hz),hnz,next_setNext_self _ _ _ hq]
    rw [hfr,segment_append]
    refine ⟨a,hleft.redirect (fun c hc => hnext3 c (.inl ?_)) ?_,rfl,?_⟩
    · exact before_last (pairwise_append.mp hl.sorted).1 c hc
    · exact next_setNext_self _ _ _ (by omega)
    · rw [hnexta]
      exact hright.congr fun c hc => hnext3 c (.inr (hf.behind c hc))
  · rw [← hh1]
    exact ⟨rfl,rfl,rfl⟩
  · rw [isFree_setNext_of_apart _ _ (by omega),isFree_setNext_of_apart _ _ (by omega),← hh1,
      isFree_setIsFree]
  · have hag1 : AgreeOff (fun x => x=a) h.mem h1.mem := hh1 ▸ setIsFree_agree h a true
    exact (hag1.mono fun x hx => .inl hx).trans
      (((setNext_agree _ _ (by simp)).trans (setNext_agree _ _ (by simp))).mono fun x hx => .inr hx)

theorem insertFreeBlock_spec (hl : FreeList h (fs++gs)) (hf : Around fs a gs) (ha : 0<a)
    (hlast : a + 25≤h.lastFooter) (htop : h.lastFooter<2 ^ 64) :
    ∃ h', insertFreeBlock a h=some h' ∧ FreeList h' (fs++a::gs) ∧ SameRegion h h' ∧
      h'.isFree a=true ∧ AgreeOff (fun x => x=a ∨ LinkByte (a::fs) x) h.mem h'.mem := by
  have hinside : ∀ c∈fs++a::gs, 0<c ∧ c+25≤h.lastFooter := by
    have hin := hl.inside
    rw [forall_mem_append] at hin ⊢
    exact ⟨hin.1,forall_mem_cons.mpr ⟨⟨ha,hlast⟩,hin.2⟩⟩
  rcases eq_nil_or_concat' fs with rfl | ⟨xs,z,rfl⟩
  · obtain ⟨h',hrun,hseg,hsame,hfree,hag⟩ := insertFreeBlock_head hl hf.behind ha htop
    exact ⟨h',hrun,⟨hseg,sorted_insert hl.sorted hf,hsame.last ▸ hinside⟩,hsame,hfree,hag⟩
  · obtain ⟨h',hrun,hseg,hsame,hfree,hag⟩ := insertFreeBlock_behind hl hf hlast htop
    exact ⟨h',hrun,⟨hseg,sorted_insert hl.sorted hf,hsame.last ▸ hinside⟩,hsame,hfree,hag⟩

private theorem predecessor_eq {p : Nat}
    (hseg : Segment h.next p (xs++[z]) a) (hin : ∀ c∈xs++[z], 0<c ∧ c<a)
    (hlen : xs.length<h.traversalBound) : predecessor h a p=some z := by
  apply walkWhile_segment hseg _ _ hlen
  · intro c hc
    have hn := hin _ (hseg.next_mem hc)
    simp only [Bool.and_eq_true,bne_iff_ne,ne_eq]
    omega
  · rw [((segment_concat _ _ _ _).mp hseg).2]
    simp

private theorem replacementPoint_eq {p : Nat}
    (hseg : Segment h.next p (xs++[z]) a) (hin : ∀ c∈xs++[z], 0<c ∧ c<a)
    (hlen : xs.length<h.traversalBound) : replacementPoint h a p=some z := by
  apply walkWhile_segment hseg _ _ hlen
  · intro c hc
    have hn := hin _ (hseg.next_mem hc)
    have hc0 := hin c (by simp [hc])
    simp only [Bool.and_eq_true,bne_iff_ne,ne_eq]
    omega
  · rw [((segment_concat _ _ _ _).mp hseg).2]
    simp

private theorem FreeList.split (hl : FreeList h ((xs++[z])++a::gs)) :
    Segment h.next h.freeRegions (xs++[z]) a ∧ Segment h.next (h.next a) gs 0 := by
  obtain ⟨q,hleft,rfl,hright⟩ := (segment_append _ _ _ _).mp hl.links
  exact ⟨hleft,hright⟩

private theorem FreeList.front
    (hl : FreeList h ((xs++[z])++a::gs)) :
    (∀ c∈xs++[z], 0<c ∧ c<a) ∧ (∀ c∈xs, c + 33≤z) ∧
      xs.length<h.traversalBound ∧ h.freeRegions≠0 ∧ h.freeRegions≠a := by
  have hf := around_of_sorted hl.sorted
  have hz := before_last (pairwise_append.mp hl.sorted).1
  have hin : ∀ c∈xs++[z], 0<c ∧ c<a := by
    intro c hc
    have hpos := hl.inside c (mem_append_left _ hc)
    have hlt := hf.before c hc
    omega
  have hfirst : h.freeRegions∈xs++[z] := by
    rw [hl.split.1.start_eq]
    cases xs <;> simp
  have hstart := hin _ hfirst
  have hla := hl.inside a (by simp)
  have hlen := hl.length_lt (by omega)
  simp only [length_append,length_cons] at hlen
  refine ⟨hin,hz,?_,by omega,by omega⟩
  change xs.length<h.lastFooter
  omega

private theorem FreeList.next_lt (hl : FreeList h (fs++a::gs)) (htop : h.lastFooter<2 ^ 64) :
    h.next a<2 ^ 64 := by
  obtain ⟨q,-,rfl,hright⟩ := (segment_append _ _ _ _).mp hl.links
  exact (next_behind_lt hright (around_of_sorted hl.sorted).behind
    (fun c hc => (hl.inside c (by simp [hc])).2) htop).1

theorem removeFromFreeList_spec (hl : FreeList h (fs++a::gs)) (htop : h.lastFooter<2 ^ 64) :
    ∃ h', removeFromFreeList a h=some h' ∧ FreeList h' (fs++gs) ∧ SameRegion h h' ∧
      AgreeOff (LinkByte (a::fs)) h.mem h'.mem := by
  have hf := around_of_sorted hl.sorted
  have ha := hl.inside a (by simp)
  have hsub : (fs++gs).Sublist (fs++a::gs) := (sublist_cons_self a gs).append_left fs
  have hsorted := hl.sorted.sublist hsub
  have hinside : ∀ c∈fs++gs, 0<c ∧ c+25≤h.lastFooter :=
    fun c hc => hl.inside c (hsub.subset hc)
  rcases eq_nil_or_concat' fs with rfl | ⟨xs,z,rfl⟩
  · obtain ⟨hhead,hright⟩ := hl.links
    refine ⟨(h.setFreeRegions (h.next a)).setNext a 0,?_,
      ⟨?_,hsorted,hinside⟩,(setFreeRegions_region _ _).trans (setNext_region _ _ _),
      setNext_agree (h.setFreeRegions (h.next a)) 0 (by simp)⟩
    · rw [removeFromFreeList,if_neg (by omega),if_pos hhead]
    · refine (show Segment h.next (h.next a) gs 0 from hright).congr fun c hc => ?_
      have hca := hf.behind c (by simpa using hc)
      rw [next_setNext_of_apart _ _ (by omega),next_setFreeRegions]
  · obtain ⟨hleft,hright⟩ := hl.split
    obtain ⟨hin,hz,hlen,hne0,hnea⟩ := hl.front
    have hza := hf.before z (by simp)
    have hnz : h.next z=a := ((segment_concat _ _ _ _).mp hleft).2
    have hqlt := hl.next_lt htop
    have hnext : ∀ c, c+33≤z ∨ a+33≤c →
        ((h.setNext z (h.next a)).setNext a 0).next c=h.next c := by
      intro c hc
      rw [next_setNext_of_apart _ _ (by omega),next_setNext_of_apart _ _ (by omega)]
    refine ⟨(h.setNext z (h.next a)).setNext a 0,?_,⟨?_,hsorted,hinside⟩,⟨rfl,rfl,rfl⟩,?_⟩
    · have hpoint := predecessor_eq hleft hin hlen
      have ha0 : a≠0 := by omega
      simp [removeFromFreeList,ha0,hne0,hnea,hpoint,hnz]
    · rw [segment_append]
      refine ⟨h.next a,hleft.redirect (fun c hc => hnext c (.inl (hz c hc))) ?_,
        hright.congr fun c hc => hnext c (.inr (hf.behind c hc))⟩
      rw [next_setNext_of_apart _ _ (by omega),next_setNext_self _ _ _ hqlt]
    · exact (setNext_agree h _ (by simp)).trans (setNext_agree _ _ (by simp))

theorem replaceFreeListBlock_spec {new : Nat} (hl : FreeList h (fs++a::gs))
    (hnew : a + 33≤new) (hgs : ∀ c∈gs, new + 33≤c) (hlast : new + 25≤h.lastFooter)
    (htop : h.lastFooter<2 ^ 64) :
    ∃ h', replaceFreeListBlock a new h=some h' ∧ FreeList h' (fs++new::gs) ∧
      SameRegion h h' ∧ AgreeOff (LinkByte (new::a::fs)) h.mem h'.mem := by
  have hf := around_of_sorted hl.sorted
  have ha := hl.inside a (by simp)
  have hsub : (fs++gs).Sublist (fs++a::gs) := (sublist_cons_self a gs).append_left fs
  have hsorted : (fs++new::gs).Pairwise fun a b => a+33≤b :=
    sorted_insert (hl.sorted.sublist hsub)
      ⟨fun c hc => (hf.before c hc).trans (by omega),hgs⟩
  have hinside : ∀ c∈fs++new::gs, 0<c ∧ c+25≤h.lastFooter := by
    have hin := hl.inside
    rw [forall_mem_append,forall_mem_cons] at hin ⊢
    exact ⟨hin.1,by omega,hin.2.2⟩
  rcases eq_nil_or_concat' fs with rfl | ⟨xs,z,rfl⟩
  · obtain ⟨hhead,hright⟩ := hl.links
    have hqlt := hl.next_lt htop
    obtain ⟨h1,hh1⟩ : ∃ h1, h.setNext new (h.next a)=h1 := ⟨_,rfl⟩
    have hnext : ∀ c, new+33≤c → ((h1.setFreeRegions new).setNext a 0).next c =
        h.next c := by
      intro c hc
      rw [next_setNext_of_apart _ _ (by omega),← hh1]
      exact next_setNext_of_apart h _ (by omega)
    refine ⟨(h1.setFreeRegions new).setNext a 0,?_,⟨⟨rfl,?_⟩,hsorted,?_⟩,?_,?_⟩
    · rw [replaceFreeListBlock,if_neg (by omega),if_pos hhead,hh1]
    · have hnn : ((h1.setFreeRegions new).setNext a 0).next new=h.next a := by
        rw [next_setNext_of_apart _ _ (by omega),← hh1]
        exact next_setNext_self h new _ hqlt
      rw [hnn]
      exact hright.congr fun c hc => hnext c (hgs c hc)
    · rw [← hh1]
      exact hinside
    · rw [← hh1]
      exact ⟨rfl,rfl,rfl⟩
    · rw [← hh1]
      exact (setNext_agree h _ (by simp)).trans (setNext_agree (Heap.setFreeRegions _ new) 0 (by simp))
  · obtain ⟨hleft,hright⟩ := hl.split
    obtain ⟨hin,hz,hlen,hne0,hnea⟩ := hl.front
    have hza := hf.before z (by simp)
    have hz0 := (hin z (by simp)).1
    have hqlt := hl.next_lt htop
    obtain ⟨h1,hh1⟩ : ∃ h1, h.setNext new (h.next a)=h1 := ⟨_,rfl⟩
    have hnext : ∀ c, c+33≤z ∨ new+33≤c →
        ((h1.setNext z new).setNext a 0).next c=h.next c := by
      intro c hc
      rw [next_setNext_of_apart _ _ (by omega),next_setNext_of_apart _ _ (by omega),← hh1,
        next_setNext_of_apart _ _ (by omega)]
    have hnn : ((h1.setNext z new).setNext a 0).next new=h.next a := by
      rw [next_setNext_of_apart _ _ (by omega),next_setNext_of_apart _ _ (by omega),← hh1,
        next_setNext_self _ _ _ hqlt]
    refine ⟨(h1.setNext z new).setNext a 0,?_,⟨?_,hsorted,?_⟩,?_,?_⟩
    · have hpoint := replacementPoint_eq hleft hin hlen
      have ha0 : a≠0 := by omega
      have hn0 : new≠0 := by omega
      simp [replaceFreeListBlock,ha0,hn0,hnea,hpoint,hz0.ne',hh1]
    · have hfr : ((h1.setNext z new).setNext a 0).freeRegions=h.freeRegions := by
        rw [← hh1]; rfl
      rw [hfr,segment_append]
      refine ⟨new,hleft.redirect (fun c hc => hnext c (.inl (hz c hc))) ?_,rfl,?_⟩
      · rw [next_setNext_of_apart _ _ (by omega),next_setNext_self _ _ _ (by omega)]
      · rw [hnn]
        exact hright.congr fun c hc => hnext c (.inr (hgs c hc))
    · rw [← hh1]
      exact hinside
    · rw [← hh1]
      exact ⟨rfl,rfl,rfl⟩
    · rw [← hh1]
      exact (setNext_agree h _ (by simp)).trans
        ((setNext_agree _ _ (by simp)).trans (setNext_agree _ _ (by simp)))

theorem findFirstFitBlock_spec (hl : FreeList h fs) (hfree : ∀ c∈fs, h.isFree c=true)
    (size : Nat) (hlast : 1<h.lastFooter) :
    (∃ xs z ys, fs=xs++z::ys ∧ (∀ c∈xs, h.sizeBytes c<size) ∧ size≤h.sizeBytes z ∧
      findFirstFitBlock h size h.freeRegions=some z) ∨
    ((∀ c∈fs, h.sizeBytes c<size) ∧ findFirstFitBlock h size h.freeRegions=some 0) := by
  have hskip : ∀ c∈fs, h.sizeBytes c<size →
      (c != 0 && !(decide (h.sizeBytes c ≥ size) && h.isFree c))=true := by
    intro c hc hlt
    have hpos := (hl.inside c hc).1
    simp only [Bool.and_eq_true,bne_iff_ne,ne_eq,Bool.not_eq_true',Bool.and_eq_false_imp,
      decide_eq_true_eq]
    exact ⟨by omega,fun hge => by omega⟩
  have hlen : fs.length<h.traversalBound := hl.length_lt hlast
  by_cases hall : ∀ c∈fs, h.sizeBytes c<size
  · right
    refine ⟨hall,?_⟩
    exact walkWhile_end hl.links (fun c hc => hskip c hc (hall c hc)) (by simp) hlen
  · left
    obtain ⟨xs,z,ys,rfl,hfits,hxs⟩ : ∃ xs z ys, fs=xs++z::ys ∧ size≤h.sizeBytes z ∧
        ∀ c∈xs, h.sizeBytes c<size := by
      clear hskip hlen hfree hl
      induction fs with
      | nil => simp at hall
      | cons c fs ih =>
        by_cases hc : h.sizeBytes c<size
        · have hrest : ¬ ∀ c∈fs, h.sizeBytes c<size := by
            intro hrest
            exact hall (by simpa [hc] using hrest)
          obtain ⟨xs,z,ys,rfl,hfits,hxs⟩ := ih hrest
          exact ⟨c::xs,z,ys,rfl,hfits,by simpa [hc] using hxs⟩
        · exact ⟨[],c,fs,rfl,by omega,by simp⟩
    refine ⟨xs,z,ys,rfl,hxs,hfits,?_⟩
    obtain ⟨q,hleft,rfl,-⟩ := (segment_append _ _ _ _).mp hl.links
    refine walkWhile_end hleft (fun c hc => hskip c (by simp [hc]) (hxs c hc)) ?_ ?_
    · simp [hfits,hfree q (by simp)]
    · simp only [length_append] at hlen
      omega

end Hojicha.Hmalloc
