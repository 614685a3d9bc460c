import Hojicha.Framework.Refine
import Hojicha.Vmm.NewSpace

/-!
# Walking the lower half

`walk_lower_mappings` points its window at a table before it reads each entry. If the callback
leaves the tables alone, the walk is a list of actions that is known beforehand.
-/

namespace Hojicha.Vmm

open Framework Framework.Paging List

/-- A call of the callback, or a table that is freed. -/
inductive WalkAction
  | visit (virt : Haddr) (entry : Word)
  | release (t : Frame)
deriving DecidableEq

section Actions

variable (m : PhysMem) (freeTables : Bool)

def presentEntries (t : Frame) (idxs : List Index) (acts : Index → Word → List WalkAction) :
    List WalkAction :=
  idxs.flatMap fun i => if isPresent (m t i) then acts i (m t i) else []

def released (t : Frame) : List WalkAction := if freeTables then [.release t] else []

def ptActions (i4 i3 i2 : Index) (t : Frame) : List WalkAction :=
  presentEntries m t allIndices fun i1 e => [.visit (virtOf i4 i3 i2 i1) e]

def pdActions (i4 i3 : Index) (t : Frame) : List WalkAction :=
  presentEntries m t allIndices fun i2 e =>
    ptActions m i4 i3 i2 (target e) ++ released freeTables (target e)

def pml3Actions (i4 : Index) (t : Frame) : List WalkAction :=
  presentEntries m t allIndices fun i3 e =>
    pdActions m freeTables i4 i3 (target e) ++ released freeTables (target e)

def lowerActions (r : Frame) : List WalkAction :=
  presentEntries m r lowerIndices fun i4 e =>
    pml3Actions m freeTables i4 (target e) ++ released freeTables (target e)

end Actions

variable {A : Type} {R : A → Machine → Prop} {act : WalkAction → A → Bool × A} {m : PhysMem}
  {T : Node → Option Frame} {r t : Frame} {ptr phys : Haddr} {freeTables : Bool}

/-- A window can be pointed at the table `t`, which then reads as in `m`. -/
def Shows (R : A → Machine → Prop) (ptr : Haddr) (m : PhysMem) (t : Frame) : Prop :=
  ∀ a s, R a s → ∃ s', scratchMapTable ptr (address t) s = some (ptr, s') ∧ R a s' ∧
    ∀ i, readWord ptr i s' = some (m t i, s')

theorem forEach_refines {α : Type} {body : α → M Bool} {acts : α → List WalkAction} {as : List α}
    (h : ∀ a∈as, Refines R (body a) (perform act (acts a))) :
    Refines R (forEach body as) (perform act (as.flatMap acts)) := by
  induction as with
  | nil => exact .pure true
  | cons a as ih =>
    rw [forEach,flatMap_cons]
    exact (h a (by simp)).append (ih fun b hb => h b (by simp [hb]))

theorem walkTable_refines {visit : Index → Word → M Bool}
    {acts : Index → Word → List WalkAction} {idxs : List Index} (hnull : ptr≠NULL)
    (hshow : Shows R ptr m t)
    (hvisit : ∀ i∈idxs, isPresent (m t i)=true →
      Refines R (visit i (m t i)) (perform act (acts i (m t i)))) :
    Refines R (walkTable ptr (address t) visit idxs)
      (perform act (presentEntries m t idxs acts)) := by
  refine forEach_refines fun i hi a s hs => ?_
  obtain ⟨s₁,hmap,hs₁,hread⟩ := hshow a s hs
  rw [bind_run hmap,if_neg hnull,bind_run (hread i),entryIsPresent_eq]
  cases hp : isPresent (m t i) with
  | false => exact ⟨s₁,rfl,hs₁⟩
  | true => exact hvisit i hi hp a s₁ hs₁

theorem thenFree_refines {loop : M Bool} {ks : List WalkAction}
    (hloop : Refines R loop (perform act ks))
    (hfree : freeTables=true → Refines R (do pmmFreeFrame (address t); return true)
      (act (.release t))) :
    Refines R (thenFree freeTables (address t) loop)
      (perform act (ks++released freeTables t)) := by
  have hrelease : Refines R
      (do
        if freeTables then pmmFreeFrame (address t)
        return true)
      (perform act (released freeTables t)) := by
    cases freeTables with
    | false => exact .pure true
    | true =>
      have heq : perform act (released true t)=act (.release t) :=
        funext fun a => perform_singleton _ a
      rw [heq]
      exact hfree rfl
  intro a s hs
  obtain ⟨s₁,hrun,hs₁⟩ := hloop a s hs
  rw [thenFree,bind_run hrun,perform_append]
  cases hb : (perform act ks a).1 with
  | false =>
    refine ⟨s₁,?_,hs₁⟩
    show some (false, s₁)=some ((perform act ks a).1, s₁)
    rw [hb]
  | true => exact hrelease _ s₁ hs₁

theorem mem_lowerIndices {i : Index} : i∈lowerIndices ↔ i<KERNEL_PML4_FIRST := by
  simp only [lowerIndices,mem_map,mem_range,KERNEL_PML4_FIRST,BitVec.lt_def]
  constructor
  · rintro ⟨k,hk,rfl⟩
    rw [BitVec.toNat_ofNat,Nat.mod_eq_of_lt (by omega)]
    exact hk
  · exact fun hi => ⟨i.toNat,hi,by simp⟩

theorem mem_allIndices (i : Index) : i∈allIndices := by
  simp only [allIndices,mem_map,mem_range]
  exact ⟨i.toNat,i.isLt,by simp⟩

theorem walkLowerMappings_refines {callback : Haddr → Word → M Bool} (hf : Forest shape m T)
    (hr : T (.root r)=some r)
    (hshow : ∀ {n t}, T n=some t → n.space=some r → ∀ {ptr k}, IsWindow ptr k →
      Shows R ptr m t)
    (hvisit : ∀ {p : Page} {t}, p.i4<KERNEL_PML4_FIRST → T (leafNode r p)=some t →
      isPresent (m t p.i1)=true →
      Refines R (callback (virtOf p.i4 p.i3 p.i2 p.i1) (m t p.i1))
        (act (.visit (virtOf p.i4 p.i3 p.i2 p.i1) (m t p.i1))))
    (hfree : freeTables=true → ∀ t, Refines R (do pmmFreeFrame (address t); return true)
      (act (.release t))) :
    Refines R (walkLowerMappings (address r) callback freeTables)
      (perform act (lowerActions m freeTables r)) := by
  refine walkTable_refines isWindow_l4.ne_null (hshow hr rfl isWindow_l4) fun i4 hi4 hp4 => ?_
  have hlow := mem_lowerIndices.mp hi4
  have hspace : ((Node.root r).child shape i4).space=some r := by
    simp [Node.child,Node.root,shape,BitVec.not_le.mpr hlow]
  have hsame {n : Node} {i : Index} (hn : n.path≠[]) : (n.child shape i).space=n.space := by
    rw [Node.child_of_ne_nil hn]
  -- each present entry of an inner table leads to a table of the same space
  have hchild {n : Node} {t : Frame} {i : Index} (hn : T n=some t) (hi : n.Links shape i)
      (hp : isPresent (m t i)=true) : T (n.child shape i)=some (target (m t i)) := by
    rw [hf.link hn hi,if_pos hp]
  have h3 := hchild hr ⟨by simp [Node.root],fun h => ne_recursive_of_lower hlow h.2⟩ hp4
  rw [entryPhys_eq]
  refine thenFree_refines ?_ fun h => hfree h _
  refine walkTable_refines isWindow_l3.ne_null (hshow h3 hspace isWindow_l3) fun i3 _ hp3 => ?_
  have h2 := hchild h3 (links3 r i4 i3) hp3
  rw [entryPhys_eq]
  refine thenFree_refines ?_ fun h => hfree h _
  refine walkTable_refines isWindow_l2.ne_null
    (hshow h2 (by rw [hsame (by simp),hspace]) isWindow_l2) fun i2 _ hp2 => ?_
  have h1 := hchild h2 (links2 r i4 i3 i2) hp2
  rw [entryPhys_eq]
  refine thenFree_refines ?_ fun h => hfree h _
  refine walkTable_refines isWindow_l1.ne_null
    (hshow h1 (by rw [hsame (by simp),hsame (by simp),hspace]) isWindow_l1) fun i1 _ hp1 => ?_
  have heq (k : WalkAction) : perform act [k]=act k := funext fun a => perform_singleton k a
  rw [heq]
  exact hvisit (p := ⟨i4,i3,i2,i1⟩) hlow h1 hp1

theorem pageOf_virtOf (i4 i3 i2 i1 : Index) : pageOf (virtOf i4 i3 i2 i1)=⟨i4, i3, i2, i1⟩ := by
  have hor : recursiveAddr i4 i3 i2 i1=CANONICAL_HIGH ||| virtOf i4 i3 i2 i1 := by
    simp only [recursiveAddr,virtOf,BitVec.or_assoc]
  have hhigh {k : Nat} (hk : CANONICAL_HIGH.extractLsb' k 9=0) (v : Haddr) :
      (CANONICAL_HIGH ||| v).extractLsb' k 9=v.extractLsb' k 9 := by
    rw [BitVec.extractLsb'_or,hk]
    simp
  rw [← pageOf_recursiveAddr,hor,pageOf,pageOf,hhigh (by decide),hhigh (by decide),
    hhigh (by decide),hhigh (by decide)]

variable {k : WalkAction} {idxs : List Index} {acts : Index → Word → List WalkAction}

theorem mem_presentEntries : k∈presentEntries m t idxs acts ↔
    ∃ i∈idxs, isPresent (m t i)=true ∧ k∈acts i (m t i) := by
  simp only [presentEntries,mem_flatMap]
  refine exists_congr fun i => and_congr_right fun _ => ?_
  split_ifs with hp <;> simp [hp]

def Located (m : PhysMem) (T : Node → Option Frame) (r : Frame) (q : List Index) :
    WalkAction → Prop
  | .visit virt e => ∃ p t, q = Page.path p ∧ virt = virtOf p.i4 p.i3 p.i2 p.i1 ∧
    p.i4 < KERNEL_PML4_FIRST ∧ T (leafNode r p) = some t ∧ m t p.i1 = e ∧ isPresent e = true
  | .release t => ∃ n, q = Node.path n ∧ T n = some t ∧ n.space = some r ∧ n.path ≠ []

variable {q q' is : List Index}

theorem Located.unique (hf : Forest shape m T) (h : Located m T r q k) (h' : Located m T r q' k) :
    q=q' := by
  cases k with
  | visit virt e =>
    obtain ⟨p,t,rfl,hv,-⟩ := h
    obtain ⟨p',t',rfl,hv',-⟩ := h'
    have hpage := congrArg pageOf (hv.symm.trans hv')
    rw [pageOf_virtOf,pageOf_virtOf] at hpage
    exact congrArg Page.path hpage
  | release t =>
    obtain ⟨n,rfl,hn,-⟩ := h
    obtain ⟨n',rfl,hn',-⟩ := h'
    rw [hf.inj hn hn']

/-- The list has no action twice, and all of them lie strictly below the path. -/
structure Ordered (m : PhysMem) (T : Node → Option Frame) (r : Frame) (is : List Index)
    (ks : List WalkAction) : Prop where
  nodup : ks.Nodup
  below : ∀ k ∈ ks, ∃ i q, is ++ [i] <+: q ∧ Located m T r q k

private theorem singleton_of_initial {i j : Index} (hi : is++[i] <+: q) (hj : is++[j] <+: q) :
    i=j := by
  obtain ⟨x,rfl⟩ := hi
  obtain ⟨y,hy⟩ := hj
  have heq := (append_inj hy (by simp)).1
  simpa using heq.symm

theorem ordered_presentEntries (hf : Forest shape m T) (hidxs : idxs.Nodup)
    (h : ∀ i∈idxs, isPresent (m t i)=true → (acts i (m t i)).Nodup ∧
      ∀ k∈acts i (m t i), ∃ q, is++[i] <+: q ∧ Located m T r q k) :
    Ordered m T r is (presentEntries m t idxs acts) := by
  refine ⟨?_,fun k hk => ?_⟩
  · rw [presentEntries,nodup_flatMap]
    refine ⟨fun i hi => ?_,hidxs.imp_of_mem fun {i j} hi hj hij => ?_⟩
    · split_ifs with hp
      · exact (h i hi hp).1
      · exact .nil
    · rw [Function.onFun,disjoint_iff_ne]
      rintro k hk _ hk' rfl
      split_ifs at hk hk' with hp hp'
      · obtain ⟨q,hq,hlocated⟩ := (h i hi hp).2 k hk
        obtain ⟨q',hq',hlocated'⟩ := (h j hj hp').2 k hk'
        obtain rfl := hlocated.unique hf hlocated'
        exact hij (singleton_of_initial hq hq')
      all_goals simp at hk hk'
  · obtain ⟨i,hi,hp,hk⟩ := mem_presentEntries.mp hk
    obtain ⟨q,hq,hlocated⟩ := (h i hi hp).2 k hk
    exact ⟨i,q,hq,hlocated⟩

theorem Ordered.withTable {n : Node} {ks : List WalkAction} (h : Ordered m T r n.path ks)
    (hf : Forest shape m T) (hn : T n=some t) (hspace : n.space=some r) (hne : n.path≠[])
    (freeTables : Bool) :
    (ks++released freeTables t).Nodup ∧
      ∀ k∈ks++released freeTables t, ∃ q, n.path <+: q ∧ Located m T r q k := by
  have hbelow (k : WalkAction) (hk : k∈ks) : ∃ q, n.path <+: q ∧ Located m T r q k := by
    obtain ⟨i,q,hq,hlocated⟩ := h.below k hk
    exact ⟨q,(prefix_append _ _).trans hq,hlocated⟩
  cases freeTables with
  | false => simpa [released] using ⟨h.nodup,hbelow⟩
  | true =>
    have hlocated : Located m T r n.path (.release t) := ⟨n,rfl,hn,hspace,hne⟩
    refine ⟨h.nodup.append (nodup_singleton _) fun k hk hk' => ?_,fun k hk => ?_⟩
    · obtain rfl : k = .release t := by simpa [released] using hk'
      obtain ⟨i,q,hq,hbelow⟩ := h.below _ hk
      obtain rfl := hbelow.unique hf hlocated
      have := hq.length_le
      simp at this
    · rcases mem_append.mp hk with hk | hk
      · exact hbelow k hk
      · obtain rfl : k = .release t := by simpa [released] using hk
        exact ⟨_,prefix_rfl,hlocated⟩

private theorem nodup_indices {c : Nat} (hc : c≤512) :
    ((List.range c).map (BitVec.ofNat 9)).Nodup := by
  refine List.Nodup.map_on (fun x hx y hy hxy => ?_) nodup_range
  have heq := congrArg BitVec.toNat hxy
  rw [mem_range] at hx hy
  simp only [BitVec.toNat_ofNat] at heq
  omega

section Ordered

variable (hf : Forest shape m T)
include hf

omit hf in
private theorem root_child {i : Index} (hi : i<KERNEL_PML4_FIRST) :
    (Node.root r).child shape i=⟨some r, [i]⟩ := by
  simp [Node.child,Node.root,shape,BitVec.not_le.mpr hi]

private theorem lower_child {n : Node} {i : Index} (hn : T n=some t) (hspace : n.space=some r)
    (hlen : n.path.length<3) (hi : n.path=[] → i<KERNEL_PML4_FIRST)
    (hp : isPresent (m t i)=true) :
    T (n.child shape i)=some (target (m t i)) ∧ (n.child shape i).space=some r := by
  refine ⟨?_,?_⟩
  · rw [hf.link hn ⟨hlen,fun h => ne_recursive_of_lower (hi h.1) h.2⟩,if_pos hp]
  · by_cases hnil : n.path=[]
    · simp [Node.child,hnil,shape,BitVec.not_le.mpr (hi hnil),hspace]
    · rw [Node.child_of_ne_nil hnil,hspace]

theorem ordered_ptActions {p : Page} (hp : p.i4<KERNEL_PML4_FIRST)
    (ht : T (leafNode r p)=some t) :
    Ordered m T r p.tables (ptActions m p.i4 p.i3 p.i2 t) := by
  refine ordered_presentEntries hf (nodup_indices (by decide)) fun i1 _ hpres => ?_
  refine ⟨nodup_singleton _,fun k hk => ?_⟩
  obtain rfl := mem_singleton.mp hk
  exact ⟨_,prefix_rfl,⟨p.i4,p.i3,p.i2,i1⟩,t,rfl,rfl,hp,ht,rfl,hpres⟩

theorem ordered_pdActions {i4 i3 : Index} (hlow : i4<KERNEL_PML4_FIRST)
    (ht : T ⟨some r, [i4, i3]⟩=some t) : Ordered m T r [i4, i3] (pdActions m freeTables i4 i3 t) := by
  refine ordered_presentEntries hf (nodup_indices (by decide)) fun i2 _ hpres => ?_
  obtain ⟨hchild,hspace⟩ := lower_child hf ht rfl (by simp) (by simp) hpres
  have hleaf : T (leafNode r ⟨i4,i3,i2,0⟩)=some (target (m t i2)) := by
    rw [leafNode_eq,if_neg (BitVec.not_le.mpr hlow)]
    exact hchild
  exact (ordered_ptActions hf hlow hleaf).withTable (n := ⟨some r,[i4,i3,i2]⟩) hf hchild rfl
    (by simp) freeTables

theorem ordered_pml3Actions {i4 : Index} (hlow : i4<KERNEL_PML4_FIRST)
    (ht : T ⟨some r, [i4]⟩=some t) : Ordered m T r [i4] (pml3Actions m freeTables i4 t) := by
  refine ordered_presentEntries hf (nodup_indices (by decide)) fun i3 _ hpres => ?_
  obtain ⟨hchild,hspace⟩ := lower_child hf ht rfl (by simp) (by simp) hpres
  exact (ordered_pdActions hf hlow hchild).withTable (n := ⟨some r,[i4,i3]⟩) hf hchild rfl
    (by simp) freeTables

theorem ordered_lowerActions (hr : T (.root r)=some r) :
    Ordered m T r [] (lowerActions m freeTables r) := by
  refine ordered_presentEntries hf (nodup_indices (by decide)) fun i4 hi4 hpres => ?_
  have hlow := mem_lowerIndices.mp hi4
  obtain ⟨hchild,hspace⟩ := lower_child hf hr rfl (by simp [Node.root]) (fun _ => hlow) hpres
  rw [root_child hlow] at hchild
  exact (ordered_pml3Actions hf hlow hchild).withTable (n := ⟨some r,[i4]⟩) hf hchild rfl
    (by simp) freeTables

private theorem lower_parent (is : List Index) {i : Index} {u : Frame} (hlen : is.length<3)
    (hlow : ∀ a∈(is++[i]).head?, a<KERNEL_PML4_FIRST)
    (hr : T (.root r)=some r) (hu : T ⟨some r, is++[i]⟩=some u) :
    ∃ t, T ⟨some r, is⟩=some t ∧ isPresent (m t i)=true ∧ target (m t i)=u := by
  have hchild : (⟨some r,is⟩ : Node).child shape i=⟨some r,is++[i]⟩ := by
    by_cases hnil : is=[]
    · subst hnil
      exact root_child (hlow i rfl)
    · rw [Node.child_of_ne_nil hnil]
  obtain ⟨t,ht⟩ : ∃ t, T ⟨some r,is⟩=some t := by
    by_cases hnil : is=[]
    · subst hnil
      exact ⟨r,hr⟩
    · exact hf.parent (hchild ▸ hu) hnil
  have hlinks : (⟨some r,is⟩ : Node).Links shape i := by
    refine ⟨hlen,fun ⟨hnil,hi⟩ => ?_⟩
    have hnil : is=[] := hnil
    subst hnil
    exact ne_recursive_of_lower (hlow i rfl) hi
  have hlead := hf.leadsTo ht hlinks (hchild ▸ hu)
  exact ⟨t,ht,hlead.present,hlead.target⟩

private theorem pml3_mem (hr : T (.root r)=some r) {i4 : Index} {t3 : Frame}
    (hlow : i4<KERNEL_PML4_FIRST) (h3 : T ⟨some r, [i4]⟩=some t3)
    (hk : k∈pml3Actions m freeTables i4 t3++released freeTables t3) :
    k∈lowerActions m freeTables r := by
  obtain ⟨t,ht,hp,rfl⟩ := lower_parent hf [] (by simp) (by simpa using hlow) hr h3
  obtain rfl := Option.some.inj (hr.symm.trans ht)
  exact mem_presentEntries.mpr ⟨i4,mem_lowerIndices.mpr hlow,hp,hk⟩

private theorem pd_mem (hr : T (.root r)=some r) {i4 i3 : Index} {t2 : Frame}
    (hlow : i4<KERNEL_PML4_FIRST) (h2 : T ⟨some r, [i4, i3]⟩=some t2)
    (hk : k∈pdActions m freeTables i4 i3 t2++released freeTables t2) :
    k∈lowerActions m freeTables r := by
  obtain ⟨t3,h3,hp,rfl⟩ := lower_parent hf [i4] (by simp) (by simpa using hlow) hr h2
  exact pml3_mem hf hr hlow h3 (mem_append_left _
    (mem_presentEntries.mpr ⟨i3,mem_allIndices i3,hp,hk⟩))

private theorem pt_mem (hr : T (.root r)=some r) {i4 i3 i2 : Index} {t1 : Frame}
    (hlow : i4<KERNEL_PML4_FIRST) (h1 : T ⟨some r, [i4, i3, i2]⟩=some t1)
    (hk : k∈ptActions m i4 i3 i2 t1++released freeTables t1) :
    k∈lowerActions m freeTables r := by
  obtain ⟨t2,h2,hp,rfl⟩ := lower_parent hf [i4,i3] (by simp) (by simpa using hlow) hr h1
  exact pd_mem hf hr hlow h2 (mem_append_left _
    (mem_presentEntries.mpr ⟨i2,mem_allIndices i2,hp,hk⟩))

theorem visit_mem_lowerActions (hr : T (.root r)=some r) {virt : Haddr} {e : Word}
    (h : Located m T r q (.visit virt e)) : .visit virt e∈lowerActions m freeTables r := by
  obtain ⟨p,t,-,rfl,hlow,ht,rfl,hp⟩ := h
  rw [leafNode_eq,if_neg (BitVec.not_le.mpr hlow)] at ht
  exact pt_mem hf hr hlow ht (mem_append_left _
    (mem_presentEntries.mpr ⟨p.i1,mem_allIndices _,hp,mem_singleton_self _⟩))

theorem release_mem_lowerActions (hr : T (.root r)=some r)
    (h : Located m T r q (.release t)) : .release t∈lowerActions m true r := by
  obtain ⟨⟨o,is⟩,-,hn,rfl,hne⟩ := h
  have hrel (ks : List WalkAction) : .release t∈ks++released true t := by simp [released]
  obtain ⟨i,is,rfl⟩ := List.exists_cons_of_ne_nil hne
  obtain ⟨hlen,-,hshared⟩ := hf.label hn
  have hlow : i<KERNEL_PML4_FIRST := by
    simpa [shape,BitVec.not_le] using hshared
  rcases is with _ | ⟨i3,_ | ⟨i2,_ | ⟨i1,is⟩⟩⟩
  · exact pml3_mem hf hr hlow hn (hrel _)
  · exact pd_mem hf hr hlow hn (hrel _)
  · exact pt_mem hf hr hlow hn (hrel _)
  · simp only [List.length_cons] at hlen
    omega

end Ordered

theorem release_not_mem (t : Frame) : .release t∉lowerActions m false r := by
  simp [lowerActions,pml3Actions,pdActions,ptActions,mem_presentEntries,released]

end Hojicha.Vmm
