import Hojicha.Vmm.KernelPath

/-!
# Entries of pages

Both paths of the code do the same to the tables, so an address space is known by its root from here
on.
-/

namespace Hojicha.Vmm

open Framework.Paging

/-- `map_at_paddr_internal` on the tables. -/
def mapAt (root : Frame) (virt phys flags : Haddr) (σ : Tables) : Bool × Tables :=
  if (pageOf virt).i4 = RECURSIVE_IDX then (false, σ)
  else mapPage root virt flags (phys ||| normalizeLeafFlags virt flags) σ

/-- `unmap_internal` on the tables. -/
def unmapAt (root : Frame) (virt : Haddr) (σ : Tables) : Bool × Tables :=
  if (pageOf virt).i4 = RECURSIVE_IDX then (false, σ) else unmapPage root virt σ

def IsRoot (kr : Frame) : Space → Frame → Prop
  | .kernel, r => r = kr
  | .own pml4Phys, r => pml4Phys = address r

/-- The kernel's address space may only be edited where the loaded root agrees with its own. -/
def Editable (s : Machine) (kr : Frame) : Space → Page → Prop
  | .kernel, p => Direct s kr p
  | .own _, _ => True

def Usable (s : Machine) (σ : Tables) (T : Node → Option Frame) (w kr : Frame) : Space → Prop
  | .kernel => KernelReady s σ T w kr
  | .own _ => Ready s σ T w

variable {s : Machine} {σ σ' : Tables} {T T' : Node → Option Frame} {w r r' kr t d : Frame}
  {m' : PhysMem} {virt phys flags : Haddr} {p p' : Page} {vmm : Space} {e : Word}

theorem KernelReady.usable (h : KernelReady s σ T w kr) (vmm : Space) : Usable s σ T w kr vmm := by
  cases vmm with
  | kernel => exact h
  | own pml4Phys => exact h.toReady

theorem Usable.ready (h : Usable s σ T w kr vmm) : Ready s σ T w := by
  cases vmm with
  | kernel => exact KernelReady.toReady h
  | own pml4Phys => exact h

theorem mapAtPaddrInternal_run (h : Usable s σ T w kr vmm) (hvmm : IsRoot kr vmm r)
    (hr : T (.root r)=some r) (hd : Editable s kr vmm (pageOf virt)) (phys flags : Haddr) :
    Leaves T w s (mapAtPaddrInternal vmm virt phys flags)
      (if (mapAt r virt phys flags σ).1 then virt &&& MAPPING_STRUCTURE_MASK else 0)
      (mapAt r virt phys flags σ).2 := by
  have hidx : getPml4Idx virt=(pageOf virt).i4 := rfl
  rw [mapAtPaddrInternal.eq_def,mapAt,hidx]
  by_cases hp : (pageOf virt).i4=RECURSIVE_IDX
  · rw [if_pos hp,if_pos hp]
    exact h.ready.returns 0 trivial
  · rw [if_neg hp,if_neg hp]
    cases vmm with
    | kernel =>
      obtain rfl := hvmm
      exact mapKernel_run h hp hd phys flags
    | own pml4Phys =>
      obtain rfl := hvmm
      exact mapNonKernel_run h hr hp flags _

theorem leafNode_recursive (h : Sound σ T) (hp : p.i4=RECURSIVE_IDX) :
    T (leafNode r p)=none := by
  cases ht : T (leafNode r p) with
  | none => rfl
  | some t =>
    rw [leafNode_eq,Page.tables] at ht
    exact absurd hp (h.forest.label ht).2.1

/-- The last event is a write to the entry of the page, which becomes 0. -/
def EndsUnmapped (T : Node → Option Frame) (t : Frame) (p : Page) (m' : PhysMem)
    (evs : List Event) : Prop :=
  m' t p.i1 = 0 ∧ ∃ evs', evs = .store t p.i1 0 :: evs' ∧ Flushes T evs'

/-- Only the kernel path invalidates the page. -/
theorem unmapInternal_run (h : Usable s σ T w kr vmm) (hvmm : IsRoot kr vmm r)
    (hr : T (.root r)=some r) (hd : Editable s kr vmm (pageOf virt)) :
    ∃ m' evs, unmapInternal vmm virt s =
        some (if (unmapAt r virt σ).1 then virt &&& MAPPING_STRUCTURE_MASK else 0,
          s.update m' (unmapAt r virt σ).2.pool (evs++s.events)) ∧
      Agree w m' (unmapAt r virt σ).2.mem ∧
      (vmm = .kernel ∨ T (leafNode r (pageOf virt))=none → Flushes T evs) ∧
      (vmm ≠ .kernel → ∀ t∈T (leafNode r (pageOf virt)),
        EndsUnmapped T t (pageOf virt) m' evs) := by
  have hidx : getPml4Idx virt=(pageOf virt).i4 := rfl
  rw [unmapAt]
  by_cases hp : (pageOf virt).i4=RECURSIVE_IDX
  · rw [unmapInternal.eq_def,hidx,if_pos hp,if_pos hp,leafNode_recursive h.ready.sound hp]
    have hret : Leaves T w s (pure 0) (0 : Haddr) σ := h.ready.returns 0 trivial
    obtain ⟨m',evs,hrun,hagree,hflush,-⟩ := hret
    exact ⟨m',evs,hrun,hagree,fun _ => hflush,by simp⟩
  · rw [if_neg hp]
    cases vmm with
    | kernel =>
      obtain rfl := hvmm
      rw [unmapInternal,hidx,if_neg hp]
      obtain ⟨m',evs,hrun,hagree,hflush,-⟩ := unmapKernel_run h hp hd
      exact ⟨m',evs,hrun,hagree,fun _ => hflush,by simp⟩
    | own pml4Phys =>
      obtain rfl := hvmm
      obtain ⟨m',evs,hrun,hagree,hnone,hsome⟩ := unmapNonKernel_run h hr hp
      exact ⟨m',evs,hrun,hagree,fun hor => hnone (hor.resolve_left (by simp)),fun _ => hsome⟩

/-- The entry of the page `p` becomes `e`; new tables may appear. -/
structure Writes (σ : Tables) (T : Node → Option Frame) (σ' : Tables) (T' : Node → Option Frame)
    (r : Frame) (p : Page) (e : Word) : Prop extends Extends σ T σ' T' where
  sound : Sound σ' T'
  here : leafEntry σ'.mem r p = e
  elsewhere {r' : Frame} {p' : Page} : T (.root r') = some r' → p'.i4 ≠ RECURSIVE_IDX →
    ¬ SameLeaf r p r' p' → leafEntry σ'.mem r' p' = leafEntry σ.mem r' p'
  table : T' (leafNode r p) ≠ none

theorem SameLeaf.leafEntry (hsame : SameLeaf r p r' p') (h : Sound σ T)
    (hr : T (.root r)=some r) (hr' : T (.root r')=some r') (hp : p.i4≠RECURSIVE_IDX) :
    leafEntry σ.mem r' p'=leafEntry σ.mem r p := by
  obtain ⟨hnode,hi⟩ := (sameLeaf_iff r p r' p').mpr hsame
  rw [leafEntry_eq h hr hp,leafEntry_eq h hr' (hsame.1 ▸ hp),hnode,hi]

private theorem Grown.writes (hg : Grown σ T σ' T') (h : Sound σ T) (h' : Sound σ' T')
    (hr : T (.root r)=some r) (hp : p.i4≠RECURSIVE_IDX) (ht : T' (leafNode r p)=some t)
    (e : Word) : Writes σ T { σ' with mem := setWord σ'.mem t p.i1 e } T' r p e where
  toExtends := hg.toExtends.trans (.of_pool h' fun hf => setWord_of_frame_ne _ _ _ _
    fun heq => hf _ (heq ▸ ht))
  sound := h'.setLeaf ht e
  here := leafEntry_setLeaf h' ht (hg.keeps hr) hp e
  elsewhere hr' hp' hne :=
    (leafEntry_setLeaf_of_ne h' ht (hg.keeps hr') hp' hne e).trans (hg.leafEntry h h' hr' hp')
  table := by simp [ht]

private theorem Entries.setLeaf {is : List Index} {n : Node}
    (he : Entries virt flags n is σ T σ' T') (h' : Sound σ' T') (ht : T' (leafNode r p)=some t)
    (hkeeps : ∀ {n f}, T n=some f → T' n=some f) (i : Index) (e : Word) :
    Entries virt flags n is σ T { σ' with mem := setWord σ'.mem t i e } T' := by
  have hsame {n' : Node} {f : Frame} (hn' : T' n'=some f) (hlen : n'.path.length<3) :
      setWord σ'.mem t i e f=σ'.mem f :=
    setWord_of_frame_ne _ _ _ _ (h'.ne_of_length ht hn' (by rw [length_leafNode]; omega))
  refine ⟨fun hn hlen hoff => ?_,fun hn hlen hon => ?_,fun hn hnone hlen => ?_,
    fun hend hn hlen hon => ?_⟩ <;> dsimp only
  · rw [hsame (hkeeps hn) hlen]
    exact he.off hn hlen hoff
  · rw [hsame (hkeeps hn) hlen]
    exact he.on hn hlen hon
  · rw [hsame hn hlen]
    exact he.new hn hnone hlen
  · rw [hsame hn hlen]
    exact he.done hend hn hlen hon

/-- Tables are created and written in one address space only. -/
structure Local (σ : Tables) (T : Node → Option Frame) (σ' : Tables) (T' : Node → Option Frame)
    (d : Frame) : Prop where
  created {n : Node} {f : Frame} : T' n = some f → T n = none → n.space = some d
  tables {n : Node} {f : Frame} : T n = some f → n.space ≠ some d → σ'.mem f = σ.mem f

theorem OnPath.space {is : List Index} {n n' : Node} {i' : Index}
    (h : OnPath n is n' i') (hn : n.space=some d)
    (hlow : n.path=[] → ∀ a∈is.head?, a<KERNEL_PML4_FIRST) : n'.space=some d := by
  induction is generalizing n with
  | nil => exact h.elim
  | cons i is ih =>
    rcases h with ⟨rfl,-⟩ | h
    · exact hn
    · refine ih h ?_ (by simp)
      rw [Node.child]
      refine (if_neg fun hshared => ?_).trans hn
      exact BitVec.not_le.mpr (hlow hshared.1 i rfl) (of_decide_eq_true hshared.2)

private theorem Entries.created_space (h : Sound σ T) (h' : Sound σ' T')
    (hext : Extends σ T σ' T') (hlow : p.i4<KERNEL_PML4_FIRST)
    (he : Entries virt flags (.root d) p.tables σ T σ' T') :
    ∀ (is : List Index) {o : Option Frame} {f : Frame}, T' ⟨o, is⟩=some f → T ⟨o, is⟩=none →
      o=some d := by
  intro is
  induction is using List.reverseRecOn with
  | nil =>
    intro o f hn hnone
    cases o with
    | none => simp [h'.forest.rootless] at hn
    | some r =>
      have hroots : T' ⟨some r,[]⟩=T ⟨some r,[]⟩ := hext.roots r
      rw [hroots,hnone] at hn
      cases hn
  | append_singleton is i ih =>
    intro o f hn hnone
    -- the parent of the node
    have hlabel : is.length<3 ∧ (is=[] → i≠RECURSIVE_IDX) ∧
        (is≠[] ∨ shape.shared i=false) := by
      cases is with
      | nil =>
        obtain ⟨-,hne,hshared⟩ := h'.forest.label hn
        refine ⟨by simp,fun _ => hne,.inr ?_⟩
        by_contra hs
        rw [Bool.not_eq_false] at hs
        obtain rfl := hshared.mpr hs
        obtain ⟨g,hg⟩ := h.forest.common hs hne
        cases hnone.symm.trans hg
      | cons a is =>
        obtain ⟨hlen,-⟩ := h'.forest.label hn
        simp only [List.append_eq,List.length_append,List.length_cons,List.length_nil] at hlen
        exact ⟨by simp; omega,by simp,.inl (by simp)⟩
    have hchild : (⟨o,is⟩ : Node).child shape i=⟨o,is++[i]⟩ := by
      rw [Node.child]
      refine congrArg (fun o => Node.mk o _) (if_neg fun hsh => ?_)
      exact hlabel.2.2.elim (fun hne => hne hsh.1) fun hs => by simp [hs] at hsh
    have hlinks : (⟨o,is⟩ : Node).Links shape i :=
      ⟨hlabel.1,fun hself => hlabel.2.1 hself.1 hself.2⟩
    obtain ⟨t',ht'⟩ : ∃ t', T' ⟨o,is⟩=some t' := by
      cases hT' : T' ⟨o,is⟩ with
      | some t' => exact ⟨t',rfl⟩
      | none =>
        have := h'.forest.closed hT' hlabel.2.2
        rw [hchild,hn] at this
        cases this
    cases hT : T ⟨o,is⟩ with
    | none => exact ih ht' hT
    | some t =>
      obtain rfl := Option.some.inj ((hext.keeps hT).symm.trans ht')
      have hon : OnPath (.root d) p.tables ⟨o,is⟩ i := by
        by_contra hoff
        have hlink := h.forest.link hT hlinks
        have hlink' := h'.forest.link ht' hlinks
        rw [he.off hT hlabel.1 hoff,hchild,hn] at hlink'
        rw [hchild,hnone] at hlink
        cases hlink.trans hlink'.symm
      exact hon.space rfl fun _ a ha => by
        obtain rfl : p.i4=a := Option.some.inj ha
        exact hlow

private theorem Grown.isLocal (hg : Grown σ T σ' T') (h : Sound σ T)
    (h' : Sound σ' T') (hlow : p.i4<KERNEL_PML4_FIRST)
    (he : Entries virt flags (.root d) p.tables σ T σ' T') : Local σ T σ' T' d where
  created {n f} hn hnone := he.created_space h h' hg.toExtends hlow n.path hn hnone
  tables {n f} hn hspace := by
    rcases Nat.lt_or_ge n.path.length 3 with hlen | hlen
    · funext i
      refine he.off hn hlen fun hon => hspace (hon.space rfl fun _ a ha => ?_)
      obtain rfl : p.i4=a := Option.some.inj ha
      exact hlow
    · refine hg.leaf hn (le_antisymm ?_ hlen)
      obtain ⟨o,_ | ⟨i,is⟩⟩ := n
      · exact Nat.zero_le 3
      · exact (h.forest.label hn).1

private theorem Local.setLeaf (hl : Local σ T σ' T' d) (h' : Sound σ' T')
    (hkeeps : ∀ {n f}, T n=some f → T' n=some f) (hlow : p.i4<KERNEL_PML4_FIRST)
    (ht : T' (leafNode d p)=some t) (i : Index) (e : Word) :
    Local σ T { σ' with mem := setWord σ'.mem t i e } T' d where
  created := hl.created
  tables {n f} hn hspace := by
    dsimp only
    rw [setWord_of_frame_ne,hl.tables hn hspace]
    rintro rfl
    rw [h'.forest.inj (hkeeps hn) ht,leafNode_eq,if_neg (BitVec.not_le.mpr hlow)] at hspace
    exact hspace rfl

theorem mapPage_writes (request entry : Haddr) (h : Sound σ T) (hr : T (.root r)=some r)
    (hp : (pageOf virt).i4≠RECURSIVE_IDX) :
    ∃ T', Entries virt request (.root r) (pageOf virt).tables σ T
        (mapPage r virt request entry σ).2 T' ∧
      ((pageOf virt).i4<KERNEL_PML4_FIRST →
        Local σ T (mapPage r virt request entry σ).2 T' r) ∧
      ((mapPage r virt request entry σ).1=true ∧
        Writes σ T (mapPage r virt request entry σ).2 T' r (pageOf virt) entry ∨
      (mapPage r virt request entry σ).1=false ∧ Sound (mapPage r virt request entry σ).2 T' ∧
        Grown σ T (mapPage r virt request entry σ).2 T' ∧ T' (leafNode r (pageOf virt))=none) := by
  obtain ⟨T',σ₁,hsound,hgrown,hentries,⟨hmap,hnone⟩ | ⟨t,ht,hmap⟩⟩ :=
    mapPage_spec request entry h hr hp
  · rw [hmap]
    exact ⟨T',hentries,fun hlow => hgrown.isLocal h hsound hlow hentries,
      .inr ⟨rfl,hsound,hgrown,hnone⟩⟩
  · rw [hmap]
    refine ⟨T',hentries.setLeaf hsound ht hgrown.keeps _ _,fun hlow => ?_,
      .inl ⟨rfl,hgrown.writes h hsound hr hp ht _⟩⟩
    exact (hgrown.isLocal h hsound hlow hentries).setLeaf hsound hgrown.keeps hlow ht _ _

theorem mapAt_spec (h : Sound σ T) (hr : T (.root r)=some r) (virt phys flags : Haddr) :
    ∃ T', Entries virt flags (.root r) (pageOf virt).tables σ T (mapAt r virt phys flags σ).2 T' ∧
      ((mapAt r virt phys flags σ).1=true ∧ (pageOf virt).i4≠RECURSIVE_IDX ∧
        Writes σ T (mapAt r virt phys flags σ).2 T' r (pageOf virt)
          (phys ||| normalizeLeafFlags virt flags) ∨
      (mapAt r virt phys flags σ).1=false ∧ Sound (mapAt r virt phys flags σ).2 T' ∧
        Grown σ T (mapAt r virt phys flags σ).2 T' ∧ T' (leafNode r (pageOf virt))=none) := by
  rw [mapAt]
  by_cases hp : (pageOf virt).i4=RECURSIVE_IDX
  · rw [if_pos hp]
    have hnone := leafNode_recursive (r := r) h hp
    exact ⟨T,.refl hnone,.inr ⟨rfl,h,.refl h,hnone⟩⟩
  · rw [if_neg hp]
    obtain ⟨T',hentries,-,⟨hok,hw⟩ | hfail⟩ :=
      mapPage_writes flags (phys ||| normalizeLeafFlags virt flags) h hr hp
    · exact ⟨T',hentries,.inl ⟨hok,hp,hw⟩⟩
    · exact ⟨T',hentries,.inr hfail⟩

theorem unmapAt_spec (h : Sound σ T) (hr : T (.root r)=some r) (virt : Haddr) :
    (unmapAt r virt σ).1=true ∧ (pageOf virt).i4≠RECURSIVE_IDX ∧
        Writes σ T (unmapAt r virt σ).2 T r (pageOf virt) 0 ∧
        (∀ {n f}, T n=some f → n.path.length<3 → (unmapAt r virt σ).2.mem f=σ.mem f) ∧
        (unmapAt r virt σ).2.pool=σ.pool ∨
      unmapAt r virt σ=(false, σ) ∧
        ((pageOf virt).i4≠RECURSIVE_IDX → T (leafNode r (pageOf virt))=none) := by
  rw [unmapAt]
  by_cases hp : (pageOf virt).i4=RECURSIVE_IDX
  · rw [if_pos hp]
    exact .inr ⟨rfl,fun h => absurd hp h⟩
  · rw [if_neg hp]
    obtain ⟨hunmap,hnone⟩ | ⟨t,ht,hunmap⟩ := unmapPage_spec h hr hp
    · exact .inr ⟨hunmap,fun _ => hnone⟩
    · rw [hunmap]
      refine .inl ⟨rfl,hp,(Grown.refl h).writes h h hr hp ht 0,fun hn hlen => ?_,rfl⟩
      exact setWord_of_frame_ne _ _ _ _ (h.ne_of_length ht hn (by rw [length_leafNode]; omega))

theorem Ready.extend (h : Ready s σ T w) (hsound : Sound σ' T')
    (hkeeps : ∀ {n f}, T n=some f → T' n=some f)
    (hagree : Agree w m' σ'.mem) (ev : List Event) : Ready (s.update m' σ'.pool ev) σ' T' w :=
  ⟨hsound,hkeeps h.window,hkeeps h.current,hagree,rfl⟩

theorem KernelReady.extend (h : KernelReady s σ T w kr) (hsound : Sound σ' T')
    (hkeeps : ∀ {n f}, T n=some f → T' n=some f) (hagree : Agree w m' σ'.mem)
    (hdir : leafEntry σ'.mem kr (pageOf s.virtualDirectory) =
      leafEntry σ.mem kr (pageOf s.virtualDirectory)) (ev : List Event) :
    KernelReady (s.update m' σ'.pool ev) σ' T' w kr where
  toReady := h.toReady.extend hsound hkeeps hagree ev
  root := hkeeps h.root
  phys := h.phys
  image := h.image
  recursive := h.recursive
  apart := h.apart
  directory := by
    rw [update_virtualDirectory,hdir]
    exact h.directory

theorem Usable.extend (h : Usable s σ T w kr vmm) (hsound : Sound σ' T')
    (hkeeps : ∀ {n f}, T n=some f → T' n=some f) (hagree : Agree w m' σ'.mem)
    (hdir : vmm = .kernel → leafEntry σ'.mem kr (pageOf s.virtualDirectory) =
      leafEntry σ.mem kr (pageOf s.virtualDirectory)) (ev : List Event) :
    Usable (s.update m' σ'.pool ev) σ' T' w kr vmm := by
  cases vmm with
  | kernel => exact KernelReady.extend h hsound hkeeps hagree (hdir rfl) ev
  | own pml4Phys => exact Ready.extend h hsound hkeeps hagree ev

theorem KernelReady.writes (h : KernelReady s σ T w kr) (hw : Writes σ T σ' T' r p e)
    (hp : p≠pageOf s.virtualDirectory) (hagree : Agree w m' σ'.mem) (ev : List Event) :
    KernelReady (s.update m' σ'.pool ev) σ' T' w kr :=
  h.extend hw.sound hw.keeps hagree (hw.elsewhere h.root h.recursive fun hs => hp hs.1) ev

theorem KernelReady.map (vmm : Space) (virt : Haddr) (h : KernelReady s σ T w kr)
    (hvmm : IsRoot kr vmm r) (hr : T (.root r)=some r) (hd : Editable s kr vmm (pageOf virt))
    (hdir : pageOf virt≠pageOf s.virtualDirectory) (phys flags : Haddr) :
    ∃ m' ev T', mapAtPaddrInternal vmm virt phys flags s =
        some (if (mapAt r virt phys flags σ).1 then virt &&& MAPPING_STRUCTURE_MASK else 0,
          s.update m' (mapAt r virt phys flags σ).2.pool ev) ∧
      KernelReady (s.update m' (mapAt r virt phys flags σ).2.pool ev) (mapAt r virt phys flags σ).2
        T' w kr ∧
      Extends σ T (mapAt r virt phys flags σ).2 T' := by
  obtain ⟨m',ev,hrun,hagree,-⟩ := mapAtPaddrInternal_run (h.usable vmm) hvmm hr hd phys flags
  obtain ⟨T',-,⟨-,-,hw⟩ | ⟨-,hs',hg,-⟩⟩ := mapAt_spec h.sound hr virt phys flags
  · exact ⟨m',_,T',hrun,h.writes hw hdir hagree _,hw.toExtends⟩
  · exact ⟨m',_,T',hrun,h.step hs' hg hagree _,hg.toExtends⟩

theorem Ready.leafEntry (h : Ready s σ T w) (hr : T (.root r)=some r)
    (hp : p.i4≠RECURSIVE_IDX) (hwin : ¬ (p.tables=windowNode.path ∧ p.i1<6)) :
    leafEntry s.mem r p=leafEntry σ.mem r p := by
  have hself : Sound ⟨s.mem,σ.pool⟩ T := ⟨h.forest,h.sound.fresh⟩
  have hmem : s.mem=Tables.mem ⟨s.mem,σ.pool⟩ := rfl
  rw [hmem,leafEntry_eq hself hr hp,leafEntry_eq h.sound hr hp]
  cases ht : T (leafNode r p) with
  | none => rfl
  | some t =>
    refine h.agree t p.i1 fun ⟨htw,hlt⟩ => hwin ⟨?_,hlt⟩
    have hnode := h.sound.forest.inj ht (htw ▸ h.window)
    rw [leafNode_eq] at hnode
    exact congrArg Node.path hnode

end Hojicha.Vmm
