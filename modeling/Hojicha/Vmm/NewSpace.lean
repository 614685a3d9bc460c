import Hojicha.Vmm.Rights

/-! # A new address space -/

namespace Hojicha.Vmm

open Framework.Paging
open Function (update update_of_ne)

def rootEntries (m : PhysMem) (kr f : Frame) (flags : Haddr) (i : Index) : Word :=
  if i = RECURSIVE_IDX then
    address f ||| PAGE_PRESENT ||| PAGE_WRITABLE ||| (flags &&& PAGE_USER_ACCESIBLE)
  else if KERNEL_PML4_FIRST ≤ i then m kr i
  else 0

theorem rootEntries_self (m : PhysMem) (kr f : Frame) (flags : Haddr) :
    rootEntries m kr f flags RECURSIVE_IDX =
      address f ||| PAGE_PRESENT ||| PAGE_WRITABLE ||| (flags &&& PAGE_USER_ACCESIBLE) :=
  if_pos rfl

theorem rootEntries_upper {i : Index} (hne : i≠RECURSIVE_IDX) (hi : KERNEL_PML4_FIRST ≤ i)
    (m : PhysMem) (kr f : Frame) (flags : Haddr) : rootEntries m kr f flags i=m kr i := by
  rw [rootEntries,if_neg hne,if_pos hi]

theorem rootEntries_lower {i : Index} (hi : ¬ KERNEL_PML4_FIRST ≤ i) (m : PhysMem) (kr f : Frame)
    (flags : Haddr) : rootEntries m kr f flags i=0 := by
  rw [rootEntries,if_neg (by rintro rfl; exact hi (by decide)),if_neg hi]

/-- `vmm_new` on the tables. -/
def newRoot (kr : Frame) (flags : Haddr) (σ : Tables) : Option Frame × Tables :=
  match σ.pool.take with
  | (none, pool) => (none, { σ with pool := pool })
  | (some f, pool) => (some f, ⟨setFrame σ.mem f (rootEntries σ.mem kr f flags), pool⟩)

variable {s : Machine} {σ σ' : Tables} {T T' : Node → Option Frame} {w f kr r g : Frame} {i : Index}
  {e : Word} {flags : Haddr} {p : Page} {rest : List (Option Frame)} {m : PhysMem}
  {pool : FramePool} {n : Node}

theorem Sound.congr_free (h : Sound σ T)
    (hmem : ∀ {n g}, T n=some g → m g=σ.mem g)
    (hpool : ∀ {g}, pool.free g=true → σ.pool.free g=true) : Sound ⟨m, pool⟩ T := by
  refine ⟨h.forest.congr fun {n g i} hn _ => ?_,fun hg => h.fresh (hpool hg)⟩
  dsimp only
  rw [hmem hn]
  exact ⟨rfl,fun _ => ⟨rfl,rfl⟩⟩

theorem KernelReady.congr_free (h : KernelReady s σ T w kr) {m' : PhysMem}
    (hmem : ∀ {n g}, T n=some g → m g=σ.mem g)
    (hpool : ∀ {g}, pool.free g=true → σ.pool.free g=true) (hagree : Agree w m' m)
    (ev : List Event) : KernelReady (s.update m' pool ev) ⟨m, pool⟩ T w kr := by
  have hsound := h.sound.congr_free hmem hpool
  refine ⟨⟨hsound,h.window,h.current,hagree,rfl⟩,h.root,h.phys,h.image,h.recursive,h.apart,?_⟩
  have hdir := h.directory
  rw [leafEntry_eq h.sound h.root h.recursive] at hdir
  have hleaf := leafEntry_eq hsound h.root h.recursive
  dsimp only at hleaf
  rw [update_virtualDirectory,hleaf]
  cases ht : T (leafNode kr (pageOf s.virtualDirectory)) with
  | none =>
    rw [ht] at hdir
    exact absurd hdir.present (show ¬ isPresent 0=true by decide)
  | some t =>
    rw [ht] at hdir
    dsimp only
    rwa [hmem ht]

theorem KernelReady.show (h : KernelReady s σ T w kr) {ptr : Haddr} {k : Index}
    (hk : IsWindow ptr k) (f : Frame) :
    ∃ m' ev, scratchMapTable ptr (address f) s=some (ptr, s.update m' σ.pool ev) ∧
      KernelReady (s.update m' σ.pool ev) σ T w kr ∧ m' w k=windowEntry f ∧
      ∀ j, j≠k → m' w j=s.mem w j := by
  obtain ⟨ev,hmap⟩ := exists_events (scratchMapTable_run h.windowed hk f)
  rw [h.pool] at hmap
  refine ⟨_,ev,hmap,h.step h.sound (.refl h.sound)
    ((agree_setWindow _ hk.small _).trans h.agree) ev,setWord_self ..,fun j hj => ?_⟩
  exact setWord_of_ne _ _ _ _ fun heq => hj heq.2

def copiedEntries (m : PhysMem) (kr f : Frame) (is : List Index) : PhysMem :=
  setFrame m f fun i => if i ∈ is ∧ i ≠ RECURSIVE_IDX then m kr i else m f i

private theorem copiedEntries_cons (hf : kr≠f) (is : List Index) :
    copiedEntries m kr f (i::is)=if i=RECURSIVE_IDX then copiedEntries m kr f is else
      copiedEntries (setWord m f i (m kr i)) kr f is := by
  funext g j
  by_cases hg : g=f
  · subst hg
    split_ifs with hi
    · simp only [copiedEntries,setFrame_self,List.mem_cons]
      by_cases hj : j=i
      · simp [hj,hi]
      · simp [hj]
    · simp only [copiedEntries,setFrame_self,List.mem_cons,setWord_of_frame_ne _ _ _ _ hf]
      by_cases hj : j=i
      · subst hj
        simp [hi]
      · simp [hj,setWord]
  · split_ifs with hi
    · simp only [copiedEntries,setFrame_of_ne _ _ _ hg]
    · simp only [copiedEntries,setFrame_of_ne _ _ _ hg,setWord_of_frame_ne _ _ _ _ hg]

private theorem copyUpperHalf_run (h : KernelReady s σ T w kr) (hf : ∀ n, T n≠some f)
    (hnew : s.mem w 2=windowEntry f) (hkernel : s.mem w 3=windowEntry kr) (is : List Index) :
    ∃ ev, copyUpperHalf VIRT_SCRATCH_L4 VIRT_SCRATCH_L3 is s =
        some ((), s.update (copiedEntries s.mem kr f is) s.pool ev) ∧
      KernelReady (s.update (copiedEntries s.mem kr f is) s.pool ev)
        ⟨copiedEntries σ.mem kr f is, σ.pool⟩ T w kr := by
  have hkf : kr≠f := fun heq => hf _ (heq ▸ h.root)
  have hwf : w≠f := fun heq => hf _ (heq ▸ h.window)
  induction is generalizing s σ with
  | nil =>
    have hnil (m : PhysMem) : copiedEntries m kr f []=m := by
      funext g
      by_cases hg : g=f
      · simp [copiedEntries,hg]
      · simp [copiedEntries,setFrame_of_ne _ _ _ hg]
    rw [hnil,hnil,copyUpperHalf]
    exact ⟨s.events,rfl,h⟩
  | cons i is ih =>
    rw [copyUpperHalf,copiedEntries_cons hkf,copiedEntries_cons hkf]
    by_cases hi : i=RECURSIVE_IDX
    · rw [if_pos hi,if_pos hi,if_neg (not_not.mpr hi)]
      exact ih h hnew hkernel
    · have hkr := congrFun (h.inner_eq h.root (by simp [Node.root])) i
      obtain ⟨ev,hwrite⟩ := exists_events
        (writeWord_run (i := i) (h.reaches_window isWindow_l4 hnew) (s.mem kr i))
      have hready : KernelReady (s.update (setWord s.mem f i (s.mem kr i)) s.pool ev)
          ⟨setWord σ.mem f i (σ.mem kr i),σ.pool⟩ T w kr := by
        rw [h.pool,← hkr]
        exact h.congr_free (fun hn => setWord_of_frame_ne _ _ _ _ fun hg => hf _ (hg ▸ hn)) id
          (h.agree.setWord f i _) ev
      rw [if_neg hi,if_neg hi,if_pos hi,
        bind_run (readWord_run (h.reaches_window isWindow_l3 hkernel)),bind_run hwrite]
      exact ih hready (by rw [update_mem,setWord_of_frame_ne _ _ _ _ hwf,hnew])
        (by rw [update_mem,setWord_of_frame_ne _ _ _ _ hwf,hkernel])

private theorem mem_upperIndices : i∈upperIndices ↔ KERNEL_PML4_FIRST ≤ i := by
  simp only [upperIndices,List.mem_map,List.mem_range'_1,KERNEL_PML4_FIRST,BitVec.le_def]
  constructor
  · rintro ⟨k,⟨hk,hlt⟩,rfl⟩
    rw [BitVec.toNat_ofNat,Nat.mod_eq_of_lt (by omega)]
    exact hk
  · exact fun hi => ⟨i.toNat,⟨hi,by have := i.isLt; omega⟩,by simp⟩

private theorem setWord_copiedEntries (hf : kr≠f) :
    setWord (copiedEntries (setFrame m f fun _ => 0) kr f upperIndices) f RECURSIVE_IDX
      (address f ||| PAGE_PRESENT ||| PAGE_WRITABLE ||| (flags &&& PAGE_USER_ACCESIBLE)) =
    setFrame m f (rootEntries m kr f flags) := by
  funext g j
  by_cases hg : g=f
  · subst hg
    by_cases hj : j=RECURSIVE_IDX
    · subst hj
      rw [setWord_self,setFrame_self,rootEntries,if_pos rfl]
    · rw [setWord_of_ne _ _ _ _ fun h => hj h.2]
      simp [copiedEntries,rootEntries,setFrame_of_ne _ _ _ hf,mem_upperIndices,hj]
  · rw [setWord_of_frame_ne _ _ _ _ hg,copiedEntries,setFrame_of_ne _ _ _ hg,
      setFrame_of_ne _ _ _ hg,setFrame_of_ne _ _ _ hg]

theorem take_free (h : σ.pool.take=(some f, pool)) :
    σ.pool.free f=true ∧ f≠0 ∧ ∃ rest, pool=σ.pool.without f rest := by
  obtain ⟨rest,htake⟩ | ⟨g,rest,hfree,hg,htake⟩ := take_cases σ.pool
  · simp [htake] at h
  · obtain ⟨rfl,rfl⟩ : g=f ∧ _=pool := by simpa [htake] using h
    exact ⟨hfree,hg,rest,rfl⟩

theorem newPml4_run (h : KernelReady s σ T w kr) (flags : Haddr) :
    ∃ m' ev, newPml4 flags s=some ((newRoot kr flags σ).1.map address,
        s.update m' (newRoot kr flags σ).2.pool ev) ∧
      Agree w m' (newRoot kr flags σ).2.mem := by
  rw [newPml4,bind_run (pmmAllocFrame_run s),h.pool]
  cases htake : σ.pool.take with
  | mk res pool =>
    cases res with
    | none =>
      refine ⟨s.mem,s.events,?_,?_⟩ <;> simp only [newRoot,htake]
      · rfl
      · exact h.agree
    | some f =>
      obtain ⟨hfree,hf0,rest,rfl⟩ := take_free htake
      have hfresh := h.sound.fresh hfree
      have haddr : address f≠0 := by rwa [ne_eq,address_eq_zero_iff]
      have hkf : kr≠f := fun heq => hfresh _ (heq ▸ h.root)
      have hwf : w≠f := fun heq => hfresh _ (heq ▸ h.window)
      have hpool {g : Frame} (hg : (σ.pool.without f rest).free g=true) : σ.pool.free g=true :=
        (without_free.mp hg).1
      obtain ⟨pool,hpool'⟩ : ∃ pool, σ.pool.without f rest=pool := ⟨_,rfl⟩
      rw [hpool'] at hpool
      rw [if_neg (show ¬ (some f).elim 0 address=0 from haddr)]
      simp only [newRoot,htake,hpool',Option.elim_some,Option.map_some]
      -- both roots are shown, the new one is cleared and filled
      have h₁ : KernelReady (s.update s.mem pool s.events) ⟨σ.mem,pool⟩ T w kr :=
        h.congr_free (fun _ => rfl) hpool h.agree _
      obtain ⟨m₂,ev₂,hmap₂,h₂,hnew₂,-⟩ := h₁.show isWindow_l4 f
      obtain ⟨m₃,ev₃,hmap₃,h₃,hkernel₃,hother₃⟩ := h₂.show isWindow_l3 kr
      dsimp only [update_update,update_mem] at hmap₂ h₂ hmap₃ h₃ hother₃
      have hnew₃ : m₃ w 2=windowEntry f := (hother₃ 2 (by decide)).trans hnew₂
      obtain ⟨ev₄,hset⟩ := exists_events
        (memsetPage_run (h₃.reaches_window isWindow_l4 hnew₃))
      have h₄ : KernelReady (s.update (setFrame m₃ f fun _ => 0) pool ev₄)
          ⟨setFrame σ.mem f fun _ => 0,pool⟩ T w kr :=
        h₃.congr_free (fun hn => setFrame_of_ne _ _ _ fun hg => hfresh _ (hg ▸ hn)) id
          (h₃.agree.setFrame f _) ev₄
      have hwindow (k : Index) : setFrame m₃ f (fun _ => 0) w k=m₃ w k := by
        rw [setFrame_of_ne _ _ _ hwf]
      obtain ⟨ev₅,hcopy,h₅⟩ := copyUpperHalf_run h₄ hfresh ((hwindow 2).trans hnew₃)
        ((hwindow 3).trans hkernel₃) upperIndices
      have hnew₅ : copiedEntries (setFrame m₃ f fun _ => 0) kr f upperIndices w 2=windowEntry f := by
        rw [copiedEntries,setFrame_of_ne _ _ _ hwf,hwindow,hnew₃]
      obtain ⟨ev₆,hwrite⟩ := exists_events (writeWord_run (i := RECURSIVE_IDX)
        (h₅.reaches_window isWindow_l4 hnew₅)
        (address f ||| PAGE_PRESENT ||| PAGE_WRITABLE ||| (flags &&& PAGE_USER_ACCESIBLE)))
      dsimp only [update_update,update_mem,update_pool] at hset hcopy hwrite
      rw [setWord_copiedEntries hkf] at hwrite
      refine ⟨setFrame m₃ f (rootEntries m₃ kr f flags),ev₆,?_,?_⟩
      · rw [bind_run hmap₂,bind_run (get_run _),update_kernelPml4Phys,h.phys,bind_run hmap₃,
          if_neg (not_or.mpr ⟨isWindow_l4.ne_null,isWindow_l3.ne_null⟩),bind_run hset,
          bind_run hcopy,bind_run hwrite]
        rfl
      · have hagree := h₅.agree.setWord f RECURSIVE_IDX
          (address f ||| PAGE_PRESENT ||| PAGE_WRITABLE ||| (flags &&& PAGE_USER_ACCESIBLE))
        dsimp only [update_mem] at hagree
        rwa [setWord_copiedEntries hkf,setWord_copiedEntries hkf] at hagree

def addRoot (T : Node → Option Frame) (f : Frame) : Node → Option Frame :=
  update T (.root f) (some f)

theorem addRoot_keeps (hf : ∀ n, T n≠some f) (hT : ∀ {r g}, T (.root r)=some g → g=r)
    (hn : T n=some g) : addRoot T f n=some g := by
  rw [addRoot,update_of_ne,hn]
  rintro rfl
  exact hf _ (hT hn ▸ hn)

theorem addRoot_eq_some (hn : addRoot T f n=some g) :
    T n=some g ∨ n = .root f ∧ g=f := by
  by_cases hroot : n = .root f
  · subst hroot
    rw [addRoot,Function.update_self,Option.some.injEq] at hn
    exact .inr ⟨rfl,hn.symm⟩
  · rw [addRoot,update_of_ne hroot] at hn
    exact .inl hn

theorem addRoot_leafNode (r : Frame) (p : Page) :
    addRoot T f (leafNode r p)=T (leafNode r p) := by
  refine update_of_ne (fun heq => ?_) _ _
  have hlen := length_leafNode r p
  simp [heq,Node.root] at hlen

private theorem leadsTo_selfEntry (f : Frame) (flags : Haddr) :
    LeadsTo (address f ||| PAGE_PRESENT ||| PAGE_WRITABLE ||| (flags &&& PAGE_USER_ACCESIBLE)) f := by
  obtain ⟨hp,hw,ht⟩ := bits_windowEntry f
  rw [windowEntry,← BitVec.or_assoc] at hp hw ht
  refine ⟨by rw [isPresent_or,hp,Bool.true_or],by rw [isWritable_or,hw,Bool.true_or],?_⟩
  rw [target_or,ht,target_and,show target PAGE_USER_ACCESIBLE=0 by decide]
  simp

structure RootAdded (σ : Tables) (T : Node → Option Frame) (σ' : Tables) (kr f : Frame)
    (flags : Haddr) : Prop where
  free : σ.pool.free f = true
  ne : f ≠ 0
  mem : σ'.mem = setFrame σ.mem f (rootEntries σ.mem kr f flags)
  pool : ∃ rest, σ'.pool = σ.pool.without f rest
  sound : Sound σ' (addRoot T f)

theorem newRoot_spec (h : Sound σ T) (hk : T (.root kr)=some kr) (flags : Haddr) :
    (∃ rest, newRoot kr flags σ=(none, { σ with pool := σ.pool.fail rest })) ∨
    ∃ f, (newRoot kr flags σ).1=some f ∧
      RootAdded σ T (newRoot kr flags σ).2 kr f flags := by
  obtain ⟨rest,htake⟩ | ⟨f,rest,hfree,hf0,htake⟩ := take_cases σ.pool
  · exact .inl ⟨rest,by rw [newRoot,htake]⟩
  · rw [newRoot,htake]
    refine .inr ⟨f,rfl,hfree,hf0,rfl,⟨rest,rfl⟩,?_,fun {g} hg n hn => ?_⟩
    · have hself := leadsTo_selfEntry f flags
      refine h.forest.newRoot (h.fresh hfree) ?_ (fun {i g} hs hi hg => ?_) (fun {i} hs hi => ?_)
        fun hg => setFrame_of_ne _ _ _ hg <;> dsimp only
      · rw [setFrame_self,show shape.self=RECURSIVE_IDX from rfl,rootEntries_self]
        exact ⟨hself.present,hself.writable,hself.target⟩
      · have hlead := h.forest.leadsTo (n := .root kr) (i := i) hk
          ⟨by simp [Node.root],fun hself => hi hself.2⟩
          (by simpa [Node.child,Node.root,hs] using hg)
        rw [setFrame_self,rootEntries_upper hi (of_decide_eq_true hs)]
        exact ⟨hlead.present,hlead.writable,hlead.target⟩
      · rw [setFrame_self,rootEntries_lower (of_decide_eq_false hs)]
        decide
    · obtain ⟨hg,hgf⟩ := without_free.mp hg
      rcases addRoot_eq_some hn with hn | ⟨-,heq⟩
      · exact h.fresh hg n hn
      · exact hgf heq

namespace RootAdded

variable (ha : RootAdded σ T σ' kr f flags) (h : Sound σ T)
include ha h

theorem keeps (hn : T n=some g) : addRoot T f n=some g :=
  addRoot_keeps (h.fresh ha.free) h.forest.root hn

theorem mem_table (hn : T n=some g) : σ'.mem g=σ.mem g := by
  rw [ha.mem,setFrame_of_ne]
  rintro rfl
  exact h.fresh ha.free n hn

theorem leafEntry_old (hr : T (.root r)=some r) (hp : p.i4≠RECURSIVE_IDX) :
    leafEntry σ'.mem r p=leafEntry σ.mem r p := by
  rw [leafEntry_eq ha.sound (ha.keeps h hr) hp,leafEntry_eq h hr hp,addRoot_leafNode]
  cases ht : T (leafNode r p) with
  | none => rfl
  | some t => exact congrFun (ha.mem_table h ht) _

theorem lower_none (hspace : n.space=some f) (hne : n.path≠[]) : addRoot T f n=none := by
  have hroot : T (.root f)=none := by
    cases hT : T (.root f) with
    | none => rfl
    | some g => exact absurd (h.forest.root hT ▸ hT) (h.fresh ha.free _)
  obtain ⟨o,js⟩ := n
  obtain rfl : o=some f := hspace
  rw [addRoot,update_of_ne (by simpa [Node.root] using hne)]
  cases hT : T ⟨some f,js⟩ with
  | none => rfl
  | some g =>
    cases js with
    | nil => exact absurd rfl hne
    | cons i js =>
      have hlabel := (h.forest.label hT).2.2
      have hshared : shape.shared i=false := by
        simpa using hlabel.not.mp (by simp)
      have hchild := h.forest.closed hroot (i := i) (.inr hshared)
      rw [Node.child,if_neg (by simp [hshared])] at hchild
      have := h.forest.closed_descend js hchild (by simp)
      rw [Node.descend_of_ne_nil (by simp)] at this
      simp [Node.root,hT] at this

theorem leafEntry_lower (hp : p.i4<KERNEL_PML4_FIRST) : leafEntry σ'.mem f p=0 := by
  have hp' := BitVec.not_le.mpr hp
  have hne := ne_recursive_of_lower hp
  have hroot : addRoot T f (.root f)=some f := Function.update_self ..
  have hnone : addRoot T f (leafNode f p)=none := by
    rw [leafNode_eq,if_neg hp']
    exact ha.lower_none h rfl (by simp [Page.tables])
  rw [leafEntry_eq ha.sound hroot hne,hnone]

end RootAdded

theorem KernelReady.addRoot (hk : KernelReady s σ T w kr) (ha : RootAdded σ T σ' kr f flags)
    {m' : PhysMem} (hagree : Agree w m' σ'.mem) (ev : List Event) :
    KernelReady (s.update m' σ'.pool ev) σ' (Vmm.addRoot T f) w kr where
  sound := ha.sound
  window := ha.keeps hk.sound hk.window
  current := ha.keeps hk.sound hk.current
  agree := hagree
  pool := rfl
  root := ha.keeps hk.sound hk.root
  phys := hk.phys
  image := hk.image
  recursive := hk.recursive
  apart := hk.apart
  directory := by
    rw [update_virtualDirectory,ha.leafEntry_old hk.sound hk.root hk.recursive]
    exact hk.directory

theorem KernelReady.newSpace (h : KernelReady s σ T w kr) (flags : Haddr) :
    ∃ m' ev, newPml4 flags s=some ((newRoot kr flags σ).1.map address,
        s.update m' (newRoot kr flags σ).2.pool ev) ∧
      (newRoot kr flags σ).1.elim
        (KernelReady (s.update m' (newRoot kr flags σ).2.pool ev) (newRoot kr flags σ).2 T w kr)
        fun f => RootAdded σ T (newRoot kr flags σ).2 kr f flags ∧
          KernelReady (s.update m' (newRoot kr flags σ).2.pool ev) (newRoot kr flags σ).2
            (Vmm.addRoot T f) w kr := by
  obtain ⟨m',ev,hrun,hagree⟩ := newPml4_run h flags
  refine ⟨m',ev,hrun,?_⟩
  obtain ⟨rest,hnone⟩ | ⟨f,hsome,ha⟩ := newRoot_spec h.sound h.root flags
  · have hpool {g : Frame} : (σ.pool.fail rest).free g=true → σ.pool.free g=true := id
    rw [hnone] at hagree ⊢
    exact h.congr_free (fun _ => rfl) hpool hagree ev
  · rw [hsome]
    exact ⟨ha,h.addRoot ha hagree ev⟩

end Hojicha.Vmm
