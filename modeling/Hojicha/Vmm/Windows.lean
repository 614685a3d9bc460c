import Hojicha.Vmm.Tables

/-!
# Access through the scratch windows

The six windows are the first pages of one table, which every address space shares.
-/

namespace Hojicha.Vmm

open Framework.Paging BitVec

section Run

variable {S α β : Type} {x : StateT S Option α} {g : α → StateT S Option β} {s s' : S} {a : α}

theorem bind_run (h : x s=some (a, s')) : (x >>= g) s=g a s' := by
  change (x s).bind _=_
  rw [h]
  rfl

theorem pure_run (a : α) (s : Machine) : (pure a : M α) s=some (a, s) := rfl

theorem get_run (s : Machine) : (get : M Machine) s=some (s, s) := rfl

end Run

def Machine.update (s : Machine) (m : PhysMem) (p : FramePool) (ev : List Event) : Machine :=
  { s with mem := m, pool := p, events := ev }

section Update

variable (s : Machine) (m m' : PhysMem) (p p' : FramePool) (ev ev' : List Event)

@[simp] theorem update_mem : (s.update m p ev).mem=m := rfl
@[simp] theorem update_cr3 : (s.update m p ev).cr3=s.cr3 := rfl
@[simp] theorem update_pool : (s.update m p ev).pool=p := rfl
@[simp] theorem update_events : (s.update m p ev).events=ev := rfl
@[simp] theorem update_kernelPml4Phys :
    (s.update m p ev).kernelPml4Phys=s.kernelPml4Phys := rfl
@[simp] theorem update_virtualDirectory :
    (s.update m p ev).virtualDirectory=s.virtualDirectory := rfl
@[simp] theorem update_update : (s.update m p ev).update m' p' ev'=s.update m' p' ev' := rfl
theorem update_self : s.update s.mem s.pool s.events=s := rfl

end Update

variable {s : Machine} {ptr src virt phys : Haddr} {t u w f : Frame} {i j k : Index} {e : Word}
  {m : PhysMem}

section

variable (h : Reaches s.mem s.cr3 (pageOf ptr).path t)
include h

theorem readWord_run : readWord ptr i s=some (s.mem t i, s) := by
  rw [readWord,h.load]
  rfl

theorem writeWord_run (e : Word) : writeWord ptr i e s =
      some ((), s.update (setWord s.mem t i e) s.pool (.store t i e::s.events)) := by
  rw [writeWord,h.writableFrame]
  rfl

theorem memsetPage_run : memsetPage ptr s =
      some ((), s.update (setFrame s.mem t fun _ => 0) s.pool (.fill t::s.events)) := by
  rw [memsetPage,h.writableFrame]
  rfl

theorem memcpyPage_run (h' : Reaches s.mem s.cr3 (pageOf src).path u) :
    ∃ ev, memcpyPage ptr src s=some ((), s.update (setFrame s.mem t (s.mem u)) s.pool ev) := by
  refine ⟨.fill t::s.events,?_⟩
  simp only [memcpyPage,h.writableFrame,h'.follow,Option.bind_eq_bind,Option.bind_some]
  rfl

end

theorem invlpg_run (virt : Haddr) (s : Machine) :
    invlpg virt s=some ((), s.update s.mem s.pool (.invlpg virt::s.events)) := rfl

theorem pmmFreeFrame_run (addr : Haddr) (s : Machine) :
    pmmFreeFrame addr s=some ((), s.update s.mem (s.pool.give (target addr)) s.events) := rfl

theorem pmmAllocFrame_run (s : Machine) : pmmAllocFrame s =
    some ((s.pool.take.1.elim 0 address), s.update s.mem s.pool.take.2 s.events) := by
  rw [pmmAllocFrame]
  cases s.pool.take with
  | mk r pool => cases r <;> rfl

theorem exists_events {α : Type} {x : M α} {a : α} {pool : FramePool} {ev : List Event}
    (h : x s=some (a, s.update m pool ev)) : ∃ ev, x s=some (a, s.update m pool ev) :=
  ⟨ev,h⟩

theorem pageOf_recursiveAddr (a b c d : Index) : pageOf (recursiveAddr a b c d)=⟨a, b, c, d⟩ := by
  have hbit (x : Index) (k : Nat) (i : Nat) : (x.setWidth 64 <<< k).getLsbD i =
      (decide (i<64) && !decide (i<k) && x.getLsbD (i-k)) := by
    rw [getLsbD_shiftLeft,getLsbD_setWidth]
    by_cases h : i<64
    · have : i-k<64 := by omega
      simp [h,this]
    · simp [h]
  have hhigh (i : Nat) (hi : i<48) : CANONICAL_HIGH.getLsbD i=false := by
    have : ∀ i<48, CANONICAL_HIGH.getLsbD i=false := by decide
    exact this i hi
  have hout (x : Index) {n : Nat} (hn : 9≤n) : x.getLsbD n=false := getLsbD_of_ge x n hn
  simp only [pageOf,recursiveAddr,Page.mk.injEq]
  refine ⟨?_,?_,?_,?_⟩
  · ext n hn
    simp only [getElem_extractLsb',getLsbD_or,hbit,hhigh (39+n) (by omega),
      hout b (show 9≤39+n-30 by omega),hout c (show 9≤39+n-21 by omega),
      hout d (show 9≤39+n-12 by omega),Bool.and_false,Bool.or_false,Bool.false_or]
    have h1 : 39+n<64 := by omega
    have h2 : ¬ 39+n<39 := by omega
    simp [h1,h2,getLsbD_eq_getElem hn]
  · ext n hn
    simp only [getElem_extractLsb',getLsbD_or,hbit,hhigh (30+n) (by omega),
      hout c (show 9≤30+n-21 by omega),hout d (show 9≤30+n-12 by omega),
      Bool.and_false,Bool.or_false,Bool.false_or]
    have h1 : 30+n<64 := by omega
    have h2 : ¬ 30+n<30 := by omega
    have h3 : 30+n<39 := by omega
    simp [h1,h2,h3,getLsbD_eq_getElem hn]
  · ext n hn
    simp only [getElem_extractLsb',getLsbD_or,hbit,hhigh (21+n) (by omega),
      hout d (show 9≤21+n-12 by omega),Bool.and_false,Bool.or_false,Bool.false_or]
    have h1 : 21+n<64 := by omega
    have h2 : ¬ 21+n<21 := by omega
    have h3 : 21+n<39 := by omega
    have h4 : 21+n<30 := by omega
    simp [h1,h2,h3,h4,getLsbD_eq_getElem hn]
  · ext n hn
    simp only [getElem_extractLsb',getLsbD_or,hbit,hhigh (12+n) (by omega),
      Bool.false_or]
    have h1 : 12+n<64 := by omega
    have h2 : ¬ 12+n<12 := by omega
    have h3 : 12+n<39 := by omega
    have h4 : 12+n<30 := by omega
    have h5 : 12+n<21 := by omega
    simp [h1,h2,h3,h4,h5,getLsbD_eq_getElem hn]

theorem pageOf_base (virt : Haddr) : pageOf (virt &&& MAPPING_STRUCTURE_MASK)=pageOf virt := by
  have hbits {n : Nat} (hn : 12≤n) (hn' : n≤39) :
      (virt &&& MAPPING_STRUCTURE_MASK).extractLsb' n 9=virt.extractLsb' n 9 := by
    have hmask : MAPPING_STRUCTURE_MASK.extractLsb' n 9=allOnes 9 := by
      interval_cases n <;> decide
    rw [extractLsb'_and,hmask,and_allOnes]
  rw [pageOf,pageOf,hbits (by omega) (by omega),hbits (by omega) (by omega),
    hbits (by omega) (by omega),hbits (by omega) (by omega)]

structure IsWindow (ptr : Haddr) (k : Index) : Prop where
  page : pageOf ptr = ⟨511, 509, 384, k⟩
  small : k < 6
  ne_null : ptr ≠ NULL
  base_ne_zero : ptr &&& MAPPING_STRUCTURE_MASK ≠ 0

theorem isWindow_page : IsWindow VIRT_SCRATCH_ADDR 0 := ⟨by decide,by decide,by decide,by decide⟩
theorem isWindow_pml4 : IsWindow VIRT_PML4 1 := ⟨by decide,by decide,by decide,by decide⟩
theorem isWindow_l4 : IsWindow VIRT_SCRATCH_L4 2 := ⟨by decide,by decide,by decide,by decide⟩
theorem isWindow_l3 : IsWindow VIRT_SCRATCH_L3 3 := ⟨by decide,by decide,by decide,by decide⟩
theorem isWindow_l2 : IsWindow VIRT_SCRATCH_L2 4 := ⟨by decide,by decide,by decide,by decide⟩
theorem isWindow_l1 : IsWindow VIRT_SCRATCH_L1 5 := ⟨by decide,by decide,by decide,by decide⟩

def windowEntry (f : Frame) : Word := address f ||| (PAGE_PRESENT ||| PAGE_WRITABLE)

theorem bits_windowEntry (f : Frame) :
    isPresent (windowEntry f)=true ∧ isWritable (windowEntry f)=true ∧
      target (windowEntry f)=f := by
  have h : isPresent (PAGE_PRESENT ||| PAGE_WRITABLE)=true ∧
      isWritable (PAGE_PRESENT ||| PAGE_WRITABLE)=true ∧
      target (PAGE_PRESENT ||| PAGE_WRITABLE)=0 := by decide
  refine ⟨?_,?_,?_⟩
  · rw [windowEntry,isPresent_or,h.1,Bool.or_true]
  · rw [windowEntry,isWritable_or,h.2.1,Bool.or_true]
  · rw [windowEntry,target_or,target_address,h.2.2]
    simp

/-- The loaded root leads to the table `w` of the windows. -/
structure Windowed (m : PhysMem) (cr3 w : Frame) : Prop where
  self : LeadsTo (m cr3 RECURSIVE_IDX) cr3
  tables : ∃ t3 t2, LeadsTo (m cr3 511) t3 ∧ LeadsTo (m t3 509) t2 ∧ LeadsTo (m t2 384) w

variable {cr3 : Frame} {m' : PhysMem}

section

variable (h : Windowed m cr3 w)
include h

theorem Windowed.congr
    (hsame : ∀ f i u, i∈[510, 511, 509, 384] → LeadsTo (m f i) u → LeadsTo (m' f i) u) :
    Windowed m' cr3 w := by
  obtain ⟨t3,t2,h4,h3,h2⟩ := h.tables
  exact ⟨hsame _ _ _ (by decide) h.self,t3,t2,hsame _ _ _ (by decide) h4,
    hsame _ _ _ (by decide) h3,hsame _ _ _ (by decide) h2⟩

theorem Windowed.setWindow (hk : k<6) (f : Frame) (e : Word) :
    Windowed (setWord m f k e) cr3 w := by
  refine h.congr fun g i u hi hlead => ?_
  rw [setWord_of_ne]
  · exact hlead
  · rintro ⟨-,rfl⟩
    simp only [List.mem_cons,List.not_mem_nil,or_false] at hi
    rcases hi with rfl | rfl | rfl | rfl <;> exact absurd hk (by decide)

theorem Windowed.setAbsent (habsent : isPresent (m t i)=false)
    (e : Word) : Windowed (setWord m t i e) cr3 w := by
  refine h.congr fun g j u _ hlead => ?_
  rw [setWord_of_ne]
  · exact hlead
  · rintro ⟨rfl,rfl⟩
    have := hlead.present
    simp [habsent] at this

theorem Windowed.reaches_window (hk : IsWindow ptr k)
    (hf : m w k=windowEntry f) : Reaches m cr3 (pageOf ptr).path f := by
  obtain ⟨t3,t2,h4,h3,h2⟩ := h.tables
  obtain ⟨hp,hw,ht⟩ := bits_windowEntry f
  rw [hk.page]
  exact h4.reaches (h3.reaches (h2.reaches
    (.cons (by rw [hf,hp]) (by rw [hf,hw]) (by rw [hf,ht]; exact reaches_nil m f))))

end

private theorem ensureTable_present {table child : Haddr}
    (h : Reaches s.mem s.cr3 (pageOf table).path t) (hp : isPresent (s.mem t i)=true) :
    ensureTable table i child s=some ((), s) := by
  rw [ensureTable,bind_run (readWord_run h),hasFlag_mapped hp]
  rfl

private theorem mapInCurrentCr3_run (h : Windowed s.mem s.cr3 w) (hk : IsWindow ptr k)
    (phys flags : Haddr) :
    mapInCurrentCr3 ptr phys flags s=some (ptr &&& MAPPING_STRUCTURE_MASK,
      s.update (setWord s.mem w k (phys ||| flags)) s.pool
        (.invlpg ptr :: .store w k (phys ||| flags)::s.events)) := by
  obtain ⟨t3,t2,h4,h3,h2⟩ := h.tables
  have hpage := hk.page
  have hi4 : getPml4Idx ptr=511 := congrArg Page.i4 hpage
  have hi3 : getPml3Idx ptr=509 := congrArg Page.i3 hpage
  have hi2 : getPdIdx ptr=384 := congrArg Page.i2 hpage
  have hi1 : getPtIdx ptr=k := congrArg Page.i1 hpage
  have hself {is : List Index} {u : Frame} (hu : Reaches s.mem s.cr3 is u) :
      Reaches s.mem s.cr3 (RECURSIVE_IDX::is) u := h.self.reaches hu
  have hr4 : Reaches s.mem s.cr3 (pageOf getCurrentPml4).path s.cr3 := by
    rw [getCurrentPml4,pageOf_recursiveAddr]
    exact hself (hself (hself (hself (reaches_nil _ _))))
  have hr3 : Reaches s.mem s.cr3 (pageOf (getPml4Entry ptr)).path t3 := by
    rw [getPml4Entry,pageOf_recursiveAddr,hi4]
    exact hself (hself (hself (h4.reaches (reaches_nil _ _))))
  have hr2 : Reaches s.mem s.cr3 (pageOf (getPml3Entry ptr)).path t2 := by
    rw [getPml3Entry,pageOf_recursiveAddr,hi4,hi3]
    exact hself (hself (h4.reaches (h3.reaches (reaches_nil _ _))))
  have hr1 : Reaches s.mem s.cr3 (pageOf (getPdEntry ptr)).path w := by
    rw [getPdEntry,pageOf_recursiveAddr,hi4,hi3,hi2]
    exact hself (h4.reaches (h3.reaches (h2.reaches (reaches_nil _ _))))
  have hne : getPml4Idx ptr≠RECURSIVE_IDX := by
    rw [hi4]
    decide
  rw [mapInCurrentCr3,if_neg hne,bind_run (ensureTable_present hr4 (by rw [hi4]; exact h4.present)),
    bind_run (ensureTable_present hr3 (by rw [hi3]; exact h3.present)),
    bind_run (ensureTable_present hr2 (by rw [hi2]; exact h2.present)),
    bind_run (writeWord_run hr1 _),bind_run (invlpg_run _ _),hi1]
  rfl

/-- The entry of the window is written, and its page invalidated twice. -/
def windowEvents (ptr : Haddr) (w : Frame) (k : Index) (f : Frame) : List Event :=
  [.invlpg ptr, .invlpg ptr, .store w k (windowEntry f)]

theorem scratchMapTable_run (h : Windowed s.mem s.cr3 w) (hk : IsWindow ptr k) (f : Frame) :
    scratchMapTable ptr (address f) s=some (ptr, s.update (setWord s.mem w k (windowEntry f))
      s.pool (windowEvents ptr w k f++s.events)) := by
  rw [scratchMapTable,bind_run (mapInCurrentCr3_run h hk _ _),if_neg hk.base_ne_zero,
    bind_run (invlpg_run _ _)]
  rfl

theorem scratchMapTable_read (h : Windowed s.mem s.cr3 w) (hk : IsWindow ptr k) (hf : f≠w) :
    ∃ s' ev, s'=s.update (setWord s.mem w k (windowEntry f)) s.pool ev ∧
      scratchMapTable ptr (address f) s=some (ptr, s') ∧
      ∀ i, readWord ptr i s'=some (s.mem f i, s') := by
  obtain ⟨ev,hmap⟩ := exists_events (scratchMapTable_run h hk f)
  refine ⟨_,ev,rfl,hmap,fun i => ?_⟩
  generalize hs' : s.update (setWord s.mem w k (windowEntry f)) s.pool ev=s'
  have hmem : s'.mem=setWord s.mem w k (windowEntry f) := by rw [← hs',update_mem]
  have hreach : Reaches s'.mem s'.cr3 (pageOf ptr).path f := by
    rw [hmem,← hs',update_cr3]
    exact (h.setWindow hk.small w _).reaches_window hk (setWord_self ..)
  rw [readWord_run hreach,hmem,setWord_of_frame_ne _ _ _ _ hf]

end Hojicha.Vmm
