import Hojicha.Vmm.MapPages

/-! # `vmm_copy` -/

namespace Hojicha.Vmm

open Framework Framework.Paging
open Function (update update_of_ne)

variable {k k' : Kernel} {σ σ₁ σ₂ : Tables} {T T₂ : Node → Option Frame} {w kr r d f g : Frame}
  {ls : Nat → List (Haddr × Vma.Area)} {src : Handle} {id : Nat} {flags : Haddr} {p : Page}

theorem recursiveFlags_run {s : Machine} (h : KernelReady s σ T w kr) (hr : T (.root r)=some r) :
    ∃ m' ev, recursiveFlags (address r) s =
        some (some (entryFlags (σ.mem r RECURSIVE_IDX)), s.update m' σ.pool ev) ∧
      KernelReady (s.update m' σ.pool ev) σ T w kr := by
  have hne : r≠w := by
    rintro rfl
    cases h.sound.forest.inj hr h.window
  obtain ⟨s',ev,rfl,hmap,hread⟩ := scratchMapTable_read h.windowed isWindow_l4 hne
  have hready := h.step h.sound (.refl h.sound)
    ((agree_setWindow _ isWindow_l4.small (windowEntry r)).trans h.agree) ev
  refine ⟨_,ev,?_,hready⟩
  rw [recursiveFlags,bind_run hmap,if_neg isWindow_l4.ne_null,bind_run (hread _),
    h.agree.frame hne,h.pool]
  rfl

theorem RootAdded.free_iff (ha : RootAdded σ T σ₁ kr d flags) :
    σ₁.pool.free g=true ↔ σ.pool.free g=true ∧ g≠d := by
  obtain ⟨rest,hpool⟩ := ha.pool
  rw [hpool,without_free]

theorem RootAdded.held_iff (ha : RootAdded σ T σ₁ kr d flags) :
    σ₁.pool.held g=true ↔ σ.pool.held g=true ∨ g=d := by
  obtain ⟨rest,hpool⟩ := ha.pool
  rw [hpool,without_held]

section Undo

variable (h : Sound σ T) (ha : RootAdded σ T σ₁ kr d flags)
  (hc : Copying σ₁ (addRoot T d) d σ₂ T₂)
include h ha hc

omit h ha in
theorem copying_root : T₂ (.root d)=some d := hc.keeps (Function.update_self ..)

theorem copying_lower_free (hg : g∈lowerFrames σ₂.mem d) : σ₁.pool.free g=true := by
  rcases (mem_lowerFrames hc.sound (copying_root hc)).mp hg with hleaf | ⟨n,hn,hspace,hne⟩
  · exact hc.leaf hleaf
  · exact (hc.created hn (ha.lower_none h hspace hne)).2

theorem freed_free_iff :
    (σ₂.pool.freed σ₂.mem d).free g=true ↔ σ.pool.free g=true := by
  rw [FramePool.freed,giveAll_free,List.mem_append,List.mem_singleton,hc.free,ha.free_iff]
  constructor
  · rintro (⟨⟨hg,-⟩,-⟩ | hg | rfl)
    · exact hg
    · exact (ha.free_iff.mp (copying_lower_free h ha hc hg)).1
    · exact ha.free
  · intro hg
    by_cases hd : g=d
    · exact .inr (.inr hd)
    · by_cases hin : g∈lowerFrames σ₂.mem d
      · exact .inr (.inl hin)
      · exact .inl ⟨⟨hg,hd⟩,hin⟩

theorem freed_held_iff (hpool : σ.pool.Disjoint) :
    (σ₂.pool.freed σ₂.mem d).held g=true ↔ σ.pool.held g=true := by
  rw [FramePool.freed,giveAll_held,List.mem_append,List.mem_singleton,hc.held,ha.held_iff]
  have hnot {g : Frame} (hg : σ.pool.held g=true) : ¬ σ.pool.free g=true := fun hfree => by
    simp [hpool g hfree] at hg
  constructor
  · rintro ⟨(hg | rfl) | hg,hout⟩
    · exact hg
    · exact absurd (.inr rfl) hout
    · exact absurd (.inl hg) hout
  · refine fun hg => ⟨.inl (.inl hg),?_⟩
    rintro (hin | rfl)
    · exact hnot hg (ha.free_iff.mp (copying_lower_free h ha hc hin)).1
    · exact hnot hg ha.free

theorem freed_stray : (σ₂.pool.freed σ₂.mem d).stray=σ.pool.stray := by
  have hroot := copying_root hc
  have hout : d∉lowerFrames σ₂.mem d := fun hin =>
    (ha.free_iff.mp (copying_lower_free h ha hc hin)).2 rfl
  have hstray : σ₁.pool.stray=σ.pool.stray := by
    obtain ⟨rest,hpool⟩ := ha.pool
    rw [hpool]
    rfl
  rw [FramePool.freed,giveAll_stray,hc.stray,hstray]
  · refine (nodup_lowerFrames hc.sound hroot hc.exclusive).append (List.nodup_singleton d) ?_
    simpa using hout
  · intro g hg
    rw [hc.held,ha.held_iff]
    rcases List.mem_append.mp hg with hg | hg
    · exact .inr hg
    · exact .inl (.inr (List.mem_singleton.mp hg))

theorem dropSpace_copying : dropSpace T₂ d=T := by
  funext n
  rw [dropSpace]
  split_ifs with hspace
  · cases hT : T n with
    | none => rfl
    | some g =>
      have hkeep := ha.keeps h hT
      by_cases hnil : n.path=[]
      · obtain ⟨o,is⟩ := n
        obtain rfl : o=some d := hspace
        obtain rfl : is=[] := hnil
        obtain rfl := h.forest.root hT
        exact absurd hT (h.fresh ha.free _)
      · simp [ha.lower_none h hspace hnil] at hkeep
  · cases hT₂ : T₂ n with
    | none =>
      cases hT : T n with
      | none => rfl
      | some g => simp [hc.keeps (ha.keeps h hT)] at hT₂
    | some g =>
      cases hT₁ : addRoot T d n with
      | none => exact absurd (hc.created hT₂ hT₁).1 hspace
      | some g' =>
        obtain rfl := Option.some.inj ((hc.keeps hT₁).symm.trans hT₂)
        rcases addRoot_eq_some hT₁ with hT | ⟨rfl,-⟩
        · exact hT.symm
        · exact absurd rfl hspace

theorem copying_mem (hg : σ.pool.free g=false) : σ₂.mem g=σ.mem g := by
  have hne : g≠d := by
    rintro rfl
    simp [ha.free] at hg
  rw [hc.others,ha.mem,setFrame_of_ne _ _ _ hne]
  · rw [← Bool.not_eq_true,ha.free_iff]
    simp [hg]
  · intro n hspace hn
    by_cases hnil : n.path=[]
    · rcases addRoot_eq_some hn with hT | ⟨-,rfl⟩
      · obtain ⟨o,is⟩ := n
        obtain rfl : o=some d := hspace
        obtain rfl : is=[] := hnil
        exact hne (h.forest.root hT)
      · exact hne rfl
    · simp [ha.lower_none h hspace hnil] at hn

end Undo

/-- The frames, handles and nodes in use are those from before, and so is all memory in use. -/
structure Restored (k : Kernel) (σ : Tables) (k' : Kernel) (σ' : Tables) : Prop where
  free : σ'.pool.free = σ.pool.free
  held : σ'.pool.held = σ.pool.held
  areas : k'.areas = k.areas
  vmms : k'.vmms = k.vmms
  mem {f : Frame} : σ.pool.free f = false → σ'.mem f = σ.mem f

/-- The tables are in use, so the pages of all spaces are the same. -/
theorem Restored.entry {σ' : Tables} (hr : Restored k σ k' σ') (h : Sound σ T) (h' : Sound σ' T)
    (hroot : T (.root r)=some r) (hp : p.i4≠RECURSIVE_IDX) :
    leafEntry σ'.mem r p=leafEntry σ.mem r p :=
  leafEntry_congr h h' (fun hn => hr.mem (Bool.eq_false_iff.mpr fun hfree => h.fresh hfree _ hn))
    hroot hp

private theorem KernelReady.retarget {s : Machine} {T' : Node → Option Frame}
    (h : KernelReady s σ T w kr) (hsound : Sound σ T')
    (hkeeps : ∀ {n g}, T₂ n=some g → T' n=some g) (hwin : T₂ windowNode=some w)
    (hcur : T₂ (.root s.cr3)=some s.cr3) (hroot : T₂ (.root kr)=some kr) :
    KernelReady s σ T' w kr :=
  { h with sound := hsound, window := hkeeps hwin, current := hkeeps hcur, root := hkeeps hroot }

theorem giveAll_again {p : FramePool} {fs : List Frame} (hf : f∈fs) :
    ((p.give f).giveAll fs).free=(p.giveAll fs).free ∧
      ((p.give f).giveAll fs).held=(p.giveAll fs).held := by
  have hcons : (p.give f).giveAll fs=p.giveAll (f::fs) := rfl
  refine ⟨funext fun g => ?_,funext fun g => ?_⟩
  · rw [Bool.eq_iff_iff,hcons,giveAll_free,giveAll_free,List.mem_cons]
    exact or_congr_right ⟨fun hg => hg.elim (fun heq => heq ▸ hf) id,.inr⟩
  · rw [Bool.eq_iff_iff,hcons,giveAll_held,giveAll_held,List.mem_cons]
    exact and_congr_right fun _ => not_congr ⟨fun hg => hg.elim (fun heq => heq ▸ hf) id,.inr⟩

private theorem vmmFree_undo {k₃ : Kernel} {pool : FramePool} {v : VmmRecord}
    (h : Live k σ T w kr ls) (hid : k.vmms id=none) (ha : RootAdded σ T σ₁ kr d flags)
    (hc : Copying σ₁ (addRoot T d) d σ₂ T₂)
    (h₃ : Live k₃ { σ₂ with pool := pool } T₂ w kr ls)
    (hvmms : k₃.vmms=update k.vmms id (some v)) (hv : v.pml4Phys=address d)
    (hareas : k₃.areas=k.areas) (hboot : SameBoot k k₃) :
    ∃ k', vmmFree (.heap id) k₃=some ((), k') ∧ k'.areas=k.areas ∧ k'.vmms=k.vmms ∧
      SameBoot k k' ∧ Live k' ⟨σ₂.mem, pool.freed σ₂.mem d⟩ T w kr ls := by
  have hnil := h.unlisted hid
  have hcur : d≠k₃.machine.cr3 := by
    rw [hboot.cr3]
    rintro rfl
    exact h.ready.sound.fresh ha.free _ h.ready.current
  obtain ⟨m',ev,areas,hrun,hsame,hlive⟩ := vmmFree_spec h₃ (v := v)
    (by rw [hvmms,Function.update_self]) hv hcur fun hf => hc.exclusive.table hf
  obtain rfl := hsame hnil
  rw [dropSpace_copying h.ready.sound ha hc,← hnil,Function.update_eq_self] at hlive
  refine ⟨_,hrun,hareas,?_,
    ⟨hboot.kernelVmm,hboot.cr3,hboot.kernelPml4Phys,hboot.virtualDirectory⟩,hlive⟩
  dsimp only
  rw [hvmms,Function.update_idem,← hid,Function.update_eq_self]

/-- No copy was made. A page at address 0 makes the call give back a frame twice. -/
structure CopyFailed (k : Kernel) (σ : Tables) (T : Node → Option Frame) (w kr r : Frame)
    (ls : Nat → List (Haddr × Vma.Area)) (k' : Kernel) (σ' : Tables) : Prop where
  live : Live k' σ' T w kr ls
  boot : SameBoot k k'
  restored : Restored k σ k' σ'
  stray : isPresent (leafEntry σ.mem r (pageOf 0)) = false → σ'.pool.stray = σ.pool.stray

/-- There is an object and a root for the copy, a frame for every page and table, and a node for
every area. -/
def CanCopy (k : Kernel) (σ : Tables) (kr r : Frame) (src : Handle) : Prop :=
  ∃ id d σ₁ areas, k.nextVmm = some id ∧
    newRoot kr (entryFlags (σ.mem r RECURSIVE_IDX)) σ = (some d, σ₁) ∧
    (copyPages r d σ₁).1 = true ∧
    Vma.vmaCopyList k.nextNodes (some (Handle.heap id).list) (some src.list) k.areas =
      some (true, areas)

structure CopyMade (k : Kernel) (σ : Tables) (T : Node → Option Frame) (w kr r : Frame)
    (ls : Nat → List (Haddr × Vma.Area)) (src : Handle) (k' : Kernel) (σ' : Tables)
    (T' : Node → Option Frame) (id : Nat) (d : Frame) : Prop where
  boot : SameBoot k k'
  object : k.nextVmm = some id
  made : ∃ flags σ₁, RootAdded σ T σ₁ kr d flags ∧ Copying σ₁ (addRoot T d) d σ' T' ∧
    Copied σ₁ (addRoot T d) d (lowerActions σ₁.mem false r) σ₁ σ'
  failures : σ'.pool.failures = σ.pool.failures
  vmms : ∃ v, v.pml4Phys = address d ∧ k'.vmms = update k.vmms id (some v)
  areas : ∃ zs, Live k' σ' T' w kr (update ls (Handle.heap id).list zs) ∧
    Vma.areas zs = Vma.areas (ls src.list)
  nodes : ∀ j < (ls src.list).length, k.nextNodes j ≠ .refuse

theorem Disjoint.give {p : FramePool} (h : p.Disjoint) (f : Frame) : (p.give f).Disjoint :=
  Disjoint.giveAll h [f]

private theorem present_of_visit_zero {virt : Haddr} {e : Word} (h : Sound σ T)
    (hr : T (.root r)=some r) (hmem : .visit virt e∈lowerActions σ.mem false r)
    (hzero : virt &&& MAPPING_STRUCTURE_MASK=0) :
    isPresent (leafEntry σ.mem r (pageOf 0))=true := by
  obtain ⟨-,q,-,hl⟩ := (ordered_lowerActions h.forest hr).below _ hmem
  obtain ⟨p,-,rfl,-,rfl,hp⟩ := (located_visit h hr).mp hl
  rwa [← hzero,pageOf_base,pageOf_virtOf]

section CopyInto

variable {s₂ s₃ : Machine} {rest : List (Option Nat)} {v : VmmRecord}
  {T₃ : Node → Option Frame} (h : Live k σ T w kr ls) (hid : k.vmms id = none)
  (ha : RootAdded σ T σ₁ kr d flags) (hready : KernelReady s₂ σ₁ (addRoot T d) w kr)
include h hid ha hready

private theorem live_copying (rest : List (Option Nat)) (pool : FramePool)
    (hc : Copying σ₁ (addRoot T d) d σ₂ T₂)
    (hready₃ : KernelReady s₃ { σ₂ with pool := pool } T₃ w kr) (hcr3 : s₃.cr3=s₂.cr3)
    (hsound : Sound { σ₂ with pool := pool } T₂) (hpool : pool.Disjoint)
    (hv : v.pml4Phys=address d) :
    Live { k with
      machine := s₃, vmms := update k.vmms id (some v), vmmAnswers := rest }
      { σ₂ with pool := pool } T₂ w kr ls :=
  (h.addSpace hid ha hv hready).withMachine
    (hready₃.retarget hsound hc.keeps hready.window (hcr3 ▸ hready.current) hready.root) hpool
    hc.roots

omit hready in
private theorem undo_failed {k₄ : Kernel} (pool : FramePool) (hc : Copying σ₁ (addRoot T d) d σ₂ T₂)
    (h₄ : Live k₄ { σ₂ with pool := pool } T₂ w kr ls)
    (hvmms : k₄.vmms=update k.vmms id (some v)) (hv : v.pml4Phys=address d)
    (hareas : k₄.areas=k.areas) (hboot : SameBoot k k₄)
    (hfree : (pool.freed σ₂.mem d).free=(σ₂.pool.freed σ₂.mem d).free)
    (hheld : (pool.freed σ₂.mem d).held=(σ₂.pool.freed σ₂.mem d).held)
    (hstray : isPresent (leafEntry σ.mem r (pageOf 0))=false →
      (pool.freed σ₂.mem d).stray=σ.pool.stray) :
    ∃ k' σ', (do vmmFree (.heap id); return .null : K Handle) k₄=some (.null, k') ∧
      CopyFailed k σ T w kr r ls k' σ' := by
  obtain ⟨k',hrun,hareas',hvmms',hboot',hlive⟩ :=
    vmmFree_undo h hid ha hc h₄ hvmms hv hareas hboot
  refine ⟨k',_,bind_run hrun,hlive,hboot',⟨?_,?_,hareas',hvmms',?_⟩,hstray⟩
  · funext g
    rw [hfree,Bool.eq_iff_iff,freed_free_iff h.ready.sound ha hc]
  · funext g
    rw [hheld,Bool.eq_iff_iff,freed_held_iff h.ready.sound ha hc h.pool]
  · intro g hg
    exact show σ₂.mem g=σ.mem g from copying_mem h.ready.sound ha hc hg

private theorem copyInto_spec (v₀ : VmmRecord) (hn : Names k kr src r)
    (hwin : ¬ IsLeafFrame σ.mem r w)
    (hobject : k.nextVmm=some id) (hv : v.pml4Phys=address r) (hv₀ : v₀.pml4Phys=address d)
    (hboot : s₂.cr3=k.machine.cr3 ∧ s₂.kernelPml4Phys=k.machine.kernelPml4Phys ∧
      s₂.virtualDirectory=k.machine.virtualDirectory) :
    (∃ k' σ', copyInto id src v { k with
        machine := s₂, vmms := update k.vmms id (some v₀), vmmAnswers := rest } =
          some (.null, k') ∧ CopyFailed k σ T w kr r ls k' σ' ∧
        ¬ ((copyPages r d σ₁).1=true ∧ ∃ areas, Vma.vmaCopyList k.nextNodes
          (some (Handle.heap id).list) (some src.list) k.areas=some (true, areas))) ∨
    ∃ k' σ' T', copyInto id src v { k with
        machine := s₂, vmms := update k.vmms id (some v₀), vmmAnswers := rest } =
          some (.heap id, k') ∧ CopyMade k σ T w kr r ls src k' σ' T' id d := by
  have hr : T (.root r)=some r := h.root hn
  have hr₁ : addRoot T d (.root r)=some r := ha.keeps h.ready.sound hr
  have hd₁ : addRoot T d (.root d)=some d := Function.update_self ..
  have hne : r≠d := by
    rintro rfl
    exact h.ready.sound.fresh ha.free _ hr
  have hentry {p : Page} (hp : p.i4<KERNEL_PML4_FIRST) :
      leafEntry σ₁.mem r p=leafEntry σ.mem r p :=
    ha.leafEntry_old h.ready.sound hr (ne_recursive_of_lower hp)
  obtain ⟨k₂,hk₂⟩ : ∃ k₂ : Kernel, k₂ = { k with
    machine := s₂, vmms := update k.vmms id (some v₀), vmmAnswers := rest } := ⟨_,rfl⟩
  obtain ⟨k₃,hk₃⟩ : ∃ k₃ : Kernel, k₃ = { k with
    machine := s₂, vmms := update k.vmms id (some { v with pml4Phys := address d })
    vmmAnswers := rest } := ⟨_,rfl⟩
  have hderef : deref (.heap id) k₂=some (v₀, k₂) := by simp [deref,hk₂]
  have hset : setRecord id (some { v with pml4Phys := address d }) k₂=some ((), k₃) := by
    simp [setRecord,hk₂,hk₃]
  obtain ⟨m',ev,T₃,hmap,hready₃⟩ := vmmCopyMappings_run hready hr₁ hd₁ hne fun hp hpres => by
    rw [hentry hp] at hpres ⊢
    exact fun heq => hwin ⟨_,hp,hpres,heq⟩
  have hmap₃ := onMachine_run (k := k₃) (by rwa [hk₃])
  rw [← hk₂,copyInto,bind_run hderef,hv₀,bind_run hset,hv,bind_run hmap₃]
  have hout := copyPages_outcome hready.sound (ha.disjoint h.pool) hr₁ hd₁ fun n hspace hnil =>
    ha.lower_none h.ready.sound hspace hnil
  obtain ⟨⟨ok,τ⟩,hres⟩ : ∃ x, copyPages r d σ₁=x := ⟨_,rfl⟩
  simp only [hres] at hout hready₃ ⊢
  subst hk₃
  have hfail : σ₁.pool.failures=σ.pool.failures := by
    obtain ⟨rest,hpool⟩ := ha.pool
    rw [hpool]
    rfl
  have hdisjoint {σ₂ : Tables} {T₂ : Node → Option Frame}
      (hc : Copying σ₁ (addRoot T d) d σ₂ T₂) : σ₂.pool.Disjoint :=
    hc.disjoint (ha.disjoint h.pool)
  obtain ⟨v',hv'⟩ : ∃ v', v' = { v with pml4Phys := address d } := ⟨_,rfl⟩
  have hphys : v'.pml4Phys=address d := by rw [hv']
  rw [← hv']
  cases hout with
  | copied _ T₂ hcopied hc hfailures =>
    have h₄ := live_copying h hid ha hready rest τ.pool hc hready₃ rfl hc.sound
      (hdisjoint hc) hphys
    simp only [Bool.not_true,Bool.false_eq_true,if_false]
    rcases Vma.vmaCopyList_spec h₄.areas.represents k.nextNodes (Handle.heap id).list
      (some src.list) (fun l _ => h₄.areas.sorted l) with hlist | ⟨areas,zs,hlist,hrep,hzs,hnodes⟩
    · rw [bind_run (onAreas_run _ hlist)]
      obtain ⟨k',σ',hrun,hfailed⟩ := undo_failed h hid ha τ.pool hc (h₄.withAnswers _) rfl hphys rfl
        ⟨rfl,hboot.1,hboot.2.1,hboot.2.2⟩ rfl rfl fun _ => freed_stray h.ready.sound ha hc
      refine .inl ⟨k',σ',hrun,hfailed,?_⟩
      rintro ⟨-,areas,hcopied⟩
      cases hlist.symm.trans hcopied
    · right
      have hnames : Names { k with
          machine := s₂.update m' τ.pool ev
          vmms := update k.vmms id (some v'), vmmAnswers := rest } kr (.heap id) d :=
        ⟨v',Function.update_self ..,hphys⟩
      have hsorted : Vma.Sorted (Vma.areas zs) := by
        rw [hzs]
        exact h₄.areas.sorted src.list
      rw [bind_run (onAreas_run _ hlist)]
      exact ⟨_,τ,T₂,rfl,{
          boot := ⟨rfl,hboot.1,hboot.2.1,hboot.2.2⟩
          object := hobject
          made := ⟨flags,σ₁,ha,hc,hcopied⟩
          failures := hfailures.trans hfail
          vmms := ⟨v',hphys,rfl⟩
          areas := ⟨zs,h₄.withAreas hnames (h₄.areas.update hrep hsorted),hzs⟩
          nodes := hnodes src.list rfl }⟩
  | short _ T₂ hc hfailures =>
    obtain ⟨k',σ',hrun,hfailed⟩ := undo_failed h hid ha τ.pool hc
      (live_copying h hid ha hready rest τ.pool hc hready₃ rfl hc.sound (hdisjoint hc) hphys)
      rfl hphys rfl ⟨rfl,hboot.1,hboot.2.1,hboot.2.2⟩ rfl rfl
        fun _ => freed_stray h.ready.sound ha hc
    exact .inl ⟨k',σ',hrun,hfailed,fun hcopied => Bool.noConfusion hcopied.1⟩
  | zero σ₂ T₂ f virt e hmem hzero hc hf hfailures =>
    have hnt := hc.exclusive.table hf
    have hin : f∈lowerFrames σ₂.mem d++[d] := List.mem_append_left _
      ((mem_lowerFrames hc.sound (copying_root hc)).mpr (.inl hf))
    have hpresent := present_of_visit_zero hready.sound hr₁ hmem hzero
    rw [hentry (by decide)] at hpresent
    obtain ⟨hfree,hheld⟩ := giveAll_again (p := σ₂.pool) hin
    obtain ⟨k',σ',hrun,hfailed⟩ := undo_failed h hid ha (σ₂.pool.give f) hc
      (live_copying h hid ha hready rest (σ₂.pool.give f) hc hready₃ rfl (hc.sound.give hnt)
        (Disjoint.give (hdisjoint hc) f) hphys)
      rfl hphys rfl ⟨rfl,hboot.1,hboot.2.1,hboot.2.2⟩ hfree hheld fun habsent =>
        absurd (hpresent.symm.trans habsent) (by decide)
    exact .inl ⟨k',σ',hrun,hfailed,fun hcopied => Bool.noConfusion hcopied.1⟩

end CopyInto

private theorem vmmCopy_eq (hsrc : src ≠ .null) : vmmCopy src=do
    let v ← deref src
    match ← onMachine (recursiveFlags v.pml4Phys) with
    | none => return .null
    | some flags =>
      match ← vmmNew flags with
      | .heap dst => copyInto dst src v
      | _ => return .null := by
  cases src with
  | null => exact absurd rfl hsrc
  | kernel => rfl
  | heap id => rfl

theorem vmmCopy_spec (h : Live k σ T w kr ls) (hn : Names k kr src r)
    (hwin : ¬ IsLeafFrame σ.mem r w) :
    (∃ k' σ', vmmCopy src k=some (.null, k') ∧ CopyFailed k σ T w kr r ls k' σ' ∧
      ¬ CanCopy k σ kr r src) ∨
    ∃ id d k' σ' T', vmmCopy src k=some (.heap id, k') ∧
      CopyMade k σ T w kr r ls src k' σ' T' id d := by
  have hsrc : src ≠ .null := by
    rintro rfl
    exact hn
  obtain ⟨v,hderef,hv⟩ := h.deref_run hn
  obtain ⟨m₁,ev₁,hflags,hready⟩ := recursiveFlags_run h.intact (h.root hn)
  have h₁ : Live { k with machine := k.machine.update m₁ σ.pool ev₁ } σ T w kr ls :=
    h.withMachine hready h.pool fun _ => rfl
  rw [vmmCopy_eq hsrc,bind_run hderef,hv,bind_run (onMachine_run hflags)]
  rcases vmmNew_spec h₁ (entryFlags (σ.mem r RECURSIVE_IDX)) with
    ⟨hnone,hnew⟩ | ⟨id,hobject,hid,⟨m',ev,rest,hroot,hnew,hready'⟩ |
      ⟨d,m',ev,σ₁,hroot,ha,hnew,hready'⟩⟩
  · refine .inl ⟨_,σ,bind_run hnew,⟨⟨⟨h₁.ready,h₁.kernelRoot,h₁.areas,h₁.pool,h₁.kernel,
      h₁.record,h₁.inj,h₁.roots,h₁.unlisted⟩,h₁.intact⟩,⟨rfl,rfl,rfl,rfl⟩,
      ⟨rfl,rfl,rfl,rfl,fun _ => rfl⟩,fun _ => rfl⟩,?_⟩
    rintro ⟨id,d,σ₁,areas,hid,-⟩
    cases hnone.symm.trans hid
  · refine .inl ⟨_,_,bind_run hnew,⟨⟨⟨hready'.toReady,h₁.kernelRoot,h₁.areas,h₁.pool,h₁.kernel,
      h₁.record,h₁.inj,h₁.roots,h₁.unlisted⟩,hready'⟩,⟨rfl,rfl,rfl,rfl⟩,
      ⟨rfl,rfl,rfl,rfl,fun _ => rfl⟩,fun _ => rfl⟩,?_⟩
    rintro ⟨id',d,σ₁,areas,-,hsome,-⟩
    cases hroot.symm.trans hsome
  · rcases copyInto_spec (v := v) h₁ hid ha hready'
      ⟨LOW_REGION_END,LAST_VADDR,k.kernelVmm.kernelOffset,address d⟩ hn hwin hobject hv rfl
      ⟨rfl,rfl,rfl⟩ with
      ⟨k',σ',hinto,hf,hnot⟩ | ⟨k',σ',T',hinto,hm⟩
    · refine .inl ⟨k',σ',(bind_run hnew).trans hinto,⟨hf.live,
        ⟨hf.boot.kernelVmm,hf.boot.cr3,hf.boot.kernelPml4Phys,hf.boot.virtualDirectory⟩,
        ⟨hf.restored.free,hf.restored.held,hf.restored.areas,hf.restored.vmms,hf.restored.mem⟩,
        hf.stray⟩,?_⟩
      rintro ⟨id',d',σ₁',areas,hid',hroot',hcopied⟩
      obtain rfl := Option.some.inj (hobject.symm.trans hid')
      obtain ⟨hd,rfl⟩ := Prod.mk.inj (hroot.symm.trans hroot')
      obtain rfl := Option.some.inj hd
      exact hnot ⟨hcopied.1,areas,hcopied.2⟩
    · exact .inr ⟨id,d,k',σ',T',(bind_run hnew).trans hinto,
        ⟨⟨hm.boot.kernelVmm,hm.boot.cr3,hm.boot.kernelPml4Phys,hm.boot.virtualDirectory⟩,
          hm.object,hm.made,hm.failures,hm.vmms,hm.areas,hm.nodes⟩⟩

theorem vmmCopy_of_canCopy (h : Live k σ T w kr ls) (hn : Names k kr src r)
    (hwin : ¬ IsLeafFrame σ.mem r w) (hcan : CanCopy k σ kr r src) :
    ∃ id k', vmmCopy src k=some (.heap id, k') := by
  rcases vmmCopy_spec h hn hwin with ⟨k',σ',-,-,hnot⟩ | ⟨id,d,k',σ',T',hrun,-⟩
  · exact absurd hcan hnot
  · exact ⟨id,k',hrun⟩

/-- A space made after boot, and then two pages in it. -/
def newTables : Tables := (newRoot bootRoot PAGE_USER_ACCESIBLE ⟨bootMem, poolOf 16⟩).2
def sourceTables : Tables := (mapPages 2048 7 0x400000 2 newTables).2

def sourceArea : Vma.Area := ⟨0x400000, 0x401FFF, 7, 0, 0⟩

def sourceAreas : Vma.Store :=
  ((Vma.vmaInsert (.grant 16) (some 1) sourceArea .empty).map Prod.snd).getD .empty

def sourceMachine : Machine := { bootMachine sourceTables.pool with mem := sourceTables.mem }

def sourceKernel (nodes : Nat → Vma.SlabAnswer) : Kernel :=
  { bootKernel sourceTables.pool [some 1] [nodes] with
    machine := sourceMachine
    areas := sourceAreas
    vmms := update (fun _ => none) 0
      (some ⟨LOW_REGION_END, LAST_VADDR, 0xFFFFFFFF80000000, address 2048⟩) }

/-- The tables once the pages of the source are copied into a new space. -/
def copiedTables : Bool × Tables := copyPages 2048 2054
  (newRoot bootRoot (entryFlags (sourceTables.mem 2048 RECURSIVE_IDX)) sourceTables).2

private theorem sourceAreas_consistent : ∃ ls, Vma.Consistent sourceAreas ls ∧
    Vma.areas ∘ ls=update (fun _ => []) 1 [sourceArea] := by
  have hresult : (Vma.vmaInsert (.grant 16) (some 1) sourceArea .empty).map Prod.fst=some true := by
    decide +kernel
  have hempty : Vma.Consistent .empty fun _ => [] := ⟨.empty,fun _ => ⟨by simp,.nil⟩⟩
  obtain ⟨b,s,ls,hcall,hconsistent,heffect,-⟩ :=
    Vma.call_consistent hempty (.insert (.grant 16) (some 1) sourceArea)
  have hinsert : Vma.vmaInsert (.grant 16) (some 1) sourceArea .empty=some (b, s) := hcall
  rw [hinsert] at hresult
  obtain ⟨l,hl,xs,ys,hnil,hareas⟩ := heffect (Option.some.inj hresult)
  obtain rfl := Option.some.inj hl
  obtain ⟨rfl,rfl⟩ := List.append_eq_nil_iff.mp hnil.symm
  refine ⟨ls,?_,hareas⟩
  rwa [sourceAreas,hinsert]

private theorem newTables_added : RootAdded ⟨bootMem, poolOf 16⟩ bootNodes newTables bootRoot 2048
    PAGE_USER_ACCESIBLE := by
  have hroot : (newRoot bootRoot PAGE_USER_ACCESIBLE ⟨bootMem,poolOf 16⟩).1=some 2048 := by
    decide +kernel
  have hboot : bootNodes (.root bootRoot)=some bootRoot := rfl
  obtain ⟨rest,hnone⟩ | ⟨f,hsome,hadded⟩ :=
    newRoot_spec (bootSound (poolOf_free (n := 16))) hboot PAGE_USER_ACCESIBLE
  · rw [hnone] at hroot
    cases hroot
  · obtain rfl := Option.some.inj (hsome.symm.trans hroot)
    exact hadded

private theorem sourceTables_mapped : ∃ T, PagesMapped 2048 7 [0x400000, 0x401000] newTables
    (addRoot bootNodes 2048) sourceTables T := by
  have hall : (mapPages 2048 7 0x400000 2 newTables).1=true := by decide +kernel
  obtain ⟨-,hpages⟩ | ⟨hfail,-⟩ := mapAll_cases newTables_added.sound (Function.update_self ..) 7
    (pagesFrom 0x400000 2)
  · exact hpages
  · cases hfail.symm.trans hall

private theorem sourceKernel_live (nodes : Nat → Vma.SlabAnswer) : ∃ T ls,
    PagesMapped 2048 7 [0x400000, 0x401000] newTables (addRoot bootNodes 2048) sourceTables T ∧
      Live (sourceKernel nodes) sourceTables T windowPt bootRoot ls ∧
      Vma.areas (ls 1)=[sourceArea] := by
  obtain ⟨T,hpages⟩ := sourceTables_mapped
  obtain ⟨ls,hareas,hls⟩ := sourceAreas_consistent
  have hkeeps {n : Node} {f : Frame} (hn : bootNodes n=some f) : T n=some f :=
    hpages.keeps (newTables_added.keeps (bootSound (poolOf_free (n := 16))) hn)
  have hspace : T (.root 2048)=some 2048 := hpages.keeps (Function.update_self ..)
  have hready : KernelReady sourceMachine sourceTables T windowPt bootRoot :=
    { sound := hpages.sound newTables_added.sound
      window := hkeeps rfl
      current := hkeeps rfl
      agree := .refl _ _
      pool := rfl
      root := hkeeps rfl
      phys := rfl
      image := by decide
      recursive := by decide
      apart := by decide
      directory := ⟨by decide +kernel,by decide +kernel,by decide +kernel⟩ }
  have hrecord {id : Nat} {v : VmmRecord} (hv : (sourceKernel nodes).vmms id=some v) :
      id=0 ∧ v.pml4Phys=address 2048 := by
    by_cases hid : id=0
    · subst hid
      obtain rfl := Option.some.inj hv
      exact ⟨rfl,rfl⟩
    · have hv : update (fun _ => none) 0 _ id=some v := hv
      rw [update_of_ne hid] at hv
      cases hv
  refine ⟨T,ls,hpages,⟨?_,hready⟩,(congrFun hls 1).trans (Function.update_self ..)⟩
  exact
    { ready := hready.toReady
      kernelRoot := hready.root
      areas := hareas
      pool := by
        obtain ⟨rest,hpool⟩ := newTables_added.pool
        exact hpages.disjoint (hpool ▸ Disjoint.without (fun _ _ => rfl) rest)
      kernel := rfl
      record := fun hv => ⟨2048,(hrecord hv).2,hspace,by decide⟩
      inj := fun hv hv' _ => (hrecord hv).1.trans (hrecord hv').1.symm
      roots := fun {r} hr => by
        rw [hpages.roots] at hr
        rcases addRoot_eq_some hr with hr | ⟨-,rfl⟩
        · obtain ⟨⟩ := bootNodes_eq_some.mp hr
          exact .inl rfl
        · exact .inr ⟨0,_,rfl,rfl⟩
      unlisted := fun {id} hid => by
        have hne : id+1≠1 := by
          intro hzero
          obtain rfl : id=0 := by omega
          cases hid
        exact List.map_eq_nil_iff.mp ((congrFun hls (id+1)).trans (update_of_ne hne ..)) }

private theorem source_names (nodes : Nat → Vma.SlabAnswer) :
    Names (sourceKernel nodes) bootRoot (.heap 0) 2048 := ⟨_,rfl,rfl⟩

private theorem source_window
    (hlive : Live (sourceKernel nodes) sourceTables T windowPt bootRoot ls) :
    ¬ IsLeafFrame sourceTables.mem 2048 windowPt := by
  have hframes : windowPt∉lowerFrames sourceTables.mem 2048 := by decide +kernel
  intro hleaf
  have hroot := hlive.root (source_names nodes)
  exact hframes ((mem_lowerFrames hlive.ready.sound hroot).mpr (.inl hleaf))

/-- There was no object for the space, no frame, or no node for one of `n` areas. -/
def AllocationFailed (k k' : Kernel) (n : Nat) : Prop :=
  k.nextVmm = none ∨ k'.machine.pool.failures ≠ k.machine.pool.failures ∨
    ∃ j < n, k.nextNodes j = .refuse

/-- If an allocation fails, `vmm_copy` returns `NULL`, and everything it took is given back. No
frame is given back twice, unless the source has a page at address 0. -/
theorem vmm_copy_releases (h : Live k σ T w kr ls) (hn : Names k kr src r)
    (hwin : ¬ IsLeafFrame σ.mem r w) :
    ∃ res k', vmmCopy src k = some (res, k') ∧
      (AllocationFailed k k' (ls src.list).length → res = .null ∧ ∃ σ', Live k' σ' T w kr ls ∧
        Restored k σ k' σ' ∧
        (∀ p : Page, p.i4 < KERNEL_PML4_FIRST → leafEntry σ'.mem r p = leafEntry σ.mem r p) ∧
        (isPresent (leafEntry σ.mem r (pageOf 0)) = false →
          σ'.pool.stray = σ.pool.stray)) := by
  rcases vmmCopy_spec h hn hwin with ⟨k',σ',hrun,hf,-⟩ | ⟨id,d,k',σ',T',hrun,hm⟩
  · refine ⟨.null,k',hrun,fun _ => ⟨rfl,σ',hf.live,hf.restored,fun p hp => ?_,hf.stray⟩⟩
    exact hf.restored.entry h.ready.sound hf.live.ready.sound (h.root hn) (ne_recursive_of_lower hp)
  · refine ⟨.heap id,k',hrun,?_⟩
    rintro (hnone | hfailures | ⟨j,hj,hrefuse⟩)
    · simp [hm.object] at hnone
    · obtain ⟨zs,hlive,-⟩ := hm.areas
      rw [hlive.ready.pool,h.ready.pool] at hfailures
      exact absurd hm.failures hfailures
    · exact absurd hrefuse (hm.nodes j hj)

/-- The pages and their tables are copied, and then there is no node for the area. -/
theorem vmm_copy_releases_pages : copiedTables.1 = true ∧ copiedTables.2.pool.held 2055 = true ∧
    ∃ k' σ' T ls, vmmCopy (.heap 0) (sourceKernel fun _ => .refuse) = some (.null, k') ∧
      Live k' σ' T windowPt bootRoot ls ∧
      Restored (sourceKernel fun _ => .refuse) sourceTables k' σ' ∧
      σ'.pool.stray = sourceTables.pool.stray := by
  obtain ⟨T,ls,-,hlive,hareas⟩ := sourceKernel_live fun _ => .refuse
  have hlen : 0<(ls (Handle.heap 0).list).length := by
    rw [← List.length_map (f := Prod.snd)]
    exact (congrArg List.length hareas).symm ▸ Nat.one_pos
  obtain ⟨res,k',hrun,hreleased⟩ :=
    vmm_copy_releases hlive (source_names _) (source_window hlive)
  obtain ⟨rfl,σ',hlive',hrestored,-,hstray⟩ := hreleased (.inr (.inr ⟨0,hlen,rfl⟩))
  exact ⟨by decide +kernel,by decide +kernel,k',σ',T,ls,hrun,hlive',hrestored,
    hstray (by decide +kernel)⟩

/-- Every ordinary page that is present lies in a frame that is not free. -/
def InUse (σ : Tables) (T : Node → Option Frame) : Prop :=
  ∀ {r : Frame} {p : Page}, T (.root r) = some r → Ordinary p →
    isPresent (leafEntry σ.mem r p) = true → σ.pool.free (target (leafEntry σ.mem r p)) = false

/-- The pages of the lower half of `d` are those of `r`, in frames that were free before. -/
structure SpaceCopied (σ : Tables) (T : Node → Option Frame) (r : Frame) (σ' : Tables) (d : Frame) :
    Prop where
  present {p : Page} : p.i4 < KERNEL_PML4_FIRST →
    isPresent (leafEntry σ'.mem d p) = isPresent (leafEntry σ.mem r p)
  flags {p : Page} : p.i4 < KERNEL_PML4_FIRST → isPresent (leafEntry σ.mem r p) = true →
    entryFlags (leafEntry σ'.mem d p) = entryFlags (leafEntry σ.mem r p)
  content {p : Page} : p.i4 < KERNEL_PML4_FIRST → isPresent (leafEntry σ.mem r p) = true →
    σ'.mem (target (leafEntry σ'.mem d p)) = σ.mem (target (leafEntry σ.mem r p))
  fresh {p : Page} : p.i4 < KERNEL_PML4_FIRST → isPresent (leafEntry σ.mem r p) = true →
    σ.pool.free (target (leafEntry σ'.mem d p)) = true ∧
      σ'.pool.held (target (leafEntry σ'.mem d p)) = true
  distinct {p p' : Page} : p.i4 < KERNEL_PML4_FIRST → p'.i4 < KERNEL_PML4_FIRST →
    isPresent (leafEntry σ.mem r p) = true → isPresent (leafEntry σ.mem r p') = true →
    target (leafEntry σ'.mem d p) = target (leafEntry σ'.mem d p') → p = p'
  alone {r' : Frame} {p p' : Page} : p.i4 < KERNEL_PML4_FIRST →
    isPresent (leafEntry σ.mem r p) = true → T (.root r') = some r' → Ordinary p' →
    isPresent (leafEntry σ'.mem r' p') = true →
    target (leafEntry σ'.mem r' p') ≠ target (leafEntry σ'.mem d p)
  entry {r' : Frame} {p : Page} : T (.root r') = some r' → p.i4 ≠ RECURSIVE_IDX →
    leafEntry σ'.mem r' p = leafEntry σ.mem r' p
  mem {f : Frame} : σ.pool.free f = false → σ'.mem f = σ.mem f

private theorem entryFlags_copy (f : Frame) (e : Word) :
    entryFlags (address f ||| entryFlags e)=entryFlags e := by
  have haddress : address f=address f &&& ENTRY_PHYS_MASK := by
    rw [← entryPhys,entryPhys_eq,target_address]
  have hnone : address f &&& ~~~ENTRY_PHYS_MASK=0#64 := by
    rw [haddress,BitVec.and_assoc,BitVec.and_not_self]
    exact BitVec.and_zero
  rw [entryFlags,entryFlags,BitVec.and_comm,BitVec.and_or_distrib_left,BitVec.and_comm _ (address f),
    hnone,BitVec.zero_or,BitVec.and_comm,BitVec.and_assoc,BitVec.and_self]

section Copied

variable {σ' : Tables} {T' : Node → Option Frame} (h : Sound σ T)
  (ha : RootAdded σ T σ₁ kr d flags) (hc : Copying σ₁ (addRoot T d) d σ' T')
include h ha hc

theorem copying_entry {r : Frame} (hr : T (.root r)=some r) (hp : p.i4≠RECURSIVE_IDX) :
    leafEntry σ'.mem r p=leafEntry σ.mem r p := by
  have hne : r≠d := by
    rintro rfl
    exact h.fresh ha.free _ hr
  rw [leafEntry_eq hc.sound (hc.keeps (ha.keeps h hr)) hp,leafEntry_eq h hr hp]
  cases ht : T (leafNode r p) with
  | some t =>
    rw [hc.keeps (ha.keeps h ht)]
    exact congrFun (copying_mem h ha hc (Bool.eq_false_iff.mpr fun hfree => h.fresh hfree _ ht)) _
  | none =>
    cases ht' : T' (leafNode r p) with
    | none => rfl
    | some t =>
      have hspace := (hc.created ht' (by rw [addRoot_leafNode,ht])).1
      rw [leafNode_eq] at hspace
      split_ifs at hspace
      exact absurd (Option.some.inj hspace) hne

theorem spaceCopied (hr : T (.root r)=some r) (huse : InUse σ T)
    (hcopied : Copied σ₁ (addRoot T d) d (lowerActions σ₁.mem false r) σ₁ σ') :
    SpaceCopied σ T r σ' d := by
  have hr₁ := ha.keeps h hr
  have hold {p : Page} (hp : p.i4<KERNEL_PML4_FIRST) :
      leafEntry σ₁.mem r p=leafEntry σ.mem r p :=
    ha.leafEntry_old h hr (ne_recursive_of_lower hp)
  -- the entry of a page that was present in the source
  have hpage {p : Page} (hp : p.i4<KERNEL_PML4_FIRST)
      (hpres : isPresent (leafEntry σ.mem r p)=true) :
      ∃ f, leafEntry σ'.mem d p=address f ||| entryFlags (leafEntry σ.mem r p) ∧
        σ'.mem f=σ.mem (target (leafEntry σ.mem r p)) := by
    have hvisit : .visit (virtOf p.i4 p.i3 p.i2 p.i1) (leafEntry σ.mem r p) ∈
        lowerActions σ₁.mem false r :=
      visit_mem_lowerActions ha.sound.forest hr₁ ((located_visit ha.sound hr₁).mpr
        ⟨p,rfl,rfl,hp,hold hp,hpres⟩)
    obtain ⟨f,hf,hcontent⟩ := hcopied.page hvisit
    rw [pageOf_virtOf] at hf
    have hused := huse hr (ordinary_of_lower hp) hpres
    have hne : target (leafEntry σ.mem r p)≠d := by
      intro heq
      simp [heq,ha.free] at hused
    have hstable : Stable σ₁ (addRoot T d) d (target (leafEntry σ.mem r p)) := by
      refine ⟨?_,fun n hspace hn => ?_⟩
      · rw [← Bool.not_eq_true,ha.free_iff]
        simp [hused]
      · rcases addRoot_eq_some hn with hT | ⟨-,heq⟩
        · have hnil : n.path=[] := by
            by_contra hnil
            simp [ha.lower_none h hspace hnil] at hn
          obtain ⟨o,is⟩ := n
          obtain rfl : o=some d := hspace
          obtain rfl : is=[] := hnil
          exact hne (h.forest.root hT)
        · exact hne heq
    refine ⟨f,hf,?_⟩
    rw [hcontent hstable,ha.mem,setFrame_of_ne _ _ _ hne]
  have htarget {p : Page} (hp : p.i4<KERNEL_PML4_FIRST)
      (hpres : isPresent (leafEntry σ.mem r p)=true) :
      isPresent (leafEntry σ'.mem d p)=true := by
    obtain ⟨f,hf,-⟩ := hpage hp hpres
    rw [hf,isPresent_copy hpres]
  have hfresh {p : Page} (hp : p.i4<KERNEL_PML4_FIRST)
      (hpres : isPresent (leafEntry σ.mem r p)=true) :
      σ.pool.free (target (leafEntry σ'.mem d p))=true :=
    (ha.free_iff.mp (hc.leaf ⟨p,hp,htarget hp hpres,rfl⟩)).1
  exact
    { present := fun {p} hp => by
        cases hpres : isPresent (leafEntry σ.mem r p) with
        | true => exact htarget hp hpres
        | false =>
          rw [hcopied.elsewhere hp,ha.leafEntry_lower h hp]
          · decide
          · rintro virt e hmem rfl
            obtain ⟨-,q,-,hl⟩ := (ordered_lowerActions ha.sound.forest hr₁).below _ hmem
            obtain ⟨p',-,rfl,hp',rfl,hpres'⟩ := (located_visit ha.sound hr₁).mp hl
            rw [pageOf_virtOf] at hpres
            rw [hold hp'] at hpres'
            exact absurd (hpres.symm.trans hpres') (by decide)
      flags := fun hp hpres => by
        obtain ⟨f,hf,-⟩ := hpage hp hpres
        rw [hf,entryFlags_copy]
      content := fun hp hpres => by
        obtain ⟨f,hf,hcontent⟩ := hpage hp hpres
        rw [hf,target_copy,hcontent]
      fresh := fun hp hpres => by
        refine ⟨hfresh hp hpres,hc.held.mpr (.inr ?_)⟩
        exact (mem_lowerFrames hc.sound (copying_root hc)).mpr (.inl ⟨_,hp,htarget hp hpres,rfl⟩)
      distinct := fun hp hp' hpres hpres' heq =>
        hc.exclusive.inj hp hp' (htarget hp hpres) (htarget hp' hpres') heq
      alone := fun {r' p p'} hp hpres hr' hord hpres' heq => by
        rw [copying_entry h ha hc hr' hord.ne] at hpres' heq
        have hused := huse hr' hord hpres'
        rw [heq,hfresh hp hpres] at hused
        cases hused
      entry := fun hr' hp => copying_entry h ha hc hr' hp
      mem := fun hf => copying_mem h ha hc hf }

end Copied

/-- If `vmm_copy` succeeds, the new space has the pages and the areas of the source, in frames of its
own, and the source is as it was. -/
theorem vmm_copy_faithful (h : Live k σ T w kr ls) (hn : Names k kr src r)
    (hwin : ¬ IsLeafFrame σ.mem r w) (huse : InUse σ T) :
    ∃ res k', vmmCopy src k = some (res, k') ∧
      (res ≠ .null → ∃ d σ' T' zs, Live k' σ' T' w kr (update ls res.list zs) ∧
        T (.root d) = none ∧ Names k' kr res d ∧ Names k' kr src r ∧ SpaceCopied σ T r σ' d ∧
        src.list ≠ res.list ∧ Vma.areas zs = Vma.areas (ls src.list)) := by
  rcases vmmCopy_spec h hn hwin with ⟨k',σ',hrun,-,-⟩ | ⟨id,d,k',σ',T',hrun,hm⟩
  · exact ⟨.null,k',hrun,fun hres => absurd rfl hres⟩
  · refine ⟨.heap id,k',hrun,fun _ => ?_⟩
    obtain ⟨zs,hlive,hzs⟩ := hm.areas
    obtain ⟨v,hv,hvmms⟩ := hm.vmms
    obtain ⟨flags,σ₁,ha,hc,hcopied⟩ := hm.made
    have hid := nextVmm_unused hm.object
    have hroot : T (.root d)=none := by
      cases hT : T (.root d) with
      | none => rfl
      | some g =>
        obtain rfl := h.ready.sound.forest.root hT
        exact absurd hT (h.ready.sound.fresh ha.free _)
    have hnd : src ≠ .heap id := by
      rintro rfl
      obtain ⟨v',hv',-⟩ := hn
      simp [hid] at hv'
    refine ⟨d,σ',T',zs,hlive,hroot,⟨v,by rw [hvmms,Function.update_self],hv⟩,?_,
      spaceCopied h.ready.sound ha hc (h.root hn) huse hcopied,?_,hzs⟩
    · cases src with
      | null => exact hn.elim
      | kernel => exact hn
      | heap id' =>
        obtain ⟨v',hv',hr'⟩ := hn
        refine ⟨v',?_,hr'⟩
        rw [hvmms,update_of_ne (by simpa using hnd),hv']
    · cases src with
      | null => exact hn.elim
      | kernel => simp [Handle.list]
      | heap id' => simpa [Handle.list] using hnd

private theorem bootInUse : InUse ⟨bootMem, poolOf 16⟩ bootNodes := by
  intro r p hr hp hpres
  rw [leafEntry_eq (bootSound poolOf_free) hr hp.ne] at hpres ⊢
  cases hT : bootNodes (leafNode r p) with
  | none => simp [hT,isPresent] at hpres
  | some t =>
    have hlen := length_leafNode r p
    simp only [hT] at hpres ⊢
    -- only two of the tables are leaves
    obtain ⟨n,hn⟩ : ∃ n, leafNode r p=n := ⟨_,rfl⟩
    rw [hn] at hT hlen
    cases bootNodes_eq_some.mp hT with
    | windowPt =>
      have hzero : bootMem windowPt p.i1=0 := by
        rw [bootMem,if_neg (by decide),if_neg (by decide),if_neg (by decide),
          if_neg (by decide),if_neg (by decide)]
      rw [hzero] at hpres
      exact absurd hpres (by decide)
    | imagePt =>
      by_cases h0 : p.i1=0
      · rw [h0]
        decide
      · by_cases h1 : p.i1=1
        · rw [h1]
          decide
        · have hzero : bootMem imagePt p.i1=0 := by
            rw [bootMem,if_neg (by decide),if_neg (by decide),if_neg (by decide),
              if_neg (by decide),if_pos rfl,if_neg h0,if_neg h1]
          rw [hzero] at hpres
          exact absurd hpres (by decide)
    | _ => simp [Node.root] at hlen

private theorem InUse.addRoot {σ' : Tables} (huse : InUse σ T) (h : Sound σ T)
    (hk : T (.root kr)=some kr) (ha : RootAdded σ T σ' kr f flags) : InUse σ' (addRoot T f) := by
  have hfree {g : Frame} (hg : σ.pool.free g=false) : σ'.pool.free g=false := by
    rw [← Bool.not_eq_true,ha.free_iff]
    simp [hg]
  intro r p hroot hp hpres
  rcases addRoot_eq_some hroot with hr | ⟨-,rfl⟩
  · rw [ha.leafEntry_old h hr hp.ne] at hpres ⊢
    exact hfree (huse hr hp hpres)
  by_cases hup : KERNEL_PML4_FIRST≤p.i4
  · have hshared : leafEntry σ'.mem r p=leafEntry σ.mem kr p := by
      rw [← ha.leafEntry_old h hk hp.ne,leafEntry_eq ha.sound hroot hp.ne,
        leafEntry_eq ha.sound (ha.keeps h hk) hp.ne,leafNode_shared hup r kr]
    rw [hshared] at hpres ⊢
    exact hfree (huse hk hp hpres)
  · rw [ha.leafEntry_lower h (BitVec.not_le.mp hup)] at hpres
    exact absurd hpres (by decide)

private theorem InUse.map {σ' : Tables} {T' : Node → Option Frame} {virt : Haddr}
    (huse : InUse σ T) (hr : T (.root r)=some r) (hm : PageMapped r f flags virt σ T σ' T')
    (hflags : target (normalizeLeafFlags virt flags)=0) : InUse σ' T' := by
  obtain ⟨rest,hw⟩ := hm.writes
  have hfree {g : Frame} (hg : σ'.pool.free g=true) : σ.pool.free g=true ∧ g≠f :=
    without_free.mp (hw.free.mp hg).1
  intro r' p hr' hp hpres
  rw [hm.roots] at hr'
  rw [Bool.eq_false_iff]
  by_cases hsame : SameLeaf r (pageOf virt) r' p
  · rw [hsame.leafEntry hw.sound (hw.keeps hr) (hw.keeps hr') hm.recursive,hw.here,target_or,
      target_address,hflags]
    intro hg
    exact (hfree hg).2 BitVec.or_zero
  · rw [hw.elsewhere hr' hp.ne hsame] at hpres ⊢
    intro hg
    exact absurd (huse hr' hp hpres) (Bool.not_eq_false _ ▸ (hfree hg).1)

private theorem sourceTables_inUse (hpages : PagesMapped 2048 7 [0x400000, 0x401000] newTables
    (addRoot bootNodes 2048) sourceTables T) : InUse sourceTables T := by
  have huse : InUse newTables (addRoot bootNodes 2048) :=
    bootInUse.addRoot (bootSound poolOf_free) rfl newTables_added
  cases hpages with
  | cons hfirst hrest =>
    cases hrest with
    | cons hsecond hnil =>
      cases hnil
      have hroot : addRoot bootNodes 2048 (.root 2048)=some 2048 := Function.update_self ..
      have hone : InUse _ _ := InUse.map huse hroot hfirst (by decide)
      intro r p
      exact InUse.map hone (hfirst.keeps hroot) hsecond (by decide)

private theorem source_canCopy :
    CanCopy (sourceKernel fun _ => .grant 17) sourceTables bootRoot 2048 (.heap 0) := by
  have hroot : (newRoot bootRoot (entryFlags (sourceTables.mem 2048 RECURSIVE_IDX))
      sourceTables).1=some 2054 := by decide +kernel
  have hlist : (Vma.vmaCopyList (fun _ => .grant 17) (some 2) (some 1) sourceAreas).map Prod.fst =
      some true := by decide +kernel
  obtain ⟨⟨b,areas⟩,hcopied,hb⟩ := Option.map_eq_some_iff.mp hlist
  obtain rfl : b=true := hb
  exact ⟨1,2054,_,areas,rfl,Prod.ext hroot rfl,by decide +kernel,hcopied⟩

private theorem source_copied
    (hlive : Live (sourceKernel fun _ => .grant 17) sourceTables T windowPt bootRoot ls) :
    ∃ id k', vmmCopy (.heap 0) (sourceKernel fun _ => .grant 17)=some (.heap id, k') :=
  vmmCopy_of_canCopy hlive (source_names _) (source_window hlive) source_canCopy

theorem vmm_copy_faithful_two_pages :
    isPresent (leafEntry sourceTables.mem 2048 (pageOf 0x400000)) = true ∧
    isPresent (leafEntry sourceTables.mem 2048 (pageOf 0x401000)) = true ∧
    ∃ id k' d σ' T T' ls zs,
      vmmCopy (.heap 0) (sourceKernel fun _ => .grant 17) = some (.heap id, k') ∧
      Live k' σ' T' windowPt bootRoot (update ls (Handle.heap id).list zs) ∧
      Names k' bootRoot (.heap id) d ∧ SpaceCopied sourceTables T 2048 σ' d ∧
      Vma.areas zs = [sourceArea] := by
  obtain ⟨T,ls,hpages,hlive,hareas⟩ := sourceKernel_live fun _ => .grant 17
  obtain ⟨id,k₁,hmade⟩ := source_copied hlive
  obtain ⟨res,k',hrun,hcopy⟩ := vmm_copy_faithful hlive (source_names _) (source_window hlive)
    (sourceTables_inUse hpages)
  obtain ⟨rfl,rfl⟩ := Prod.mk.inj (Option.some.inj (hmade.symm.trans hrun))
  obtain ⟨d,σ',T',zs,hlive',-,hname',-,hcopied,-,hzs⟩ := hcopy Handle.noConfusion
  exact ⟨by decide +kernel,by decide +kernel,id,k₁,d,σ',T,T',ls,zs,hrun,hlive',hname',hcopied,
    hzs.trans hareas⟩

/-- A copy that is freed again gives back the frames it took and no others. The other spaces, their
areas and all memory in use are as before. -/
theorem vmm_copy_then_free (h : Live k σ T w kr ls) (hn : Names k kr src r)
    (hwin : ¬ IsLeafFrame σ.mem r w) :
    ∃ res k', vmmCopy src k = some (res, k') ∧ (res ≠ .null → ∃ k'' σ'',
      vmmFree res k' = some ((), k'') ∧ Live k'' σ'' T w kr ls ∧ k''.vmms = k.vmms ∧
      σ''.pool.free = σ.pool.free ∧ σ''.pool.held = σ.pool.held ∧
      σ''.pool.stray = σ.pool.stray ∧ ∀ f, σ.pool.free f = false → σ''.mem f = σ.mem f) := by
  rcases vmmCopy_spec h hn hwin with ⟨k',σ',hrun,-,-⟩ | ⟨id,d,k',σ',T',hrun,hm⟩
  · exact ⟨.null,k',hrun,fun hres => absurd rfl hres⟩
  · obtain ⟨zs,hlive,-⟩ := hm.areas
    obtain ⟨v,hv,hvmms⟩ := hm.vmms
    obtain ⟨flags,σ₁,ha,hc,-⟩ := hm.made
    have hsound := h.ready.sound
    have hid := nextVmm_unused hm.object
    have hcur : d≠k'.machine.cr3 := by
      rw [hm.boot.cr3]
      rintro rfl
      exact hsound.fresh ha.free _ h.ready.current
    obtain ⟨m,ev,areas,hfree,-,hlive'⟩ := vmmFree_spec hlive (v := v)
      (by rw [hvmms,Function.update_self]) hv hcur fun hf => hc.exclusive.table hf
    rw [dropSpace_copying hsound ha hc,Function.update_idem,← h.unlisted hid,
      Function.update_eq_self] at hlive'
    refine ⟨.heap id,k',hrun,fun _ => ⟨_,_,hfree,hlive',?_,?_,?_,freed_stray hsound ha hc,
      fun f hf => show σ'.mem f=σ.mem f from copying_mem hsound ha hc hf⟩⟩
    · change update k'.vmms id none=k.vmms
      rw [hvmms,Function.update_idem,← hid,Function.update_eq_self]
    · funext g
      rw [Bool.eq_iff_iff,freed_free_iff hsound ha hc]
    · funext g
      rw [Bool.eq_iff_iff,freed_held_iff hsound ha hc h.pool]

theorem vmm_copy_then_free_two_pages : ∃ id k' k'' σ'' T ls,
    vmmCopy (.heap 0) (sourceKernel fun _ => .grant 17) = some (.heap id, k') ∧
    vmmFree (.heap id) k' = some ((), k'') ∧ Live k'' σ'' T windowPt bootRoot ls ∧
    Vma.areas (ls (Handle.heap 0).list) = [sourceArea] ∧
    k''.vmms = (sourceKernel fun _ => .grant 17).vmms ∧
    σ''.pool.free = sourceTables.pool.free ∧ σ''.pool.held = sourceTables.pool.held ∧
    σ''.pool.stray = [] ∧
    ∀ f, sourceTables.pool.free f = false → σ''.mem f = sourceTables.mem f := by
  obtain ⟨T,ls,-,hlive,hareas⟩ := sourceKernel_live fun _ => .grant 17
  obtain ⟨id,k₁,hmade⟩ := source_copied hlive
  obtain ⟨res,k',hrun,hfreed⟩ := vmm_copy_then_free hlive (source_names _) (source_window hlive)
  obtain ⟨rfl,rfl⟩ := Prod.mk.inj (Option.some.inj (hmade.symm.trans hrun))
  obtain ⟨k'',σ'',hfree,hlive'',hvmms,hfreePool,hheld,hstray,hmem⟩ := hfreed Handle.noConfusion
  have hnone : sourceTables.pool.stray=[] := by decide +kernel
  exact ⟨id,k₁,k'',σ'',T,ls,hrun,hfree,hlive'',hareas,hvmms,hfreePool,hheld,hstray.trans hnone,hmem⟩

end Hojicha.Vmm
