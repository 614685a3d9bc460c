import Hojicha.Vmm.Boot
import Hojicha.Vmm.Kernel

/-!
# The kernel between two calls

Every `vmm_t` that is not freed has a root of its own among the tables and a sorted list of areas.
-/

namespace Hojicha.Vmm

open Framework Framework.Paging Handle
open Function (update update_of_ne)
open Vma (SlabAnswer)

structure Spaces (k : Kernel) (σ : Tables) (T : Node → Option Frame) (w kr : Frame)
    (ls : Nat → List (Haddr × Vma.Area)) : Prop where
  ready : Ready k.machine σ T w
  kernelRoot : T (.root kr) = some kr
  areas : Vma.Consistent k.areas ls
  pool : σ.pool.Disjoint
  kernel : k.kernelVmm.pml4Phys = address kr
  record {id : Nat} {v : VmmRecord} : k.vmms id = some v →
    ∃ r, v.pml4Phys = address r ∧ T (.root r) = some r ∧ r ≠ kr
  inj {id id' : Nat} {v v' : VmmRecord} : k.vmms id = some v → k.vmms id' = some v' →
    v.pml4Phys = v'.pml4Phys → id = id'
  roots {r : Frame} : T (.root r) = some r → r = kr ∨ ∃ id v, k.vmms id = some v ∧
    v.pml4Phys = address r
  unlisted {id : Nat} : k.vmms id = none → ls (Handle.heap id).list = []

/-- The kernel also finds its own directory. -/
structure Live (k : Kernel) (σ : Tables) (T : Node → Option Frame) (w kr : Frame)
    (ls : Nat → List (Haddr × Vma.Area)) : Prop extends Spaces k σ T w kr ls where
  intact : KernelReady k.machine σ T w kr

def Names (k : Kernel) (kr : Frame) : Handle → Frame → Prop
  | .null, _ => False
  | .kernel, r => r = kr
  | .heap id, r => ∃ v, k.vmms id = some v ∧ v.pml4Phys = address r

variable {k : Kernel} {σ σ' : Tables} {T T' : Node → Option Frame} {w kr r f : Frame}
  {ls : Nat → List (Haddr × Vma.Area)} {vmm : Handle} {id : Nat} {flags : Haddr} {areas : Vma.Store}

theorem address_injective : Function.Injective address := fun f g h => by
  rw [← target_address f,h,target_address]

section

variable (h : Spaces k σ T w kr ls) (hn : Names k kr vmm r)
include h hn

theorem Spaces.root : T (.root r)=some r := by
  cases vmm with
  | null => exact hn.elim
  | kernel =>
    obtain rfl : r=kr := hn
    exact h.kernelRoot
  | heap id =>
    obtain ⟨v,hv,hr⟩ := hn
    obtain ⟨r',hr',hT,-⟩ := h.record hv
    rwa [address_injective (hr.symm.trans hr')]

theorem Spaces.deref_run : ∃ v, deref vmm k=some (v, k) ∧ v.pml4Phys=address r := by
  cases vmm with
  | null => exact hn.elim
  | kernel =>
    obtain rfl : r=kr := hn
    exact ⟨_,rfl,h.kernel⟩
  | heap id =>
    obtain ⟨v,hv,hr⟩ := hn
    exact ⟨v,by simp [deref,hv],hr⟩

theorem Spaces.spaceOf_run : ∃ space, spaceOf vmm k=some (space, k) ∧ IsRoot kr space r ∧
      (space = .kernel → vmm = .kernel) := by
  cases vmm with
  | null => exact hn.elim
  | kernel => exact ⟨.kernel,rfl,hn,fun _ => rfl⟩
  | heap id =>
    obtain ⟨v,hrun,hv⟩ := h.deref_run hn
    exact ⟨.own v.pml4Phys,bind_run hrun,hv,by simp⟩

end

theorem onMachine_run {α : Type} {x : M α} {a : α} {s : Machine} (h : x k.machine=some (a, s)) :
    onMachine x k=some (a, { k with machine := s }) := by
  rw [onMachine,h]
  rfl

theorem onAreas_run (call : (Nat → SlabAnswer) → Vma.Store → Option (Bool × Vma.Store)) {b : Bool}
    (h : call k.nextNodes k.areas=some (b, areas)) :
    onAreas call k=some (b, { k with areas := areas, vmaAnswers := k.vmaAnswers.tail }) := by
  rw [onAreas,h]
  rfl

/-- What no function of `vmm.c` changes. -/
structure SameBoot (k k' : Kernel) : Prop where
  kernelVmm : k'.kernelVmm = k.kernelVmm
  cr3 : k'.machine.cr3 = k.machine.cr3
  kernelPml4Phys : k'.machine.kernelPml4Phys = k.machine.kernelPml4Phys
  virtualDirectory : k'.machine.virtualDirectory = k.machine.virtualDirectory

theorem SameBoot.refl (k : Kernel) : SameBoot k k := ⟨rfl,rfl,rfl,rfl⟩

theorem SameBoot.trans {k₁ k₂ k₃ : Kernel} (h₁ : SameBoot k₁ k₂) (h₂ : SameBoot k₂ k₃) :
    SameBoot k₁ k₃ :=
  ⟨h₂.kernelVmm.trans h₁.kernelVmm,h₂.cr3.trans h₁.cr3,
    h₂.kernelPml4Phys.trans h₁.kernelPml4Phys,h₂.virtualDirectory.trans h₁.virtualDirectory⟩

theorem Spaces.withMachine {s : Machine} (h : Spaces k σ T w kr ls)
    (hready : Ready s σ' T' w) (hpool : σ'.pool.Disjoint)
    (hroots : ∀ r, T' (.root r)=T (.root r)) :
    Spaces { k with machine := s } σ' T' w kr ls where
  ready := hready
  kernelRoot := by rw [hroots,h.kernelRoot]
  areas := h.areas
  pool := hpool
  kernel := h.kernel
  record hv := by
    obtain ⟨r,hr,hT,hne⟩ := h.record hv
    exact ⟨r,hr,by rw [hroots,hT],hne⟩
  inj := h.inj
  roots hr := h.roots (by rwa [hroots] at hr)
  unlisted := h.unlisted

theorem Live.withMachine {s : Machine} (h : Live k σ T w kr ls)
    (hready : KernelReady s σ' T' w kr) (hpool : σ'.pool.Disjoint)
    (hroots : ∀ r, T' (.root r)=T (.root r)) :
    Live { k with machine := s } σ' T' w kr ls :=
  ⟨h.toSpaces.withMachine hready.toReady hpool hroots,hready⟩

theorem Spaces.withAreas {zs : List (Haddr × Vma.Area)}
    {rest : List (Nat → SlabAnswer)} (h : Spaces k σ T w kr ls) (hn : Names k kr vmm r)
    (hareas : Vma.Consistent areas (update ls vmm.list zs)) :
    Spaces { k with areas := areas, vmaAnswers := rest } σ T w kr
      (update ls vmm.list zs) where
  ready := h.ready
  kernelRoot := h.kernelRoot
  areas := hareas
  pool := h.pool
  kernel := h.kernel
  record := h.record
  inj := h.inj
  roots := h.roots
  unlisted {id} hid := by
    have hne : (heap id).list≠vmm.list := by
      cases vmm with
      | null => exact hn.elim
      | kernel => simp [list]
      | heap id' =>
        rintro heq
        obtain ⟨v,hv,-⟩ := hn
        obtain rfl : id=id' := by simpa [list] using heq
        have hid : k.vmms id=none := hid
        simp [hv] at hid
    rw [update_of_ne hne]
    exact h.unlisted hid

theorem Live.withAreas {zs : List (Haddr × Vma.Area)}
    {rest : List (Nat → SlabAnswer)} (h : Live k σ T w kr ls) (hn : Names k kr vmm r)
    (hareas : Vma.Consistent areas (update ls vmm.list zs)) :
    Live { k with areas := areas, vmaAnswers := rest } σ T w kr
      (update ls vmm.list zs) :=
  ⟨h.toSpaces.withAreas hn hareas,h.intact⟩

theorem Spaces.withAnswers (h : Spaces k σ T w kr ls) (rest : List (Nat → SlabAnswer)) :
    Spaces { k with vmaAnswers := rest } σ T w kr ls :=
  ⟨h.ready,h.kernelRoot,h.areas,h.pool,h.kernel,h.record,h.inj,h.roots,h.unlisted⟩

theorem Live.withAnswers (h : Live k σ T w kr ls) (rest : List (Nat → SlabAnswer)) :
    Live { k with vmaAnswers := rest } σ T w kr ls :=
  ⟨h.toSpaces.withAnswers rest,h.intact⟩

theorem Disjoint.without {p : FramePool} (h : p.Disjoint) (rest : List (Option Frame)) :
    (p.without f rest).Disjoint := by
  intro g hg
  obtain ⟨hfree,hne⟩ := without_free.mp hg
  rw [← Bool.not_eq_true,without_held]
  simp [h g hfree,hne]

theorem RootAdded.disjoint (ha : RootAdded σ T σ' kr f flags) (h : σ.pool.Disjoint) :
    σ'.pool.Disjoint := by
  obtain ⟨rest,hpool⟩ := ha.pool
  rw [hpool]
  exact Disjoint.without h rest

private theorem setHead_unlisted (h : Live k σ T w kr ls) (hid : k.vmms id=none) :
    k.areas.setHead (Handle.heap id).list Vma.NULL=k.areas := by
  have hc := h.areas.represents.chain (heap id).list
  rw [h.unlisted hid] at hc
  have hnull : k.areas.heads (heap id).list=Vma.NULL := hc.linked
  rw [Vma.Store.setHead,← hnull,Function.update_eq_self]

theorem nextVmm_unused (hid : k.nextVmm=some id) : k.vmms id=none := by
  obtain ⟨-,hnone⟩ := Option.filter_eq_some_iff.mp hid
  simpa using hnone

private theorem memsetVmm_run (h : Live k σ T w kr ls) (hid : k.vmms id=none)
    (rest : List (Option Nat)) :
    memsetVmm id { k with vmmAnswers := rest } = some ((), { k with
      vmms := update k.vmms id (some ⟨0, 0, 0, 0⟩), vmmAnswers := rest }) := by
  have hhead := setHead_unlisted h hid
  simp only [memsetVmm,hhead]

theorem vmmNew_spec (h : Live k σ T w kr ls) (flags : Haddr) :
    (k.nextVmm=none ∧
      vmmNew flags k=some (.null, { k with vmmAnswers := k.vmmAnswers.tail })) ∨
    ∃ id, k.nextVmm=some id ∧ k.vmms id=none ∧
    ((∃ m' ev rest, newRoot kr flags σ=(none, { σ with pool := σ.pool.fail rest }) ∧
      vmmNew flags k=some (.null, { k with
        machine := k.machine.update m' (σ.pool.fail rest) ev
        vmmAnswers := k.vmmAnswers.tail }) ∧
      KernelReady (k.machine.update m' (σ.pool.fail rest) ev)
        { σ with pool := σ.pool.fail rest } T w kr) ∨
    ∃ f m' ev σ', newRoot kr flags σ=(some f, σ') ∧ RootAdded σ T σ' kr f flags ∧
      vmmNew flags k=some (.heap id, { k with
        machine := k.machine.update m' σ'.pool ev
        vmms := update k.vmms id
          (some ⟨LOW_REGION_END, LAST_VADDR, k.kernelVmm.kernelOffset, address f⟩)
        vmmAnswers := k.vmmAnswers.tail }) ∧
      KernelReady (k.machine.update m' σ'.pool ev) σ' (addRoot T f) w kr) := by
  have halloc : slabAllocVmm k=some (k.nextVmm.elim .null .heap,
    { k with vmmAnswers := k.vmmAnswers.tail }) := rfl
  rw [vmmNew,bind_run halloc]
  cases hnext : k.nextVmm with
  | none => exact .inl ⟨rfl,rfl⟩
  | some id =>
    have hid := nextVmm_unused hnext
    refine .inr ⟨id,rfl,hid,?_⟩
    have hmemset := memsetVmm_run h hid k.vmmAnswers.tail
    obtain ⟨m',ev,hrun,hcase⟩ := h.intact.newSpace flags
    have hnew := onMachine_run (k := { k with
      vmms := update k.vmms id (some ⟨0,0,0,0⟩)
      vmmAnswers := k.vmmAnswers.tail }) hrun
    simp only [Option.elim_some]
    rw [bind_run hmemset,bind_run hnew]
    obtain ⟨rest,hnone⟩ | ⟨f,hsome,-⟩ := newRoot_spec h.ready.sound h.kernelRoot flags
    · simp only [hnone] at hcase ⊢
      refine .inl ⟨m',ev,rest,rfl,?_,hcase⟩
      simp [Bind.bind,StateT.bind,setRecord,pure_apply,← hid]
    · obtain ⟨⟨_,σ'⟩,hres⟩ : ∃ x, newRoot kr flags σ=x := ⟨_,rfl⟩
      rw [hres] at hsome
      obtain rfl := hsome
      simp only [hres] at hcase ⊢
      refine .inr ⟨f,m',ev,σ',rfl,hcase.1,?_,hcase.2⟩
      simp [Bind.bind,StateT.bind,setRecord,deref,pure_apply]

theorem Live.addSpace {v : VmmRecord} {s : Machine} {rest : List (Option Nat)}
    (h : Live k σ T w kr ls) (hid : k.vmms id=none) (ha : RootAdded σ T σ' kr f flags)
    (hv : v.pml4Phys=address f) (hready : KernelReady s σ' (addRoot T f) w kr) :
    Live { k with machine := s, vmms := update k.vmms id (some v), vmmAnswers := rest }
      σ' (addRoot T f) w kr ls := by
  have hfresh := h.ready.sound.fresh ha.free
  have hold {id' : Nat} {v' : VmmRecord}
      (hv' : update k.vmms id (some v) id'=some v') :
      id'=id ∧ v'=v ∨ id'≠id ∧ k.vmms id'=some v' := by
    by_cases hid' : id'=id
    · subst hid'
      rw [Function.update_self,Option.some.injEq] at hv'
      exact .inl ⟨rfl,hv'.symm⟩
    · rw [update_of_ne hid'] at hv'
      exact .inr ⟨hid',hv'⟩
  have hne {id' : Nat} {v' : VmmRecord} (hv' : k.vmms id'=some v') : v'.pml4Phys≠address f := by
    obtain ⟨r,hr,hT,-⟩ := h.record hv'
    rintro heq
    rw [address_injective (hr.symm.trans heq)] at hT
    exact hfresh _ hT
  refine
    { ready := hready.toReady
      kernelRoot := hready.root
      intact := hready
      areas := h.areas
      pool := ha.disjoint h.pool
      kernel := h.kernel
      record := fun {id' v'} hv' => ?_
      inj := fun {id₁ id₂ v₁ v₂} h₁ h₂ heq => ?_
      roots := fun {r} hr => ?_
      unlisted := fun {id'} hid' => ?_ }
  · rcases hold hv' with ⟨rfl,rfl⟩ | ⟨-,hv'⟩
    · exact ⟨f,hv,Function.update_self ..,fun hk => hfresh _ (hk ▸ h.kernelRoot)⟩
    · obtain ⟨r,hr,hT,hkr⟩ := h.record hv'
      exact ⟨r,hr,ha.keeps h.ready.sound hT,hkr⟩
  · rcases hold h₁ with ⟨hid₁,rfl⟩ | ⟨-,hold₁⟩ <;> rcases hold h₂ with ⟨hid₂,rfl⟩ | ⟨-,hold₂⟩
    · rw [hid₁,hid₂]
    · exact absurd (heq.symm.trans hv) (hne hold₂)
    · exact absurd (heq.trans hv) (hne hold₁)
    · exact h.inj hold₁ hold₂ heq
  · rcases addRoot_eq_some hr with hr | ⟨-,rfl⟩
    · refine (h.roots hr).imp_right fun ⟨id',v',hv',heq⟩ => ⟨id',v',?_,heq⟩
      dsimp only
      rw [update_of_ne,hv']
      rintro rfl
      simp [hv'] at hid
    · exact .inr ⟨id,v,Function.update_self ..,hv⟩
  · refine h.unlisted ?_
    by_cases heq : id'=id
    · exact heq ▸ hid
    · simpa [update_of_ne heq] using hid'

theorem Disjoint.giveAll {p : FramePool} (h : p.Disjoint) (fs : List Frame) :
    (p.giveAll fs).Disjoint := by
  intro g hg
  rw [← Bool.not_eq_true,giveAll_held]
  rintro ⟨hheld,hout⟩
  rcases giveAll_free.mp hg with hfree | hin
  · simp [h g hfree] at hheld
  · exact hout hin

private theorem KernelReady.dropRoot {s : Machine} {m' : PhysMem} (h : KernelReady s σ T w kr)
    (hr : T (.root r)=some r) (hkr : r≠kr) (hcur : r≠s.cr3)
    (hleaf : ∀ {f}, IsLeafFrame σ.mem r f → ∀ n, T n≠some f) (hagree : Agree w m' σ.mem)
    (ev : List Event) :
    KernelReady (s.update m' (σ.pool.freed σ.mem r) ev)
      { σ with pool := σ.pool.freed σ.mem r } (dropSpace T r) w kr where
  sound := h.sound.dropRoot hr hleaf
  window := h.window
  current := by
    rw [update_cr3,dropSpace,if_neg (by simpa [Node.root] using hcur.symm)]
    exact h.current
  agree := hagree
  pool := rfl
  root := by
    rw [dropSpace,if_neg (by simpa [Node.root] using hkr.symm)]
    exact h.root
  phys := h.phys
  image := h.image
  recursive := h.recursive
  apart := h.apart
  directory := h.directory

private theorem vmaClear_of_null {s : Vma.Store} {l : Nat} (h : s.heads l=Vma.NULL) :
    Vma.vmaClear (some l) s=some s := by
  rw [Vma.vmaClear,show 2 ^ 64=(2 ^ 64-1)+1 by norm_num,Vma.clearLoop,if_pos h]

theorem vmmFree_spec {v : VmmRecord} (h : Live k σ T w kr ls) (hv : k.vmms id=some v)
    (hr : v.pml4Phys=address r) (hcur : r≠k.machine.cr3)
    (hleaf : ∀ {f}, IsLeafFrame σ.mem r f → ∀ n, T n≠some f) :
    ∃ m' ev areas, vmmFree (.heap id) k=some ((), { k with
        machine := k.machine.update m' (σ.pool.freed σ.mem r) ev
        areas := areas
        vmms := update k.vmms id none }) ∧
      (ls (Handle.heap id).list=[] → areas=k.areas) ∧
      Live { k with
        machine := k.machine.update m' (σ.pool.freed σ.mem r) ev
        areas := areas
        vmms := update k.vmms id none }
        { σ with pool := σ.pool.freed σ.mem r } (dropSpace T r) w kr
        (update ls (Handle.heap id).list []) := by
  have hnames : Names k kr (.heap id) r := ⟨v,hv,hr⟩
  have hroot := h.root hnames
  have hkr : r≠kr := by
    obtain ⟨r',hr',-,hne⟩ := h.record hv
    rwa [address_injective (hr.symm.trans hr')]
  obtain ⟨m',ev,hrun,-,hagree⟩ := vmmDestroyMappings_run h.ready.sound.forest hroot
    h.ready.window h.ready.windowed h.ready.agree
  rw [h.ready.pool] at hrun
  obtain ⟨areas,hclear,hcleared,hrep⟩ :=
    Vma.vmaClear_spec h.areas.represents (heap id).list
  refine ⟨m',ev,areas,?_,fun hnil => ?_,?_⟩
  · have hderef : deref (.heap id) k=some (v, k) := by simp [deref,hv]
    have hdestroy := onMachine_run (k := k) hrun
    rw [vmmFree,bind_run hderef,hr,bind_run hdestroy]
    simp [Bind.bind,StateT.bind,vmaClearOf,hclear,onMachine,pmmFreeFrame_run,setRecord,
      FramePool.freed,FramePool.giveAll]
  · have hc := h.areas.represents.chain (heap id).list
    rw [hnil] at hc
    rw [vmaClear_of_null hc.linked] at hclear
    exact (Option.some.inj hclear).symm
  · have hother {id' : Nat} {v' : VmmRecord} (hv' : update k.vmms id none id'=some v') :
        id'≠id ∧ k.vmms id'=some v' := by
      by_cases heq : id'=id
      · subst heq
        simp at hv'
      · exact ⟨heq,by rwa [update_of_ne heq] at hv'⟩
    have hintact := h.intact.dropRoot hroot hkr hcur hleaf hagree ev
    exact
      { ready := hintact.toReady
        kernelRoot := hintact.root
        intact := hintact
        areas := h.areas.update hrep ⟨by simp,.nil⟩
        pool := Disjoint.giveAll h.pool _
        kernel := h.kernel
        record := fun {id' v'} hv' => by
          obtain ⟨hne,hold⟩ := hother hv'
          obtain ⟨r',hr',hT,hkr'⟩ := h.record hold
          refine ⟨r',hr',?_,hkr'⟩
          rw [dropSpace,if_neg,hT]
          rintro heq
          obtain rfl : r'=r := by simpa [Node.root] using heq
          exact hne (h.inj hold hv (hr'.trans hr.symm))
        inj := fun h₁ h₂ heq => h.inj (hother h₁).2 (hother h₂).2 heq
        roots := fun {r'} hr' => by
          obtain ⟨hT,hne⟩ := dropSpace_eq_some hr'
          refine (h.roots hT).imp_right ?_
          rintro ⟨id',v',hv',heq⟩
          refine ⟨id',v',?_,heq⟩
          dsimp only
          rw [update_of_ne,hv']
          rintro rfl
          rw [hv,Option.some.injEq] at hv'
          subst hv'
          exact hne (by rw [address_injective (heq.symm.trans hr)]; rfl)
        unlisted := fun {id'} hid' => by
          by_cases heq : id'=id
          · rw [heq,Function.update_self]
          · rw [update_of_ne (by simpa [list] using heq)]
            exact h.unlisted (by simpa [update_of_ne heq] using hid') }

def bootKernel (pool : FramePool) (vmmAnswers : List (Option Nat))
    (vmaAnswers : List (Nat → SlabAnswer)) : Kernel where
  machine := bootMachine pool
  areas := .empty
  kernelVmm := ⟨0xFFFFFFFF80002000, 0xFFFFFFFF80001000, 0xFFFFFFFF80000000, address bootRoot⟩
  vmms _ := none
  vmmAnswers := vmmAnswers
  vmaAnswers := vmaAnswers

theorem bootKernel_live {pool : FramePool} (hpool : ∀ f, pool.free f=true → 2048≤f.toNat)
    (hdisjoint : pool.Disjoint) (vmmAnswers : List (Option Nat))
    (vmaAnswers : List (Nat → SlabAnswer)) :
    Live (bootKernel pool vmmAnswers vmaAnswers) ⟨bootMem, pool⟩ bootNodes windowPt bootRoot
      fun _ => [] where
  ready := (bootMachine_ready hpool).toReady
  kernelRoot := (bootMachine_ready hpool).root
  intact := bootMachine_ready hpool
  areas := ⟨.empty,fun _ => ⟨by simp,.nil⟩⟩
  pool := hdisjoint
  kernel := rfl
  record hv := by cases hv
  inj hv := by cases hv
  roots {r} hr := by
    have hr : (if r=bootRoot then some bootRoot else none)=some r := hr
    split_ifs at hr with heq
    exact .inl heq
  unlisted _ := rfl

theorem samplePool_disjoint : samplePool.Disjoint := fun _ _ => rfl

end Hojicha.Vmm
