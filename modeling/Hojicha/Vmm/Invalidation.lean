import Hojicha.Vmm.MapFailure

/-!
# Stale translations

A call that changes the entry of a mapped page of the loaded space has to invalidate the page behind
the change. Mapping does so on both paths, and unmapping on the path of the kernel only.
-/

namespace Hojicha.Vmm

open Framework Framework.Paging

inductive PageCall
  | map (virt pageCount flags : Haddr)
  | mapAtPaddr (virt phys flags : Haddr)
  | unmap (virt : Haddr)

def PageCall.run (vmm : Handle) : PageCall → K Haddr
  | .map virt pageCount flags => vmmMap vmm virt pageCount flags
  | .mapAtPaddr virt phys flags => vmmMapAtPaddr vmm virt phys flags
  | .unmap virt => vmmUnmap vmm virt

def PageCall.range : PageCall → List Haddr
  | .map virt pageCount _ => pagesFrom virt pageCount.toNat
  | _ => []

/-- Every mapped page of the loaded space whose entry has changed was invalidated behind the
change. -/
def Invalidates (s s' : Machine) : Prop :=
  ∃ evs, s'.events = evs ++ s.events ∧ ∀ p t, p.i4 ≠ RECURSIVE_IDX →
    follow s.mem s.cr3 p.tables = some t → isPresent (s.mem t p.i1) = true →
    s'.mem t p.i1 ≠ s.mem t p.i1 → Flushed t p.i1 p evs

/-- A mapped page is unmapped through a handle that is not the kernel's. -/
def PageCall.Silent (vmm : Handle) (k : Kernel) : PageCall → Prop
  | .unmap virt => vmm ≠ .kernel ∧ (pageOf virt).i4 ≠ RECURSIVE_IDX ∧
      isPresent (leafEntry k.machine.mem k.machine.cr3 (pageOf virt)) = true
  | _ => False

variable {k k' : Kernel} {σ : Tables} {T : Node → Option Frame} {w kr r : Frame}
  {ls : Nat → List (Haddr × Vma.Area)} {vmm : Handle} {virt phys flags : Haddr} {s : Machine}
  {p : Page}

theorem Ready.follow_loaded (h : Ready s σ T w) (hp : p.i4≠RECURSIVE_IDX) :
    follow s.mem s.cr3 p.tables=T (leafNode s.cr3 p) := by
  have hself : Sound ⟨s.mem,σ.pool⟩ T := ⟨h.forest,h.sound.fresh⟩
  exact follow_tables hself h.current hp

theorem CallFlushes.invalidates (h : CallFlushes T k k') (hr : Ready k.machine σ T w) :
    Invalidates k.machine k'.machine := by
  obtain ⟨evs,hevs,hflush⟩ := h
  refine ⟨evs,hevs,fun p t hp ht _ _ => hflush k.machine.cr3 p t ?_⟩
  rwa [← hr.follow_loaded hp]

section

variable (h : Spaces k σ T w kr ls) (hn : Names k kr vmm k.machine.cr3)
    (hk : vmm = .kernel → KernelReady k.machine σ T w kr)
include h hn hk

private theorem usable_loaded {space : Space} (hspace : space = .kernel → vmm = .kernel)
    (p : Page) : Usable k.machine σ T w kr space ∧ Editable k.machine kr space p := by
  cases space with
  | kernel =>
    obtain rfl := hspace rfl
    exact ⟨hk rfl,.inr hn⟩
  | own pml4Phys => exact ⟨h.ready,trivial⟩

theorem vmmMapAtPaddr_flushes (virt phys flags : Haddr) :
    ∃ ret k', vmmMapAtPaddr vmm virt phys flags k=some (ret, k') ∧ CallFlushes T k k' := by
  obtain ⟨ok,k₁,ys,hinsert,hk₁,h₁,-⟩ := insertVma_run h hn
    (virt &&& MAPPING_STRUCTURE_MASK) PAGE_SIZE flags
  rw [vmmMapAtPaddr,bind_run hinsert]
  cases ok with
  | false => exact ⟨0,k₁,rfl,hk₁.flushes T⟩
  | true =>
    have hn₁ := hn.congr hk₁.vmms
    rw [← hk₁.machine] at hn₁ hk
    obtain ⟨space,hspace,hroot,hkernel⟩ := h₁.spaceOf_run hn₁
    obtain ⟨husable,hedit⟩ := usable_loaded h₁ hn₁ hk hkernel (pageOf virt)
    obtain ⟨m',evs,hrun,hagree,hflush,-⟩ :=
      mapAtPaddrInternal_run husable hroot (h₁.root hn₁) hedit phys flags
    obtain ⟨σ',hσ'⟩ : ∃ σ', (mapAt k₁.machine.cr3 virt phys flags σ).2=σ' := ⟨_,rfl⟩
    obtain ⟨T',hs',hext⟩ : ∃ T', Sound σ' T' ∧ Extends σ T σ' T' := by
      obtain ⟨T',-,⟨-,-,hw⟩ | ⟨-,hs',hg,-⟩⟩ :=
        mapAt_spec h₁.ready.sound (h₁.root hn₁) virt phys flags
      · exact ⟨T',hσ' ▸ hw.sound,hσ' ▸ hw.toExtends⟩
      · exact ⟨T',hσ' ▸ hs',hσ' ▸ hg.toExtends⟩
    rw [hσ'] at hrun hagree
    have h₂ := h₁.withMachine (h₁.ready.extend hs' hext.keeps hagree (evs++k₁.machine.events))
      (hext.disjoint h₁.pool) hext.roots
    have hevents : CallFlushes T k
        { k₁ with machine := k₁.machine.update m' σ'.pool (evs++k₁.machine.events) } :=
      ⟨evs,by rw [← hk₁.machine]; rfl,hflush⟩
    rw [if_neg (by simp),bind_run hspace,bind_run (onMachine_run hrun)]
    obtain ⟨ret,hret⟩ : ∃ ret, (if (mapAt k₁.machine.cr3 virt phys flags σ).1 then
      virt &&& MAPPING_STRUCTURE_MASK else 0)=ret := ⟨_,rfl⟩
    rw [hret]
    split_ifs
    · obtain ⟨ok,k₂,zs,hremove,hk₂,-⟩ := removeVma_run h₂ (hn₁.congr rfl)
        (virt &&& MAPPING_STRUCTURE_MASK)
      rw [bind_run hremove]
      exact ⟨0,k₂,rfl,by rw [CallFlushes,hk₂.machine]; exact hevents⟩
    · exact ⟨_,_,rfl,hevents⟩

theorem vmmUnmap_run {space : Space}
    (hspace : spaceOf vmm k=some (space, k)) (hroot : IsRoot kr space k.machine.cr3)
    (hkernel : space = .kernel → vmm = .kernel) (virt : Haddr) :
    ∃ ret k' evs, vmmUnmap vmm virt k=some (ret, k') ∧
      k'.machine.events=evs++k.machine.events ∧
      (space = .kernel ∨ T (leafNode k.machine.cr3 (pageOf virt))=none → Flushes T evs) ∧
      (space ≠ .kernel → ∀ t∈T (leafNode k.machine.cr3 (pageOf virt)),
        EndsUnmapped T t (pageOf virt) k'.machine.mem evs) := by
  obtain ⟨husable,hedit⟩ := usable_loaded h hn hk hkernel (pageOf virt)
  obtain ⟨m',evs,hrun,hagree,hflush,hends⟩ :=
    unmapInternal_run husable hroot (h.root hn) hedit
  obtain ⟨σ',hσ'⟩ : ∃ σ', (unmapAt k.machine.cr3 virt σ).2=σ' := ⟨_,rfl⟩
  obtain ⟨hs',hext⟩ : Sound σ' T ∧ Extends σ T σ' T := by
    obtain ⟨-,-,hw,-⟩ | ⟨hfail,-⟩ := unmapAt_spec h.ready.sound (h.root hn) virt
    · exact ⟨hσ' ▸ hw.sound,hσ' ▸ hw.toExtends⟩
    · rw [hfail] at hσ'
      exact ⟨hσ' ▸ h.ready.sound,hσ' ▸ (Grown.refl h.ready.sound).toExtends⟩
  rw [hσ'] at hrun hagree
  have h₁ := h.withMachine (h.ready.extend hs' id hagree (evs++k.machine.events))
    (hext.disjoint h.pool) hext.roots
  rw [vmmUnmap,bind_run hspace,bind_run (onMachine_run hrun)]
  obtain ⟨ret,hret⟩ : ∃ ret, (if (unmapAt k.machine.cr3 virt σ).1 then
    virt &&& MAPPING_STRUCTURE_MASK else 0)=ret := ⟨_,rfl⟩
  rw [hret]
  by_cases hzero : ret=0
  · rw [if_pos hzero]
    exact ⟨0,_,evs,rfl,rfl,hflush,hends⟩
  · obtain ⟨ok,k₂,zs,hremove,hk₂,-⟩ := removeVma_run h₁ (hn.congr rfl) ret
    rw [if_neg hzero,bind_run hremove]
    cases ok <;>
      exact ⟨_,k₂,evs,rfl,by rw [hk₂.machine]; rfl,hflush,by rw [hk₂.machine]; exact hends⟩

end

/-- A call on the loaded space leaves no stale translation of a page that it changed, exactly if it
does not unmap a mapped page through a handle other than the kernel's. -/
theorem pageCall_invalidates_iff (vmm : Handle) (call : PageCall) (h : Spaces k σ T w kr ls)
    (hn : Names k kr vmm k.machine.cr3) (hk : vmm = .kernel → KernelReady k.machine σ T w kr)
    (hdir : vmm = .kernel → ∀ v ∈ call.range, pageOf v ≠ pageOf k.machine.virtualDirectory) :
    ∃ ret k', call.run vmm k = some (ret, k') ∧
      (Invalidates k.machine k'.machine ↔ ¬ call.Silent vmm k) := by
  cases call with
  | map virt pageCount flags =>
    have hedit : MayEdit k σ T w kr vmm (pagesFrom virt pageCount.toNat) := by
      rintro rfl
      exact ⟨hk rfl,fun v hv => ⟨.inr hn,hdir rfl v hv⟩⟩
    obtain ⟨ret,k',σ',T',zs,hrun,-,-,-,hflush,-⟩ := vmmMap_run h hn hedit flags
    exact ⟨ret,k',hrun,iff_of_true (hflush.invalidates h.ready) not_false⟩
  | mapAtPaddr virt phys flags =>
    obtain ⟨ret,k',hrun,hflush⟩ := vmmMapAtPaddr_flushes h hn hk virt phys flags
    exact ⟨ret,k',hrun,iff_of_true (hflush.invalidates h.ready) not_false⟩
  | unmap virt =>
    obtain ⟨space,hspace,hroot,hkernel⟩ := h.spaceOf_run hn
    obtain ⟨ret,k',evs,hrun,hevs,hflush,hends⟩ :=
      vmmUnmap_run h hn hk hspace hroot hkernel virt
    refine ⟨ret,k',hrun,?_⟩
    by_cases hquiet : space = .kernel ∨ T (leafNode k.machine.cr3 (pageOf virt))=none
    · refine iff_of_true (CallFlushes.invalidates ⟨evs,hevs,hflush hquiet⟩ h.ready) ?_
      rintro ⟨hvmm,hp,hpresent⟩
      have hnone := hquiet.resolve_left fun hs => hvmm (hkernel hs)
      rw [← h.ready.follow_loaded hp] at hnone
      rw [leafEntry,hnone] at hpresent
      exact absurd hpresent (show ¬ isPresent 0=true by decide)
    · obtain ⟨hown,hsome⟩ := not_or.mp hquiet
      obtain ⟨t,ht⟩ := Option.ne_none_iff_exists'.mp hsome
      obtain ⟨hzero,evs',rfl,hflush'⟩ := hends hown t ht
      have hp : (pageOf virt).i4≠RECURSIVE_IDX := fun hp =>
        hsome (leafNode_recursive h.ready.sound hp)
      have hvmm : vmm ≠ .kernel := by
        rintro rfl
        exact hown (congrArg Prod.fst (Option.some.inj hspace)).symm
      have hfollow := (h.ready.follow_loaded hp).trans ht
      have hentry : leafEntry k.machine.mem k.machine.cr3 (pageOf virt) =
          k.machine.mem t (pageOf virt).i1 := by rw [leafEntry,hfollow]
      rw [PageCall.Silent,hentry]
      constructor
      · rintro ⟨evs,hevs',hinv⟩ ⟨-,-,hpresent⟩
        obtain rfl := List.append_cancel_right (hevs.symm.trans hevs')
        refine (hinv (pageOf virt) t hp hfollow hpresent ?_).1 ⟨rfl,rfl⟩
        intro hsame
        rw [hzero] at hsame
        rw [← hsame] at hpresent
        exact absurd hpresent (by decide)
      · intro hquiet
        refine ⟨_,hevs,fun p u hpu hu hpresent _ => ⟨?_,hflush' k.machine.cr3 p u ?_⟩⟩
        · rintro ⟨rfl,hi⟩
          rw [← hi] at hpresent
          exact hquiet ⟨hvmm,hp,hpresent⟩
        · rwa [← h.ready.follow_loaded hpu]

/-- The kernel unmaps a page of its image. -/
theorem pageCall_invalidates_unmap : ∃ ret k',
    PageCall.run .kernel (.unmap 0xFFFFFFFF80000000) (bootKernel samplePool [] []) =
      some (ret, k') ∧
    isPresent (leafEntry bootMem bootRoot (pageOf 0xFFFFFFFF80000000)) = true ∧
    leafEntry k'.machine.mem bootRoot (pageOf 0xFFFFFFFF80000000) = 0 ∧
    Invalidates (bootMachine samplePool) k'.machine := by
  have hlive : Live (bootKernel samplePool [] []) ⟨bootMem,samplePool⟩ bootNodes windowPt bootRoot
      fun _ => [] := bootKernel_live samplePool_free samplePool_disjoint [] []
  have hentry : (PageCall.run .kernel (.unmap 0xFFFFFFFF80000000) (bootKernel samplePool [] [])).map
      (fun x => leafEntry x.2.machine.mem bootRoot (pageOf 0xFFFFFFFF80000000))=some 0 := by
    decide +kernel
  obtain ⟨ret,k',hrun,hiff⟩ := pageCall_invalidates_iff .kernel (.unmap 0xFFFFFFFF80000000)
    hlive.toSpaces rfl (fun _ => hlive.intact) (by simp [PageCall.range])
  rw [hrun] at hentry
  exact ⟨ret,k',hrun,by decide +kernel,Option.some.inj hentry,hiff.mpr fun hsilent => hsilent.1 rfl⟩

def processMem (f : Frame) (i : Index) : Word :=
  if f = 2048 then if i = RECURSIVE_IDX then address 2048 ||| 7 else
    if KERNEL_PML4_FIRST ≤ i then bootMem bootRoot i else 0
  else bootMem f i

def processKernel : Kernel :=
  { bootKernel (samplePool.without 2048 samplePool.answers.tail) [] [fun _ => .grant 16] with
    machine := { bootMachine (samplePool.without 2048 samplePool.answers.tail) with
      mem := processMem
      cr3 := 2048 }
    vmms := fun id => if id = 0 then
      some ⟨LOW_REGION_END, LAST_VADDR, 0xFFFFFFFF80000000, address 2048⟩ else none }

def unmapRun : Option (Kernel × Kernel) := do
  let (_, k) ← vmmMapAtPaddr (.heap 0) 0x400000 (address 4096) 7 processKernel
  let (_, k') ← vmmUnmap (.heap 0) 0x400000 k
  return (k, k')

def lastWrite (k k' : Kernel) : Option (Frame × Bool × Word × Frame × Index) := do
  let t ← follow k.machine.mem k.machine.cr3 (pageOf 0x400000).tables
  match k'.machine.events with
  | .store f i _ :: evs =>
    if evs.length < k.machine.events.length then none
    else some (t, isPresent (k.machine.mem t 0), k'.machine.mem t 0, f, i)
  | _ => none

/-- The call ends with the write that clears the entry. -/
theorem process_unmap_leaves_translation :
    ∃ k k', unmapRun = some (k, k') ∧ ¬ Invalidates k.machine k'.machine := by
  have hlast : (unmapRun.bind fun x => lastWrite x.1 x.2)=some (2051, true, 0, 2051, 0) := by
    decide +kernel
  obtain ⟨⟨k,k'⟩,hrun,hlast⟩ := Option.bind_eq_some_iff.mp hlast
  refine ⟨k,k',hrun,?_⟩
  rintro ⟨evs,hevs,hinv⟩
  obtain ⟨t,hfollow,hmatch⟩ := Option.bind_eq_some_iff.mp hlast
  dsimp only at hfollow hmatch
  split at hmatch
  next f i e evs' hstore =>
    split_ifs at hmatch with hlen
    simp only [Option.some.injEq,Prod.mk.injEq] at hmatch
    obtain ⟨rfl,hpresent,hzero,rfl,rfl⟩ := hmatch
    cases evs with
    | nil =>
      rw [List.nil_append,hstore] at hevs
      rw [← hevs,List.length_cons] at hlen
      exact hlen (Nat.lt_succ_self _)
    | cons ev evs =>
      obtain ⟨rfl,-⟩ := List.cons.inj (hstore.symm.trans hevs)
      refine (hinv (pageOf 0x400000) 2051 (by decide) hfollow hpresent fun hsame => ?_).1 ⟨rfl,rfl⟩
      rw [show (pageOf 0x400000).i1=0 by decide,hzero] at hsame
      rw [← hsame] at hpresent
      exact absurd hpresent (by decide)
  next => cases hmatch

end Hojicha.Vmm
