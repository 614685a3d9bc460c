import Hojicha.Vmm.MapPages
import Hojicha.Vmm.Tracking

/-! # `vmm_map`, `vmm_map_at_paddr` and `vmm_unmap` -/

namespace Hojicha.Vmm

open Framework Framework.Paging
open Vma (Area)

variable {k : Kernel} {σ σ' : Tables} {T T' : Node → Option Frame} {w kr r f : Frame}
  {ls : Nat → List (Haddr × Area)} {vmm : Handle} {virt pageCount flags phys : Haddr}

/-- The kernel's own handle is used with the kernel's root loaded or in the upper half, and not for
the page of the directory. -/
def MayEdit (k : Kernel) (σ : Tables) (T : Node → Option Frame) (w kr : Frame) (vmm : Handle)
    (vs : List Haddr) : Prop :=
  vmm = .kernel → KernelReady k.machine σ T w kr ∧
    ∀ v ∈ vs, Direct k.machine kr (pageOf v) ∧ pageOf v ≠ pageOf k.machine.virtualDirectory

theorem MayEdit.usable {space : Space} {vs : List Haddr} (h : MayEdit k σ T w kr vmm vs)
    (hspace : space = .kernel → vmm = .kernel) (hready : Ready k.machine σ T w) :
    Usable k.machine σ T w kr space ∧ ∀ v∈vs, Allowed k.machine kr space v := by
  cases space with
  | kernel =>
    obtain ⟨hintact,hpages⟩ := h (hspace rfl)
    exact ⟨hintact,fun v hv => ⟨(hpages v hv).1,fun _ => (hpages v hv).2⟩⟩
  | own pml4Phys => exact ⟨hready,fun v _ => ⟨trivial,by simp⟩⟩

def MAX_PAGES : Haddr := -1 / PAGE_SIZE

theorem toNat_byteCount (h : pageCount≤MAX_PAGES) :
    (pageCount * PAGE_SIZE).toNat=pageCount.toNat * 4096 := by
  rw [BitVec.le_def,show MAX_PAGES.toNat=2 ^ 52-1 by decide] at h
  rw [BitVec.toNat_mul,show PAGE_SIZE.toNat=4096 by decide,Nat.mod_eq_of_lt]
  omega

def StoppedAt (r : Frame) (flags : Haddr) (vs : List Haddr) (σ : Tables) (T : Node → Option Frame)
    (σ' : Tables) (T' : Node → Option Frame) : Prop :=
  ∃ vs₁ v vs₂ σ₁ T₁, vs = vs₁ ++ v :: vs₂ ∧ PagesMapped r flags vs₁ σ T σ₁ T₁ ∧
    PageRefused r flags v σ₁ T₁ σ' T'

namespace StoppedAt

variable {vs : List Haddr} (h : StoppedAt r flags vs σ T σ' T')
include h

theorem sound (hs : Sound σ T) : Sound σ' T' := by
  obtain ⟨_,_,_,_,_,-,hpages,hrefused⟩ := h
  exact hrefused.sound (hpages.sound hs)

theorem keeps {n : Node} {g : Frame} (hn : T n=some g) : T' n=some g := by
  obtain ⟨_,_,_,_,_,-,hpages,hrefused⟩ := h
  exact hrefused.keeps (hpages.keeps hn)

theorem roots (r' : Frame) : T' (.root r')=T (.root r') := by
  obtain ⟨_,_,_,_,_,-,hpages,hrefused⟩ := h
  exact (hrefused.roots r').trans (hpages.roots r')

theorem disjoint (hpool : σ.pool.Disjoint) : σ'.pool.Disjoint := by
  obtain ⟨_,_,_,_,_,-,hpages,hrefused⟩ := h
  exact hrefused.disjoint (hpages.disjoint hpool)

theorem ne_nil : vs≠[] := by
  obtain ⟨vs₁,v,vs₂,_,_,rfl,-⟩ := h
  simp

end StoppedAt

/-- `remove_vma` has to split an area that `insert_vma` did not make, and there is no node. -/
structure RemovalRefused (vmm : Handle) (virtBase flags : Haddr) (grants : Prop) (ys : List Area) :
    Prop where
  untracked : trackVma vmm virtBase flags = false
  handle : vmm ≠ .kernel
  lower : ¬ isHigherHalf virtBase = true
  refused : ¬ grants
  split : Vma.NeedsNode virtBase (virtBase ||| (PAGE_SIZE - 1)) ys

def Rejected (vmm : Handle) (flags virt pageCount : Haddr) (grants : Prop) (xs : List Area) :
    Prop :=
  pageCount > MAX_PAGES ∨
    InsertRefused vmm (virt &&& MAPPING_STRUCTURE_MASK) (pageCount * PAGE_SIZE) flags grants xs

/-- The result of `vmm_map`, the tables and the areas afterwards. `grants` says that the allocator
has a node for the list. -/
inductive MapOutcome (vmm : Handle) (r : Frame) (flags virt pageCount : Haddr) (grants : Prop)
    (σ : Tables) (T : Node → Option Frame) (xs : List Area) :
    Haddr → Tables → (Node → Option Frame) → List Area → Prop
  | refused : Rejected vmm flags virt pageCount grants xs →
    MapOutcome vmm r flags virt pageCount grants σ T xs 0 σ T xs
  | mapped (σ' : Tables) (T' : Node → Option Frame) (zs : List Area) :
    ¬ Rejected vmm flags virt pageCount grants xs →
    Inserted vmm (virt &&& MAPPING_STRUCTURE_MASK) (pageCount * PAGE_SIZE) flags xs zs →
    mapPages r flags virt pageCount.toNat σ = (true, σ') →
    PagesMapped r flags (pagesFrom virt pageCount.toNat) σ T σ' T' →
    MapOutcome vmm r flags virt pageCount grants σ T xs (virt &&& MAPPING_STRUCTURE_MASK) σ' T' zs
  | failed (σ' : Tables) (T' : Node → Option Frame) (ys zs : List Area) :
    ¬ Rejected vmm flags virt pageCount grants xs →
    Inserted vmm (virt &&& MAPPING_STRUCTURE_MASK) (pageCount * PAGE_SIZE) flags xs ys →
    mapPages r flags virt pageCount.toNat σ = (false, σ') →
    StoppedAt r flags (pagesFrom virt pageCount.toNat) σ T σ' T' →
    (RemovalRefused vmm (virt &&& MAPPING_STRUCTURE_MASK) flags grants ys → zs = ys) →
    (¬ RemovalRefused vmm (virt &&& MAPPING_STRUCTURE_MASK) flags grants ys →
      Removed vmm (virt &&& MAPPING_STRUCTURE_MASK) ys zs) →
    MapOutcome vmm r flags virt pageCount grants σ T xs 0 σ' T' zs

def CallFlushes (T : Node → Option Frame) (k k' : Kernel) : Prop :=
  ∃ evs, k'.machine.events = evs ++ k.machine.events ∧ Flushes T evs

theorem AreasOnly.flushes {k' : Kernel} (h : AreasOnly k k') (T : Node → Option Frame) :
    CallFlushes T k k' := ⟨[],congrArg Machine.events h.machine,flushes_nil T⟩

theorem vmmMap_run (h : Spaces k σ T w kr ls) (hn : Names k kr vmm r)
    (hedit : MayEdit k σ T w kr vmm (pagesFrom virt pageCount.toNat)) (flags : Haddr) :
    ∃ ret k' σ' T' zs, vmmMap vmm virt pageCount flags k=some (ret, k') ∧
      Spaces k' σ' T' w kr (Function.update ls vmm.list zs) ∧ SameBoot k k' ∧ k'.vmms=k.vmms ∧
      CallFlushes T k k' ∧
      MapOutcome vmm r flags virt pageCount (Vma.Grants (k.nextNodes 0) k.areas) σ T
        (Vma.areas (ls vmm.list)) ret σ' T' (Vma.areas zs) := by
  rw [vmmMap]
  by_cases hbig : pageCount > MAX_PAGES
  · rw [if_pos (show pageCount > -1 / PAGE_SIZE from hbig)]
    exact ⟨0,k,σ,T,_,rfl,h.keepAreas vmm,.refl k,rfl,
      (AreasOnly.refl k).flushes T,.refused (.inl hbig)⟩
  rw [if_neg (show ¬ pageCount > -1 / PAGE_SIZE from hbig)]
  have hsmall : pageCount≤MAX_PAGES := BitVec.not_lt.mp hbig
  obtain ⟨ok,k₁,ys,hinsert,hk₁,h₁,hins,hrefused⟩ := insertVma_run h hn
    (virt &&& MAPPING_STRUCTURE_MASK) (pageCount * PAGE_SIZE) flags
  rw [bind_run hinsert]
  cases ok with
  | false =>
    obtain ⟨rfl,hwhy⟩ := hrefused rfl
    exact ⟨0,k₁,σ,T,_,rfl,h₁,hk₁.sameBoot,hk₁.vmms,hk₁.flushes T,.refused (.inr hwhy)⟩
  | true =>
    have hn₁ := hn.congr hk₁.vmms
    obtain ⟨hins,haccepted,hsame⟩ := hins rfl
    have hnot : ¬ Rejected vmm flags virt pageCount (Vma.Grants (k.nextNodes 0) k.areas)
        (Vma.areas (ls vmm.list)) := fun hr => hr.elim hbig haccepted
    obtain ⟨space,hspace,hroot,hkernel⟩ := h₁.spaceOf_run hn₁
    obtain ⟨husable,hallowed⟩ := hedit.usable hkernel h.ready
    rw [← hk₁.machine] at husable hallowed
    obtain ⟨m',evs,hrun,hagree,hflush,-⟩ := mapSingles_run pageCount.toNat husable hroot
      (h₁.root hn₁) hallowed flags
    obtain ⟨ev,hev⟩ : ∃ ev, evs++k₁.machine.events=ev := ⟨_,rfl⟩
    rw [hev] at hrun
    have hevents : ∃ evs, ev=evs++k.machine.events ∧ Flushes T evs :=
      ⟨evs,by rw [← hev,hk₁.machine],hflush⟩
    rw [if_neg (by simp),bind_run hspace,bind_run (onMachine_run hrun)]
    have hcases := mapAll_cases h₁.ready.sound (h₁.root hn₁) flags (pagesFrom virt pageCount.toNat)
    obtain ⟨⟨ok,σ'⟩,hres⟩ : ∃ x, mapPages r flags virt pageCount.toNat σ=x := ⟨_,rfl⟩
    rw [← mapPages,hres] at hcases
    rw [hres] at hagree
    simp only [hres]
    have hboot : SameBoot k { k₁ with machine := k₁.machine.update m' σ'.pool ev } :=
      hk₁.sameBoot.trans ⟨rfl,rfl,rfl,rfl⟩
    rcases hcases with ⟨rfl,T',hpages⟩ |
      ⟨rfl,vs₁,v,vs₂,σ₁,T₁,T',hvs,hpages,hrefused⟩
    · have hready := h₁.ready.extend (hpages.sound h₁.ready.sound) hpages.keeps hagree ev
      exact ⟨_,_,σ',T',ys,rfl,h₁.withMachine hready (hpages.disjoint h₁.pool) hpages.roots,
        hboot,hk₁.vmms,hevents,.mapped σ' T' _ hnot hins hres hpages⟩
    · have hstop : StoppedAt r flags (pagesFrom virt pageCount.toNat) σ T σ' T' :=
        ⟨vs₁,v,vs₂,σ₁,T₁,hvs,hpages,hrefused⟩
      have hready := h₁.ready.extend (hstop.sound h₁.ready.sound) hstop.keeps hagree ev
      have h₂ := h₁.withMachine hready (hstop.disjoint h₁.pool) hstop.roots
      obtain ⟨ok,k₂,zs,hremove,hk₂,h₃,hrem,hkept⟩ := removeVma_run h₂ (hn₁.congr rfl)
        (virt &&& MAPPING_STRUCTURE_MASK)
      rw [Function.update_idem] at h₃
      rw [if_pos (by simp),bind_run hremove]
      rw [Function.update_self] at hrem hkept
      have hcount : pageCount * PAGE_SIZE≠0 := fun hzero => by
        have hnat := toNat_byteCount hsmall
        rw [hzero] at hnat
        exact hstop.ne_nil (by rw [show pageCount.toNat=0 by simpa using hnat]; rfl)
      refine ⟨0,k₂,σ',T',zs,rfl,h₃,hboot.trans hk₂.sameBoot,hk₂.vmms.trans hk₁.vmms,
        by rw [CallFlushes,hk₂.machine]; exact hevents,
        .failed σ' T' (Vma.areas ys) _ hnot hins hres hstop (fun href => ?_) fun href => ?_⟩
      · cases ok with
        | true =>
          obtain rfl := hsame fun hc => absurd hc (by simp [href.untracked])
          exact absurd ((hrem rfl).2 href.handle href.lower href.split) href.refused
        | false => rw [(hkept rfl).1]
      · cases ok with
        | true => exact (hrem rfl).1
        | false =>
          obtain ⟨rfl,hwhy⟩ := hkept rfl
          obtain ⟨hneeds,hgrants⟩ := hwhy.resolve_left (not_not.mpr (validRange_page virt))
          have htrack : ¬ trackVma vmm (virt &&& MAPPING_STRUCTURE_MASK) flags=true :=
            fun htrack =>
              Vma.not_needsNode_insertArea ((inserted_tracked htrack hcount).mp hins) hneeds
          obtain rfl := hsame fun hc => absurd hc htrack
          rw [Removed]
          split_ifs with hk
          · rfl
          · refine absurd ⟨by simpa using htrack,fun h => hk (.inl h),fun h => hk (.inr h),
              hgrants,hneeds⟩ href

end Hojicha.Vmm
