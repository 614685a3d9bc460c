import Hojicha.Vma.Coverage
import Hojicha.Vmm.Live

/-!
# Areas of an address space

Only pages of the lower half are tracked, in spaces other than the kernel's, and for the user.
-/

namespace Hojicha.Vmm

open Framework Framework.Paging
open Vma (Area)

variable {k : Kernel} {σ : Tables} {T : Node → Option Frame} {w kr r : Frame}
  {ls : Nat → List (Haddr × Area)} {vmm : Handle} {virt byteCount flags : Haddr} {xs zs : List Area}

theorem toNat_pageBase (virt : Haddr) :
    (virt &&& MAPPING_STRUCTURE_MASK).toNat=virt.toNat / 4096 * 4096 := by
  have hshift : virt &&& MAPPING_STRUCTURE_MASK=(virt >>> 12) <<< 12 := by
    have hmask : MAPPING_STRUCTURE_MASK=BitVec.allOnes 64 <<< 12 := by decide
    rw [hmask]
    ext i hi
    have hsub : i-12<64 := by omega
    simp only [BitVec.getElem_and,BitVec.getElem_shiftLeft,BitVec.getElem_allOnes,
      BitVec.getElem_ushiftRight]
    by_cases h12 : i<12
    · simp [h12]
    · have hge : 12+(i-12)=i := by omega
      simp [h12,hge,BitVec.getLsbD_eq_getElem hi]
  have hlt := virt.isLt
  rw [hshift,BitVec.toNat_shiftLeft,BitVec.toNat_ushiftRight,Nat.shiftRight_eq_div_pow,
    Nat.shiftLeft_eq,Nat.mod_eq_of_lt]
  omega

theorem toNat_pageLast (virt : Haddr) :
    ((virt &&& MAPPING_STRUCTURE_MASK) ||| (PAGE_SIZE - 1)).toNat=virt.toNat / 4096 * 4096 + 4095 := by
  have hdisjoint : (virt &&& MAPPING_STRUCTURE_MASK) &&& (PAGE_SIZE-1)=0#64 := by
    rw [BitVec.and_assoc,show MAPPING_STRUCTURE_MASK &&& (PAGE_SIZE-1)=0#64 by decide]
    exact BitVec.and_zero
  have hlt := virt.isLt
  rw [← BitVec.add_eq_or_of_and_eq_zero _ _ hdisjoint,BitVec.toNat_add,toNat_pageBase,
    show (PAGE_SIZE-1).toNat=4095 by decide,Nat.mod_eq_of_lt]
  omega

theorem validRange_page (virt : Haddr) :
    Vma.ValidRange (virt &&& MAPPING_STRUCTURE_MASK)
      ((virt &&& MAPPING_STRUCTURE_MASK) ||| (PAGE_SIZE - 1)) where
  le := by
    rw [BitVec.le_def,toNat_pageLast,toNat_pageBase]
    omega
  start_aligned := by
    rw [toNat_pageBase]
    omega
  end_aligned := by
    rw [toNat_pageLast]
    omega

def rangeArea (virt byteCount flags : Haddr) : Area := ⟨virt, virt + byteCount - 1, flags, 0, 0⟩

def Inserted (vmm : Handle) (virt byteCount flags : Haddr) (xs zs : List Area) : Prop :=
  if trackVma vmm virt flags = true ∧ byteCount ≠ 0 then
    Vma.insertArea (rangeArea virt byteCount flags) xs = some zs
  else zs = xs

structure InsertRefused (vmm : Handle) (virt byteCount flags : Haddr) (grants : Prop)
    (xs : List Area) : Prop where
  tracked : trackVma vmm virt flags = true
  nonempty : byteCount ≠ 0
  why : ¬ (byteCount - 1 ≤ -1 - virt ∧ grants ∧
    ∃ zs, Vma.insertArea (rangeArea virt byteCount flags) xs = some zs)

theorem InsertRefused.of_not {grants : Prop}
    (h : ¬ InsertRefused vmm virt byteCount flags grants xs)
    (htrack : trackVma vmm virt flags=true) (hcount : byteCount≠0) :
    byteCount - 1 ≤ -1 - virt ∧ grants ∧
      ∃ zs, Vma.insertArea (rangeArea virt byteCount flags) xs=some zs := by
  by_contra hwhy
  exact h ⟨htrack,hcount,hwhy⟩

theorem toNat_rangeEnd (flags : Haddr) (hcount : byteCount≠0) (hfits : byteCount - 1 ≤ -1 - virt) :
    (rangeArea virt byteCount flags).end_.toNat=virt.toNat + (byteCount.toNat - 1) := by
  have hv := virt.isLt
  have hpos : 1≤byteCount.toNat := by
    have hne : byteCount.toNat≠0 := fun h => hcount (BitVec.eq_of_toNat_eq h)
    omega
  have hlast : (byteCount-1).toNat=byteCount.toNat-1 := BitVec.toNat_sub_of_le hpos
  have hroom : (-1-virt).toNat=2 ^ 64-1-virt.toNat := by
    have hle : virt ≤ -1 := by
      rw [BitVec.le_def,show (-1 : Haddr).toNat=2 ^ 64-1 by decide]
      omega
    rw [BitVec.toNat_sub_of_le hle]
    rfl
  rw [BitVec.le_def,hlast,hroom] at hfits
  have hend : (rangeArea virt byteCount flags).end_=virt+(byteCount-1) := by
    rw [rangeArea,BitVec.sub_eq_add_neg,BitVec.sub_eq_add_neg,BitVec.add_assoc]
  rw [hend,BitVec.toNat_add,hlast,Nat.mod_eq_of_lt (by omega)]

def Removed (vmm : Handle) (virt : Haddr) (xs zs : List Area) : Prop :=
  if vmm = .kernel ∨ isHigherHalf virt = true then zs = xs
  else zs = Vma.removeRange virt (virt ||| (PAGE_SIZE - 1)) xs

theorem inserted_untracked (h : trackVma vmm virt flags=true → byteCount=0) :
    Inserted vmm virt byteCount flags xs zs ↔ zs=xs := by
  rw [Inserted,if_neg fun hc => hc.2 (h hc.1)]

theorem inserted_tracked (h : trackVma vmm virt flags=true)
    (hcount : byteCount≠0) : Inserted vmm virt byteCount flags xs zs ↔
      Vma.insertArea (rangeArea virt byteCount flags) xs=some zs := by
  rw [Inserted,if_pos ⟨h,hcount⟩]

theorem removed_untracked (h : vmm = .kernel ∨ isHigherHalf virt=true) :
    Removed vmm virt xs zs ↔ zs=xs := by
  rw [Removed,if_pos h]

theorem removed_tracked (hvmm : vmm ≠ .kernel)
    (hvirt : ¬ isHigherHalf virt=true) : Removed vmm virt xs zs ↔
      zs=Vma.removeRange virt (virt ||| (PAGE_SIZE - 1)) xs := by
  rw [Removed,if_neg fun hc => hc.elim hvmm hvirt]

/-- Only the areas, and the answers of the allocator, may be different. -/
structure AreasOnly (k k' : Kernel) : Prop where
  machine : k'.machine = k.machine
  kernelVmm : k'.kernelVmm = k.kernelVmm
  vmms : k'.vmms = k.vmms
  vmmAnswers : k'.vmmAnswers = k.vmmAnswers

theorem AreasOnly.sameBoot {k k' : Kernel} (h : AreasOnly k k') : SameBoot k k' :=
  ⟨h.kernelVmm,by rw [h.machine],by rw [h.machine],by rw [h.machine]⟩

theorem Names.congr {k k' : Kernel} (h : Names k kr vmm r) (hvmms : k'.vmms=k.vmms) :
    Names k' kr vmm r := by
  cases vmm with
  | null => exact h
  | kernel => exact h
  | heap id =>
    obtain ⟨v,hv,hr⟩ := h
    exact ⟨v,by rw [hvmms,hv],hr⟩

theorem AreasOnly.refl (k : Kernel) : AreasOnly k k := ⟨rfl,rfl,rfl,rfl⟩

theorem Spaces.keepAreas (h : Spaces k σ T w kr ls) (vmm : Handle) :
    Spaces k σ T w kr (Function.update ls vmm.list (ls vmm.list)) := by
  rwa [Function.update_eq_self]

theorem insertVma_run (h : Spaces k σ T w kr ls) (hn : Names k kr vmm r)
    (virt byteCount flags : Haddr) :
    ∃ ok k' zs, insertVma vmm virt byteCount flags k=some (ok, k') ∧ AreasOnly k k' ∧
      Spaces k' σ T w kr (Function.update ls vmm.list zs) ∧
      (ok=true → Inserted vmm virt byteCount flags (Vma.areas (ls vmm.list)) (Vma.areas zs) ∧
        ¬ InsertRefused vmm virt byteCount flags (Vma.Grants (k.nextNodes 0) k.areas)
          (Vma.areas (ls vmm.list)) ∧
        ((trackVma vmm virt flags=true → byteCount=0) → k'=k)) ∧
      (ok=false → zs=ls vmm.list ∧
        InsertRefused vmm virt byteCount flags (Vma.Grants (k.nextNodes 0) k.areas)
          (Vma.areas (ls vmm.list))) := by
  rw [insertVma]
  by_cases htrack : trackVma vmm virt flags=true
  swap
  · rw [if_pos (by simpa using htrack)]
    exact ⟨true,k,_,rfl,.refl k,h.keepAreas vmm,fun _ =>
      ⟨(inserted_untracked fun hc => absurd hc htrack).mpr rfl,fun hr => htrack hr.tracked,
        fun _ => rfl⟩,by simp⟩
  rw [if_neg (by simp [htrack])]
  by_cases hzero : byteCount=0
  · rw [if_pos hzero]
    exact ⟨true,k,_,rfl,.refl k,h.keepAreas vmm,fun _ =>
      ⟨(inserted_untracked fun _ => hzero).mpr rfl,fun hr => hr.nonempty hzero,fun _ => rfl⟩,by simp⟩
  rw [if_neg hzero]
  by_cases hover : byteCount-1 > -1-virt
  · rw [if_pos hover]
    exact ⟨false,k,_,rfl,.refl k,h.keepAreas vmm,by simp,
      fun _ => ⟨rfl,htrack,hzero,fun hc => BitVec.not_lt.mpr hc.1 hover⟩⟩
  rw [if_neg hover]
  rcases Vma.vmaInsert_spec h.areas.represents vmm.list (k.nextNodes 0)
    (rangeArea virt byteCount flags) with
    ⟨hrun,hnot⟩ | ⟨p,areas,xs,ys,hrun,hgrants,-,-,hrep,hins,-⟩
  · refine ⟨false,_,_,onAreas_run _ hrun,⟨rfl,rfl,rfl,rfl⟩,
      (h.withAnswers _).keepAreas vmm,by simp,fun _ => ⟨rfl,htrack,hzero,fun hc => hnot hc.2⟩⟩
  · have hsorted := Vma.insertArea_sorted (h.areas.sorted vmm.list) hins
    refine ⟨true,_,_,onAreas_run _ hrun,⟨rfl,rfl,rfl,rfl⟩,
      h.withAreas hn (h.areas.update hrep hsorted),
      fun _ => ⟨?_,fun hr => ?_,fun hc => absurd (hc htrack) hzero⟩,
      by simp⟩
    · rwa [inserted_tracked htrack hzero]
    · exact hr.why ⟨BitVec.not_lt.mp hover,hgrants,_,hins⟩

theorem removeVma_run (h : Spaces k σ T w kr ls) (hn : Names k kr vmm r) (virt : Haddr) :
    ∃ ok k' zs, removeVma vmm virt k=some (ok, k') ∧ AreasOnly k k' ∧
      Spaces k' σ T w kr (Function.update ls vmm.list zs) ∧
      (ok=true → Removed vmm virt (Vma.areas (ls vmm.list)) (Vma.areas zs) ∧
        (vmm ≠ .kernel → ¬ isHigherHalf virt=true →
          Vma.NeedsNode virt (virt ||| (PAGE_SIZE - 1)) (Vma.areas (ls vmm.list)) →
          Vma.Grants (k.nextNodes 0) k.areas)) ∧
      (ok=false → zs=ls vmm.list ∧
        (¬ Vma.ValidRange virt (virt ||| (PAGE_SIZE - 1)) ∨
          Vma.NeedsNode virt (virt ||| (PAGE_SIZE - 1)) (Vma.areas (ls vmm.list)) ∧
            ¬ Vma.Grants (k.nextNodes 0) k.areas)) := by
  rw [removeVma]
  by_cases hkernel : vmm = .null ∨ vmm = .kernel
  · have hvmm : vmm = .kernel := hkernel.resolve_left fun hnull => by
      subst hnull
      exact hn
    rw [if_pos hkernel]
    exact ⟨true,k,_,rfl,.refl k,h.keepAreas vmm,fun _ =>
      ⟨(removed_untracked (.inl hvmm)).mpr rfl,fun hne => absurd hvmm hne⟩,by simp⟩
  rw [if_neg hkernel]
  by_cases hhigh : isHigherHalf virt=true
  · rw [if_pos hhigh]
    exact ⟨true,k,_,rfl,.refl k,h.keepAreas vmm,fun _ =>
      ⟨(removed_untracked (.inr hhigh)).mpr rfl,fun _ hlow => absurd hhigh hlow⟩,by simp⟩
  rw [if_neg hhigh]
  rcases Vma.vmaRemove_spec h.areas.represents vmm.list (k.nextNodes 0) virt
    (virt ||| (PAGE_SIZE-1)) with ⟨hrun,hwhy⟩ | ⟨areas,zs,hrun,hvalid,hrep,hzs,hnode⟩
  · exact ⟨false,_,_,onAreas_run _ hrun,⟨rfl,rfl,rfl,rfl⟩,
      (h.withAnswers _).keepAreas vmm,by simp,fun _ => ⟨rfl,hwhy⟩⟩
  · have hsorted : Vma.Sorted (Vma.areas zs) := by
      rw [hzs]
      exact (h.areas.sorted vmm.list).removeRange hvalid
    refine ⟨true,_,zs,onAreas_run _ hrun,⟨rfl,rfl,rfl,rfl⟩,
      h.withAreas hn (h.areas.update hrep hsorted),fun _ => ⟨?_,fun _ _ => hnode⟩,by simp⟩
    rwa [removed_tracked (fun hk => hkernel (.inr hk)) hhigh]

end Hojicha.Vmm
