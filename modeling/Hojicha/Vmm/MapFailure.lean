import Hojicha.Vmm.MapRange

/-!
# `vmm_map` that fails

When `vmm_map` returns 0 it should have left nothing behind. Once a frame has been taken for a page,
the frame is lost.
-/

namespace Hojicha.Vmm

open Framework Framework.Paging
open Vma (Area)

variable {k : Kernel} {σ σ' σ₁ : Tables} {T T' T₁ : Node → Option Frame} {w kr r f : Frame}
  {ls : Nat → List (Haddr × Area)} {vmm : Handle} {virt pageCount flags : Haddr} {vs : List Haddr}

/-- The list of areas and the entries are as before, and the frames that are held now were held
before or hold new tables. -/
structure Undone (σ : Tables) (T : Node → Option Frame) (xs : List Area) (σ' : Tables)
    (T' : Node → Option Frame) (zs : List Area) (r : Frame) : Prop where
  areas : zs = xs
  entries (p : Page) : p.i4 ≠ RECURSIVE_IDX → leafEntry σ'.mem r p = leafEntry σ.mem r p
  frames (f : Frame) : σ'.pool.held f = true →
    σ.pool.held f = true ∨ ∃ n, T n = none ∧ T' n = some f

/-- A frame that is held and is no table. -/
def Taken (σ : Tables) (T : Node → Option Frame) (f : Frame) : Prop :=
  σ.pool.held f = true ∧ ∀ n, T n ≠ some f

theorem Taken.extends (h : Taken σ T f) (hext : Extends σ T σ' T') (hpool : σ.pool.Disjoint) :
    Taken σ' T' f := by
  refine ⟨hext.held.mpr (.inl h.1),fun n hn => ?_⟩
  cases hT : T n with
  | none => exact absurd h.1 (by simp [hpool f (hext.created hn hT).1])
  | some g => exact h.2 n (by rw [hT,← hn,hext.keeps hT])

theorem Taken.without (hs : Sound σ T) (hf : σ.pool.free f=true) (rest : List (Option Frame)) :
    Taken { σ with pool := σ.pool.without f rest } T f :=
  ⟨without_held.mpr (.inr rfl),hs.fresh hf⟩

theorem Taken.other {g : Frame} (h : Taken σ T f) (rest : List (Option Frame)) :
    Taken { σ with pool := σ.pool.without g rest } T f :=
  ⟨without_held.mpr (.inl h.1),h.2⟩

theorem PageMapped.frame_taken (h : PageMapped r f flags virt σ T σ' T') (hs : Sound σ T)
    (hpool : σ.pool.Disjoint) : Taken σ' T' f := by
  obtain ⟨rest,hw⟩ := h.writes
  exact (Taken.without hs h.fresh rest).extends hw.toExtends (Disjoint.without hpool rest)

theorem PagesMapped.taken (h : PagesMapped r flags vs σ T σ' T') (hf : Taken σ T f)
    (hpool : σ.pool.Disjoint) : Taken σ' T' f := by
  induction h with
  | nil => exact hf
  | cons hpage _ ih =>
    refine ih ?_ (hpage.disjoint hpool)
    obtain ⟨rest,hw⟩ := hpage.writes
    exact (hf.other rest).extends hw.toExtends (Disjoint.without hpool rest)

theorem PageRefused.taken (h : PageRefused r flags virt σ T σ' T') (hf : Taken σ T f)
    (hpool : σ.pool.Disjoint) : Taken σ' T' f := by
  cases h with
  | short rest => exact hf
  | lost g rest _ _ _ hfree hsound hext =>
    exact (hf.other rest).extends hext (Disjoint.without hpool rest)

/-- Unless there is no frame for the first page, a frame is lost. -/
theorem StoppedAt.short_or_lost (h : StoppedAt r flags vs σ T σ' T') (hs : Sound σ T)
    (hpool : σ.pool.Disjoint) :
    (σ.pool.take.1=none ∧ ∃ rest, σ' = { σ with pool := σ.pool.fail rest } ∧ T'=T) ∨
    σ.pool.take.1≠none ∧ ∃ f, σ.pool.free f=true ∧ Taken σ' T' f := by
  obtain ⟨vs₁,v,vs₂,σ₁,T₁,rfl,hpages,hrefused⟩ := h
  cases hpages with
  | nil =>
    cases hrefused with
    | short rest htake => exact .inl ⟨htake,rest,rfl,rfl⟩
    | lost f rest _ _ htake hfree hsound hext =>
      exact .inr ⟨by simp [htake],f,hfree,
        (Taken.without hs hfree rest).extends hext (Disjoint.without hpool rest)⟩
  | cons hpage hpages =>
    have hd := hpage.disjoint hpool
    exact .inr ⟨by simp [hpage.taken],_,hpage.fresh,
      hrefused.taken (hpages.taken (hpage.frame_taken hs hpool) hd) (hpages.disjoint hd)⟩

theorem not_undone_of_taken {xs zs : List Area} (hpool : σ.pool.Disjoint)
    (hf : σ.pool.free f=true) (h : Taken σ' T' f) : ¬ Undone σ T xs σ' T' zs r := fun hu => by
  rcases hu.frames f h.1 with hheld | ⟨n,-,hn⟩
  · simp [hpool f hf] at hheld
  · exact h.2 n hn

/-- `remove_vma` for the first page takes the list back to what it was before `insert_vma`. -/
def ListRestored (vmm : Handle) (virtBase flags pageCount : Haddr) (grants : Prop)
    (xs : List Area) : Prop :=
  vmm = .kernel ∨ isHigherHalf virtBase = true ∨
    if hasFlag flags PAGE_USER_ACCESIBLE then pageCount = 1
    else Vma.Covered xs virtBase →
      Vma.NeedsNode virtBase (virtBase ||| (PAGE_SIZE - 1)) xs ∧ ¬ grants

theorem trackVma_of_lower (flags : Haddr) (hnull : vmm ≠ .null) (hk : vmm ≠ .kernel)
    (hlow : ¬ isHigherHalf virt=true) :
    trackVma vmm virt flags=hasFlag flags PAGE_USER_ACCESIBLE := by
  rw [trackVma,if_neg (by simp [hnull,hk]),if_neg hlow]

/-- The area of one page is removed, a longer one is cut. -/
private theorem removeRange_inserted_iff {xs ys : List Area} (hsmall : pageCount≤MAX_PAGES)
    (hcount : pageCount * PAGE_SIZE≠0)
    (hfits : pageCount * PAGE_SIZE - 1 ≤ -1 - (virt &&& MAPPING_STRUCTURE_MASK))
    (hins : Vma.insertArea (rangeArea (virt &&& MAPPING_STRUCTURE_MASK) (pageCount * PAGE_SIZE)
      flags) xs=some ys) :
    Vma.removeRange (virt &&& MAPPING_STRUCTURE_MASK)
      ((virt &&& MAPPING_STRUCTURE_MASK) ||| (PAGE_SIZE - 1)) ys=xs ↔ pageCount=1 := by
  have hend := toNat_rangeEnd flags hcount hfits
  have hbytes := toNat_byteCount hsmall
  have hlast := toNat_pageLast virt
  have hbase := toNat_pageBase virt
  have hpos : pageCount.toNat * 4096≠0 := by
    rw [← hbytes]
    exact fun h => hcount (BitVec.eq_of_toNat_eq h)
  refine (Vma.removeRange_insertArea_eq_iff hins).trans ?_
  rw [BitVec.le_def,hend,hlast,hbase,hbytes,← BitVec.toNat_inj]
  show _ ↔ pageCount.toNat=1
  omega

theorem byteCount_ne_zero (hsmall : pageCount≤MAX_PAGES) (hcount : pageCount≠0) :
    pageCount * PAGE_SIZE≠0 := fun hzero => by
  have hnat := toNat_byteCount hsmall
  rw [hzero] at hnat
  exact hcount (BitVec.eq_of_toNat_eq (show pageCount.toNat=0 by simpa using hnat))

theorem restored_iff {grants : Prop} {xs ys zs : List Area} (hnull : vmm ≠ .null)
    (hs : Vma.Sorted xs) (hnot : ¬ Rejected vmm flags virt pageCount grants xs)
    (hcount : pageCount≠0)
    (hins : Inserted vmm (virt &&& MAPPING_STRUCTURE_MASK) (pageCount * PAGE_SIZE) flags xs ys)
    (hkept : RemovalRefused vmm (virt &&& MAPPING_STRUCTURE_MASK) flags grants ys → zs=ys)
    (hrem : ¬ RemovalRefused vmm (virt &&& MAPPING_STRUCTURE_MASK) flags grants ys →
      Removed vmm (virt &&& MAPPING_STRUCTURE_MASK) ys zs) :
    zs=xs ↔ ListRestored vmm (virt &&& MAPPING_STRUCTURE_MASK) flags pageCount grants xs := by
  have hsmall : pageCount≤MAX_PAGES := BitVec.not_lt.mp fun h => hnot (.inl h)
  have hbytes := byteCount_ne_zero hsmall hcount
  by_cases hout : vmm = .kernel ∨ isHigherHalf (virt &&& MAPPING_STRUCTURE_MASK)=true
  · have huntracked : trackVma vmm (virt &&& MAPPING_STRUCTURE_MASK) flags≠true := by
      rcases hout with hk | hhigh
      · simp [trackVma,hk]
      · simp [trackVma,hhigh]
    rw [inserted_untracked fun h => absurd h huntracked] at hins
    have hzs : zs=ys := (removed_untracked hout).mp
      (hrem fun href => hout.elim href.handle href.lower)
    exact iff_of_true (hzs.trans hins) (or_assoc.mp (.inl hout))
  obtain ⟨hk,hlow⟩ := not_or.mp hout
  have htrack := trackVma_of_lower flags hnull hk hlow
  by_cases huser : hasFlag flags PAGE_USER_ACCESIBLE=true
  · rw [huser] at htrack
    obtain ⟨hfits,-,-⟩ := InsertRefused.of_not (fun h => hnot (.inr h)) htrack hbytes
    rw [inserted_tracked htrack hbytes] at hins
    have hzs := (removed_tracked hk hlow).mp (hrem fun href => by simp [href.untracked] at htrack)
    rw [hzs,removeRange_inserted_iff hsmall hbytes hfits hins,ListRestored,if_pos huser]
    simp [hk,hlow]
  · rw [eq_false_of_ne_true huser] at htrack
    rw [inserted_untracked (by simp [htrack])] at hins
    subst hins
    have hpage : ((virt &&& MAPPING_STRUCTURE_MASK) ||| (PAGE_SIZE-1)).toNat =
        (virt &&& MAPPING_STRUCTURE_MASK).toNat+4095 := by rw [toNat_pageLast,toNat_pageBase]
    have hvalid := validRange_page virt
    have hlist : ListRestored vmm (virt &&& MAPPING_STRUCTURE_MASK) flags pageCount grants ys ↔
        (Vma.Covered ys (virt &&& MAPPING_STRUCTURE_MASK) →
          Vma.NeedsNode (virt &&& MAPPING_STRUCTURE_MASK)
            ((virt &&& MAPPING_STRUCTURE_MASK) ||| (PAGE_SIZE-1)) ys ∧ ¬ grants) := by
      rw [ListRestored,if_neg huser]
      exact (or_iff_right hk).trans (or_iff_right hlow)
    rw [hlist]
    by_cases href : RemovalRefused vmm (virt &&& MAPPING_STRUCTURE_MASK) flags grants ys
    · exact iff_of_true (hkept href) fun _ => ⟨href.split,href.refused⟩
    · have hzs := (removed_tracked hk hlow).mp (hrem href)
      constructor
      · intro heq hcov
        rw [← heq,hzs,Vma.covered_removeRange hs hvalid hpage] at hcov
        exact absurd ⟨BitVec.le_refl _,hvalid.le⟩ hcov.2
      · intro himp
        rw [hzs]
        exact Vma.removeRange_eq_self hs fun hcov =>
          href ⟨htrack,hk,hlow,(himp hcov).2,(himp hcov).1⟩

/-- `vmm_map` stops before the first page, or the first page gets no frame and the list of areas is
taken back. -/
def FailsClean (k : Kernel) (vmm : Handle) (virt pageCount flags : Haddr) (xs : List Area) : Prop :=
  Rejected vmm flags virt pageCount (Vma.Grants (k.nextNodes 0) k.areas) xs ∨ pageCount = 0 ∨
    k.machine.pool.take.1 = none ∧
      ListRestored vmm (virt &&& MAPPING_STRUCTURE_MASK) flags pageCount
        (Vma.Grants (k.nextNodes 0) k.areas) xs

theorem Undone.refl (σ : Tables) (T : Node → Option Frame) (xs : List Area) (r : Frame) :
    Undone σ T xs σ T xs r :=
  ⟨rfl,fun _ _ => rfl,fun _ h => .inl h⟩

/-- If `vmm_map` returns 0 then it has left nothing behind exactly when it failed before a frame was
taken for a page, and the list of areas is taken back. -/
theorem vmm_map_undone_iff (virt pageCount flags : Haddr) (h : Spaces k σ T w kr ls)
    (hn : Names k kr vmm r) (hedit : MayEdit k σ T w kr vmm (pagesFrom virt pageCount.toNat)) :
    ∃ ret k' σ' T' zs, vmmMap vmm virt pageCount flags k = some (ret, k') ∧
      Spaces k' σ' T' w kr (Function.update ls vmm.list zs) ∧
      (ret = 0 → (Undone σ T (Vma.areas (ls vmm.list)) σ' T' (Vma.areas zs) r ↔
        FailsClean k vmm virt pageCount flags (Vma.areas (ls vmm.list)))) := by
  obtain ⟨ret,k',σ',T',zs,hrun,hspaces,-,-,-,hout⟩ := vmmMap_run h hn hedit flags
  refine ⟨ret,k',σ',T',zs,hrun,hspaces,fun hret => ?_⟩
  have hnull : vmm ≠ .null := by
    rintro rfl
    exact hn
  obtain ⟨zs',hzs⟩ : ∃ zs', Vma.areas zs=zs' := ⟨_,rfl⟩
  rw [hzs] at hout ⊢
  cases hout with
  | refused hrej => exact iff_of_true (.refl ..) (.inl hrej)
  | mapped _ _ _ hnot hins _ hpages =>
    -- the first page has an address, so only the empty range is mapped with the result 0
    have hcount : pageCount.toNat=0 := by
      cases hc : pageCount.toNat with
      | zero => rfl
      | succ n =>
        rw [hc,show pagesFrom virt (n+1)=virt::pagesFrom (virt+PAGE_SIZE) n from rfl] at hpages
        cases hpages with
        | cons hpage _ => exact absurd hret hpage.address_ne
    have hzero : pageCount=0 := BitVec.eq_of_toNat_eq hcount
    rw [hcount] at hpages
    cases hpages
    rw [inserted_untracked fun _ => by rw [hzero]; rfl] at hins
    subst hins
    exact iff_of_true (.refl ..) (.inr (.inl hzero))
  | failed _ _ ys _ hnot hins _ hstop hkept hrem =>
    have hcount : pageCount≠0 := fun hzero => hstop.ne_nil (by rw [hzero]; rfl)
    have hlist := restored_iff hnull (h.areas.sorted vmm.list) hnot hcount hins hkept hrem
    rw [FailsClean,h.ready.pool,or_iff_right hnot,or_iff_right hcount,← hlist]
    rcases hstop.short_or_lost h.ready.sound h.pool with ⟨htake,rest,rfl,rfl⟩ | ⟨htake,f,hf,hlost⟩
    · exact ⟨fun hu => ⟨htake,hu.areas⟩,fun hz => ⟨hz.2,fun _ _ => rfl,fun _ hheld => .inl hheld⟩⟩
    · exact iff_of_false (not_undone_of_taken h.pool hf hlost) fun hc => htake hc.1

def kernelPage : Haddr := 0xFFFF800000001000

def emptyPool : FramePool := { samplePool with answers := [] }

theorem bootKernel_mayEdit {pool : FramePool} {n : Nat} (hpool : ∀ f, pool.free f=true →
    2048≤f.toNat)
    (hv : (pagesFrom kernelPage n).all (fun v => pageOf v≠pageOf 0xFFFFFFFF80001000)=true) :
    MayEdit (bootKernel pool [] []) ⟨bootMem, pool⟩ bootNodes windowPt bootRoot .kernel
      (pagesFrom kernelPage n) :=
  fun _ => ⟨bootMachine_ready hpool,fun v hmem =>
    ⟨.inr rfl,of_decide_eq_true (List.all_eq_true.mp hv v hmem)⟩⟩

theorem emptyPool_free (f : Frame) (hf : emptyPool.free f=true) : 2048≤f.toNat :=
  samplePool_free f hf

/-- Without frames, mapping a page of the kernel leaves nothing behind. -/
theorem vmm_map_undone_without_frames : ∃ ret k' σ' T' zs,
    vmmMap .kernel kernelPage 1 (PAGE_PRESENT ||| PAGE_WRITABLE) (bootKernel emptyPool [] []) =
      some (ret, k') ∧
    Spaces k' σ' T' windowPt bootRoot (Function.update (fun _ => []) 0 zs) ∧
    (ret = 0 → Undone ⟨bootMem, emptyPool⟩ bootNodes [] σ' T' (Vma.areas zs) bootRoot) := by
  have hlive : Live (bootKernel emptyPool [] []) ⟨bootMem,emptyPool⟩ bootNodes windowPt bootRoot
      fun _ => [] := bootKernel_live emptyPool_free (fun _ _ => rfl) [] []
  have hname : Names (bootKernel emptyPool [] []) bootRoot .kernel bootRoot := rfl
  obtain ⟨ret,k',σ',T',zs,hrun,hspaces,hiff⟩ :=
    vmm_map_undone_iff kernelPage 1 (PAGE_PRESENT ||| PAGE_WRITABLE) hlive.toSpaces hname
      (bootKernel_mayEdit emptyPool_free (by decide +kernel))
  exact ⟨ret,k',σ',T',zs,hrun,hspaces,fun hret =>
    (hiff hret).mpr (.inr (.inr ⟨rfl,.inl rfl⟩))⟩

/-- Eight frames are enough for six of seven pages. They stay mapped. -/
theorem vmm_map_leaves_pages : ∃ k' σ' T' zs,
    vmmMap .kernel kernelPage 7 (PAGE_PRESENT ||| PAGE_WRITABLE) (bootKernel samplePool [] []) =
      some (0, k') ∧
    Spaces k' σ' T' windowPt bootRoot (Function.update (fun _ => []) 0 zs) ∧
    leafEntry bootMem bootRoot (pageOf kernelPage) = 0 ∧
    isPresent (leafEntry σ'.mem bootRoot (pageOf kernelPage)) = true ∧
    ¬ Undone ⟨bootMem, samplePool⟩ bootNodes [] σ' T' (Vma.areas zs) bootRoot := by
  have hlive : Live (bootKernel samplePool [] []) ⟨bootMem,samplePool⟩ bootNodes windowPt bootRoot
      fun _ => [] := bootKernel_live samplePool_free samplePool_disjoint [] []
  have hname : Names (bootKernel samplePool [] []) bootRoot .kernel bootRoot := rfl
  have hedit : MayEdit (bootKernel samplePool [] []) ⟨bootMem,samplePool⟩ bootNodes windowPt
      bootRoot .kernel (pagesFrom kernelPage (7 : Haddr).toNat) :=
    bootKernel_mayEdit samplePool_free (by decide +kernel)
  have hstops : (mapPages bootRoot (PAGE_PRESENT ||| PAGE_WRITABLE) kernelPage 7
      ⟨bootMem,samplePool⟩).1=false := by decide +kernel
  have hfirst : isPresent (leafEntry (mapPages bootRoot (PAGE_PRESENT ||| PAGE_WRITABLE) kernelPage 7
      ⟨bootMem,samplePool⟩).2.mem bootRoot (pageOf kernelPage))=true := by decide +kernel
  have hbefore : leafEntry bootMem bootRoot (pageOf kernelPage)=0 := by decide +kernel
  obtain ⟨ret,k',σ',T',zs,hrun,hspaces,-,-,-,hout⟩ := vmmMap_run hlive.toSpaces hname
    hedit (PAGE_PRESENT ||| PAGE_WRITABLE)
  obtain ⟨zs',hzs⟩ : ∃ zs', Vma.areas zs=zs' := ⟨_,rfl⟩
  rw [hzs] at hout
  cases hout with
  | refused hrej =>
    rcases hrej with hbig | href
    · exact absurd hbig (by decide)
    · exact absurd href.tracked (by decide)
  | mapped _ _ _ _ _ hmap =>
    exact absurd (congrArg Prod.fst hmap) (by rw [show BitVec.toNat (7 : Haddr)=7 from rfl,hstops]; simp)
  | failed _ _ ys _ hnot hins hmap hstop hkept hrem =>
    have hmem : σ'=(mapPages bootRoot (PAGE_PRESENT ||| PAGE_WRITABLE) kernelPage 7
        ⟨bootMem,samplePool⟩).2 := (congrArg Prod.snd hmap).symm
    rw [← hmem] at hfirst
    refine ⟨k',σ',T',zs,hrun,hspaces,hbefore,hfirst,fun hu => ?_⟩
    have hsame := hu.entries (pageOf kernelPage) (by decide)
    rw [hsame] at hfirst
    exact absurd (hbefore ▸ hfirst) (by decide)

end Hojicha.Vmm
