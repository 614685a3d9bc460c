import Hojicha.Pmm.Model
import Hojicha.Utils.BitmapBounds

/-!
# Frames of the bitmap allocator

Once `memmap_is_initialized` is set, the frames that are still to be handed out are those whose
bit is clear.
-/

namespace Hojicha.Pmm

open Utils Function Finset

def frameAddr (i : Nat) : Haddr := pmmPageToAddrBase (BitVec.ofNat 64 i)

theorem frameAddr_toNat {i : Nat} (hi : i<2 ^ 52) : (frameAddr i).toNat=i * 4096 := by
  simp only [frameAddr,pmmPageToAddrBase,BitVec.toNat_shiftLeft,BitVec.toNat_ofNat,Nat.shiftLeft_eq]
  omega

theorem pmmAddrToPage_toNat (a : Haddr) : (pmmAddrToPage a).toNat=a.toNat / 4096 := by
  simp [pmmAddrToPage,alignToPrevPage,Nat.shiftRight_eq_div_pow]

theorem pmmAddrToPage_lt (a : Haddr) : (pmmAddrToPage a).toNat<2 ^ 52 := by
  rw [pmmAddrToPage_toNat]
  omega

theorem frameAddr_pmmAddrToPage {a : Haddr} (ha : a.toNat % 4096=0) :
    frameAddr (pmmAddrToPage a).toNat=a := by
  apply BitVec.eq_of_toNat_eq
  rw [frameAddr_toNat (pmmAddrToPage_lt a),pmmAddrToPage_toNat]
  omega

theorem pmmAddrToPage_frameAddr {i : Nat} (hi : i<2 ^ 52) :
    (pmmAddrToPage (frameAddr i)).toNat=i := by
  rw [pmmAddrToPage_toNat,frameAddr_toNat hi]
  omega

theorem frameAddr_eq_zero_iff {i : Nat} (hi : i<2 ^ 52) : frameAddr i=0 ↔ i=0 := by
  rw [← BitVec.toNat_inj,frameAddr_toNat hi]
  simp

def clearSet (n : Nat) (used : Nat → Bool) : Finset Nat :=
  (Finset.range n).filter fun i => used i = false

@[simp]
theorem mem_clearSet {n i : Nat} {used : Nat → Bool} :
    i∈clearSet n used ↔ i<n ∧ used i=false := by
  simp [clearSet]

theorem clearSet_update_true {n i : Nat} {used : Nat → Bool} :
    clearSet n (update used i true)=(clearSet n used).erase i := by
  ext j
  by_cases hj : j=i <;> simp [hj]

theorem clearSet_update_false {n i : Nat} {used : Nat → Bool} (hi : i<n) :
    clearSet n (update used i false)=insert i (clearSet n used) := by
  ext j
  by_cases hj : j=i <;> simp [hj,hi]

/-- The bitmap covers `total_pages` pages and `free_pages` counts the clear ones. -/
structure Counts (p : PmmState) (used : Nat → Bool) : Prop where
  shows : Shows p.bitmap used
  size : p.bitmap.bitCount = p.totalPages.toNat
  small : p.totalPages.toNat < 2 ^ 52
  count : p.freePages.toNat = (clearSet p.totalPages.toNat used).card

variable {p : PmmState} {used used' : Nat → Bool} {i : Nat}

theorem Counts.congr (h : Counts p used) (heq : ∀ i<p.totalPages.toNat, used i=used' i) :
    Counts p used' := by
  have hclear (i : Nat) : (i<p.bitmap.bitCount ∧ used i=false) ↔
      (i<p.bitmap.bitCount ∧ used' i=false) :=
    and_congr_right fun hi => by rw [heq i (h.size ▸ hi)]
  obtain ⟨⟨hsmall,⟨st,hst,hlen,hbits⟩,hbounds⟩,hsize,htotal,hcount⟩ := h
  refine ⟨⟨hsmall,⟨st,hst,hlen,fun i hi => ?_⟩,?_⟩,hsize,htotal,?_⟩
  · rw [hbits i hi,heq i (hsize ▸ hi)]
  · simpa only [hclear] using hbounds
  · rw [hcount]
    congr 1
    ext i
    rw [mem_clearSet,mem_clearSet,← hsize,hclear]

theorem Counts.card_le (_h : Counts p used) :
    (clearSet p.totalPages.toNat used).card≤p.totalPages.toNat :=
  (card_filter_le _ _).trans_eq (card_range _)

section

variable (h : Counts p used)
include h

theorem Counts.get (hi : i<p.totalPages.toNat) : bitmapGet p.bitmap i=some (used i) := by
  rw [bitmapGet_spec h.shows,h.size]
  simp [hi]

theorem Counts.get_eq_true_iff :
    bitmapGet p.bitmap i=some true ↔ i<p.totalPages.toNat ∧ used i=true := by
  rw [bitmapGet_spec h.shows,h.size]
  simp

theorem markPage_spec (hi : i<p.totalPages.toNat) (hclear : used i=false) :
    ∃ b n, markPage (BitVec.ofNat 64 i) p=some { p with bitmap := b, freePages := n } ∧
      Counts { p with bitmap := b, freePages := n } (update used i true) := by
  have hsmall := h.small
  have hidx : (BitVec.ofNat 64 i).toNat=i := by
    rw [BitVec.toNat_ofNat]
    omega
  have hguard : ¬ BitVec.ofNat 64 i ≥ p.totalPages := by
    simp only [ge_iff_le,BitVec.le_def,hidx]
    omega
  have hmem : i∈clearSet p.totalPages.toNat used := mem_clearSet.mpr ⟨hi,hclear⟩
  have hpos : 0<(clearSet p.totalPages.toNat used).card := card_pos.mpr ⟨i,hmem⟩
  have hfree : p.freePages > 0 := by
    simp only [gt_iff_lt,BitVec.lt_def,h.count]
    exact hpos
  obtain ⟨b,hset,hcnt,hshows⟩ := bitmapSet_spec h.shows (h.size ▸ hi)
  refine ⟨b,p.freePages-1,?_,hshows,hcnt.trans h.size,hsmall,?_⟩
  · simp only [markPage,if_neg hguard,hidx,h.get hi,hclear,hset,Option.bind_eq_bind,
      Option.bind_some,Bool.false_eq_true,if_false,if_pos hfree]
    rfl
  · rw [clearSet_update_true,card_erase_of_mem hmem,← h.count]
    exact BitVec.toNat_sub_of_le (BitVec.le_def.mpr (BitVec.lt_def.mp hfree))

theorem clearPage_spec (idx : Haddr) :
    ∃ b n, clearPage idx p=some { p with bitmap := b, freePages := n } ∧
      Counts { p with bitmap := b, freePages := n } (update used idx.toNat false) := by
  have hsmall := h.small
  by_cases hguard : idx ≥ p.totalPages
  · refine ⟨p.bitmap,p.freePages,by simp only [clearPage,if_pos hguard],h.congr fun i hi => ?_⟩
    simp only [ge_iff_le,BitVec.le_def] at hguard
    rw [update_of_ne (by omega)]
  have hidx : idx.toNat<p.totalPages.toNat := by
    simpa only [ge_iff_le,BitVec.le_def,not_le] using hguard
  cases hused : used idx.toNat with
  | false =>
    refine ⟨p.bitmap,p.freePages,?_,?_⟩
    · simp [clearPage,hguard,h.get hidx,hused]
    · rwa [← hused,update_eq_self]
  | true =>
    obtain ⟨b,hclr,hcnt,hshows⟩ := bitmapClear_spec h.shows (h.size ▸ hidx)
    refine ⟨b,p.freePages+1,?_,hshows,hcnt.trans h.size,hsmall,?_⟩
    · simp only [clearPage,if_neg hguard,h.get hidx,hused,hclr,Option.bind_eq_bind,
        Option.bind_some,Bool.not_true,Bool.false_eq_true,if_false]
      rfl
    · have hle := h.card_le
      rw [clearSet_update_false hidx,card_insert_of_notMem (by simp [hused]),← h.count,
        BitVec.toNat_add]
      rw [← h.count] at hle
      exact Nat.mod_eq_of_lt (by simp; omega)

theorem pmmAllocFrame_spec (hmode : p.memmapIsInitialized=true) :
    ((∀ i<p.totalPages.toNat, used i=true) ∧ pmmAllocFrame p=some (0, p)) ∨
    ∃ i b n, i<p.totalPages.toNat ∧ used i=false ∧ (∀ j < i, used j=true) ∧
      pmmAllocFrame p=some (frameAddr i, { p with bitmap := b, freePages := n }) ∧
      Counts { p with bitmap := b, freePages := n } (update used i true) := by
  obtain ⟨r,hr,hleast⟩ := bitmapFindClear_spec h.shows
  rw [h.size] at hleast
  cases r with
  | none => exact .inl ⟨hleast,by simp [pmmAllocFrame,hmode,hr]⟩
  | some i =>
    obtain ⟨hi,hclear,hbelow⟩ := hleast
    obtain ⟨b,n,hmark,hcounts⟩ := markPage_spec h hi hclear
    exact .inr ⟨i,b,n,hi,hclear,hbelow,by simp [pmmAllocFrame,hmode,hr,hmark,frameAddr],hcounts⟩

end

/-- Some later call of `pmm_alloc_frame`, with no call of `pmm_free_frame` before it, returns the
frame. -/
inductive Allocatable : PmmState → Haddr → Prop
  | now {p p' : PmmState} {a : Haddr} : pmmAllocFrame p = some (a, p') → a ≠ 0 → Allocatable p a
  | later {p p' : PmmState} {a r : Haddr} : pmmAllocFrame p = some (r, p') → Allocatable p' a →
      Allocatable p a

section

variable (h : Counts p used) (hmode : p.memmapIsInitialized=true) (h0 : used 0=true)
include h hmode h0

theorem allocatable_iff {a : Haddr} :
    Allocatable p a ↔ ∃ i<p.totalPages.toNat, used i=false ∧ a=frameAddr i := by
  constructor
  · intro ha
    induction ha generalizing used with
    | now hcall hne =>
      obtain ⟨-,hcall'⟩ | ⟨i,b,n,hi,hclear,-,hcall',-⟩ := pmmAllocFrame_spec h hmode
      · rw [hcall'] at hcall
        simp_all
      · rw [hcall'] at hcall
        exact ⟨i,hi,hclear,by simp_all⟩
    | later hcall _ ih =>
      obtain ⟨-,hcall'⟩ | ⟨i,b,n,hi,hclear,-,hcall',hcounts⟩ := pmmAllocFrame_spec h hmode
      · rw [hcall'] at hcall
        simp only [Option.some.injEq,Prod.mk.injEq] at hcall
        obtain ⟨-,rfl⟩ := hcall
        exact ih h hmode h0
      · rw [hcall'] at hcall
        simp only [Option.some.injEq,Prod.mk.injEq] at hcall
        obtain ⟨-,rfl⟩ := hcall
        have h0' : update used i true 0=true := by
          by_cases hi0 : 0=i <;> simp [update,hi0,h0]
        obtain ⟨j,hj,hclear',rfl⟩ := ih hcounts hmode h0'
        refine ⟨j,hj,?_,rfl⟩
        by_cases hji : j=i <;> simp_all
  · rintro ⟨i,hi,hclear,rfl⟩
    -- every call takes a smaller clear page until `i` is the least one
    obtain ⟨m,hm⟩ : ∃ m, (clearSet p.totalPages.toNat used).card=m := ⟨_,rfl⟩
    induction m generalizing p used with
    | zero =>
      rw [card_eq_zero] at hm
      exact absurd (mem_clearSet.mpr ⟨hi,hclear⟩) (by simp [hm])
    | succ m ih =>
      obtain ⟨hfull,-⟩ | ⟨j,b,n,hj,hclear',-,hcall,hcounts⟩ := pmmAllocFrame_spec h hmode
      · simp [hfull i hi] at hclear
      · by_cases hji : i=j
        · subst hji
          have hsmall := h.small
          refine .now hcall ?_
          rw [ne_eq,frameAddr_eq_zero_iff (by omega)]
          rintro rfl
          simp [h0] at hclear
        · refine .later hcall (ih hcounts hmode ?_ hi ?_ ?_)
          · by_cases hj0 : 0=j <;> simp [update,hj0,h0]
          · rwa [update_of_ne hji]
          · rw [clearSet_update_true,card_erase_of_mem (mem_clearSet.mpr ⟨hj,hclear'⟩),hm]
            rfl

theorem ncard_allocatable : {a | Allocatable p a}.ncard=p.freePages.toNat := by
  have hsmall := h.small
  have himage : {a | Allocatable p a} =
      ((clearSet p.totalPages.toNat used).image frameAddr : Set Haddr) := by
    ext a
    simp only [Set.mem_ofPred_eq,allocatable_iff h hmode h0,coe_image,Set.mem_image,
      mem_coe,mem_clearSet]
    exact ⟨fun ⟨i,hi,hc,ha⟩ => ⟨i,⟨hi,hc⟩,ha.symm⟩,fun ⟨i,⟨hi,hc⟩,ha⟩ => ⟨i,hi,hc,ha.symm⟩⟩
  rw [himage,Set.ncard_coe_finset,card_image_of_injOn,h.count]
  intro i hi j hj hij
  rw [mem_coe,mem_clearSet] at hi hj
  have hpage := congrArg (fun a => (pmmAddrToPage a).toNat) hij
  simpa only [pmmAddrToPage_frameAddr (show i<2 ^ 52 by omega),
    pmmAddrToPage_frameAddr (show j<2 ^ 52 by omega)] using hpage

end

end Hojicha.Pmm
