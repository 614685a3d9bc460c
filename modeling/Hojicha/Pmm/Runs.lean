import Mathlib.Data.BitVec
import Hojicha.Framework.Run
import Hojicha.Pmm.Boot

/-!
# Histories of `pmm_alloc_frame` and `pmm_free_frame`

No function sets `memmap_is_initialized`, so every call is served by the bump pointer. The
histories are stated for both values of the mode.
-/

namespace Hojicha.Pmm

open Framework Utils Function Finset Option

structure State where
  pmm : PmmState
  held : List Haddr
deriving DecidableEq

inductive Request
  | alloc
  | free (addr : Haddr)

/-- Only a frame that is held may be freed. -/
def Allowed (s : State) : Request → Prop
  | .alloc => True
  | .free addr => addr ∈ s.held

instance (s : State) : (c : Request) → Decidable (Allowed s c)
  | .alloc => inferInstanceAs (Decidable True)
  | .free addr => inferInstanceAs (Decidable (addr ∈ s.held))

def step (s : State) : Request → Option State
  | .alloc => (pmmAllocFrame s.pmm).map fun (r, p) => ⟨p, if r = 0 then s.held else r :: s.held⟩
  | .free addr => (pmmFreeFrame addr s.pmm).map fun p => ⟨p, s.held.erase addr⟩

def earlyFrames (p : PmmState) : List Haddr :=
  (List.range ((p.lastEarlyAllocAddr - p.firstEarlyAllocAddr) / PAGE_SIZE).toNat).map fun j =>
    p.firstEarlyAllocAddr + BitVec.ofNat 64 (j * 4096)

def start (p : PmmState) (mode : Bool) : State :=
  ⟨{ p with memmapIsInitialized := mode }, earlyFrames p⟩

structure InSection (start length r : Haddr) : Prop where
  aligned : r.toNat % 4096 = 0
  above : start.toNat ≤ r.toNat
  below : r.toNat + 4096 ≤ start.toNat + length.toNat

instance (start length r : Haddr) : Decidable (InSection start length r) :=
  decidable_of_iff (r.toNat % 4096 = 0 ∧ start.toNat ≤ r.toNat ∧
    r.toNat + 4096 ≤ start.toNat + length.toNat)
    ⟨fun h => ⟨h.1, h.2.1, h.2.2⟩, fun h => ⟨h.aligned, h.above, h.below⟩⟩

/-- What is expected of a state and of the next call in it. -/
structure Sound (s : State) : Prop where
  marked : ∀ a ∈ s.held, bitmapGet s.pmm.bitmap (pmmAddrToPage a).toNat = some true
  counted : (pmmStateGetFreePages s.pmm).toNat = {a | Allocatable s.pmm a}.ncard
  alloc : ∃ r p, pmmAllocFrame s.pmm = some (r, p) ∧
    (r ≠ 0 → InSection s.pmm.maxSectionStartAddr s.pmm.maxSectionLength r ∧ r ∉ s.held) ∧
    (r = 0 ↔ ∀ a, ¬ Allocatable s.pmm a)
  free : ∀ a ∈ s.held, ∃ p, pmmFreeFrame a s.pmm = some p ∧ Allocatable p a

def FramesTracked (s : State) : Prop :=
  ∀ cs, Permitted step Allowed s cs → ∃ s', run step s cs = some s' ∧ Sound s'

/-- Every page left clear and every early frame lies in the section, and no early frame is clear. -/
structure CleanHandOver (p : PmmState) : Prop where
  clear : ∀ i < p.totalPages.toNat, bitmapGet p.bitmap i = some false →
    InSection p.maxSectionStartAddr p.maxSectionLength (frameAddr i)
  early : ∀ a ∈ earlyFrames p, a ≠ 0 ∧ InSection p.maxSectionStartAddr p.maxSectionLength a ∧
    bitmapGet p.bitmap (pmmAddrToPage a).toNat = some true

instance (p : PmmState) : Decidable (CleanHandOver p) :=
  -- over the list, not over all of `BitVec 64`
  have : Decidable (∀ a ∈ earlyFrames p, a ≠ 0 ∧
      InSection p.maxSectionStartAddr p.maxSectionLength a ∧
      bitmapGet p.bitmap (pmmAddrToPage a).toNat = some true) := List.decidableBAll _ _
  decidable_of_iff ((∀ i < p.totalPages.toNat, bitmapGet p.bitmap i = some false →
      InSection p.maxSectionStartAddr p.maxSectionLength (frameAddr i)) ∧
    ∀ a ∈ earlyFrames p, a ≠ 0 ∧ InSection p.maxSectionStartAddr p.maxSectionLength a ∧
      bitmapGet p.bitmap (pmmAddrToPage a).toNat = some true)
    ⟨fun h => ⟨h.1, h.2⟩, fun h => ⟨h.clear, h.early⟩⟩

structure Holds (p : PmmState) (used : Nat → Bool) (a : Haddr) : Prop where
  ne_zero : a ≠ 0
  inside : InSection p.maxSectionStartAddr p.maxSectionLength a
  page_lt : (pmmAddrToPage a).toNat < p.totalPages.toNat
  used : used (pmmAddrToPage a).toNat = true

structure Inv (s : State) (used : Nat → Bool) : Prop where
  mode : s.pmm.memmapIsInitialized = true
  counts : Counts s.pmm used
  zero : used 0 = true
  clear : ∀ i < s.pmm.totalPages.toNat, used i = false →
    InSection s.pmm.maxSectionStartAddr s.pmm.maxSectionLength (frameAddr i)
  held : ∀ a ∈ s.held, Holds s.pmm used a
  nodup : s.held.Nodup

variable {s s' : State} {used : Nat → Bool} {a : Haddr}

private theorem page_ne {b : Haddr} (ha : a.toNat % 4096=0) (hb : b.toNat % 4096=0)
    (hne : a≠b) : (pmmAddrToPage a).toNat≠(pmmAddrToPage b).toNat := by
  intro h
  apply hne
  rw [← frameAddr_pmmAddrToPage ha,h,frameAddr_pmmAddrToPage hb]

section

variable (h : Inv s used)
include h

private theorem Inv.free (ha : a∈s.held) :
    ∃ p used', pmmFreeFrame a s.pmm=some p ∧ Allocatable p a ∧
      Inv ⟨p, s.held.erase a⟩ used' := by
  obtain ⟨hne,hin,hpage,-⟩ := h.held a ha
  have hframe := frameAddr_pmmAddrToPage hin.aligned
  have hpos : 0≠(pmmAddrToPage a).toNat := by
    intro h0
    rw [← h0] at hframe
    exact hne (hframe ▸ (frameAddr_eq_zero_iff (by decide)).mpr rfl)
  obtain ⟨b,n,hclear,hcounts⟩ := clearPage_spec h.counts (pmmAddrToPage a)
  have hzero : update used (pmmAddrToPage a).toNat false 0=true := by
    rw [update_of_ne hpos,h.zero]
  refine ⟨_,_,hclear,?_,h.mode,hcounts,hzero,fun i hi hi' => ?_,fun c hc => ?_,h.nodup.erase a⟩
  · exact (allocatable_iff hcounts h.mode hzero).mpr ⟨_,hpage,by simp,hframe.symm⟩
  · by_cases hia : i=(pmmAddrToPage a).toNat
    · rw [hia,hframe]
      exact hin
    · rw [update_of_ne hia] at hi'
      exact h.clear i hi hi'
  · obtain ⟨hca,hc⟩ := (List.Nodup.mem_erase_iff h.nodup).mp hc
    obtain ⟨hne',hin',hpage',hused'⟩ := h.held c hc
    refine ⟨hne',hin',hpage',?_⟩
    rwa [update_of_ne (page_ne hin'.aligned hin.aligned hca)]

private theorem Inv.alloc : ∃ r p used', pmmAllocFrame s.pmm=some (r, p) ∧
      (r≠0 → InSection s.pmm.maxSectionStartAddr s.pmm.maxSectionLength r ∧ r∉s.held) ∧
      (r=0 ↔ ∀ a, ¬ Allocatable s.pmm a) ∧
      Inv ⟨p, if r=0 then s.held else r::s.held⟩ used' := by
  have hsmall := h.counts.small
  obtain ⟨hfull,hcall⟩ | ⟨i,b,n,hi,hclear,-,hcall,hcounts⟩ :=
    pmmAllocFrame_spec h.counts h.mode
  · refine ⟨0,s.pmm,used,hcall,fun hne => absurd rfl hne,⟨fun _ a ha => ?_,fun _ => rfl⟩,?_⟩
    · obtain ⟨i,hi,hc,-⟩ := (allocatable_iff h.counts h.mode h.zero).mp ha
      simp [hfull i hi] at hc
    · rw [if_pos rfl]
      exact h
  · have hi0 : 0≠i := by
      rintro rfl
      simp [h.zero] at hclear
    have hne : frameAddr i≠0 := by
      rw [ne_eq,frameAddr_eq_zero_iff (by omega)]
      exact hi0.symm
    have hnew : frameAddr i∉s.held := fun hmem => by
      have hused := (h.held _ hmem).used
      rw [pmmAddrToPage_frameAddr (by omega),hclear] at hused
      exact absurd hused (by decide)
    have hin := h.clear i hi hclear
    refine ⟨frameAddr i,_,update used i true,hcall,fun _ => ⟨hin,hnew⟩,
      ⟨fun h0 => absurd h0 hne,fun hnone => ?_⟩,?_⟩
    · exact absurd (.now hcall hne) (hnone (frameAddr i))
    · rw [if_neg hne]
      refine ⟨h.mode,hcounts,?_,fun j hj hj' => ?_,fun c hc => ?_,
        List.nodup_cons.mpr ⟨hnew,h.nodup⟩⟩
      · rw [update_of_ne hi0,h.zero]
      · have hji : j≠i := by
          rintro rfl
          simp at hj'
        rw [update_of_ne hji] at hj'
        exact h.clear j hj hj'
      · obtain rfl | hc := List.mem_cons.mp hc
        · refine ⟨hne,hin,?_,?_⟩ <;> rw [pmmAddrToPage_frameAddr (by omega)]
          · exact hi
          · simp
        · obtain ⟨hne',hin',hpage',hused'⟩ := h.held c hc
          refine ⟨hne',hin',hpage',?_⟩
          by_cases hci : (pmmAddrToPage c).toNat=i
          · rw [hci,update_self]
          · rwa [update_of_ne hci]

private theorem Inv.sound : Sound s where
  marked a ha := by
    rw [h.counts.get_eq_true_iff]
    exact ⟨(h.held a ha).page_lt,(h.held a ha).used⟩
  counted := (ncard_allocatable h.counts h.mode h.zero).symm
  alloc := by
    obtain ⟨r,p,_,hcall,hr,hzero,-⟩ := h.alloc
    exact ⟨r,p,hcall,hr,hzero⟩
  free a ha := by
    obtain ⟨p,_,hcall,hp,-⟩ := h.free ha
    exact ⟨p,hcall,hp⟩

private theorem Inv.step {c : Request} (hc : Allowed s c) :
    ∃ s', step s c=some s' ∧ ∃ used', Inv s' used' := by
  cases c with
  | alloc =>
    obtain ⟨r,p,used',hcall,-,-,hinv⟩ := h.alloc
    exact ⟨_,by simp only [Pmm.step,hcall,map_some],used',hinv⟩
  | free a =>
    obtain ⟨p,used',hcall,-,hinv⟩ := h.free hc
    exact ⟨_,by simp only [Pmm.step,hcall,map_some],used',hinv⟩

private theorem Inv.framesTracked : FramesTracked s := by
  intro cs hcs
  obtain ⟨s',hrun,used',hinv⟩ := run_invariant (fun s => ∃ used, Inv s used)
    (fun _ _ ⟨_,hinv⟩ hc => hinv.step hc) ⟨used,h⟩ hcs
  exact ⟨s',hrun,hinv.sound⟩

end

theorem allocatable_of_early {p : PmmState} (hmode : p.memmapIsInitialized=false) (k : Nat)
    (hne : p.lastEarlyAllocAddr + BitVec.ofNat 64 (k * 4096)≠0) :
    Allocatable p (p.lastEarlyAllocAddr + BitVec.ofNat 64 (k * 4096)) := by
  have hcall (q : PmmState) (hq : q.memmapIsInitialized=false) :
      pmmAllocFrame q=some (earlyAlloc q) := by
    simp [pmmAllocFrame,hq]
  induction k generalizing p with
  | zero =>
    simp only [Nat.zero_mul,BitVec.ofNat_eq_ofNat,BitVec.add_zero] at hne ⊢
    exact .now (hcall p hmode) hne
  | succ k ih =>
    have hnext : p.lastEarlyAllocAddr+BitVec.ofNat 64 ((k+1) * 4096) =
        (earlyAlloc p).2.lastEarlyAllocAddr+BitVec.ofNat 64 (k * 4096) := by
      simp only [earlyAlloc,PAGE_SIZE,BitVec.ofNat_eq_ofNat,Nat.succ_mul,BitVec.ofNat_add]
      rw [BitVec.add_assoc,BitVec.add_comm (4096#64)]
    rw [hnext] at hne ⊢
    exact .later (hcall p hmode) (ih hmode hne)

theorem Allocatable.ne_zero {p : PmmState} (h : Allocatable p a) : a≠0 := by
  induction h with
  | now _ hne => exact hne
  | later _ _ ih => exact ih

/-- The bump pointer never runs out, so more frames are allocatable than there are pages. -/
theorem lt_ncard_allocatable {p : PmmState} (hmode : p.memmapIsInitialized=false) :
    2 ^ 52 - 1 ≤ {a | Allocatable p a}.ncard := by
  obtain ⟨N,hN⟩ : ∃ N, N=2 ^ 52 := ⟨_,rfl⟩
  have hinj : Set.InjOn (fun k => p.lastEarlyAllocAddr+BitVec.ofNat 64 (k * 4096))
      (range N) := by
    intro i hi j hj hij
    simp only [coe_range,Set.mem_Iio] at hi hj
    have hij' := congrArg BitVec.toNat hij
    simp only [BitVec.toNat_add,BitVec.toNat_ofNat] at hij'
    omega
  have hsub : (((range N).image fun k =>
      p.lastEarlyAllocAddr+BitVec.ofNat 64 (k * 4096)).erase 0 : Set Haddr) ⊆
      {a | Allocatable p a} := by
    intro a ha
    obtain ⟨hne,ha⟩ := mem_erase.mp (mem_coe.mp ha)
    obtain ⟨k,-,rfl⟩ := mem_image.mp ha
    exact allocatable_of_early hmode k hne
  have : Finite Haddr := .of_equiv _ BitVec.equivFin.symm.toEquiv
  calc 2 ^ 52-1=((range N).image fun k =>
          p.lastEarlyAllocAddr+BitVec.ofNat 64 (k * 4096)).card-1 := by
        rw [card_image_of_injOn hinj,card_range,hN]
    _≤_ := pred_card_le_card_erase
    _=_ := (Set.ncard_coe_finset _).symm
    _≤_ := Set.ncard_le_ncard hsub (Set.toFinite _)

theorem freePages_lt {p : PmmState} {used : Nat → Bool} (h : Counts p used) (h0 : used 0=true) :
    p.freePages.toNat<2 ^ 52 - 1 := by
  have hsmall := h.small
  have hsub : clearSet p.totalPages.toNat used ⊆ (range p.totalPages.toNat).erase 0 := by
    intro i hi
    obtain ⟨hi,hclear⟩ := mem_clearSet.mp hi
    refine mem_erase.mpr ⟨?_,mem_range.mpr hi⟩
    rintro rfl
    simp [h0] at hclear
  have hcard := card_le_card hsub
  rw [← h.count] at hcard
  by_cases hpos : p.totalPages.toNat=0
  · simp only [hpos,range_zero,erase_empty,card_empty] at hcard
    omega
  · rw [card_erase_of_mem (mem_range.mpr (Nat.pos_of_ne_zero hpos)),
      card_range] at hcard
    omega

private theorem FramesTracked.step (h : FramesTracked s) {c : Request} (hc : Allowed s c)
    (hstep : step s c=some s') : FramesTracked s' := by
  intro cs hcs
  obtain ⟨t,hrun,ht⟩ := h (c::cs) ⟨hc,fun t ht => by
    rw [hstep,mem_some_iff] at ht
    rwa [← ht]⟩
  exact ⟨t,by simpa [run,hstep] using hrun,ht⟩

private theorem FramesTracked.inSection (h : FramesTracked s) (hcounts : Counts s.pmm used)
    (hmode : s.pmm.memmapIsInitialized=true) (ha : Allocatable s.pmm a) :
    InSection s.pmm.maxSectionStartAddr s.pmm.maxSectionLength a := by
  obtain ⟨p,hp⟩ : ∃ p, s.pmm=p := ⟨_,rfl⟩
  rw [hp] at ha hcounts hmode ⊢
  induction ha generalizing s used with
  | now hcall hne =>
    obtain ⟨s',hrun,hs'⟩ := h [] trivial
    obtain rfl := some.inj hrun
    obtain ⟨r,p',hcall',hr,-⟩ := hs'.alloc
    rw [hp,hcall,some.injEq,Prod.mk.injEq] at hcall'
    obtain ⟨rfl,-⟩ := hcall'
    exact hp ▸ (hr hne).1
  | @later q q' c r hcall _ ih =>
    have hstep : Pmm.step s .alloc=some ⟨q',if r=0 then s.held else r::s.held⟩ := by
      rw [Pmm.step,hp,hcall,map_some]
    have hnext := h.step (c := .alloc) trivial hstep
    obtain ⟨-,hcall'⟩ | ⟨i,b,n,-,-,-,hcall',hcounts'⟩ := pmmAllocFrame_spec hcounts hmode
    · obtain ⟨rfl,rfl⟩ := Prod.mk.inj (some.inj (hcall.symm.trans hcall'))
      exact ih hnext hmode hcounts rfl
    · obtain ⟨rfl,rfl⟩ := Prod.mk.inj (some.inj (hcall.symm.trans hcall'))
      exact ih hnext hmode hcounts' rfl

private theorem nodup_earlyFrames (p : PmmState) : (earlyFrames p).Nodup := by
  have hcount : ((p.lastEarlyAllocAddr-p.firstEarlyAllocAddr) / PAGE_SIZE).toNat<2 ^ 52 := by
    have hlt := (p.lastEarlyAllocAddr-p.firstEarlyAllocAddr).isLt
    simp only [PAGE_SIZE,BitVec.toNat_udiv,BitVec.ofNat_eq_ofNat,BitVec.toNat_ofNat,
      Nat.reducePow,Nat.reduceMod]
    omega
  refine List.Nodup.map_on (fun i hi j hj hij => ?_) List.nodup_range
  rw [List.mem_range] at hi hj
  have hij' := congrArg BitVec.toNat hij
  simp only [BitVec.toNat_add,BitVec.toNat_ofNat] at hij'
  omega

private theorem FramesTracked.mode {p : PmmState} {mode : Bool} (h : FramesTracked (start p mode))
    (hcounts : Counts p used) (h0 : used 0=true) : mode=true := by
  obtain ⟨s,hrun,hsound⟩ := h [] trivial
  obtain rfl := some.inj hrun
  by_contra hmode
  have hmany := lt_ncard_allocatable (p := (start p mode).pmm)
    (Bool.eq_false_of_not_eq_true hmode)
  have hfew := freePages_lt hcounts h0
  rw [← hsound.counted] at hmany
  exact absurd hmany (not_le.mpr hfew)

variable {boot : BootInfo} {before : Nat} {tables : Nat → Nat} {content : Nat → Byte}
  {p : PmmState}

/-- No boot ends in a state from which the frames are tracked: the mode is never switched. -/
theorem not_framesTracked_of_boot (hboot : bootPmm boot before tables content=some p) :
    ¬ FramesTracked (start p p.memmapIsInitialized) := by
  obtain ⟨used,hcounts,h0,hmode⟩ := bootPmm_spec hboot
  intro h
  have hset := h.mode hcounts h0
  rw [hmode] at hset
  exact absurd hset (by decide)

/-- After a boot, the calls hand out, track and count the frames as expected exactly when
`memmap_is_initialized` has been set and the hand-over to the bitmap is clean. -/
theorem framesTracked_iff (hboot : bootPmm boot before tables content = some p) (mode : Bool) :
    FramesTracked (start p mode) ↔ mode = true ∧ CleanHandOver p := by
  obtain ⟨used,hcounts,h0,-⟩ := bootPmm_spec hboot
  have hcounts' : Counts (start p mode).pmm used := ⟨hcounts.1,hcounts.2,hcounts.3,hcounts.4⟩
  constructor
  · intro h
    obtain rfl := h.mode hcounts h0
    obtain ⟨s,hrun,hsound⟩ := h [] trivial
    obtain rfl := some.inj hrun
    refine ⟨rfl,fun i hi hclear => ?_,fun a ha => ?_⟩
    · rw [hcounts.get hi,some.injEq] at hclear
      exact h.inSection hcounts' rfl
        ((allocatable_iff hcounts' rfl h0).mpr ⟨i,hi,hclear,rfl⟩)
    · -- an early frame that is freed comes back from a later call
      obtain ⟨q,hfree,hq⟩ := hsound.free a ha
      have hnext := h.step (c := .free a) ha (by rw [step,hfree,map_some])
      obtain ⟨b,n,hclear,hcounts''⟩ := clearPage_spec hcounts' (pmmAddrToPage a)
      obtain rfl := some.inj (hclear.symm.trans hfree)
      exact ⟨hq.ne_zero,hnext.inSection hcounts'' rfl hq,hsound.marked a ha⟩
  · rintro ⟨rfl,hclean⟩
    refine Inv.framesTracked ⟨rfl,hcounts',h0,fun i hi hclear => ?_,fun a ha => ?_,
      nodup_earlyFrames p⟩
    · exact hclean.clear i hi (by rw [hcounts.get hi,hclear])
    · obtain ⟨hne,hin,hmarked⟩ := hclean.early a ha
      rw [hcounts.get_eq_true_iff] at hmarked
      exact ⟨hne,hin,hmarked.1,hmarked.2⟩

def sampleBoot : BootInfo where
  kernelStartVaddr := 0
  kernelEndVaddr := 0
  physicalBase := 0
  virtualBase := 0xFFFFFFFF80000000
  entries := [⟨0, 0x2000, .reserved⟩, ⟨0x2000, 0x8000, .usable⟩]
  below_top := by decide

theorem framesTracked_of_sampleBoot :
    ∃ p, bootPmm sampleBoot 1 (fun _ => 0) (fun _ => 0) = some p ∧
      FramesTracked (start p true) := by
  obtain ⟨p,hp,hclean⟩ : ∃ p∈bootPmm sampleBoot 1 (fun _ => 0) (fun _ => 0),
      CleanHandOver p := by decide +kernel
  exact ⟨p,hp,(framesTracked_iff hp true).mpr ⟨rfl,hclean⟩⟩

/-- The frame returned by the first call after the boot is not marked in the bitmap. -/
theorem frames_not_tracked_after_boot :
    ∃ p, bootPmm sampleBoot 1 (fun _ => 0) (fun _ => 0) = some p ∧
      ¬ FramesTracked (start p p.memmapIsInitialized) := by
  obtain ⟨p,hp,s,hs,hunmarked⟩ :
      ∃ p∈bootPmm sampleBoot 1 (fun _ => 0) (fun _ => 0),
        ∃ s∈run step (start p p.memmapIsInitialized) [.alloc],
          0x5000∈s.held ∧ bitmapGet s.pmm.bitmap (pmmAddrToPage 0x5000).toNat=some false := by
    decide +kernel
  refine ⟨p,hp,fun h => ?_⟩
  obtain ⟨s',hs',hsound⟩ := h [.alloc] ⟨trivial,fun _ _ => trivial⟩
  obtain rfl := some.inj (hs'.symm.trans hs)
  exact absurd (hsound.marked 0x5000 hunmarked.1) (by rw [hunmarked.2]; decide)

end Hojicha.Pmm
