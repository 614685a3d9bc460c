import Hojicha.Pmm.Runs

/-!
# The pages released to the bitmap

The loop that releases the largest usable section runs past the end of the section, and starts after
the last byte of the bitmap instead of after the last early frame.
-/

namespace Hojicha.Pmm

open Utils

def MemmapEntry.IsUsable (e : MemmapEntry) : Prop :=
  e.type = .usable ∨ e.type = .acpiReclaimable

instance (e : MemmapEntry) : Decidable e.IsUsable := inferInstanceAs (Decidable (_ ∨ _))

def longer (best : Option MemmapEntry) (e : MemmapEntry) : Option MemmapEntry :=
  if e.IsUsable ∧ best.elim 0 (·.length) < e.length then some e else best

def largestUsable (es : List MemmapEntry) : Option MemmapEntry := es.foldl longer none

/-- Every clear page lies inside the largest usable section and has not been handed out. -/
def HandsOverFreePages (boot : BootInfo) (p : PmmState) : Prop :=
  ∃ e, largestUsable boot.entries = some e ∧
    ∀ i < p.totalPages.toNat, bitmapGet p.bitmap i = some false →
      InSection e.base e.length (frameAddr i) ∧ frameAddr i ∉ earlyFrames p

private theorem foldl_longer (es : List MemmapEntry) (best : Option MemmapEntry) :
    (∀ e∈es.foldl longer best, e∈best ∨ e∈es ∧ e.IsUsable) ∧
      best.elim 0 (·.length)≤(es.foldl longer best).elim 0 (·.length) ∧
      ∀ e∈es, e.IsUsable → e.length≤(es.foldl longer best).elim 0 (·.length) := by
  induction es generalizing best with
  | nil => exact ⟨fun e he => .inl he,BitVec.le_refl _,by simp⟩
  | cons e es ih =>
    obtain ⟨hmem,hle,hall⟩ := ih (longer best e)
    rw [List.foldl_cons]
    by_cases hlonger : e.IsUsable ∧ best.elim 0 (·.length)<e.length
    · rw [longer,if_pos hlonger] at hmem hle hall ⊢
      refine ⟨fun e' he' => ?_,BitVec.le_trans (BitVec.le_of_lt hlonger.2) hle,fun e' he' hu => ?_⟩
      · obtain heq | ⟨hes,hu⟩ := hmem e' he'
        · obtain rfl := Option.some.inj heq
          exact .inr ⟨List.mem_cons_self,hlonger.1⟩
        · exact .inr ⟨List.mem_cons_of_mem _ hes,hu⟩
      · obtain rfl | hes := List.mem_cons.mp he'
        · exact hle
        · exact hall e' hes hu
    · rw [longer,if_neg hlonger] at hmem hle hall ⊢
      refine ⟨fun e' he' => ?_,hle,fun e' he' hu => ?_⟩
      · obtain hb | ⟨hes,hu⟩ := hmem e' he'
        · exact .inl hb
        · exact .inr ⟨List.mem_cons_of_mem _ hes,hu⟩
      · obtain rfl | hes := List.mem_cons.mp he'
        · exact BitVec.le_trans (BitVec.not_lt.mp fun hlt => hlonger ⟨hu,hlt⟩) hle
        · exact hall e' hes hu

theorem largestUsable_spec {es : List MemmapEntry} {e : MemmapEntry}
    (h : largestUsable es=some e) :
    e∈es ∧ e.IsUsable ∧ ∀ e'∈es, e'.IsUsable → e'.length≤e.length := by
  obtain ⟨hmem,-,hall⟩ := foldl_longer es none
  rw [largestUsable] at h
  rw [h] at hmem hall
  obtain hnone | ⟨hes,hu⟩ := hmem e rfl
  · exact absurd hnone (by simp)
  · exact ⟨hes,hu,hall⟩

structure Records (p : PmmState) (best : Option MemmapEntry) : Prop where
  length : p.maxSectionLength = best.elim 0 (·.length)
  start : p.maxSectionStartAddr = best.elim 0 (·.base)

private theorem Records.countEntry {p : PmmState} {best : Option MemmapEntry} (h : Records p best)
    (e : MemmapEntry) : Records (countEntry p e) (longer best e) := by
  obtain ⟨hlen,hstart⟩ := h
  simp only [Pmm.countEntry,longer,gt_iff_lt,hlen,← MemmapEntry.IsUsable.eq_def]
  by_cases husable : e.IsUsable
  · by_cases hlonger : best.elim 0 (·.length)<e.length
    · simp only [if_pos husable,if_pos hlonger,if_pos (And.intro husable hlonger)]
      exact ⟨rfl,rfl⟩
    · simp only [if_pos husable,if_neg hlonger,if_neg fun h : _ ∧ _ => hlonger h.2]
      exact ⟨rfl,hstart⟩
  · simp only [if_neg husable,if_neg fun h : _ ∧ _ => husable h.1]
    exact ⟨rfl,hstart⟩

private theorem Records.foldl (es : List MemmapEntry) {p : PmmState} {best : Option MemmapEntry}
    (h : Records p best) : Records (es.foldl Pmm.countEntry p) (es.foldl longer best) := by
  induction es generalizing p best with
  | nil => exact h
  | cons e es ih => exact ih (h.countEntry e)

/-- The section that `pmm_initialize` chooses: the largest one, cut off at `total_mem`. -/
structure Chosen (boot : BootInfo) (p : PmmState) : Prop where
  start : p.maxSectionStartAddr = (largestUsable boot.entries).elim 0 (·.base)
  length : p.maxSectionLength =
    let l := (largestUsable boot.entries).elim 0 (·.length)
    if p.maxSectionStartAddr + l > p.totalMem then l - (p.maxSectionStartAddr + l - p.totalMem)
    else l
  first : p.firstEarlyAllocAddr = pmmPageToAddrBase (alignToNextPage p.maxSectionStartAddr)

variable {boot : BootInfo} {before : Nat} {tables : Nat → Nat} {content : Nat → Byte}
  {p : PmmState}

theorem pmmInitialize_chosen (h : pmmInitialize boot=some p) : Chosen boot p := by
  simp only [pmmInitialize] at h
  have hnone : Records { zeroedState with
      kernelStart := boot.physicalBase
      kernelVend := pmmPageToAddrBase (alignToNextPage
        (boot.virtualBase+(boot.kernelEndVaddr-boot.kernelStartVaddr)+1))
      kernelEnd := pmmPageToAddrBase (alignToNextPage
        (boot.physicalBase+(boot.kernelEndVaddr-boot.kernelStartVaddr))) } none := ⟨rfl,rfl⟩
  obtain ⟨hlen,hstart⟩ := hnone.foldl boot.entries
  rw [← largestUsable] at hlen hstart
  split_ifs at h with habort
  obtain rfl := Option.some.inj h
  simp only [trimSection,hlen,hstart]
  split_ifs with htrim
  · exact ⟨rfl,by simp only [if_pos htrim],rfl⟩
  · exact ⟨rfl,by simp only [if_neg htrim],rfl⟩

/-- The early frames are the `n` pages from `first` on, when the bump pointer has not wrapped. -/
theorem frameAddr_mem_earlyFrames {n i : Nat}
    (hfirst : p.firstEarlyAllocAddr.toNat % 4096=0)
    (hlast : p.lastEarlyAllocAddr=p.firstEarlyAllocAddr + BitVec.ofNat 64 (n * 4096))
    (hn : p.firstEarlyAllocAddr.toNat + n * 4096<2 ^ 64) (hi : i<2 ^ 52) :
    frameAddr i∈earlyFrames p ↔
      p.firstEarlyAllocAddr.toNat / 4096 ≤ i ∧ i<p.firstEarlyAllocAddr.toNat / 4096 + n := by
  have hcount : ((p.lastEarlyAllocAddr-p.firstEarlyAllocAddr) / PAGE_SIZE).toNat=n := by
    rw [hlast,BitVec.add_comm,BitVec.add_sub_cancel]
    simp only [PAGE_SIZE,BitVec.toNat_udiv,BitVec.ofNat_eq_ofNat,BitVec.toNat_ofNat,
      Nat.reducePow,Nat.reduceMod]
    omega
  simp only [earlyFrames,hcount,List.mem_map,List.mem_range,← BitVec.toNat_inj,
    BitVec.toNat_add,BitVec.toNat_ofNat,frameAddr_toNat hi]
  constructor
  · rintro ⟨j,hj,heq⟩
    omega
  · rintro ⟨hle,hlt⟩
    exact ⟨i-p.firstEarlyAllocAddr.toNat / 4096,by omega,by omega⟩

theorem inSection_frameAddr {start length : Haddr} {i : Nat} (hi : i<2 ^ 52) :
    InSection start length (frameAddr i) ↔
      start.toNat ≤ i * 4096 ∧ (i + 1) * 4096 ≤ start.toNat + length.toNat := by
  constructor
  · rintro ⟨-,habove,hbelow⟩
    rw [frameAddr_toNat hi] at habove hbelow
    omega
  · rintro ⟨habove,hbelow⟩
    refine ⟨?_,?_,?_⟩ <;> rw [frameAddr_toNat hi] <;> omega

/-- The boot in natural numbers, for a memory map inside the physical address space. -/
structure Extent (boot : BootInfo) (before n : Nat) (e : MemmapEntry) (p : PmmState) : Prop where
  largest : largestUsable boot.entries = some e
  pages : p.totalPages.toNat = p.totalMem.toNat / 4096
  early (i : Nat) : i < 2 ^ 52 → (frameAddr i ∈ earlyFrames p ↔
    e.base.toNat / 4096 + 1 ≤ i ∧ i < e.base.toNat / 4096 + 1 + (before + n))
  clear (i : Nat) : i < p.totalPages.toNat → (bitmapGet p.bitmap i = some false ↔
    e.base.toNat / 4096 + 1 + before + p.bitmapSize.toNat / 4096 + 1 ≤ i ∧
      i ≤ min (e.base.toNat + e.length.toNat) p.totalMem.toNat / 4096 + 1)
  room : e.base.toNat / 4096 + 1 + before + p.bitmapSize.toNat / 4096 + 1 <
    min (e.base.toNat + e.length.toNat) p.totalMem.toNat / 4096

private theorem Chosen.end_eq {e : MemmapEntry} (h : Chosen boot p)
    (he : largestUsable boot.entries=some e) (hphys : e.base.toNat + e.length.toNat≤2 ^ 52) :
    (p.maxSectionStartAddr + p.maxSectionLength).toNat =
      min (e.base.toNat + e.length.toNat) p.totalMem.toNat := by
  have hstart : p.maxSectionStartAddr=e.base := by simpa [he] using h.start
  have hsum : (e.base+e.length).toNat=e.base.toNat+e.length.toNat := by
    rw [BitVec.toNat_add]
    omega
  have hlength := h.length
  simp only [he,Option.elim_some,hstart] at hlength
  rw [hstart,hlength]
  split_ifs with htrim
  · rw [gt_iff_lt,BitVec.lt_def,hsum] at htrim
    have hcut : e.base+(e.length-(e.base+e.length-p.totalMem))=p.totalMem := by
      grind
    rw [hcut,min_eq_right htrim.le]
  · rw [gt_iff_lt,BitVec.lt_def,hsum,not_lt] at htrim
    rw [hsum,min_eq_left htrim]

private theorem bootPmm_extent (hboot : bootPmm boot before tables content=some p)
    (hphys : ∀ e∈boot.entries, e.base.toNat + e.length.toNat≤2 ^ 52)
    (hearly : earlyCount before tables p≤2 ^ 40) :
    ∃ e, Extent boot before
      (framesForBitmap tables ((p.bitmapSize + PAGE_SIZE - 1) / PAGE_SIZE).toNat 1) e p := by
  obtain ⟨p₀,hinit,⟨⟨a,b,m,hp⟩,hroom,hcounts⟩⟩ := bootPmm_booted hboot
  have hchosen := pmmInitialize_chosen hinit
  have hbefore := (pmmInitialize_spec hinit).1
  have hcount : earlyCount before tables p=earlyCount before tables p₀ := by rw [hp]; rfl
  have hlast : p.lastEarlyAllocAddr=p.firstEarlyAllocAddr +
      BitVec.ofNat 64 (earlyCount before tables p * 4096) := by rw [hcount,hp]
  obtain ⟨e,he⟩ : ∃ e, largestUsable boot.entries=some e := by
    by_contra hnone
    have hnone := Option.eq_none_iff_forall_ne_some.mpr fun e he => hnone ⟨e,he⟩
    have hlength := hchosen.length
    rw [hchosen.start] at hlength hroom
    simp [hnone] at hlength hroom
    simp [hlength] at hroom
  have hlt := hphys e (largestUsable_spec he).1
  have hend := hchosen.end_eq he hlt
  have hfirst : p₀.firstEarlyAllocAddr.toNat=(e.base.toNat / 4096+1) * 4096 := by
    rw [hchosen.first,hchosen.start,he,pmmPageToAddrBase,BitVec.toNat_shiftLeft,
      alignToNextPage_toNat,Nat.shiftLeft_eq,Option.elim_some]
    omega
  have hsize : p₀.bitmapSize.toNat≤2 ^ 52 := by
    have hpages : p₀.totalPages.toNat<2 ^ 52 := by
      simp only [hbefore.pages,BitVec.toNat_ushiftRight,Nat.shiftRight_eq_div_pow]
      omega
    simp only [hbefore.size,BitVec.toNat_ofNat,bitmapStorageSize]
    omega
  have hle : before≤earlyCount before tables p := Nat.le_add_right _ _
  have hstorage : (storagePaddr before p₀+p₀.bitmapSize).toNat / 4096+1 =
      e.base.toNat / 4096+1+before+p₀.bitmapSize.toNat / 4096+1 := by
    rw [storagePaddr,BitVec.toNat_add,BitVec.toNat_add,BitVec.toNat_ofNat,hfirst]
    omega
  rw [hstorage,hend] at hroom
  refine ⟨e,he,?_,fun i hi => ?_,fun i hi => ?_,?_⟩
  · subst hp
    simp only [hbefore.pages,BitVec.toNat_ushiftRight,Nat.shiftRight_eq_div_pow]
  · have hfirst' : p.firstEarlyAllocAddr.toNat=(e.base.toNat / 4096+1) * 4096 := by
      rw [hp]
      exact hfirst
    rw [frameAddr_mem_earlyFrames (n := earlyCount before tables p) (by omega) hlast (by omega) hi,
      hfirst',earlyCount]
    omega
  · rw [hcounts.get hi,Option.some.injEq,Bool.not_eq_false',decide_eq_true_iff,Released,
      hstorage,hend]
    subst hp
    rfl
  · subst hp
    exact hroom

/-- The memory that the map describes, of any type. -/
def totalLength (boot : BootInfo) : Haddr := (boot.entries.map (·.length)).sum

/-- The bytes of a bitmap for all of that memory, and the frames taken while it is mapped. -/
def bitmapBytes (boot : BootInfo) : Haddr :=
  BitVec.ofNat 64 (bitmapStorageSize (totalLength boot >>> 12).toNat)

def bitmapFrames (boot : BootInfo) (tables : Nat → Nat) : Nat :=
  framesForBitmap tables ((bitmapBytes boot + PAGE_SIZE - 1) / PAGE_SIZE).toNat 1

private theorem foldl_totalMem (es : List MemmapEntry) (p : PmmState) :
    (es.foldl countEntry p).totalMem=p.totalMem + (es.map (·.length)).sum := by
  induction es generalizing p with
  | nil => simp
  | cons e es ih =>
    have hone : (countEntry p e).totalMem=p.totalMem+e.length := by
      rw [countEntry]
      split_ifs <;> rfl
    rw [List.foldl_cons,ih,hone,List.map_cons,List.sum_cons,BitVec.add_assoc]

private theorem pmmInitialize_totalMem (h : pmmInitialize boot=some p) :
    p.totalMem=totalLength boot := by
  simp only [pmmInitialize] at h
  split_ifs at h with habort
  obtain rfl := Option.some.inj h
  dsimp only [trimSection]
  split_ifs
  all_goals
    dsimp only
    rw [foldl_totalMem]
    exact BitVec.zero_add _

private theorem bootPmm_sizes (hboot : bootPmm boot before tables content=some p) :
    p.totalMem=totalLength boot ∧ p.bitmapSize=bitmapBytes boot := by
  obtain ⟨p₀,hinit,⟨⟨a,b,m,rfl⟩,-,-⟩⟩ := bootPmm_booted hboot
  have hbefore := (pmmInitialize_spec hinit).1
  have htotal := pmmInitialize_totalMem hinit
  refine ⟨htotal,?_⟩
  dsimp only
  rw [hbefore.size,hbefore.pages,htotal,bitmapBytes]

/-- For a memory map inside the physical address space, the clear pages lie in the largest section
and are not in use exactly when the sum of all lengths does not exceed the end of the section, in
pages, and at most one page more than the bitmap fills is taken while it is mapped. -/
theorem handsOverFreePages_iff (hboot : bootPmm boot before tables content = some p)
    (hphys : ∀ e ∈ boot.entries, e.base.toNat + e.length.toNat ≤ 2 ^ 52)
    (hearly : before + bitmapFrames boot tables ≤ 2 ^ 40) :
    HandsOverFreePages boot p ↔
      (∃ e, largestUsable boot.entries = some e ∧
        (totalLength boot).toNat / 4096 ≤ (e.base.toNat + e.length.toNat) / 4096) ∧
      bitmapFrames boot tables ≤ (bitmapBytes boot).toNat / 4096 + 1 := by
  obtain ⟨htotal,hbytes⟩ := bootPmm_sizes hboot
  rw [bitmapFrames,← hbytes] at hearly ⊢
  rw [← htotal]
  obtain ⟨e,he,hpages,hframes,hclear,hroom⟩ := bootPmm_extent hboot hphys hearly
  have hlt := hphys e (largestUsable_spec he).1
  have hmem := p.totalMem.isLt
  constructor
  · rintro ⟨e',he',h⟩
    obtain rfl := Option.some.inj (he.symm.trans he')
    refine ⟨⟨e,he,?_⟩,?_⟩
    · -- otherwise the page in which the section ends is clear
      by_contra hover
      have hin := (h ((e.base.toNat+e.length.toNat) / 4096) (by omega)
        ((hclear _ (by omega)).mpr (by omega))).1
      rw [inSection_frameAddr (by omega)] at hin
      omega
    · -- otherwise the first clear page is an early frame
      by_contra hover
      refine (h (e.base.toNat / 4096+1+before+p.bitmapSize.toNat / 4096+1) (by omega)
        ((hclear _ (by omega)).mpr (by omega))).2 ((hframes _ (by omega)).mpr (by omega))
  · rintro ⟨⟨e',he',htop⟩,htables⟩
    obtain rfl := Option.some.inj (he.symm.trans he')
    refine ⟨e,he,fun i hi hi' => ?_⟩
    rw [hclear i hi] at hi'
    rw [inSection_frameAddr (by omega),hframes i (by omega)]
    omega

theorem handsOverFreePages_of_sampleBoot :
    ∃ p, bootPmm sampleBoot 1 (fun _ => 0) (fun _ => 0) = some p ∧
      HandsOverFreePages sampleBoot p := by
  have hsome : (bootPmm sampleBoot 1 (fun _ => 0) (fun _ => 0)).isSome=true := by decide +kernel
  obtain ⟨p,hp⟩ := Option.isSome_iff_exists.mp hsome
  refine ⟨p,hp,
    (handsOverFreePages_iff hp (by decide) (by decide +kernel)).mpr ⟨?_,by decide +kernel⟩⟩
  exact show ∃ e∈largestUsable sampleBoot.entries,
    (totalLength sampleBoot).toNat / 4096≤(e.base.toNat+e.length.toNat) / 4096 by decide +kernel

/-- A usable section of eight pages and two reserved pages above it. -/
def reservedAboveBoot : BootInfo where
  kernelStartVaddr := 0
  kernelEndVaddr := 0
  physicalBase := 0
  virtualBase := 0xFFFFFFFF80000000
  entries := [⟨0, 0x8000, .usable⟩, ⟨0x8000, 0x2000, .reserved⟩]
  below_top := sampleBoot.below_top

/-- The first reserved page is clear after the boot. -/
theorem reserved_page_handed_over :
    ∃ p, bootPmm reservedAboveBoot 0 (fun _ => 0) (fun _ => 0) = some p ∧
      ¬ HandsOverFreePages reservedAboveBoot p := by
  obtain ⟨p,hp,hpages,hclear⟩ :
      ∃ p∈bootPmm reservedAboveBoot 0 (fun _ => 0) (fun _ => 0),
        8<p.totalPages.toNat ∧ bitmapGet p.bitmap 8=some false := by decide +kernel
  refine ⟨p,hp,?_⟩
  rintro ⟨e,he,h⟩
  obtain rfl : ⟨0,0x8000,.usable⟩=e := Option.some.inj he
  exact absurd (h 8 hpages hclear).1 (by decide)

end Hojicha.Pmm
