import Hojicha.Pmm.Frames

/-! # The state after `pmm_initialize_bitmap` -/

namespace Hojicha.Pmm

open Utils
open BitVec (ofNat_add ofNat_eq_ofNat toNat_add toNat_ofNat)

/-- What the loop over the memory map and the early allocations leave alone. -/
structure BeforeBitmap (boot : BootInfo) (p : PmmState) : Prop where
  mode : p.memmapIsInitialized = false
  free : p.freePages = 0
  pages : p.totalPages = p.totalMem >>> 12
  size : p.bitmapSize = BitVec.ofNat 64 (bitmapStorageSize p.totalPages.toNat)
  vend : p.kernelVend = pmmPageToAddrBase (alignToNextPage
    (boot.virtualBase + (boot.kernelEndVaddr - boot.kernelStartVaddr) + 1))

variable {boot : BootInfo} {p p' : PmmState} {tables : Nat → Nat} {before : Nat}
  {content : Nat → Byte}

private theorem countEntry_spec (es : List MemmapEntry) (p : PmmState) :
    ∃ m l s, es.foldl countEntry p =
      { p with totalMem := m, maxSectionLength := l, maxSectionStartAddr := s } := by
  induction es generalizing p with
  | nil => exact ⟨_,_,_,rfl⟩
  | cons e es ih =>
    obtain ⟨m,l,s,hes⟩ := ih (countEntry p e)
    refine ⟨m,l,s,hes.trans ?_⟩
    simp only [countEntry]
    split_ifs <;> rfl

private theorem trimSection_spec (p : PmmState) :
    ∃ l, trimSection p = { p with maxSectionLength := l } := by
  simp only [trimSection]
  split_ifs
  · exact ⟨_,rfl⟩
  · exact ⟨_,rfl⟩

theorem pmmInitialize_spec (h : pmmInitialize boot=some p) :
    BeforeBitmap boot p ∧ p.lastEarlyAllocAddr=p.firstEarlyAllocAddr := by
  simp only [pmmInitialize] at h
  obtain ⟨m,l,s,hfold⟩ := countEntry_spec boot.entries { zeroedState with
    kernelStart := boot.physicalBase
    kernelVend := pmmPageToAddrBase (alignToNextPage
      (boot.virtualBase+(boot.kernelEndVaddr-boot.kernelStartVaddr)+1))
    kernelEnd := pmmPageToAddrBase (alignToNextPage
      (boot.physicalBase+(boot.kernelEndVaddr-boot.kernelStartVaddr))) }
  rw [hfold] at h
  split_ifs at h with habort
  obtain ⟨l',htrim⟩ := trimSection_spec
    { zeroedState with
      kernelStart := boot.physicalBase
      kernelVend := pmmPageToAddrBase (alignToNextPage
        (boot.virtualBase+(boot.kernelEndVaddr-boot.kernelStartVaddr)+1))
      kernelEnd := pmmPageToAddrBase (alignToNextPage
        (boot.physicalBase+(boot.kernelEndVaddr-boot.kernelStartVaddr)))
      totalMem := m
      maxSectionLength := l
      maxSectionStartAddr := s
      totalPages := m >>> 12
      bitmapSize := BitVec.ofNat 64 (bitmapStorageSize (m >>> 12).toNat) }
  simp only [htrim,Option.some.injEq] at h
  subst h
  exact ⟨⟨rfl,rfl,rfl,rfl,rfl⟩,rfl⟩

def PmmState.setLast (p : PmmState) (a : Haddr) : PmmState := { p with lastEarlyAllocAddr := a }

@[simp]
theorem setLast_earlyAlloc (p : PmmState) (a : Haddr) :
    (earlyAlloc p).2.setLast a=p.setLast a := by
  simp only [PmmState.setLast,earlyAlloc]

@[simp]
theorem setLast_setLast (p : PmmState) (a a' : Haddr) :
    (p.setLast a).setLast a'=p.setLast a' := rfl

theorem BeforeBitmap.setLast (h : BeforeBitmap boot p) (a : Haddr) :
    BeforeBitmap boot (p.setLast a) :=
  ⟨h.mode,h.free,h.pages,h.size,h.vend⟩

theorem earlyAllocs_eq (n : Nat) (p : PmmState) :
    earlyAllocs n p=p.setLast (p.lastEarlyAllocAddr + BitVec.ofNat 64 (n * 4096)) := by
  induction n generalizing p with
  | zero => simp [earlyAllocs,PmmState.setLast]
  | succ n ih =>
    rw [earlyAllocs,ih,setLast_earlyAlloc]
    simp only [earlyAlloc,PAGE_SIZE,Nat.succ_mul,Nat.add_comm (n * 4096),ofNat_add,
      BitVec.add_assoc,ofNat_eq_ofNat]

def framesForBitmap (tables : Nat → Nat) (n i : Nat) : Nat :=
  n + ∑ j ∈ Finset.range n, tables (i + j)

theorem mapBitmapPages_snd (tables : Nat → Nat) (n i : Nat) (paddr : Option Haddr)
    (p : PmmState) :
    (mapBitmapPages tables n i paddr p).2 =
      p.setLast (p.lastEarlyAllocAddr + BitVec.ofNat 64 (framesForBitmap tables n i * 4096)) := by
  induction n generalizing i paddr p with
  | zero => simp [mapBitmapPages,framesForBitmap,PmmState.setLast]
  | succ n ih =>
    have hcount : framesForBitmap tables (n+1) i * 4096 =
        4096+(tables i * 4096+framesForBitmap tables n (i+1) * 4096) := by
      simp only [framesForBitmap,Finset.sum_range_succ',Nat.add_zero,Nat.add_right_comm i 1,
        ← Nat.add_assoc i]
      ring
    rw [mapBitmapPages,ih,earlyAllocs_eq,setLast_earlyAlloc,setLast_setLast,hcount,
      ofNat_add,ofNat_add]
    simp only [PmmState.setLast,earlyAlloc,PAGE_SIZE,BitVec.add_assoc,ofNat_eq_ofNat]

private theorem mapBitmapPages_fst_of_lt (tables : Nat → Nat) (n : Nat) {i : Nat} (hi : 1 < i)
    (paddr : Option Haddr) (p : PmmState) : (mapBitmapPages tables n i paddr p).1=paddr := by
  induction n generalizing i paddr p with
  | zero => rfl
  | succ n ih => rw [mapBitmapPages,ih (by omega),if_neg (by omega)]

theorem mapBitmapPages_fst {n : Nat} {bitmapPaddr : Haddr}
    (h : (mapBitmapPages tables n 1 none p).1=some bitmapPaddr) :
    bitmapPaddr=p.lastEarlyAllocAddr := by
  cases n with
  | zero => exact absurd h (by simp [mapBitmapPages])
  | succ n =>
    rw [mapBitmapPages,mapBitmapPages_fst_of_lt tables n (by decide),if_pos rfl] at h
    exact (Option.some.inj h).symm

private theorem kernelVend_add_ne_zero (boot : BootInfo) :
    pmmPageToAddrBase (alignToNextPage
      (boot.virtualBase + (boot.kernelEndVaddr - boot.kernelStartVaddr) + 1)) + PAGE_SIZE≠NULL := by
  have hbelow := boot.below_top
  obtain ⟨k,hk⟩ : ∃ k, boot.kernelEndVaddr-boot.kernelStartVaddr=k := ⟨_,rfl⟩
  rw [hk] at hbelow ⊢
  intro h
  have h' := congrArg BitVec.toNat h
  simp only [pmmPageToAddrBase,alignToNextPage,PAGE_SIZE,NULL,toNat_add,
    BitVec.toNat_shiftLeft,BitVec.toNat_ushiftRight,Nat.shiftLeft_eq,Nat.shiftRight_eq_div_pow,
    ofNat_eq_ofNat,toNat_ofNat] at h'
  omega

private theorem clearPages_spec (n : Nat) {i : Haddr} {used : Nat → Bool}
    (hn : i.toNat + n<2 ^ 64) (h : Counts p used) :
    ∃ b m, clearPages n i p=some { p with bitmap := b, freePages := m } ∧
      Counts { p with bitmap := b, freePages := m }
        fun j => used j && !decide (i.toNat≤j ∧ j < i.toNat + n) := by
  induction n generalizing i p used with
  | zero => exact ⟨_,_,rfl,h.congr fun j _ => by simp [lt_or_ge]⟩
  | succ n ih =>
    obtain ⟨b,m,hclear,hcounts⟩ := clearPage_spec h i
    have hnext : (i+1).toNat=i.toNat+1 := by
      rw [toNat_add]
      exact Nat.mod_eq_of_lt (by simp; omega)
    obtain ⟨b',m',hrest,hcounts'⟩ := ih (i := i+1) (by omega) hcounts
    refine ⟨b',m',by rw [clearPages,hclear]; exact hrest,hcounts'.congr fun j _ => ?_⟩
    rw [hnext]
    by_cases hj : j=i.toNat
    · simp [hj]
    · rw [Function.update_of_ne hj]
      congr 2
      exact decide_eq_decide.mpr (by omega)

theorem initBitmap_spec (content : Nat → Byte) (hb : BeforeBitmap boot p) :
    ∃ a b, initBitmap content p=some { p with memBitmap := a, bitmap := b } ∧
      Counts { p with memBitmap := a, bitmap := b } fun _ => true := by
  have hpages : p.totalPages.toNat<2 ^ 52 := by
    simp only [hb.pages,BitVec.toNat_ushiftRight,Nat.shiftRight_eq_div_pow]
    omega
  have hstorage : bitmapStorageSize p.totalPages.toNat ≤
      ((List.range p.bitmapSize.toNat).map content).length := by
    simp only [List.length_map,List.length_range,hb.size,toNat_ofNat,bitmapStorageSize]
    omega
  have hmapped : p.kernelVend+PAGE_SIZE≠NULL := hb.vend ▸ kernelVend_add_ne_zero boot
  obtain ⟨b,hinit,hcount,hshows⟩ := bitmapInit_spec (by omega) hstorage true
  refine ⟨p.kernelVend+PAGE_SIZE,b,?_,hshows,hcount,hpages,?_⟩
  · simp only [initBitmap,if_neg hmapped,hinit,Option.bind_eq_bind,Option.bind_some]
    rfl
  · simp [hb.free,clearSet]

theorem alignToNextPage_toNat (x : Haddr) : (alignToNextPage x).toNat=x.toNat / 4096 + 1 := by
  simp only [alignToNextPage,toNat_add,BitVec.toNat_ushiftRight,
    Nat.shiftRight_eq_div_pow,ofNat_eq_ofNat,toNat_ofNat]
  omega

/-- The pages that `pmm_initialize_bitmap` releases. The bound of its loop is inclusive. -/
def Released (p : PmmState) (bitmapPaddr : Haddr) (i : Nat) : Prop :=
  (bitmapPaddr + p.bitmapSize).toNat / 4096 + 1 ≤ i ∧
    i ≤ (p.maxSectionStartAddr + p.maxSectionLength).toNat / 4096 + 1

instance (p : PmmState) (bitmapPaddr : Haddr) (i : Nat) : Decidable (Released p bitmapPaddr i) :=
  inferInstanceAs (Decidable (_ ∧ _))

theorem releaseSection_spec {bitmapPaddr : Haddr} (hall : Counts p fun _ => true)
    (h : releaseSection bitmapPaddr p=some p') :
    (bitmapPaddr + p.bitmapSize).toNat / 4096 + 1 <
        (p.maxSectionStartAddr + p.maxSectionLength).toNat / 4096 ∧
      ∃ b m, p' = { p with bitmap := b, freePages := m } ∧
        Counts p' fun i => !decide (Released p bitmapPaddr i) := by
  simp only [releaseSection] at h
  split_ifs at h with hroom
  have hroom' : (bitmapPaddr+p.bitmapSize).toNat / 4096+1 <
      (p.maxSectionStartAddr+p.maxSectionLength).toNat / 4096 := by
    simpa [BitVec.le_def,alignToNextPage_toNat,alignToPrevPage,Nat.shiftRight_eq_div_pow]
      using hroom
  obtain ⟨x,hx⟩ : ∃ x, bitmapPaddr+p.bitmapSize=x := ⟨_,rfl⟩
  obtain ⟨y,hy⟩ : ∃ y, p.maxSectionStartAddr+p.maxSectionLength=y := ⟨_,rfl⟩
  rw [hx,hy] at h hroom'
  have hylt := y.isLt
  obtain ⟨b,m,hclear,hcounts⟩ := clearPages_spec
    ((alignToNextPage y).toNat+1-(alignToNextPage x).toNat) (i := alignToNextPage x)
    (by simp only [alignToNextPage_toNat]; omega) hall
  obtain rfl := Option.some.inj (hclear.symm.trans h)
  refine ⟨by rwa [hx,hy],b,m,rfl,hcounts.congr fun j _ => ?_⟩
  simp only [Bool.true_and,Released,hx,hy,alignToNextPage_toNat]
  congr 1
  exact decide_eq_decide.mpr (by omega)

def earlyCount (before : Nat) (tables : Nat → Nat) (p : PmmState) : Nat :=
  before + framesForBitmap tables ((p.bitmapSize + PAGE_SIZE - 1) / PAGE_SIZE).toNat 1

def storagePaddr (before : Nat) (p : PmmState) : Haddr :=
  p.firstEarlyAllocAddr + BitVec.ofNat 64 (before * 4096)

structure Booted (before : Nat) (tables : Nat → Nat) (p p' : PmmState) : Prop where
  eq : ∃ a b m, p' = { p with
    lastEarlyAllocAddr := p.firstEarlyAllocAddr + BitVec.ofNat 64 (earlyCount before tables p * 4096)
    memBitmap := a, bitmap := b, freePages := m }
  room : (storagePaddr before p + p.bitmapSize).toNat / 4096 + 1 <
    (p.maxSectionStartAddr + p.maxSectionLength).toNat / 4096
  counts : Counts p' fun i => !decide (Released p (storagePaddr before p) i)

theorem pmmInitializeBitmap_spec
    (hb : BeforeBitmap boot p) (hfirst : p.lastEarlyAllocAddr=p.firstEarlyAllocAddr)
    (h : pmmInitializeBitmap tables content (earlyAllocs before p)=some p') :
    Booted before tables p p' := by
  rw [earlyAllocs_eq,hfirst] at h
  simp only [pmmInitializeBitmap] at h
  obtain ⟨q,hq⟩ : ∃ q, p.setLast (p.firstEarlyAllocAddr+BitVec.ofNat 64 (before * 4096))=q :=
    ⟨_,rfl⟩
  rw [hq] at h
  have hlast : q.lastEarlyAllocAddr=storagePaddr before p := by
    rw [← hq]
    rfl
  rw [mapBitmapPages_snd,hlast] at h
  obtain ⟨m,b,hinit,hall⟩ := initBitmap_spec content ((hq ▸ hb.setLast _).setLast
    (storagePaddr before p+BitVec.ofNat 64 (framesForBitmap tables
      ((q.bitmapSize+PAGE_SIZE-1) / PAGE_SIZE).toNat 1 * 4096)))
  rw [hinit,Option.bind_eq_bind,Option.bind_some] at h
  obtain ⟨bitmapPaddr,hpaddr,h⟩ := Option.bind_eq_some_iff.mp h
  obtain rfl := (mapBitmapPages_fst hpaddr).trans hlast
  obtain ⟨hroom,b',m',rfl,hcounts⟩ := releaseSection_spec hall h
  subst hq
  refine ⟨⟨m,b',m',?_⟩,hroom,hcounts⟩
  simp only [PmmState.setLast,earlyCount,storagePaddr,Nat.add_mul,ofNat_add,BitVec.add_assoc]

theorem bootPmm_booted
    (h : bootPmm boot before tables content=some p') :
    ∃ p, pmmInitialize boot=some p ∧ Booted before tables p p' := by
  obtain ⟨p,hinit,h⟩ := Option.bind_eq_some_iff.mp h
  exact ⟨p,hinit,pmmInitializeBitmap_spec (pmmInitialize_spec hinit).1
    (pmmInitialize_spec hinit).2 h⟩

theorem bootPmm_spec
    (h : bootPmm boot before tables content=some p) :
    ∃ used, Counts p used ∧ used 0=true ∧ p.memmapIsInitialized=false := by
  obtain ⟨p₀,hinit,⟨⟨a,b,m,rfl⟩,-,hcounts⟩⟩ := bootPmm_booted h
  exact ⟨_,hcounts,by simp [Released],(pmmInitialize_spec hinit).1.mode⟩

end Hojicha.Pmm
