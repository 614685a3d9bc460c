import Hojicha.Hmalloc.Coalesce

/-! # `hfree` -/

namespace Hojicha.Hmalloc

open Framework List

variable {h : Heap} {xs ys : List Block} {b : Block}

def EndsOccupied (xs : List Block) : Prop := ∀ c ∈ xs.getLast?, c.free = false
def StartsOccupied (ys : List Block) : Prop := ∀ c ∈ ys.head?, c.free = false

/-- A list of blocks with `b` put between two coalesced parts that it cannot merge with. -/
theorem NoAdjacentFree.between (hx : NoAdjacentFree xs) (hy : NoAdjacentFree ys)
    (hxe : EndsOccupied xs) (hys : StartsOccupied ys) : NoAdjacentFree (xs++b::ys) := by
  refine isChain_append.mpr ⟨hx,isChain_cons.mpr ⟨?_,hy⟩,?_⟩
  · intro c hc hbc
    simp [hys c hc] at hbc
  · intro c hc d _ hcd
    simp [hxe c hc] at hcd

theorem NoAdjacentFree.parts (hbs : NoAdjacentFree (xs++b::ys)) :
    NoAdjacentFree xs ∧ NoAdjacentFree ys :=
  ⟨(isChain_append.mp hbs).1,(isChain_cons.mp (isChain_append.mp hbs).2.1).2⟩

theorem markFree_detached (hw : WellFormed h (xs++b::ys)) (hb : b.free=false) :
    Detached ((h.setIsFree b.addr true).setNext b.addr 0) xs { b with free := true } ys ∧
      SameRegion h ((h.setIsFree b.addr true).setNext b.addr 0) ∧
      (∀ d∈xs++ys, Untouched h ((h.setIsFree b.addr true).setNext b.addr 0) d) ∧
      Coarsens h ((h.setIsFree b.addr true).setNext b.addr 0)
        (xs ++ { b with free := true } :: ys) (xs ++ { b with free := true } :: ys) := by
  obtain ⟨hl1,hu1⟩ := setIsFree_layout hw.layout true
  obtain ⟨hl2,hu2⟩ := setNext_layout (b := { b with free := true }) hl1 (by simp) 0
  have hfl : FreeList h (freeAddrs xs++freeAddrs ys) := by
    simpa [freeAddrs_cons,hb] using hw.freeList
  have har := (Detached.mk hw.layout hfl).around
  have hfl1 := hfl.setIsFree (a := b.addr) true fun c hc =>
    .inr ((mem_append.mp hc).imp (har.before c) (har.behind c))
  refine ⟨⟨hl2,hfl1.setNext_off har 0⟩,
    (setIsFree_region h b.addr true).trans (setNext_region _ b.addr 0),fun d hd => ?_,?_⟩
  · refine (hu1 d hd).trans (hu2 d ?_)
    simp only [mem_append,mem_cons] at hd ⊢
    tauto
  · apply coarsens_of_agree
    refine ((setIsFree_agree h b.addr true).mono ?_).trans
      ((setNext_agree _ 0 (mem_singleton_self b.addr)).mono ?_)
    · rintro x rfl
      exact ⟨{ b with free := true },by simp,.inl ⟨le_refl _,Nat.lt_add_of_pos_right (by decide)⟩⟩
    · intro x hx
      refine bookkeeping_of_link (fun a ha => ⟨{ b with free := true },by simp,?_⟩) hx
      exact (mem_singleton.mp ha).symm

/-- What a merging step of `hfree` leaves of the blocks `zs` on the side it works on. -/
structure Kept (h h' : Heap) (zs zs' others : List Block) : Prop where
  coalesced : NoAdjacentFree zs'
  live : liveBlocks zs' = liveBlocks zs
  sub : zs' ⊆ zs
  region : SameRegion h h'
  untouched : ∀ d ∈ others, Untouched h h' d

theorem Kept.refl {zs : List Block} (hz : NoAdjacentFree zs) (others : List Block) :
    Kept h h zs zs others :=
  ⟨hz,rfl,List.Subset.refl zs,.refl h,fun d _ => .refl h d⟩

theorem mergeIntoPrevious_spec (hd : Detached h xs b ys) (hb : b.free=true)
    (hx : NoAdjacentFree xs) :
    ∃ h' xs' b', mergeIntoPrevious b.addr h=some (b'.addr, h') ∧ Detached h' xs' b' ys ∧
      b'.free=true ∧ EndsOccupied xs' ∧ Kept h h' xs xs' (xs'++ys) ∧
      Coarsens h h' (xs++b::ys) (xs'++b'::ys) := by
  rcases eq_nil_or_concat' xs with rfl | ⟨xs,c,rfl⟩
  · refine ⟨h,[],b,?_,hd,hb,by simp [EndsOccupied],.refl hx _,.refl h _⟩
    have hprev := getPrevious_first hd.layout
    simp [mergeIntoPrevious,hprev]
  · have hl : Layout h (xs++c::b::ys) := by simpa using hd.layout
    have hprev := getPrevious_behind hl
    have hcf := (hl.stored c (by simp)).isFree
    have hc0 : c.addr≠0 := by
      have hin := hl.bounds
      have hpos := hl.start_pos
      omega
    cases hc : c.free with
    | false =>
      rw [hc] at hcf
      refine ⟨h,xs++[c],b,?_,hd,hb,by simp [EndsOccupied,hc],.refl hx _,.refl h _⟩
      simp [mergeIntoPrevious,hprev,hcf]
    | true =>
      obtain ⟨h',hrun,hd',hsame,hu,hco⟩ := hd.absorbed hc
      rw [hc] at hcf
      obtain ⟨hx1,-,hx2⟩ := isChain_append.mp hx
      refine ⟨_,xs,_,?_,hd',rfl,?_,⟨hx1,?_,?_,hsame,hu⟩,by simpa using hco⟩
      · simp [mergeIntoPrevious,hprev,hcf,hc0,hrun]
      · intro d hd
        simpa [hc] using hx2 d hd c (by simp)
      · simp [liveBlocks,hc]
      · simp

theorem mergeNextInto_spec (hd : Detached h xs b ys) (hb : b.free=true)
    (hy : NoAdjacentFree ys) :
    ∃ h' ys' b', mergeNextInto b.addr h=some h' ∧ b'.addr=b.addr ∧ Detached h' xs b' ys' ∧
      b'.free=true ∧ StartsOccupied ys' ∧ Kept h h' ys ys' (xs++ys') ∧
      Coarsens h h' (xs++b::ys) (xs++b'::ys') := by
  cases ys with
  | nil =>
    refine ⟨h,[],b,?_,rfl,hd,hb,by simp [StartsOccupied],.refl hy _,.refl h _⟩
    have hnext := getNext_last hd.layout
    simp [mergeNextInto,hnext]
  | cons c ys =>
    have hnext := getNext_front hd.layout
    have hcf := (hd.layout.stored c (by simp)).isFree
    have hc0 : c.addr≠0 := by
      have hlt := hd.layout.behind (mem_cons_self (a := c) (l := ys))
      unfold Block.stop at hlt
      omega
    cases hc : c.free with
    | false =>
      rw [hc] at hcf
      refine ⟨h,c::ys,b,?_,rfl,hd,hb,by simp [StartsOccupied,hc],.refl hy _,.refl h _⟩
      simp [mergeNextInto,hnext,hcf]
    | true =>
      obtain ⟨h',hrun,hd',hsame,hu,hco⟩ := hd.absorbs hc hb
      rw [hc] at hcf
      obtain ⟨hy1,hy2⟩ := isChain_cons.mp hy
      refine ⟨_,ys,⟨b.addr,_,true⟩,?_,rfl,hd',rfl,?_,⟨hy2,?_,?_,hsame,hu⟩,hco⟩
      · simp [mergeNextInto,hnext,hcf,hc0,hrun]
      · intro d hd
        simpa [hc] using hy1 d hd
      · simp [liveBlocks,hc]
      · simp

/-- An occupied block passes the checks of the calls that are given its payload. -/
theorem Layout.checks (hl : Layout h (xs++b::ys)) (hb : b.free=false) :
    b.payload≠0 ∧ wrapSub b.payload SIZEOF_HEADER=b.addr ∧ ¬b.addr<h.firstAvailableVaddr ∧
      ¬h.lastFooter≤b.addr ∧ h.header (h.footer b.addr)=b.addr ∧ h.isFree b.addr=false := by
  have hin := hl.bounds
  have hpos := hl.start_pos
  have htop := hl.top
  have hst := hl.stored b (by simp)
  have hfooter := hl.footer_in_heap
  unfold Block.stop at hin
  refine ⟨?_,?_,by omega,by omega,by rw [hst.footer,hst.header],by rw [hst.isFree,hb]⟩
  · unfold Block.payload
    omega
  · unfold wrapSub wrap SIZEOF_HEADER Block.payload
    omega

private theorem hfree_of_occupied (hl : Layout h (xs++b::ys)) (hb : b.free=false) :
    hfree b.payload h =
      (mergeIntoPrevious b.addr ((h.setIsFree b.addr true).setNext b.addr 0)).bind fun r =>
        (mergeNextInto r.1 r.2).bind fun h => insertFreeBlock r.1 h := by
  obtain ⟨hpay,hsub,hlo,hhi,hback,hflag⟩ := hl.checks hb
  simp [hfree,hpay,hl.initialized,hsub,hlo,hhi,hl.footer_in_heap,hback,hflag]

theorem hfree_spec (hw : WellFormed h (xs++b::ys)) (hb : b.free=false) :
    ∃ h' bs', hfree b.payload h=some h' ∧ WellFormed h' bs' ∧
      liveBlocks bs'=liveBlocks (xs++ys) ∧ SameRegion h h' ∧
      (∀ d∈liveBlocks (xs++ys), Untouched h h' d) ∧
      Coarsens h h' (xs ++ { b with free := true } :: ys) bs' := by
  obtain ⟨hd1,hsame1,hu1,hco1⟩ := markFree_detached hw hb
  obtain ⟨hx,hy⟩ := hw.coalesced.parts
  obtain ⟨h2,xs',b2,hrun2,hd2,hb2,hend,hk2,hco2⟩ := mergeIntoPrevious_spec hd1 rfl hx
  obtain ⟨h3,ys',b3,hrun3,haddr,hd3,hb3,hstart,hk3,hco3⟩ := mergeNextInto_spec hd2 hb2 hy
  obtain ⟨h4,hrun4,hl4,hfl4,hsame4,hu4,hco4⟩ := hd3.insert
  have hlive : liveBlocks (xs'++ys')=liveBlocks (xs++ys) := by
    simp [hk2.live,hk3.live]
  refine ⟨h4,xs' ++ { b3 with free := true } :: ys',?_,
    ⟨by simp,hl4,hfl4,hk2.coalesced.between hk3.coalesced hend hstart⟩,?_,
    hsame1.trans (hk2.region.trans (hk3.region.trans hsame4)),?_,?_⟩
  · rw [hfree_of_occupied hw.layout hb,hrun2,Option.bind_some,hrun3,Option.bind_some,← haddr,hrun4]
  · simpa [liveBlocks_cons] using hlive
  · intro d hd
    have hmem : d∈xs'++ys' := by
      rw [← hlive] at hd
      exact mem_of_mem_filter hd
    have hmem2 : d∈xs'++ys := by
      simp only [mem_append] at hmem ⊢
      exact hmem.imp_right fun h => hk3.sub h
    have hmem1 : d∈xs++ys := by
      simp only [mem_append] at hmem2 ⊢
      exact hmem2.imp_left fun h => hk2.sub h
    exact (hu1 d hmem1).trans ((hk2.untouched d hmem2).trans
      ((hk3.untouched d hmem).trans (hu4 d hmem)))
  · exact ((hco1.trans hco2 hd1.layout.tiles).trans hco3 hd2.layout.tiles).trans hco4
      hd3.layout.tiles

end Hojicha.Hmalloc
