import Hojicha.Hmalloc.Free

/-! # `occupy_block` -/

namespace Hojicha.Hmalloc

open Framework List

variable {h : Heap} {xs ys : List Block} {b : Block} {size : Nat}

/-- What `occupy_block` turns the free block `b` into: the occupied block and what is left over. -/
structure Occupied (b : Block) (size : Nat) (b' : Block) (rest : List Block) : Prop where
  addr : b'.addr = b.addr
  occupied : b'.free = false
  room : size ≤ b'.size
  inside : b'.stop ≤ b.stop
  leftover : rest = [] ∨ ∃ c, rest = [c] ∧ c.free = true

theorem Occupied.live {b' : Block} {rest : List Block} (ho : Occupied b size b' rest) :
    liveBlocks rest=[] := by
  rcases ho.leftover with rfl | ⟨c,rfl,hc⟩
  · rfl
  · simp [liveBlocks,hc]

theorem Occupied.coalesced {b' : Block} {rest : List Block} (ho : Occupied b size b' rest)
    (hb : b.free=true) (hbs : NoAdjacentFree (xs++b::ys)) :
    NoAdjacentFree (xs++b'::rest++ys) := by
  obtain ⟨hx,hby,-⟩ := isChain_append.mp hbs
  obtain ⟨hstart,hy⟩ := isChain_cons.mp hby
  have hrest : NoAdjacentFree (rest++ys) := by
    rcases ho.leftover with rfl | ⟨c,rfl,hc⟩
    · exact hy
    · refine isChain_cons.mpr ⟨fun d hd hcd => ?_,hy⟩
      exact hstart d hd ⟨hb,hcd.2⟩
  have hall : NoAdjacentFree (xs++b'::(rest++ys)) := by
    refine isChain_append.mpr ⟨hx,isChain_cons.mpr ⟨?_,hrest⟩,?_⟩
    · intro c _ hbc
      simp [ho.occupied] at hbc
    · intro c _ d hd hcd
      simp only [head?_cons,Option.mem_some_iff] at hd
      simp [← hd,ho.occupied] at hcd
  simpa using hall

section

variable (hl : Layout h (xs ++ b :: ys)) (hfl : FreeList h (freeAddrs xs ++ b.addr :: freeAddrs ys))
include hl hfl

private theorem unlist_detached :
    ∃ h', removeFromFreeList b.addr h=some h' ∧ Detached (h'.setNext b.addr 0) xs b ys ∧
      SameRegion h (h'.setNext b.addr 0) ∧
      ∀ d∈xs++ys, Untouched h (h'.setNext b.addr 0) d := by
  obtain ⟨h',hrun,hl',hfl',hsame,hu,-⟩ := removeFromFreeList_layout hl hfl (by simp) fun a ha => by
    obtain ⟨d,hd,rfl⟩ := mem_block_of_mem_freeAddrs ha
    exact ⟨d,by simp [hd],rfl⟩
  obtain ⟨hl2,hu2⟩ := setNext_layout (b := b) hl' (by simp) 0
  refine ⟨h',hrun,⟨hl2,hfl'.setNext_off (Detached.mk hl' hfl').around 0⟩,
    hsame.trans (setNext_region _ _ _),fun d hd => ?_⟩
  have hd' : d∈xs++b::ys := by
    simp only [mem_append,mem_cons] at hd ⊢
    tauto
  exact (hu d hd').trans (hu2 d hd')

private theorem splitRegion_layout (hroom : size + 33<b.size) :
    (splitRegion b.addr size h).1=b.addr + 33 + size ∧
      let h' := (splitRegion b.addr size h).2.setSizeBytes b.addr size
      Layout h' (xs++⟨b.addr, size, b.free⟩ ::
          ⟨b.addr + 33 + size, b.size - size - 33, true⟩::ys) ∧
        FreeList h' (freeAddrs xs++b.addr::freeAddrs ys) ∧ SameRegion h h' ∧
        ∀ d∈xs++ys, Untouched h h' d := by
  have htop : b.stop≤2 ^ 64 := hl.bounds.2.trans hl.top
  obtain ⟨haddr,hfront,hback,hnext,hsame,hfr,hag⟩ :=
    splitRegion_spec (hl.stored b (by simp)) hroom htop
  refine ⟨haddr,?_⟩
  obtain ⟨h',hh'⟩ : ∃ h', (splitRegion b.addr size h).2.setSizeBytes b.addr size=h' := ⟨_,rfl⟩
  simp only [hh'] at hfront hback hnext hsame hfr hag ⊢
  have hl1 : Layout h (xs++[b]++ys) := by simpa using hl
  have hu : ∀ d∈xs++ys, Untouched h h' d :=
    hl1.untouched_around [] hag (fun x hx => .inl ⟨b,by simp,hx⟩) (by simp)
  refine ⟨?_,⟨?_,hfl.sorted,hsame.last ▸ hfl.inside⟩,hsame,hu⟩
  · suffices hl2 : Layout h' (xs++[⟨b.addr,size,b.free⟩,
        ⟨b.addr+33+size,b.size-size-33,true⟩]++ys) by simpa using hl2
    refine hl1.replace hsame ?_ (by simpa using ⟨hfront,hback⟩) hu
    rintro s e ⟨hs,he⟩
    simp only [tiles_nil,Block.stop] at he
    refine ⟨hs,rfl,?_⟩
    simp only [tiles_nil,Block.stop]
    omega
  · rw [hfr]
    refine hfl.links.congr fun a ha => ?_
    simp only [mem_append,mem_cons] at ha
    rcases ha with ha | rfl | ha
    · obtain ⟨d,hd,rfl⟩ := mem_block_of_mem_freeAddrs ha
      have hlt := hl.before hd
      unfold Block.stop at hlt
      refine next_of_agree hag _ fun x hx hx' => ?_
      unfold InRange at hx hx'
      omega
    · exact hnext
    · obtain ⟨d,hd,rfl⟩ := mem_block_of_mem_freeAddrs ha
      have hlt := hl.behind hd
      unfold Block.stop at hlt
      refine next_of_agree hag _ fun x hx hx' => ?_
      unfold InRange at hx hx'
      omega

end

private theorem relist_layout {c : Block} (hl : Layout h (xs++b::c::ys))
    (hfl : FreeList h (freeAddrs xs++b.addr::freeAddrs ys)) :
    ∃ h', replaceFreeListBlock b.addr c.addr h=some h' ∧
      Layout (h'.setNext b.addr 0) (xs++b::c::ys) ∧
      FreeList (h'.setNext b.addr 0) (freeAddrs xs++c.addr::freeAddrs ys) ∧
      SameRegion h (h'.setNext b.addr 0) ∧
      ∀ d∈xs++ys, Untouched h (h'.setNext b.addr 0) d := by
  have hbc : b.stop≤c.addr := hl.behind (by simp)
  have hl' : Layout h ((xs++[b])++c::ys) := by simpa using hl
  have hin := hl'.bounds
  have htop := hl.top
  have hgs : ∀ a∈freeAddrs ys, c.addr+33≤a := by
    intro a ha
    obtain ⟨d,hd,rfl⟩ := mem_block_of_mem_freeAddrs ha
    have hlt := hl'.behind hd
    unfold Block.stop at hlt
    omega
  unfold Block.stop at hbc hin
  obtain ⟨h',hrun,hfl',hsame,hag⟩ :=
    replaceFreeListBlock_spec hfl (by omega) hgs (by omega) (by omega)
  have hcs : ∀ a∈c.addr::b.addr::freeAddrs xs, ∃ d∈xs++b::c::ys, d.addr=a := by
    intro a ha
    simp only [mem_cons] at ha
    rcases ha with rfl | rfl | ha
    · exact ⟨c,by simp,rfl⟩
    · exact ⟨b,by simp,rfl⟩
    · obtain ⟨d,hd,rfl⟩ := mem_block_of_mem_freeAddrs ha
      exact ⟨d,by simp [hd],rfl⟩
  have hu : ∀ d∈xs++b::c::ys, Untouched h h' d := fun d hd =>
    untouched_of_links hl.tiles hag hcs hd
  obtain ⟨hl2,hu2⟩ := setNext_layout (b := b) (hl.of_untouched hsame hu) (by simp) 0
  have har : Around (freeAddrs xs) b.addr (c.addr::freeAddrs ys) := by
    constructor
    · intro a ha
      obtain ⟨d,hd,rfl⟩ := mem_block_of_mem_freeAddrs ha
      have hlt := hl.before hd
      unfold Block.stop at hlt
      omega
    · intro a ha
      rcases mem_cons.mp ha with rfl | ha
      · omega
      · have hlt := hgs a ha
        omega
  refine ⟨h',hrun,hl2,hfl'.setNext_off har 0,hsame.trans (setNext_region _ _ _),?_⟩
  intro d hd
  have hd' : d∈xs++b::c::ys := by
    simp only [mem_append,mem_cons] at hd ⊢
    tauto
  exact (hu d hd').trans (hu2 d hd')

theorem occupyBlock_spec (hw : WellFormed h (xs++b::ys)) (hb : b.free=true)
    (hroom : size≤b.size) :
    ∃ h' b' rest, occupyBlock b.addr size h=some h' ∧ Occupied b size b' rest ∧
      WellFormed h' (xs++b'::rest++ys) ∧ SameRegion h h' ∧
      ∀ d∈xs++ys, Untouched h h' d := by
  have hin := hw.layout.bounds
  have hpos := hw.layout.start_pos
  have htop := hw.layout.top
  obtain ⟨hl1,hu1⟩ := setIsFree_layout hw.layout false
  have hfl : FreeList h (freeAddrs xs++b.addr::freeAddrs ys) := by
    simpa [freeAddrs_cons,hb] using hw.freeList
  have hfl1 := hfl.setIsFree false (hfl.apart_node)
  have hsame1 := setIsFree_region h b.addr false
  have hsize : (h.setIsFree b.addr false).sizeBytes b.addr=b.size :=
    (hl1.stored { b with free := false } (by simp)).sizeBytes
  unfold Block.stop at hin
  have hneeded : wrap (size+SIZEOF_HEADER+SIZEOF_FOOTER)=size+33 := by
    unfold wrap SIZEOF_HEADER SIZEOF_FOOTER
    omega
  by_cases hsplit : size+33<b.size
  · obtain ⟨haddr,hl2,hfl2,hsame2,hu2⟩ := splitRegion_layout hl1 hfl1 hsplit
    obtain ⟨h3,hrun,hl3,hfl3,hsame3,hu3⟩ := relist_layout hl2 hfl2
    have ho : Occupied b size ⟨b.addr,size,false⟩
        [⟨b.addr+33+size,b.size-size-33,true⟩] := by
      refine ⟨rfl,rfl,le_refl size,?_,.inr ⟨_,rfl,rfl⟩⟩
      simp only [Block.stop]
      omega
    refine ⟨_,_,_,?_,ho,⟨by simp,by simpa using hl3,?_,ho.coalesced hb hw.coalesced⟩,
      hsame1.trans (hsame2.trans hsame3),?_⟩
    · dsimp only at hrun haddr
      simp [occupyBlock,hneeded,hsize,hsplit,haddr,hrun]
    · simpa [freeAddrs_cons] using hfl3
    · exact fun d hd => (hu1 d hd).trans ((hu2 d hd).trans (hu3 d hd))
  · obtain ⟨h2,hrun,hd2,hsame2,hu2⟩ := unlist_detached hl1 hfl1
    have ho : Occupied b size { b with free := false } [] :=
      ⟨rfl,rfl,hroom,le_refl _,.inl rfl⟩
    refine ⟨_,_,_,?_,ho,⟨by simp,by simpa using hd2.layout,?_,
      ho.coalesced hb hw.coalesced⟩,hsame1.trans hsame2,?_⟩
    · dsimp only at hrun
      simp [occupyBlock,hneeded,hsize,hsplit,hrun]
    · simpa [freeAddrs_cons] using hd2.freeList
    · exact fun d hd => (hu1 d hd).trans (hu2 d hd)

end Hojicha.Hmalloc
