import Hojicha.Hmalloc.Free

/-!
# `grow_heap_by`

Growing adds one block behind the last one, up to the end of the new pages, and merges with the last
block when that one is free.
-/

namespace Hojicha.Hmalloc

open Framework Heap Block

variable {h : Heap} {bs xs : List Block}

def newBlock (h : Heap) (addr pages : Nat) : Block :=
  ⟨h.lastFooter + 8, addr + pages * 4096 - (h.lastFooter + 41), true⟩

def appendBlock (h : Heap) (n : Block) : Heap :=
  let h := h.setIsFree n.addr true
  let h := h.setSizeBytes n.addr n.size
  let h := h.setNext n.addr 0
  let h := h.setHeader n.foot n.addr
  let h := h.setFooter n.addr n.foot
  h.setLastFooter n.foot

theorem appendBlock_spec (n : Block) (hfree : n.free=true) (htop : n.stop≤2 ^ 64) :
    Stored (appendBlock h n) n ∧
      AgreeOff (InRange n.addr (n.size + 33)) h.mem (appendBlock h n).mem := by
  unfold stop at htop
  constructor
  · constructor <;>
      simp (disch := omega) only [appendBlock,isFree,sizeBytes,footer,
        header,setIsFree,setSizeBytes,setNext,setHeader,
        setFooter,setLastFooter,foot,load64_store64,load64_store64_of_apart,
        store64_apply_of_apart,storeByte_self]
    rw [hfree]
    decide
  · intro x hx
    unfold InRange at hx
    simp (disch := omega) only [appendBlock,setIsFree,setSizeBytes,setNext,
      setHeader,setFooter,setLastFooter,foot,store64_apply_of_apart,storeByte_apply_of_ne]

theorem appendBlock_next (n : Block) : (appendBlock h n).next n.addr=0 := by
  simp (disch := omega) only [appendBlock,next,setNext,setHeader,
    setFooter,setLastFooter,foot,load64_store64,load64_store64_of_apart]

structure Extends (h h' : Heap) : Prop where
  first : h'.firstAvailableVaddr = h.firstAvailableVaddr
  last : h.lastFooter ≤ h'.lastFooter

theorem SameRegion.extends {h' : Heap} (hs : SameRegion h h') : Extends h h' :=
  ⟨hs.first,hs.last.ge⟩

theorem Extends.trans {h' h'' : Heap} (h₁ : Extends h h') (h₂ : Extends h' h'') : Extends h h'' :=
  ⟨h₂.first.trans h₁.first,h₁.last.trans h₂.last⟩

theorem Layout.append {m : ByteMemory} {n : Block} (hl : Layout h bs)
    (hm : AgreeOff (fun x => h.lastFooter + 8≤x) h.mem m) (haddr : n.addr=h.lastFooter + 8)
    (hfree : n.free=true) (htop : n.stop≤2 ^ 64) :
    Layout (appendBlock { h with mem := m } n) (bs++[n]) ∧
      ∀ d∈bs, Untouched h (appendBlock { h with mem := m } n) d := by
  obtain ⟨hst,hag⟩ := appendBlock_spec (h := { h with mem := m }) n hfree htop
  have hu : ∀ d∈bs, Untouched h (appendBlock { h with mem := m } n) d := by
    intro d hd
    have hin := hl.tiles.bounds hd
    have hall := hm.trans (hag.mono fun x hx => by unfold InRange at hx; omega)
    refine .of_agree hall fun x hx hown => ?_
    unfold stop at hin
    unfold Block.OwnByte InRange at hown
    omega
  refine ⟨⟨hl.initialized,hl.start_pos,?_,?_,?_⟩,hu⟩
  · refine (tiles_append _ _ _ _).mpr ⟨_,hl.tiles,haddr,?_⟩
    simp only [appendBlock,setLastFooter,stop,foot,tiles_nil]
    omega
  · unfold stop at htop
    simp only [appendBlock,setLastFooter,foot]
    omega
  · intro d hd
    rcases List.mem_append.mp hd with hd | hd
    · exact (hl.stored d hd).of_untouched (hu d hd)
    · exact List.mem_singleton.mp hd ▸ hst

theorem FreeList.append {m : ByteMemory} {n : Block} {fs : List Nat} (hl : FreeList h fs)
    (hm : AgreeOff (fun x => h.lastFooter + 8≤x) h.mem m) (haddr : n.addr=h.lastFooter + 8)
    (hfree : n.free=true) (htop : n.stop≤2 ^ 64) :
    FreeList (appendBlock { h with mem := m } n) fs := by
  obtain ⟨-,hag⟩ := appendBlock_spec (h := { h with mem := m }) n hfree htop
  have hall := hm.trans (hag.mono fun x hx => by unfold InRange at hx; omega)
  refine ⟨hl.links.congr fun c hc => ?_,hl.sorted,fun c hc => ?_⟩
  · have hin := hl.inside c hc
    refine next_of_agree hall c fun x hx hx' => ?_
    unfold InRange at hx'
    omega
  · have hin := hl.inside c hc
    simp only [appendBlock,setLastFooter,foot]
    omega

theorem alignUp_end {n : Nat} (hn : n≤2 ^ 64) (h0 : alignUp (wrap n) PAGE_SIZE≠0) :
    n<2 ^ 64 ∧ n≤alignUp (wrap n) PAGE_SIZE := by
  unfold alignUp wrap PAGE_SIZE at *
  omega

private theorem growHeapBy_granted {l : Block} (bytes : ByteMemory) {pages addr : Nat}
    (hl : Layout h (xs++[l])) (haddr : addr=alignUp (wrap (h.lastFooter + 8)) PAGE_SIZE)
    (h0 : addr≠0) (hpages : pages≠0) (hfit : addr + pages * 4096≤2 ^ 64) :
    growHeapBy (.grant bytes) pages h =
      let h2 := appendBlock { h with mem := overlayBytes h.mem addr (pages * 4096) bytes }
        (newBlock h addr pages)
      if h2.isFree l.addr then
        (removeFromFreeList l.addr h2).bind fun h3 =>
          (insertFreeBlock l.addr (mergeBlocks l.addr (h.lastFooter + 8) h3)).bind fun h4 =>
            some (l.addr, h4)
      else (insertFreeBlock (h.lastFooter + 8) h2).bind fun h3 => some (h.lastFooter + 8, h3) := by
  have htop := hl.top
  have hend : l.addr+25+l.size=h.lastFooter := by
    obtain ⟨t,-,-,ht⟩ := (tiles_append _ _ _ _).mp hl.tiles
    unfold Tiles stop at ht
    omega
  obtain ⟨hlt,hle⟩ := alignUp_end htop (haddr ▸ h0)
  rw [← haddr] at hle
  have hnew : wrap (h.lastFooter+8)=h.lastFooter+8 := Nat.mod_eq_of_lt hlt
  have hsize : wrapSub (wrapSub (wrap (pageToAddrBase pages +
      wrapSub addr (h.lastFooter+8))) 25) 8=(newBlock h addr pages).size := by
    simp only [wrapSub,wrap,pageToAddrBase,PAGE_SIZE,newBlock]
    omega
  have hread (h : Heap) (a v : Nat) (hv : v<2 ^ 64) :
      (((h.setIsFree a true).setSizeBytes a v).setNext a 0).sizeBytes a=v := by
    simp (disch := omega) only [sizeBytes,setNext,setSizeBytes,
      load64_store64,load64_store64_of_apart]
  have hread' := hread { h with mem := overlayBytes h.mem addr (pages * 4096) bytes }
    (h.lastFooter+8) (newBlock h addr pages).size (by simp only [newBlock]; omega)
  have hfoot : wrap (h.lastFooter+8+25+(newBlock h addr pages).size) =
      (newBlock h addr pages).foot := by
    simp only [wrap,newBlock,foot]
    omega
  have hlast : header { h with mem := overlayBytes h.mem addr (pages * 4096) bytes }
      h.lastFooter=l.addr := by
    have hst := (hl.stored l (by simp)).header
    rw [foot,hend] at hst
    rw [← hst]
    refine (overlayBytes_agree h.mem addr (pages * 4096) bytes).load64 _ fun x hx hx' => ?_
    unfold InRange at hx hx'
    omega
  have hask : alignUp (h.lastFooter+8) 4096=addr := by rw [haddr,hnew]; rfl
  simp only [growHeapBy,mapHeapPages,SIZEOF_FOOTER,SIZEOF_HEADER,PAGE_SIZE,hask,h0,hfit,
    hpages,hlast,hnew,hsize,hread',hfoot,if_false,if_true,and_self,ne_eq,
    not_false_eq_true]
  rfl

private theorem append_detached {l : Block} (bytes : ByteMemory) {pages addr : Nat}
    (hw : WellFormed h (xs++[l])) (hle : h.lastFooter + 8≤addr) (hpages : pages≠0)
    (hfit : addr + pages * 4096≤2 ^ 64) :
    let h2 := appendBlock { h with mem := overlayBytes h.mem addr (pages * 4096) bytes }
      (newBlock h addr pages)
    Detached h2 (xs++[l]) (newBlock h addr pages) [] ∧ Extends h h2 ∧
      h.lastFooter<h2.lastFooter ∧ ∀ d∈xs++[l], Untouched h h2 d := by
  have hm : AgreeOff (fun x => h.lastFooter+8≤x) h.mem
      (overlayBytes h.mem addr (pages * 4096) bytes) :=
    (overlayBytes_agree _ _ _ _).mono fun x hx => by
      unfold InRange at hx
      omega
  have htop : (newBlock h addr pages).stop≤2 ^ 64 := by
    simp only [newBlock,stop]
    omega
  obtain ⟨hl2,hu2⟩ := hw.layout.append hm rfl rfl htop
  have hgrows : h.lastFooter<(appendBlock { h with
      mem := overlayBytes h.mem addr (pages * 4096) bytes } (newBlock h addr pages)).lastFooter := by
    simp only [appendBlock,setLastFooter,newBlock,foot]
    omega
  refine ⟨⟨hl2,?_⟩,⟨rfl,hgrows.le⟩,hgrows,hu2⟩
  simpa [freeAddrs] using hw.freeList.append hm rfl rfl htop

private theorem settle_spec {h₀ : Heap} {l n : Block} (hw : WellFormed h₀ (xs++[l]))
    (hd : Detached h (xs++[l]) n [])
    (hu : ∀ d∈xs++[l], Untouched h₀ h d) :
    ∃ h' zs b, (if h.isFree l.addr then
        (removeFromFreeList l.addr h).bind fun h3 =>
          (insertFreeBlock l.addr (mergeBlocks l.addr n.addr h3)).bind fun h4 =>
            some (l.addr, h4)
      else (insertFreeBlock n.addr h).bind fun h3 => some (n.addr, h3))=some (b.addr, h') ∧
      WellFormed h' (zs++[b]) ∧ b.free=true ∧ n.size≤b.size ∧
      liveBlocks zs=liveBlocks (xs++[l]) ∧ SameRegion h h' ∧
      ∀ d∈liveBlocks (xs++[l]), Untouched h₀ h' d := by
  have hflag := (hd.layout.stored l (by simp)).isFree
  cases hl : l.free with
  | false =>
    obtain ⟨h',hrun,hl',hfl',hsame,hu',-⟩ := hd.insert
    refine ⟨h',xs++[l],{ n with free := true },?_,⟨by simp,hl',hfl',?_⟩,rfl,le_refl _,
      rfl,hsame,fun d hdm => ?_⟩
    · simp [hflag,hl,hrun]
    · exact hw.coalesced.between .nil (by simp [EndsOccupied,hl]) (by simp [StartsOccupied])
    · have hmem := List.mem_of_mem_filter hdm
      exact (hu d hmem).trans (hu' d (by simpa using hmem))
  | true =>
    obtain ⟨h3,hrun3,hd3,hsame3,hu3,-⟩ := hd.absorbed hl
    obtain ⟨h',hrun,hl',hfl',hsame,hu',-⟩ := hd3.insert
    obtain ⟨hx,-,hxl⟩ := List.isChain_append.mp hw.coalesced
    have hends : EndsOccupied xs := fun d hdm => by
      simpa [hl] using hxl d hdm l (by simp)
    refine ⟨h',xs,⟨l.addr,l.size+n.size+33,true⟩,?_,⟨by simp,hl',hfl',?_⟩,rfl,?_,?_,
      hsame3.trans hsame,fun d hdm => ?_⟩
    · dsimp only at hrun
      simp [hflag,hl,hrun3,hrun]
    · exact NoAdjacentFree.between hx .nil hends (by simp [StartsOccupied])
    · simp only
      omega
    · simp [liveBlocks,hl]
    · have hmem : d∈xs := by
        have hlive : liveBlocks (xs++[l])=liveBlocks xs := by simp [liveBlocks,hl]
        exact List.mem_of_mem_filter (hlive ▸ hdm)
      exact (hu d (by simp [hmem])).trans ((hu3 d (by simp [hmem])).trans (hu' d (by simp [hmem])))

theorem growHeapBy_spec (hw : WellFormed h bs) (answer : MapAnswer) (pages : Nat) :
    growHeapBy answer pages h=some (0, h) ∨
      ∃ h' xs b, growHeapBy answer pages h=some (b.addr, h') ∧ WellFormed h' (xs++[b]) ∧
        b.free=true ∧ pages * 4096≤b.size + 33 ∧ liveBlocks xs=liveBlocks bs ∧
        Extends h h' ∧ h.lastFooter<h'.lastFooter ∧
        ∀ d∈liveBlocks bs, Untouched h h' d := by
  by_cases hpages : pages=0
  · exact .inl (by simp [growHeapBy,hpages])
  cases answer with
  | refuse => exact .inl (by simp [growHeapBy,mapHeapPages])
  | grant bytes =>
    obtain ⟨addr,haddr⟩ : ∃ a, a=alignUp (wrap (h.lastFooter+8)) PAGE_SIZE := ⟨_,rfl⟩
    by_cases hfit : addr≠0 ∧ addr+pages * 4096≤2 ^ 64
    · right
      obtain ⟨xs,l,rfl⟩ := (List.eq_nil_or_concat' bs).resolve_left hw.nonempty
      have hle := (alignUp_end hw.layout.top (haddr ▸ hfit.1)).2
      rw [← haddr] at hle
      obtain ⟨hd,hext,hgrows,hu⟩ := append_detached bytes hw hle hpages hfit.2
      obtain ⟨h',zs,b,hrun,hw',hb,hsize,hlive,hsame,hu'⟩ := settle_spec hw hd hu
      refine ⟨h',zs,b,?_,hw',hb,?_,hlive,hext.trans hsame.extends,
        hgrows.trans_eq hsame.last.symm,hu'⟩
      · rw [growHeapBy_granted bytes hw.layout haddr hfit.1 hpages hfit.2]
        exact hrun
      · simp only [newBlock] at hsize
        omega
    · left
      have hmap : mapHeapPages (.grant bytes) addr pages h=(0, h) := if_neg hfit
      rw [haddr] at hmap
      simp [growHeapBy,SIZEOF_FOOTER,hmap]

end Hojicha.Hmalloc
