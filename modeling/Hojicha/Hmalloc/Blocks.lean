import Hojicha.Hmalloc.FreeList

/-! # Merging, splitting and finding neighbours -/

namespace Hojicha.Hmalloc

open Framework Heap Block

variable {h : Heap}

private theorem wrap_of_lt {n : Nat} (hn : n<2 ^ 64) : wrap n=n := Nat.mod_eq_of_lt hn

private theorem wrapSub_of_le {a b : Nat} (hab : b≤a) (ha : a<2 ^ 64) :
    wrapSub a b=a - b := by
  unfold wrapSub wrap
  omega

private theorem mergeBlocks_eq {b c : Block} (hb : Stored h b) (hc : Stored h c)
    (hbc : b.stop=c.addr) (htop : c.stop≤2 ^ 64) :
    mergeBlocks b.addr c.addr h = { h with
      mem := (fillBytes (store64 (store64 (store64 (store64 (fillBytes h.mem b.foot 8 0)
        (b.addr + 17) c.foot) c.foot b.addr) (b.addr + 9) (h.next c.addr))
        (b.addr + 1) (b.size + c.size + 33)) c.addr 25 0) } := by
  have hbs := hb.sizeBytes
  have hbfoot := hb.footer
  have hcs := hc.sizeBytes
  have hcfoot := hc.footer
  unfold stop at hbc htop
  simp only [sizeBytes,footer,foot] at hbs hbfoot hcs hcfoot ⊢
  have hsum : wrap (b.size+c.size+(25+8))=b.size+c.size+33 := wrap_of_lt (by omega)
  simp (disch := omega) only [mergeBlocks,memset,setFooter,setHeader,
    setNext,setSizeBytes,footer,next,sizeBytes,SIZEOF_FOOTER,
    SIZEOF_HEADER,BLOCK_OVERHEAD,hbfoot,hcfoot,hbs,hcs,hsum,load64_fillBytes_of_apart,
    load64_store64,load64_store64_of_apart]

theorem mergeBlocks_spec {b c : Block} (hb : Stored h b) (hc : Stored h c)
    (hbc : b.stop=c.addr) (htop : c.stop≤2 ^ 64) :
    Stored (mergeBlocks b.addr c.addr h) ⟨b.addr, b.size + c.size + 33, b.free⟩ ∧
      AgreeOff (InRange b.addr (b.size + c.size + 66)) h.mem (mergeBlocks b.addr c.addr h).mem := by
  rw [mergeBlocks_eq hb hc hbc htop]
  have hbf := hb.isFree
  unfold stop at hbc htop
  constructor
  · constructor <;>
      simp (disch := omega) only [isFree,sizeBytes,footer,header,
        foot,load64_fillBytes_of_apart,load64_store64,load64_store64_of_apart,
        store64_apply_of_apart,fillBytes_apply_of_apart]
    · exact hbf
    · omega
    · rw [show b.addr+25+(b.size+c.size+33)=c.addr+25+c.size by omega]
      simp (disch := omega) only [load64_store64]
  · intro x hx
    unfold InRange at hx
    simp (disch := omega) only [foot,store64_apply_of_apart,fillBytes_apply_of_apart]

theorem mergeBlocks_bookkeeping {b c : Block} (hb : Stored h b) (hc : Stored h c)
    (hbc : b.stop=c.addr) (htop : c.stop≤2 ^ 64) :
    AgreeOff (Bookkeeping [b, c]) h.mem (mergeBlocks b.addr c.addr h).mem ∧
      (mergeBlocks b.addr c.addr h).footer c.addr=0 := by
  rw [mergeBlocks_eq hb hc hbc htop]
  unfold stop at hbc htop
  constructor
  · intro x hx
    simp only [Bookkeeping,List.mem_cons,List.not_mem_nil,or_false,exists_eq_or_imp,
      exists_eq_left,InRange,foot] at hx
    simp (disch := omega) only [foot,store64_apply_of_apart,fillBytes_apply_of_apart]
  · apply loadBytes_of_zero
    rintro x ⟨hge,hlt⟩
    exact if_pos ⟨by omega,by omega⟩

private theorem splitRegion_eq {b : Block} {size : Nat} (hb : Stored h b)
    (hroom : size + 33<b.size) (htop : b.stop≤2 ^ 64) :
    splitRegion b.addr size h=(b.addr + 33 + size, { h with
      mem := (storeByte (store64 (store64 (store64 (store64 (store64 (store64 h.mem
        (b.addr + 33 + size + 17) b.foot) b.foot (b.addr + 33 + size))
        (b.addr + 25 + size) b.addr) (b.addr + 17) (b.addr + 25 + size))
        (b.addr + 33 + size + 1) (b.size - size - 33))
        (b.addr + 33 + size + 9) (h.next b.addr)) (b.addr + 33 + size) 1) }) := by
  have hbs := hb.sizeBytes
  have hbfoot := hb.footer
  unfold stop at htop
  simp only [sizeBytes,footer,foot] at hbs hbfoot ⊢
  have hl : wrap (b.addr+25+8+size)=b.addr+33+size := by
    rw [wrap_of_lt (by omega)]
  have hfoot : wrapSub (b.addr+33+size) 8=b.addr+25+size := by
    rw [wrapSub_of_le (by omega) (by omega)]
    omega
  have hsize : wrapSub (wrapSub (wrapSub b.size size) 25) 8=b.size-size-33 := by
    unfold wrapSub wrap
    omega
  simp (disch := omega) only [splitRegion,setFooterAt,setFooter,setHeader,
    setNext,setSizeBytes,setIsFree,footer,next,sizeBytes,
    SIZEOF_FOOTER,SIZEOF_HEADER,hbfoot,hbs,hl,hfoot,hsize,load64_store64,
    load64_store64_of_apart,if_true]

theorem splitRegion_spec {b : Block} {size : Nat} (hb : Stored h b)
    (hroom : size + 33<b.size) (htop : b.stop≤2 ^ 64) :
    (splitRegion b.addr size h).1=b.addr + 33 + size ∧
      let h' := (splitRegion b.addr size h).2.setSizeBytes b.addr size
      Stored h' ⟨b.addr, size, b.free⟩ ∧
        Stored h' ⟨b.addr + 33 + size, b.size - size - 33, true⟩ ∧
        h'.next b.addr=h.next b.addr ∧ SameRegion h h' ∧ h'.freeRegions=h.freeRegions ∧
        AgreeOff (InRange b.addr (b.size + 33)) h.mem h'.mem := by
  have hbf := hb.isFree
  rw [splitRegion_eq hb hroom htop]
  unfold stop at htop
  refine ⟨rfl,?_,?_,?_,⟨rfl,rfl,rfl⟩,rfl,?_⟩
  · constructor <;>
      simp (disch := omega) only [isFree,sizeBytes,footer,header,
        setSizeBytes,foot,load64_storeByte_of_apart,load64_store64,
        load64_store64_of_apart,store64_apply_of_apart,storeByte_apply_of_ne]
    exact hbf
  · constructor <;>
      simp (disch := omega) only [isFree,sizeBytes,footer,header,
        setSizeBytes,foot,load64_storeByte_of_apart,load64_store64,
        load64_store64_of_apart,store64_apply_of_apart,storeByte_self]
    · decide
    · omega
    · rw [show b.addr+33+size+25+(b.size-size-33)=b.addr+25+b.size by omega]
      simp (disch := omega) only [load64_store64]
  · simp (disch := omega) only [next,setSizeBytes,foot,
      load64_storeByte_of_apart,load64_store64_of_apart]
  · intro x hx
    unfold InRange at hx
    simp (disch := omega) only [setSizeBytes,foot,store64_apply_of_apart,
      storeByte_apply_of_ne]

section Neighbours

variable {xs ys : List Block} {b c : Block}

theorem Layout.header_in_heap (hl : Layout h (xs++b::ys)) :
    isBlockHeaderInHeap h b.addr=true := by
  have hin := hl.bounds
  have hpos := hl.start_pos
  have htop := hl.top
  unfold stop at hin
  simp only [isBlockHeaderInHeap,SIZEOF_HEADER,wrap_of_lt (show b.addr+25<2 ^ 64 by omega),
    Bool.and_eq_true,bne_iff_ne,ne_eq,decide_eq_true_eq]
  omega

theorem Layout.footer_in_heap (hl : Layout h (xs++b::ys)) :
    isFooterInHeap h (h.footer b.addr)=true := by
  have hin := hl.bounds
  have hpos := hl.start_pos
  have hfoot := (hl.stored b (by simp)).footer
  unfold stop at hin
  unfold foot at hfoot
  simp only [isFooterInHeap,hfoot,Bool.and_eq_true,bne_iff_ne,ne_eq,decide_eq_true_eq]
  omega

theorem Layout.adjacent (hl : Layout h (xs++c::b::ys)) : c.stop=b.addr := by
  obtain ⟨t,-,ht⟩ := (tiles_append _ _ _ _).mp hl.tiles
  exact ht.2.1.symm

private theorem Layout.reassoc (hl : Layout h (xs++c::b::ys)) :
    Layout h ((xs++[c])++b::ys) := by
  simpa using hl

theorem getPrevious_first (hl : Layout h (b::ys)) : getPrevious h b.addr=0 := by
  have hfirst : b.addr=h.firstAvailableVaddr := hl.tiles.1
  have hl' : Layout h ([]++b::ys) := hl
  have hin := hl'.bounds
  have htop := hl.top
  have hheader := hl'.header_in_heap
  unfold stop at hin
  by_cases hlt : b.addr<wrap (h.firstAvailableVaddr+SIZEOF_HEADER+SIZEOF_FOOTER)
  · simp [getPrevious,hheader,hlt]
  · -- the sum has wrapped; the footer in front of the heap is then refused
    have hprev : isFooterInHeap h (wrapSub b.addr SIZEOF_FOOTER)=false := by
      unfold SIZEOF_FOOTER SIZEOF_HEADER wrap at hlt
      have hsub : wrapSub b.addr 8=b.addr-8 := wrapSub_of_le (by omega) (by omega)
      simp only [isFooterInHeap,SIZEOF_FOOTER,hsub,Bool.and_eq_false_imp,Bool.and_eq_true,
        decide_eq_true_eq,decide_eq_false_iff_not]
      omega
    simp [getPrevious,hheader,hlt,hprev]

theorem getPrevious_behind (hl : Layout h (xs++c::b::ys)) :
    getPrevious h b.addr=c.addr := by
  have hadj := hl.adjacent
  have hin := hl.bounds
  have hinb := hl.reassoc.bounds
  have htop := hl.top
  have hcf := (hl.stored c (by simp)).footer
  have hch := (hl.stored c (by simp)).header
  have hheader := hl.reassoc.header_in_heap
  have hheaderc := hl.header_in_heap
  have hfooterc := hl.footer_in_heap
  unfold stop at hadj hin hinb
  have hlt : ¬ b.addr<wrap (h.firstAvailableVaddr+SIZEOF_HEADER+SIZEOF_FOOTER) := by
    rw [SIZEOF_FOOTER,SIZEOF_HEADER,wrap_of_lt (by omega)]
    omega
  have hsub : wrapSub b.addr SIZEOF_FOOTER=c.foot := by
    rw [SIZEOF_FOOTER,wrapSub_of_le (by omega) (by omega),foot]
    omega
  have hge : ¬ b.addr≤c.addr := by omega
  rw [hcf] at hfooterc
  simp [getPrevious,hheader,hlt,hsub,hfooterc,hch,hheaderc,hge,hcf]

theorem getNext_last (hl : Layout h (xs++[b])) : getNext h b.addr=0 := by
  have hin := hl.bounds
  have htop := hl.top
  have hlast : b.stop=h.lastFooter+8 := by
    obtain ⟨t,-,ht⟩ := (tiles_append _ _ _ _).mp hl.tiles
    exact ht.2
  have hbf := (hl.stored b (by simp)).footer
  unfold stop at hlast
  unfold foot at hbf
  have hheader := hl.header_in_heap
  by_cases hge : h.lastFooter≤wrap (h.lastFooter+8)
  · simp [getNext,hheader,hbf,SIZEOF_FOOTER,show b.addr+25+b.size=h.lastFooter by omega,hge]
  · -- the footer is the last word of the address space and the next address wraps to `NULL`
    have hwrap : wrap (h.lastFooter+8)=0 := by
      unfold wrap at hge ⊢
      omega
    simp [getNext,hbf,SIZEOF_FOOTER,show b.addr+25+b.size=h.lastFooter by omega,hwrap,
      isBlockHeaderInHeap]

theorem getNext_front (hl : Layout h (xs++b::c::ys)) : getNext h b.addr=c.addr := by
  have hadj := hl.adjacent
  have hinc := hl.reassoc.bounds
  have htop := hl.top
  have hbf := (hl.stored b (by simp)).footer
  have hcf := (hl.stored c (by simp)).footer
  have hch := (hl.stored c (by simp)).header
  have hheader := hl.header_in_heap
  have hfooter := hl.footer_in_heap
  have hheaderc := hl.reassoc.header_in_heap
  have hfooterc := hl.reassoc.footer_in_heap
  unfold stop at hadj hinc
  have hnext : wrap (h.footer b.addr+SIZEOF_FOOTER)=c.addr := by
    rw [hbf,foot,SIZEOF_FOOTER,wrap_of_lt (by omega)]
    omega
  have hge : ¬ h.lastFooter≤c.addr := by omega
  have hback : h.header (h.footer c.addr)=c.addr := by rw [hcf,hch]
  simp [getNext,hheader,hfooter,hnext,hge,hheaderc,hfooterc,hback]

end Neighbours

end Hojicha.Hmalloc
