import Hojicha.Hmalloc.Grow
import Hojicha.Hmalloc.Occupy

/-!
# `hmalloc`

All paths end in `occupy_block` of a listed free block: the first fit, or the block that growing
left at the end of the heap.
-/

namespace Hojicha.Hmalloc

open Framework

variable {h : Heap} {bs xs ys : List Block} {size : Nat}

theorem bytesToPages_room {pages : Nat} (hp : bytesToPages size=some pages) :
    size + 33≤pages * 4096 := by
  have hq : addrToPage (size+BLOCK_OVERHEAD+PAGE_SIZE-1)=(size+4128) / 4096 := by
    simp only [addrToPage,BLOCK_OVERHEAD,SIZEOF_HEADER,SIZEOF_FOOTER,PAGE_SIZE]
    omega
  unfold bytesToPages at hp
  rw [hq] at hp
  split at hp
  · simp at hp
  · injection hp with hp
    split at hp <;> omega

theorem WellFormed.setHeapGrowSize (hw : WellFormed h bs) (v : Nat) :
    WellFormed { h with heapGrowSize := v } bs where
  nonempty := hw.nonempty
  layout := ⟨hw.layout.initialized,hw.layout.start_pos,hw.layout.tiles,hw.layout.top,
    fun b hb => (hw.layout.stored b hb).of_untouched fun _ _ => rfl⟩
  freeList := ⟨hw.freeList.links,hw.freeList.sorted,hw.freeList.inside⟩
  coalesced := hw.coalesced

/-- What a call of `hmalloc(size)` that returns `p` does to the blocks `bs`. -/
structure Allocates (h h' : Heap) (bs bs' : List Block) (size p : Nat) : Prop where
  wellFormed : WellFormed h' bs'
  grows : Extends h h'
  untouched : ∀ d ∈ liveBlocks bs, Untouched h h' d
  result : (p = 0 ∧ liveBlocks bs' = liveBlocks bs) ∨
    ∃ us b vs, liveBlocks bs = us ++ vs ∧ liveBlocks bs' = us ++ b :: vs ∧ p = b.payload ∧
      size ≤ b.size ∧ b.free = false

def FirstFit (bs : List Block) (size : Nat) (b : Block) : Prop :=
  ∃ xs ys, bs = xs ++ b :: ys ∧ b.free = true ∧ size ≤ b.size ∧
    ∀ c ∈ xs, c.free = true → c.size < size

theorem returnBlock_spec (size : Nat) {b : Block} (hw : WellFormed h (xs++b::ys))
    (hb : b.free=true) (hroom : size≤b.size) :
    ∃ h' b' rest, returnBlock b.addr size h=some (b.payload, h') ∧ Occupied b size b' rest ∧
      WellFormed h' (xs++b'::rest++ys) ∧ SameRegion h h' ∧
      ∀ d∈xs++ys, Untouched h h' d := by
  obtain ⟨h',b',rest,hrun,ho,hw',hsame,hu⟩ := occupyBlock_spec hw hb hroom
  have hin := hw.layout.bounds
  have hpos := hw.layout.start_pos
  have htop := hw.layout.top
  have hb0 : b.addr≠0 := by omega
  have hptr : wrap (b.addr+SIZEOF_HEADER)=b.payload := by
    unfold Block.stop at hin
    unfold wrap SIZEOF_HEADER Block.payload
    omega
  exact ⟨h',b',rest,by simp [returnBlock,hb0,hrun,hptr],ho,hw',hsame,hu⟩

private theorem returnBlock_allocates (size : Nat) {b : Block} (hw : WellFormed h (xs++b::ys))
    (hb : b.free=true) (hroom : size≤b.size) :
    ∃ h' bs', returnBlock b.addr size h=some (b.payload, h') ∧
      Allocates h h' (xs++b::ys) bs' size b.payload := by
  obtain ⟨h',b',rest,hrun,ho,hw',hsame,hu⟩ := returnBlock_spec size hw hb hroom
  have hlive : liveBlocks (xs++b::ys)=liveBlocks xs++liveBlocks ys := by
    simp [liveBlocks_cons,hb]
  refine ⟨h',xs++b'::rest++ys,hrun,hw',hsame.extends,
    ?_,.inr ⟨liveBlocks xs,b',liveBlocks ys,hlive,?_,?_,ho.room,ho.occupied⟩⟩
  · intro d hd
    rw [hlive,← liveBlocks_append] at hd
    exact hu d (List.mem_of_mem_filter hd)
  · simp [liveBlocks_cons,ho.occupied,ho.live]
  · simp only [Block.payload,ho.addr]

theorem Allocates.after_growth {h₀ h' : Heap} {bs₀ bs' : List Block} {p : Nat}
    (ha : Allocates h h' bs bs' size p) (hlive : liveBlocks bs=liveBlocks bs₀)
    (hext : Extends h₀ h) (hu : ∀ d∈liveBlocks bs₀, Untouched h₀ h d) :
    Allocates h₀ h' bs₀ bs' size p where
  wellFormed := ha.wellFormed
  grows := hext.trans ha.grows
  untouched d hd := (hu d hd).trans (ha.untouched d (hlive ▸ hd))
  result := hlive ▸ ha.result

section

variable (hw : WellFormed h bs)
include hw

theorem WellFormed.unchanged : Allocates h h bs bs size 0 :=
  ⟨hw,⟨rfl,le_refl _⟩,fun d _ => .refl h d,.inl ⟨rfl,rfl⟩⟩

private theorem grow_allocates {pages : Nat} (answer : MapAnswer)
    (hroom : size + 33≤pages * 4096) :
    ∃ p h' bs', ((growHeapBy answer pages h).bind fun r => returnBlock r.1 size r.2) =
      some (p, h') ∧ Allocates h h' bs bs' size p := by
  rcases growHeapBy_spec hw answer pages with
    hrun | ⟨h1,zs,b,hrun,hw1,hb,hsize,hlive,hext,-,hu⟩
  · exact ⟨0,h,bs,by simp [hrun,returnBlock],hw.unchanged⟩
  · obtain ⟨h',bs',hrun',ha⟩ := returnBlock_allocates size hw1 hb (by omega)
    refine ⟨b.payload,h',bs',by simp [hrun,hrun'],ha.after_growth ?_ hext hu⟩
    simpa [liveBlocks,hb] using hlive

private theorem listed_block {a : Nat} (ha : a∈freeAddrs bs) :
    ∃ us b vs, bs=us++b::vs ∧ b.free=true ∧ b.addr=a ∧ h.isFree a=true ∧
      h.sizeBytes a=b.size := by
  obtain ⟨b,hb,hfree,rfl⟩ := mem_freeAddrs.mp ha
  obtain ⟨us,vs,rfl⟩ := List.append_of_mem hb
  have hst := hw.layout.stored b (by simp)
  exact ⟨us,b,vs,rfl,hfree,rfl,hst.isFree.trans hfree,hst.sizeBytes⟩

theorem WellFormed.last_pos : 1<h.lastFooter := by
  obtain ⟨b,hb⟩ := List.exists_mem_of_ne_nil bs hw.nonempty
  have hin := hw.layout.tiles.bounds hb
  have hpos := hw.layout.start_pos
  unfold Block.stop at hin
  omega

theorem findFirstFitBlock_blocks (size : Nat) : (∃ b, FirstFit bs size b ∧ b.addr≠0 ∧
      findFirstFitBlock h size h.freeRegions=some b.addr) ∨
    (∀ b∈bs, b.free=true → b.size<size) ∧
      findFirstFitBlock h size h.freeRegions=some 0 := by
  have hfree : ∀ a∈freeAddrs bs, h.isFree a=true := fun a ha => by
    obtain ⟨-,-,-,-,-,-,hflag,-⟩ := listed_block hw ha
    exact hflag
  rcases findFirstFitBlock_spec hw.freeList hfree size hw.last_pos with
    ⟨fs,a,gs,hsplit,hsmall,hfit,hrun⟩ | ⟨hsmall,hrun⟩
  · have ha : a∈freeAddrs bs := by simp [hsplit]
    obtain ⟨us,b,vs,rfl,hb,rfl,-,hsize⟩ := listed_block hw ha
    have hb0 : b.addr≠0 := (hw.freeList.inside b.addr ha).1.ne'
    refine .inl ⟨b,⟨us,vs,rfl,hb,hsize ▸ hfit,fun c hc hcf => ?_⟩,hb0,hrun⟩
    -- a free block in front of `b` is listed in front of `b`, where the search passed it
    have hst := hw.layout.stored c (by simp [hc])
    have hlt : c.addr<b.addr := by
      have hbefore := (List.pairwise_append.mp hw.layout.tiles.sorted).2.2 c hc b (by simp)
      unfold Block.stop at hbefore
      omega
    have hlisted : c.addr∈fs++b.addr::gs :=
      hsplit ▸ mem_freeAddrs.mpr ⟨c,by simp [hc],hcf,rfl⟩
    have hsorted := hw.freeList.sorted
    rw [hsplit] at hsorted
    rcases List.mem_append.mp hlisted with hin | hin
    · exact hst.sizeBytes ▸ hsmall c.addr hin
    · rcases List.mem_cons.mp hin with heq | hin
      · omega
      · have hgt := List.rel_of_pairwise_cons (List.pairwise_append.mp hsorted).2.1 hin
        omega
  · refine .inr ⟨fun b hb hbf => ?_,hrun⟩
    have hst := hw.layout.stored b hb
    exact hst.sizeBytes ▸ hsmall b.addr (mem_freeAddrs.mpr ⟨b,hb,hbf,rfl⟩)

/-- The paths of `hmalloc`: a request that has no page count, one larger than the growth size,
which never looks at the free list, and a small one with or without a fit. -/
theorem hmalloc_cases (answer : MapAnswer) (size : Nat) :
    (bytesToPages size=none ∧ hmalloc answer size h=some (0, h)) ∨
    ∃ pages, bytesToPages size=some pages ∧
      ((h.heapGrowSize<pages ∧ hmalloc answer size h =
          (growHeapBy answer pages h).bind fun r => returnBlock r.1 size r.2) ∨
        pages≤h.heapGrowSize ∧
          ((∃ b, FirstFit bs size b ∧ hmalloc answer size h=returnBlock b.addr size h) ∨
            (∀ b∈bs, b.free=true → b.size<size) ∧ hmalloc answer size h =
              (growHeap answer h).bind fun r => returnBlock r.1 size r.2)) := by
  have hinit := hw.layout.initialized
  cases hp : bytesToPages size with
  | none => exact .inl ⟨rfl,by simp [hmalloc,hinit,hp]⟩
  | some pages =>
    refine .inr ⟨pages,rfl,?_⟩
    by_cases hbig : h.heapGrowSize<pages
    · exact .inl ⟨hbig,by simp [hmalloc,hinit,hp,hbig]⟩
    · refine .inr ⟨not_lt.mp hbig,?_⟩
      rcases findFirstFitBlock_blocks hw size with ⟨b,hfit,hb0,hrun⟩ | ⟨hnone,hrun⟩
      · exact .inl ⟨b,hfit,by simp [hmalloc,hinit,hp,hbig,hrun,hb0]⟩
      · exact .inr ⟨hnone,by simp [hmalloc,hinit,hp,hbig,hrun]⟩

theorem hmalloc_spec (answer : MapAnswer) (size : Nat) :
    ∃ p h' bs', hmalloc answer size h=some (p, h') ∧ Allocates h h' bs bs' size p := by
  rcases hmalloc_cases hw answer size with ⟨-,hrun⟩ | ⟨pages,hp,⟨-,hrun⟩ | ⟨hle,hsmall⟩⟩
  · exact ⟨0,h,bs,hrun,hw.unchanged⟩
  · rw [hrun]
    exact grow_allocates hw answer (bytesToPages_room hp)
  · rcases hsmall with ⟨b,⟨us,vs,rfl,hb,hfit,-⟩,hrun⟩ | ⟨-,hrun⟩
    · obtain ⟨h',bs',hrun',ha⟩ := returnBlock_allocates size hw hb hfit
      exact ⟨b.payload,h',bs',hrun.trans hrun',ha⟩
    · have hw1 := hw.setHeapGrowSize (wrap (h.heapGrowSize+1))
      have hroom := (bytesToPages_room hp).trans (Nat.mul_le_mul_right 4096 hle)
      obtain ⟨p,h',bs',hrun',ha⟩ := grow_allocates hw1 answer hroom
      exact ⟨p,h',bs',hrun.trans hrun',ha.after_growth rfl ⟨rfl,le_refl _⟩ fun d _ _ _ => rfl⟩

end

end Hojicha.Hmalloc
