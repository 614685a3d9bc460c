import Hojicha.Hmalloc.Blocks

/-!
# Taking blocks off the list and putting merged blocks on

Between the edits of one call, one block is part of the tiling but not on the free list
(`Detached`).
-/

namespace Hojicha.Hmalloc

open Framework List Block

variable {h h' : Heap} {xs ys bs : List Block} {b c : Block}

/-- The block `b` stands between `xs` and `ys` and is not on the free list. -/
structure Detached (h : Heap) (xs : List Block) (b : Block) (ys : List Block) : Prop where
  layout : Layout h (xs ++ b :: ys)
  freeList : FreeList h (freeAddrs xs ++ freeAddrs ys)

theorem Detached.around (hd : Detached h xs b ys) :
    Around (freeAddrs xs) b.addr (freeAddrs ys) := by
  constructor
  · intro a ha
    obtain ⟨c,hc,-,rfl⟩ := mem_freeAddrs.mp ha
    have hlt := hd.layout.before hc
    unfold stop at hlt
    omega
  · intro a ha
    obtain ⟨c,hc,-,rfl⟩ := mem_freeAddrs.mp ha
    have hlt := hd.layout.behind hc
    unfold stop at hlt
    omega

theorem mem_block_of_mem_freeAddrs {a : Nat} (ha : a∈freeAddrs bs) :
    ∃ d∈bs, d.addr=a := by
  obtain ⟨d,hd,-,rfl⟩ := mem_freeAddrs.mp ha
  exact ⟨d,hd,rfl⟩

private theorem linked_blocks {cs : List Nat} (hb : b∈bs)
    (hcs : ∀ a∈cs, ∃ d∈bs, d.addr=a) : ∀ a∈b.addr::cs, ∃ d∈bs, d.addr=a := by
  intro a ha
  rcases mem_cons.mp ha with rfl | ha
  · exact ⟨b,hb,rfl⟩
  · exact hcs a ha

private theorem linked_front {a : Nat} (zs : List Block) (ha : a∈freeAddrs xs) :
    ∃ d∈xs++zs, d.addr=a := by
  obtain ⟨d,hd,rfl⟩ := mem_block_of_mem_freeAddrs ha
  exact ⟨d,by simp [hd],rfl⟩

/-- Coalescing changes bookkeeping bytes only, and there is no new bookkeeping. The header of a
free block is one still, or it lies inside of a free block and its footer pointer is erased. -/
structure Coarsens (h h' : Heap) (bs bs' : List Block) : Prop where
  bytes : AgreeOff (Bookkeeping bs) h.mem h'.mem
  less : ∀ x, Bookkeeping bs' x → Bookkeeping bs x
  kept : ∀ c ∈ bs, c.free = true → ∃ c' ∈ bs', c'.free = true ∧ c.foot ≤ c'.foot ∧
    (c'.addr = c.addr ∨ c'.payload ≤ c.addr ∧ h'.footer c.addr = 0)

theorem coarsens_of_agree
    (hag : AgreeOff (Bookkeeping bs) h.mem h'.mem) : Coarsens h h' bs bs :=
  ⟨hag,fun _ hx => hx,fun c hc hf => ⟨c,hc,hf,le_refl _,.inl rfl⟩⟩

theorem Coarsens.refl (h : Heap) (bs : List Block) : Coarsens h h bs bs :=
  coarsens_of_agree (.refl _ _)

theorem Coarsens.trans {h'' : Heap} {bs' bs'' : List Block} {s e : Nat}
    (h₁ : Coarsens h h' bs bs') (h₂ : Coarsens h' h'' bs' bs'') (ht : Tiles s bs' e) :
    Coarsens h h'' bs bs'' := by
  refine ⟨h₁.bytes.trans (h₂.bytes.mono h₁.less),fun x hx => h₁.less x (h₂.less x hx),?_⟩
  intro c hc hf
  obtain ⟨c',hc',hf',hfoot',hhead'⟩ := h₁.kept c hc hf
  obtain ⟨c'',hc'',hf'',hfoot'',hhead''⟩ := h₂.kept c' hc' hf'
  refine ⟨c'',hc'',hf'',hfoot'.trans hfoot'',?_⟩
  rcases hhead' with haddr' | ⟨hin',hzero'⟩
  · rw [← haddr']
    exact hhead''
  · -- the erased header is payload by now, which the second step keeps
    right
    constructor
    · unfold payload at hin' hhead'' ⊢
      omega
    · rw [← hzero']
      refine h₂.bytes.load64 _ fun x hx hx' => ?_
      refine ht.not_bookkeeping hc' ?_ hx
      unfold Block.PayloadByte
      unfold payload foot InRange at *
      omega

theorem coarsens_of_flag (hag : AgreeOff (Bookkeeping (xs++b::ys)) h.mem h'.mem) :
    Coarsens h h' (xs++b::ys) (xs ++ { b with free := true } :: ys) := by
  refine ⟨hag,?_,?_⟩
  · rintro x ⟨d,hd,hx⟩
    simp only [mem_append,mem_cons] at hd
    rcases hd with hd | rfl | hd
    · exact ⟨d,by simp [hd],hx⟩
    · exact ⟨b,by simp,hx⟩
    · exact ⟨d,by simp [hd],hx⟩
  · intro c hc hf
    simp only [mem_append,mem_cons] at hc
    rcases hc with hc | rfl | hc
    · exact ⟨c,by simp [hc],hf,le_refl _,.inl rfl⟩
    · exact ⟨{ c with free := true },by simp,rfl,le_refl _,.inl rfl⟩
    · exact ⟨c,by simp [hc],hf,le_refl _,.inl rfl⟩

theorem bookkeeping_of_link {cs : List Nat}
    (hcs : ∀ a∈cs, ∃ d∈bs, d.addr=a) {x : Nat} (hx : LinkByte cs x) : Bookkeeping bs x := by
  obtain ⟨a,ha,hin⟩ := hx
  obtain ⟨d,hd,rfl⟩ := hcs a ha
  refine ⟨d,hd,.inl ?_⟩
  unfold InRange at hin ⊢
  omega

theorem setIsFree_layout (hl : Layout h (xs++b::ys)) (f : Bool) :
    Layout (h.setIsFree b.addr f) (xs ++ { b with free := f } :: ys) ∧
      ∀ d∈xs++ys, Untouched h (h.setIsFree b.addr f) d := by
  have hl' : Layout h (xs++[b]++ys) := by simpa using hl
  have hag := setIsFree_agree h b.addr f
  have hu : ∀ d∈xs++ys, Untouched h (h.setIsFree b.addr f) d := by
    refine hl'.untouched_around [] hag ?_ (by simp)
    rintro x rfl
    exact .inl ⟨b,by simp,by unfold InRange; omega⟩
  refine ⟨?_,hu⟩
  suffices hres : Layout (h.setIsFree b.addr f) (xs++[{ b with free := f }]++ys) by
    simpa using hres
  refine hl'.replace (setIsFree_region h b.addr f) (fun s e ht => ht) ?_ hu
  intro d hd
  obtain rfl := mem_singleton.mp hd
  exact (hl.stored b (by simp)).of_flag (fun x _ hne => hag x hne) (isFree_setIsFree h b.addr f)

theorem setNext_layout (hl : Layout h bs) (hb : b∈bs) (v : Nat) :
    Layout (h.setNext b.addr v) bs ∧ ∀ d∈bs, Untouched h (h.setNext b.addr v) d := by
  have hu : ∀ d∈bs, Untouched h (h.setNext b.addr v) d := fun d hd =>
    untouched_of_links hl.tiles (setNext_agree _ v (mem_singleton_self b.addr))
      (fun a ha => ⟨b,hb,(mem_singleton.mp ha).symm⟩) hd
  exact ⟨hl.of_untouched (setNext_region h b.addr v) hu,hu⟩

theorem Detached.insert (hd : Detached h xs b ys) :
    ∃ h', insertFreeBlock b.addr h=some h' ∧
      Layout h' (xs ++ { b with free := true } :: ys) ∧
      FreeList h' (freeAddrs (xs ++ { b with free := true } :: ys)) ∧ SameRegion h h' ∧
      (∀ d∈xs++ys, Untouched h h' d) ∧
      Coarsens h h' (xs++b::ys) (xs ++ { b with free := true } :: ys) := by
  have hin := hd.layout.bounds
  have hpos := hd.layout.start_pos
  have htop := hd.layout.top
  unfold stop at hin
  obtain ⟨h',hrun,hfl,hsame,hfree,hag⟩ := insertFreeBlock_spec hd.freeList hd.around
    (by omega) (by omega) (by omega)
  have hl : Layout h (xs++[b]++ys) := by simpa using hd.layout
  have hcs : ∀ a∈b.addr::freeAddrs xs, ∃ d∈xs++b::ys, d.addr=a :=
    linked_blocks (by simp) fun a ha => linked_front _ ha
  have hu : ∀ d∈xs++ys, Untouched h h' d := by
    refine hl.untouched_around (b.addr::freeAddrs xs) hag ?_ (by simpa using hcs)
    rintro x (rfl | hx)
    · exact .inl ⟨b,by simp,by unfold InRange; omega⟩
    · exact .inr hx
  refine ⟨h',hrun,?_,by simpa [freeAddrs_cons] using hfl,hsame,hu,?_⟩
  · have hl' : Layout h' (xs++[{ b with free := true }]++ys) := by
      refine hl.replace hsame (fun s e ht => ht) ?_ hu
      intro d hd'
      obtain rfl := mem_singleton.mp hd'
      refine (hd.layout.stored b (by simp)).of_flag (fun x hx hne => hag x ?_) hfree
      rintro (rfl | ⟨a,ha,hx'⟩)
      · exact hne rfl
      · obtain ⟨d,hd',rfl⟩ := hcs a ha
        exact not_own_of_link hd.layout.tiles (by simp) hd' hx' hx
    simpa using hl'
  · apply coarsens_of_flag
    refine hag.mono ?_
    rintro x (rfl | hx)
    · exact ⟨b,by simp,.inl (by unfold InRange; omega)⟩
    · exact bookkeeping_of_link hcs hx

theorem removeFromFreeList_layout {fs gs : List Nat} (hl : Layout h bs)
    (hfl : FreeList h (fs++c.addr::gs)) (hc : c∈bs)
    (hfs : ∀ a∈fs, ∃ d∈bs, d.addr=a) :
    ∃ h', removeFromFreeList c.addr h=some h' ∧ Layout h' bs ∧ FreeList h' (fs++gs) ∧
      SameRegion h h' ∧ (∀ d∈bs, Untouched h h' d) ∧ Coarsens h h' bs bs := by
  have htop := hl.top
  obtain ⟨h',hrun,hfl',hsame,hag⟩ := removeFromFreeList_spec hfl (by omega)
  have hcs := linked_blocks hc hfs
  have hu : ∀ d∈bs, Untouched h h' d := fun d hd => untouched_of_links hl.tiles hag hcs hd
  exact ⟨h',hrun,hl.of_untouched hsame hu,hfl',hsame,hu,
    coarsens_of_agree (hag.mono fun x hx => bookkeeping_of_link hcs hx)⟩

theorem mergeBlocks_region (first second : Nat) (h : Heap) :
    SameRegion h (mergeBlocks first second h) ∧
      (mergeBlocks first second h).freeRegions=h.freeRegions :=
  ⟨⟨rfl,rfl,rfl⟩,rfl⟩

theorem Layout.merges (hl : Layout h (xs++b::c::ys)) : b.stop=c.addr ∧ c.stop≤2 ^ 64 :=
  ⟨hl.adjacent,(hl.tiles.bounds (by simp)).2.trans hl.top⟩

theorem mergeBlocks_detached (hl : Layout h (xs++b::c::ys))
    (hfl : FreeList h (freeAddrs xs++freeAddrs ys)) :
    Detached (mergeBlocks b.addr c.addr h) xs ⟨b.addr, b.size + c.size + 33, b.free⟩ ys ∧
      ∀ d∈xs++ys, Untouched h (mergeBlocks b.addr c.addr h) d := by
  have hl2 : Layout h (xs++[b,c]++ys) := by simpa using hl
  obtain ⟨hadj,htop⟩ := hl.merges
  obtain ⟨hst,hag⟩ := mergeBlocks_spec (hl.stored b (by simp)) (hl.stored c (by simp)) hadj htop
  obtain ⟨hsame,hfr⟩ := mergeBlocks_region b.addr c.addr h
  unfold stop at hadj
  have hu : ∀ d∈xs++ys, Untouched h (mergeBlocks b.addr c.addr h) d := by
    refine hl2.untouched_around [] hag (fun x hx => .inl ?_) (by simp)
    unfold InRange at hx
    by_cases hxc : x<c.addr
    · exact ⟨b,by simp,by unfold InRange; omega⟩
    · exact ⟨c,by simp,by unfold InRange; omega⟩
  refine ⟨⟨?_,?_⟩,hu⟩
  · suffices hl' : Layout _ (xs++[⟨b.addr,b.size+c.size+33,b.free⟩]++ys) by
      simpa using hl'
    refine hl2.replace hsame ?_ ?_ hu
    · rintro s e ⟨hs,-,he⟩
      refine ⟨hs,?_⟩
      simp only [tiles_nil,stop] at he ⊢
      omega
    · simpa using hst
  · refine ⟨?_,hfl.sorted,hsame.last ▸ hfl.inside⟩
    rw [hfr]
    refine hfl.links.congr fun a ha => next_of_agree hag a fun x hx hx' => ?_
    unfold InRange at hx hx'
    rcases mem_append.mp ha with ha | ha
    · obtain ⟨d,hd,rfl⟩ := mem_block_of_mem_freeAddrs ha
      have hlt := hl.before hd
      unfold stop at hlt
      omega
    · obtain ⟨d,hd,rfl⟩ := mem_block_of_mem_freeAddrs ha
      have hl' : Layout h ((xs++[b])++c::ys) := by simpa using hl
      have hlt := hl'.behind hd
      unfold stop at hlt
      omega

theorem mergeBlocks_coarsens (hl : Layout h (xs++b::c::ys)) (hb : b.free=true) :
    Coarsens h (mergeBlocks b.addr c.addr h) (xs++b::c::ys)
      (xs++⟨b.addr, b.size + c.size + 33, b.free⟩::ys) := by
  obtain ⟨hadj,htop⟩ := hl.merges
  obtain ⟨hag,hzero⟩ :=
    mergeBlocks_bookkeeping (hl.stored b (by simp)) (hl.stored c (by simp)) hadj htop
  unfold stop at hadj
  refine ⟨hag.mono ?_,?_,?_⟩
  · rintro x ⟨d,hd,hx⟩
    simp only [mem_cons,not_mem_nil,or_false] at hd
    rcases hd with rfl | rfl
    · exact ⟨d,by simp,hx⟩
    · exact ⟨d,by simp,hx⟩
  · rintro x ⟨d,hd,hx⟩
    simp only [mem_append,mem_cons] at hd
    rcases hd with hd | rfl | hd
    · exact ⟨d,by simp [hd],hx⟩
    · rcases hx with hx | hx
      · exact ⟨b,by simp,.inl hx⟩
      · refine ⟨c,by simp,.inr ?_⟩
        unfold foot InRange at hx ⊢
        simp only at hx
        omega
    · exact ⟨d,by simp [hd],hx⟩
  · intro d hd hf
    simp only [mem_append,mem_cons] at hd
    rcases hd with hd | rfl | rfl | hd
    · exact ⟨d,by simp [hd],hf,le_refl _,.inl rfl⟩
    · refine ⟨⟨d.addr,d.size+c.size+33,d.free⟩,by simp,hb,?_,.inl rfl⟩
      simp only [foot]
      omega
    · refine ⟨⟨b.addr,b.size+d.size+33,b.free⟩,by simp,hb,?_,.inr ⟨?_,hzero⟩⟩
      · simp only [foot]
        omega
      · simp only [payload]
        omega
    · exact ⟨d,by simp [hd],hf,le_refl _,.inl rfl⟩

/-- The neighbours `b` and `c` have become one free block, which is not on the free list. -/
def Merges (h : Heap) (xs : List Block) (b c : Block) (ys : List Block) (h' : Heap) : Prop :=
  Detached h' xs ⟨b.addr, b.size + c.size + 33, true⟩ ys ∧ SameRegion h h' ∧
    (∀ d ∈ xs ++ ys, Untouched h h' d) ∧
    Coarsens h h' (xs ++ b :: c :: ys) (xs ++ ⟨b.addr, b.size + c.size + 33, true⟩ :: ys)

private theorem merge_listed {r : Block} (hl : Layout h (xs++b::c::ys)) (hr : r=b ∨ r=c)
    (hfl : FreeList h (freeAddrs xs++r.addr::freeAddrs ys)) (hb : b.free=true) :
    ∃ h', removeFromFreeList r.addr h=some h' ∧
      Merges h xs b c ys (mergeBlocks b.addr c.addr h') := by
  obtain ⟨h',hrun,hl',hfl',hsame,hu,hco⟩ := removeFromFreeList_layout hl hfl
    (by rcases hr with rfl | rfl <;> simp) fun a ha => linked_front _ ha
  obtain ⟨hd',hu'⟩ := mergeBlocks_detached hl' hfl'
  have hco' := hco.trans (mergeBlocks_coarsens hl' hb) hl'.tiles
  refine ⟨h',hrun,hb ▸ hd',hsame.trans (mergeBlocks_region _ _ _).1,fun d hdm => ?_,hb ▸ hco'⟩
  exact (hu d (by simp only [mem_append,mem_cons] at hdm ⊢; tauto)).trans (hu' d hdm)

theorem Detached.absorbed (hd : Detached h (xs++[c]) b ys) (hc : c.free=true) :
    ∃ h', removeFromFreeList c.addr h=some h' ∧
      Merges h xs c b ys (mergeBlocks c.addr b.addr h') := by
  refine merge_listed (by simpa using hd.layout) (.inl rfl) ?_ hc
  simpa [freeAddrs_cons,hc,show freeAddrs []=[] from rfl] using hd.freeList

theorem Detached.absorbs (hd : Detached h xs b (c::ys)) (hc : c.free=true) (hb : b.free=true) :
    ∃ h', removeFromFreeList c.addr h=some h' ∧
      Merges h xs b c ys (mergeBlocks b.addr c.addr h') :=
  merge_listed hd.layout (.inr rfl) (by simpa [freeAddrs_cons,hc] using hd.freeList) hb

end Hojicha.Hmalloc
