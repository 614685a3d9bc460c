import Hojicha.Hmalloc.DoubleFree

/-!
# Resizing an allocation

`realloc` of `libc/stdlib/realloc.c` keeps a block that has room; otherwise it copies the whole old
block to a new one and frees it.
-/

namespace Hojicha.Hmalloc

open Framework List

def hmallocUsableSize (ptr : Nat) (h : Heap) : Nat :=
  if ptr = 0 ∨ !h.heapInitialized then 0
  else
    let currentBlock := wrapSub ptr SIZEOF_HEADER
    if currentBlock < h.firstAvailableVaddr ∨ currentBlock ≥ h.lastFooter then 0
    else if !isFooterInHeap h (h.footer currentBlock) ||
        h.header (h.footer currentBlock) != currentBlock || h.isFree currentBlock then 0
    else h.sizeBytes currentBlock

def Heap.memcpy (h : Heap) (dst src n : Nat) : Heap := { h with mem := copyBytes h.mem dst src n }

/-- `malloc` and `free` are `hmalloc` and `hfree`. -/
def realloc (answer : MapAnswer) (ptr size : Nat) (h : Heap) : Option (Nat × Heap) :=
  if ptr = 0 then hmalloc answer size h
  else if size = 0 then do
    let h ← hfree ptr h
    return (0, h)
  else
    let oldSize := hmallocUsableSize ptr h
    if oldSize ≥ size then some (ptr, h)
    else do
      let (newPtr, h) ← hmalloc answer size h
      if newPtr = 0 then return (0, h)
      else
        let h := if oldSize > 0 then h.memcpy newPtr ptr oldSize else h
        let h ← hfree ptr h
        return (newPtr, h)

variable {s : State} {bs : List Block} {a : Allocation} {b : Block}

theorem hmallocUsableSize_of_occupied {h : Heap} {xs ys : List Block}
    (hl : Layout h (xs++b::ys)) (hb : b.free=false) :
    hmallocUsableSize b.payload h=b.size := by
  obtain ⟨hpay,hsub,hlo,hhi,hback,hflag⟩ := hl.checks hb
  have hst := hl.stored b (by simp)
  simp [hmallocUsableSize,hpay,hl.initialized,hsub,hlo,hhi,hl.footer_in_heap,hback,hflag,hst.sizeBytes]

section

variable (ht : Tracks s bs)
include ht

theorem Tracks.usableSize (hb : b∈liveBlocks bs) (hptr : b.payload=a.ptr) :
    hmallocUsableSize a.ptr s.heap=b.size := by
  obtain ⟨hmem,hocc⟩ := mem_liveBlocks.mp hb
  obtain ⟨xs,ys,rfl⟩ := append_of_mem hmem
  rw [← hptr,hmallocUsableSize_of_occupied ht.wellFormed.layout hocc]

theorem Tracks.ptrs_nodup : (s.live.map (·.ptr)).Nodup :=
  ht.owned.nodup_iff.mpr ht.wellFormed.layout.payloads_nodup

theorem Tracks.resize (ha : a∈s.live) (hb : b∈liveBlocks bs)
    (hptr : b.payload=a.ptr) {n : Nat} (hn : n≤b.size) :
    Tracks ⟨s.heap, ⟨a.ptr, n⟩::s.live.filter fun c => c.ptr≠a.ptr⟩ bs := by
  refine ⟨ht.wellFormed,?_,?_⟩
  · refine List.Perm.trans ?_ ht.owned
    have hrest : (s.live.filter fun c => c.ptr≠a.ptr).map (·.ptr) =
        (s.live.map (·.ptr)).erase a.ptr := by
      rw [ht.ptrs_nodup.erase_eq_filter,filter_map]
      congr 1
      apply filter_congr
      intro c _
      simp [bne,Bool.beq_eq_decide_eq]
    rw [map_cons,hrest]
    have hmem : a.ptr∈s.live.map (·.ptr) := mem_map_of_mem ha
    exact (perm_cons_erase hmem).symm
  · intro c hc
    rcases mem_cons.mp hc with rfl | hc
    · exact ⟨b,hb,hptr,hn⟩
    · exact ht.room c (mem_of_mem_filter hc)

theorem Tracks.memcpy (ha : a∈s.live) (src : Nat) {n : Nat} (hn : n≤a.size) :
    Tracks ⟨s.heap.memcpy a.ptr src n, s.live⟩ bs := by
  induction n with
  | zero => exact ht
  | succ n ih =>
    have ht' := ih (Nat.le_of_succ_le hn)
    obtain ⟨b,hb,-,hin⟩ := ht'.block ha
    have hx : a.Byte (a.ptr+n) := by
      unfold Allocation.Byte InRange
      omega
    obtain ⟨hw,-⟩ := ht'.wellFormed.write hb (hin _ hx)
      (copyBytes s.heap.mem a.ptr src n (src+n))
    exact ⟨hw,ht'.owned,ht'.room⟩

theorem Tracks.apart {c : Allocation} (hc : c∈s.live)
    (hne : c.ptr≠a.ptr) (hb : b∈liveBlocks bs) (hptr : b.payload=a.ptr) :
    c.ptr + c.size≤a.ptr ∨ a.ptr + b.size≤c.ptr := by
  obtain ⟨d,hd,hdptr,hroom⟩ := ht.room c hc
  have hdb : d≠b := by
    rintro rfl
    exact hne (hdptr.symm.trans hptr)
  have hap := ht.wellFormed.layout.tiles.apart (mem_of_mem_filter hd)
    (mem_of_mem_filter hb) hdb
  unfold Block.stop at hap
  unfold Block.payload at hptr hdptr
  omega

end

/-- One free block covers the block, alone, and it is once in the free list. -/
def FreeOnce (bs : List Block) (b : Block) : Prop :=
  ∃ c ∈ bs, c.free = true ∧ c.addr ≤ b.addr ∧ b.stop ≤ c.stop ∧
    (freeAddrs bs).count c.addr = 1 ∧ ∀ d ∈ bs, d.addr < b.stop → b.addr < d.stop → d = c

theorem WellFormed.freeOnce {h : Heap} (hw : WellFormed h bs) {c : Block} (hc : c∈bs)
    (hf : c.free=true) (hlo : c.addr≤b.addr) (hhi : b.stop≤c.stop) : FreeOnce bs b := by
  refine ⟨c,hc,hf,hlo,hhi,?_,?_⟩
  · have hnodup : (freeAddrs bs).Nodup := hw.freeList.sorted.imp fun hab heq => by omega
    exact count_eq_one_of_mem hnodup (mem_freeAddrs.mpr ⟨c,hc,hf,rfl⟩)
  · intro d hd h1 h2
    by_contra hne
    have hap := hw.layout.tiles.apart hd hc hne
    omega

section Call

variable (ht : Tracks s bs) (ha : a ∈ s.live) (hb : b ∈ liveBlocks bs) (hptr : b.payload = a.ptr)
include ht ha hb hptr

theorem move_spec {p n : Nat} {h₁ : Heap} {bs₁ : List Block} (hsmall : b.size<n)
    (ht₁ : Tracks ⟨h₁, ⟨p, n⟩::s.live⟩ bs₁) (hb₁ : b∈liveBlocks bs₁)
    (hkeeps : ∀ c∈s.live, ∀ x, c.Byte x → h₁.mem x=s.heap.mem x) :
    ∃ h' bs', hfree a.ptr (h₁.memcpy p a.ptr b.size)=some h' ∧
      Tracks ⟨h', ⟨p, n⟩::s.live.filter fun c => c.ptr≠a.ptr⟩ bs' ∧ p≠a.ptr ∧
      (∀ i, i < min a.size n → h'.mem (p + i)=s.heap.mem (a.ptr + i)) ∧
      (∀ c∈s.live, c.ptr≠a.ptr → ∀ x, c.Byte x → h'.mem x=s.heap.mem x) ∧
      FreeOnce bs' b := by
  have hnew : (⟨p,n⟩ : Allocation)∈(⟨p,n⟩::s.live : List Allocation) := by simp
  have hold {c : Allocation} (hc : c∈s.live) : c∈(⟨p,n⟩::s.live : List Allocation) := by
    simp [hc]
  have hnodup := ht₁.ptrs_nodup
  simp only [map_cons,nodup_cons,mem_map,not_exists,not_and] at hnodup
  have hpa : p≠a.ptr := fun heq => hnodup.1 a ha heq.symm
  -- after the copy
  have ht₂ : Tracks ⟨h₁.memcpy p a.ptr b.size,⟨p,n⟩::s.live⟩ bs₁ :=
    ht₁.memcpy hnew a.ptr (Nat.le_of_lt hsmall)
  have hcopied : ∀ i, i<b.size → (h₁.memcpy p a.ptr b.size).mem (p+i)=h₁.mem (a.ptr+i) := by
    intro i hi
    refine copyBytes_apply h₁.mem ?_ hi
    have hap := ht₁.apart hnew hpa hb₁ hptr
    simp only at hap
    omega
  have hother : ∀ c∈s.live, ∀ x, c.Byte x →
      (h₁.memcpy p a.ptr b.size).mem x=s.heap.mem x := by
    intro c hc x hx
    rw [← hkeeps c hc x hx]
    refine copyBytes_agree h₁.mem p a.ptr b.size x fun hx' => ?_
    obtain ⟨d,hd,hdptr,hroom⟩ := ht₁.room ⟨p,n⟩ hnew
    have hap := ht₁.apart (hold hc) (fun heq => hnodup.1 c hc heq) hd hdptr
    unfold Allocation.Byte InRange at hx
    unfold InRange at hx'
    simp only at hap hroom
    omega
  -- after the release
  obtain ⟨xs,b',ys,s',bs',hbs,hocc,hptr',hstep,ht',hstay,hco⟩ := ht₂.hfree (hold ha)
  have hb' : b'=b := by
    have hmem : b'∈liveBlocks bs₁ := mem_liveBlocks.mpr ⟨by simp [hbs],hocc⟩
    by_contra hne
    have hap := ht₁.wellFormed.layout.tiles.apart (mem_of_mem_filter hmem)
      (mem_of_mem_filter hb₁) hne
    unfold Block.stop at hap
    unfold Block.payload at hptr hptr'
    omega
  subst hb'
  obtain ⟨h',hrun,rfl⟩ : ∃ h', hfree a.ptr (h₁.memcpy p a.ptr b'.size)=some h' ∧
      s'=⟨h',⟨p,n⟩::s.live.filter fun c => c.ptr≠a.ptr⟩ := by
    simp only [step,Option.bind_eq_bind,Option.bind_eq_some_iff,Option.pure_def,
      Option.some.injEq] at hstep
    obtain ⟨h',hrun,rfl⟩ := hstep
    refine ⟨h',hrun,?_⟩
    rw [filter_cons_of_pos (by simpa using hpa)]
  obtain ⟨d,hd,hdptr,hroom⟩ := ht.room a ha
  have hsize : a.size≤b'.size := by
    by_cases hdb : d=b'
    · exact hdb ▸ hroom
    · have hap := ht.wellFormed.layout.tiles.apart (mem_of_mem_filter hd)
        (mem_of_mem_filter hb) hdb
      unfold Block.stop at hap
      unfold Block.payload at hptr hdptr
      omega
  refine ⟨h',bs',hrun,ht',hpa,?_,?_,?_⟩
  · intro i hi
    have hkept := hstay.bytes ⟨p,n⟩ hnew (fun heq => hpa heq.symm) (p+i) (by
      unfold Allocation.Byte InRange
      simp only
      omega)
    rw [hkept,hcopied i (by omega)]
    refine hkeeps a ha _ ?_
    unfold Allocation.Byte InRange
    omega
  · intro c hc hne x hx
    rw [hstay.bytes c (hold hc) (fun heq => hne heq.symm) x hx,hother c hc x hx]
  · obtain ⟨c,hc,hf,hfoot,hhead⟩ := hco.kept { b' with free := true } (by simp) rfl
    refine ht'.wellFormed.freeOnce hc hf ?_ ?_
    · unfold Block.payload at hhead
      simp only at hhead
      omega
    · unfold Block.foot at hfoot
      unfold Block.stop
      simp only at hfoot
      omega

end Call

/-- `realloc` of a live pointer returns `NULL` and changes no allocation, or a live allocation of
`n` bytes that starts with the old contents; after a move the old block is free. -/
theorem realloc_keeps_contents (ht : Tracks s bs) (ha : a ∈ s.live) (answer : MapAnswer) {n : Nat}
    (hn : 0 < n) :
    ∃ p h' bs', realloc answer a.ptr n s.heap = some (p, h') ∧
      ((p = 0 ∧ Tracks ⟨h', s.live⟩ bs' ∧
          ∀ c ∈ s.live, ∀ x, c.Byte x → h'.mem x = s.heap.mem x) ∨
        (p ≠ 0 ∧ Tracks ⟨h', ⟨p, n⟩ :: s.live.filter fun c => c.ptr ≠ a.ptr⟩ bs' ∧
          (∀ i, i < min a.size n → h'.mem (p + i) = s.heap.mem (a.ptr + i)) ∧
          (∀ c ∈ s.live, c.ptr ≠ a.ptr → ∀ x, c.Byte x → h'.mem x = s.heap.mem x) ∧
          (p ≠ a.ptr → ∃ b ∈ liveBlocks bs, b.payload = a.ptr ∧ FreeOnce bs' b))) := by
  obtain ⟨b,hb,hptr,-⟩ := ht.block ha
  have ha0 := ht.ptr_pos ha
  have husable := ht.usableSize hb hptr
  by_cases hroom : n≤b.size
  · refine ⟨a.ptr,s.heap,bs,?_,.inr ⟨ha0,ht.resize ha hb hptr hroom,?_,?_,?_⟩⟩
    · simp [realloc,ha0,hn.ne',husable,hroom]
    · exact fun i _ => rfl
    · exact fun c _ _ x _ => rfl
    · exact fun hne => absurd rfl hne
  · obtain ⟨p,h₁,bs₁,hmalloc,halloc⟩ := hmalloc_spec ht.wellFormed answer n
    have hrun : realloc answer a.ptr n s.heap =
        if p=0 then some (0, h₁)
        else (hfree a.ptr (if b.size > 0 then h₁.memcpy p a.ptr b.size else h₁)).bind fun h =>
          some (p, h) := by
      simp only [realloc,if_neg ha0,if_neg hn.ne',husable,ge_iff_le,if_neg hroom,hmalloc,
        Option.bind_eq_bind,Option.bind_some,Option.pure_def]
    have hbytes : ∀ c∈s.live, ∀ x, c.Byte x → h₁.mem x=s.heap.mem x := fun c hc =>
      ht.bytes_kept hc fun d hd _ => halloc.untouched d hd
    have hzero : (if b.size > 0 then h₁.memcpy p a.ptr b.size else h₁) =
        h₁.memcpy p a.ptr b.size := by
      split_ifs with hpos
      · rfl
      · rw [Nat.eq_zero_of_not_pos hpos]
        rfl
    obtain ⟨s₁,bs₁',hstep,ht₁,-⟩ := step_hmalloc ht n answer
    have hs₁ : s₁=⟨h₁,if p=0 then s.live else ⟨p,n⟩::s.live⟩ := by
      simpa [step,hmalloc] using hstep.symm
    rw [hs₁] at ht₁
    by_cases hp : p=0
    · refine ⟨0,h₁,bs₁',by rw [hrun,if_pos hp],.inl ⟨rfl,?_,hbytes⟩⟩
      simpa [hp] using ht₁
    · rw [if_neg hp] at ht₁
      have hbs : bs₁'=bs₁ := ht₁.wellFormed.layout.unique halloc.wellFormed.layout
      subst hbs
      have hb₁ : b∈liveBlocks bs₁' := by
        rcases halloc.result with ⟨hp',-⟩ | ⟨us,d,vs,hold,hnew,-⟩
        · exact absurd hp' hp
        · rw [hold] at hb
          rw [hnew]
          simp only [mem_append,mem_cons] at hb ⊢
          tauto
      obtain ⟨h',bs',hfree,ht',hpa,hcopied,hothers,honce⟩ :=
        move_spec ht ha hb hptr (Nat.lt_of_not_le hroom) ht₁ hb₁ hbytes
      refine ⟨p,h',bs',?_,.inr ⟨hp,ht',hcopied,hothers,fun _ => ⟨b,hb,hptr,honce⟩⟩⟩
      rw [hrun,if_neg hp,hzero,hfree]
      rfl

private def twoHeld : Option State :=
  run step (initial ⟨4096, by decide, by decide⟩ ⟨fun _ => 0, 0, 0, 0, 0, false⟩)
    [.hmalloc 10 .refuse, .hmalloc 24 .refuse]

theorem realloc_keeps_contents_moved :
    ∃ s bs, twoHeld = some s ∧ Tracks s bs ∧ ⟨4121, 10⟩ ∈ s.live ∧
      ∃ p h' bs', realloc .refuse 4121 100 s.heap = some (p, h') ∧ p ≠ 0 ∧ p ≠ 4121 ∧
        (∀ i, i < 10 → h'.mem (p + i) = s.heap.mem (4121 + i)) ∧
        ∃ b ∈ liveBlocks bs, b.payload = 4121 ∧ FreeOnce bs' b := by
  have hallowed : Permitted step Allowed
      (initial ⟨4096,by decide,by decide⟩ ⟨fun _ => 0,0,0,0,0,false⟩)
      [.hmalloc 10 .refuse,.hmalloc 24 .refuse] :=
    ⟨True.intro,fun _ _ => ⟨True.intro,fun _ _ => True.intro⟩⟩
  obtain ⟨s,hs,bs,ht⟩ := run_tracks (initial_tracks _ _) hallowed
  have hlive : ⟨4121,10⟩∈s.live := by
    have hmap : twoHeld.map State.live=some [⟨4164,24⟩,⟨4121,10⟩] := by decide +kernel
    rw [twoHeld,hs] at hmap
    rw [Option.some.inj hmap]
    simp
  obtain ⟨p,h',bs',hrun,hres⟩ := realloc_keeps_contents ht hlive .refuse
    (by decide : 0<100)
  have hp : p=4221 := by
    have hmap : (twoHeld.bind fun s => (realloc .refuse 4121 100 s.heap).map Prod.fst) =
        some 4221 := by decide +kernel
    rw [twoHeld,hs] at hmap
    simp only [Option.bind_some] at hmap
    rw [hrun] at hmap
    exact Option.some.inj hmap
  subst hp
  refine ⟨s,bs,hs,ht,hlive,4221,h',bs',hrun,by decide,by decide,?_⟩
  rcases hres with ⟨hzero,-⟩ | ⟨-,-,hcopied,-,hfree⟩
  · cases hzero
  · exact ⟨fun i hi => hcopied i (by simpa using hi.trans_le (by decide)),hfree (by decide)⟩

end Hojicha.Hmalloc
