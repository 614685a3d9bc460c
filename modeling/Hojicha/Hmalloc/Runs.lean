import Hojicha.Framework.Run
import Hojicha.Hmalloc.Malloc

/-!
# Histories of allocator calls

Any sequence of calls from the fresh heap on. Clients free what they hold, and write inside their
own allocations.
-/

namespace Hojicha.Hmalloc

open Framework List Block

/-- The first pages of the heap: not at `NULL` and inside the address space. -/
structure HeapRegion where
  addr : Nat
  pos : 0 < addr
  fits : addr + 5 * 4096 ≤ 2 ^ 64

/-- What `hmalloc(size)` returned and was not freed since. -/
structure Allocation where
  ptr : Nat
  size : Nat
deriving DecidableEq

def Allocation.Byte (a : Allocation) (x : Nat) : Prop := InRange a.ptr a.size x

structure State where
  heap : Heap
  live : List Allocation

def initial (region : HeapRegion) (h : Heap) : State := ⟨(hmallocInitialize region.addr h).2, []⟩

inductive Call where
  | hmalloc (size : Nat) (answer : MapAnswer)
  | hfree (ptr : Nat)
  | write (addr : Nat) (value : UInt8)

def Allowed (s : State) : Call → Prop
  | .hmalloc _ _ => True
  | .hfree ptr => ptr = 0 ∨ ∃ a ∈ s.live, a.ptr = ptr
  | .write addr _ => ∃ a ∈ s.live, InRange a.ptr a.size addr

instance (s : State) : (c : Call) → Decidable (Allowed s c)
  | .hmalloc _ _ => inferInstanceAs (Decidable True)
  | .hfree _ => inferInstanceAs (Decidable (_ ∨ _))
  | .write _ _ => inferInstanceAs (Decidable (∃ a ∈ s.live, _))

def step (s : State) : Call → Option State
  | .hmalloc size answer => do
    let (p, h) ← hmalloc answer size s.heap
    return ⟨h, if p = 0 then s.live else ⟨p, size⟩ :: s.live⟩
  | .hfree ptr => do
    let h ← hfree ptr s.heap
    return ⟨h, s.live.filter fun a => a.ptr ≠ ptr⟩
  | .write addr value =>
    some ⟨{ s.heap with mem := storeByte s.heap.mem addr value }, s.live⟩

def Call.Concerns (a : Allocation) : Call → Prop
  | .hmalloc _ _ => False
  | .hfree ptr => ptr = a.ptr
  | .write addr _ => a.Byte addr

/-- The occupied blocks of the heap are exactly the allocations that clients hold. -/
structure Tracks (s : State) (bs : List Block) : Prop where
  wellFormed : WellFormed s.heap bs
  owned : (s.live.map (·.ptr)).Perm ((liveBlocks bs).map (·.payload))
  room : ∀ a ∈ s.live, ∃ b ∈ liveBlocks bs, b.payload = a.ptr ∧ a.size ≤ b.size

variable {s s' : State} {bs : List Block} {b : Block} {h : Heap}

private theorem initializeHeapRegion_eq {start pages : Nat} (h : Heap) (hpos : 0<start)
    (hpages : 0<pages) (hfits : start + pages * 4096≤2 ^ 64) :
    ∃ v, (initializeHeapRegion start pages h).2 = { appendBlock { h with
        freeRegions := start, firstAvailableVaddr := start }
      ⟨start, pages * 4096 - 33, true⟩ with heapGrowSize := v, heapInitialized := true } := by
  have hne : start≠0 := hpos.ne'
  have hsize : wrapSub (wrapSub (wrap (pages * 4096)) 25) 8=pages * 4096-33 := by
    unfold wrapSub wrap
    omega
  have hfoot : wrap (start+25+(pages * 4096-33))=start+25+(pages * 4096-33) :=
    Nat.mod_eq_of_lt (by omega)
  by_cases hgrow : h.heapGrowSize<MAX_GROW_SIZE <;>
    simp (disch := omega) only [initializeHeapRegion,pageToAddrBase,Heap.setFreeRegions,
      Heap.setIsFree,Heap.setSizeBytes,Heap.setNext,Heap.setHeader,Heap.setFooter,
      Heap.setLastFooter,Heap.sizeBytes,hne,hgrow,if_false,if_true,hsize,hfoot,
      PAGE_SIZE,SIZEOF_HEADER,SIZEOF_FOOTER,load64_store64,load64_store64_of_apart,
      appendBlock,foot]
  · exact ⟨_,rfl⟩
  · exact ⟨_,rfl⟩

theorem initializeHeapRegion_wellFormed {start pages : Nat} (h : Heap) (hpos : 0<start)
    (hpages : 0<pages) (hfits : start + pages * 4096≤2 ^ 64) :
    WellFormed (initializeHeapRegion start pages h).2 [⟨start, pages * 4096 - 33, true⟩] := by
  obtain ⟨v,heq⟩ := initializeHeapRegion_eq h hpos hpages hfits
  obtain ⟨n,hn⟩ : ∃ n : Block, n=⟨start,pages * 4096-33,true⟩ := ⟨_,rfl⟩
  have haddr : n.addr=start := by rw [hn]
  have hfree : n.free=true := by rw [hn]
  have htop : n.stop≤2 ^ 64 := by
    simp only [hn,stop]
    omega
  have hfoot : n.foot+8=n.stop := by
    unfold foot stop
    omega
  rw [heq,← hn]
  obtain ⟨hst,-⟩ := appendBlock_spec (h := { h with
    freeRegions := start, firstAvailableVaddr := start }) n hfree htop
  refine ⟨by simp,⟨rfl,hpos,⟨haddr,hfoot.symm⟩,?_,?_⟩,?_,?_⟩
  · exact hfoot ▸ htop
  · intro d hd
    obtain rfl := mem_singleton.mp hd
    exact hst.of_untouched fun _ _ => rfl
  · have hlist : freeAddrs [n]=[start] := by simp [freeAddrs,hfree,haddr]
    rw [hlist]
    refine ⟨⟨rfl,haddr ▸ appendBlock_next n⟩,by simp,?_⟩
    intro a ha
    obtain rfl := mem_singleton.mp ha
    refine ⟨hpos,?_⟩
    show a+25≤n.addr+25+n.size
    omega
  · exact .singleton n

theorem initial_tracks (region : HeapRegion) (h : Heap) :
    ∃ bs, Tracks (initial region h) bs := by
  have hw := initializeHeapRegion_wellFormed { h with heapGrowSize := 5 } region.pos
    (by decide : 0<5) region.fits
  exact ⟨_,hw,by simp [initial,liveBlocks],by simp [initial]⟩

theorem mem_liveBlocks : b∈liveBlocks bs ↔ b∈bs ∧ b.free=false := by
  simp [liveBlocks]

theorem Layout.payloads_nodup (hl : Layout h bs) :
    ((liveBlocks bs).map (·.payload)).Nodup := by
  refine pairwise_map.mpr ((hl.tiles.sorted.sublist filter_sublist).imp ?_)
  intro b c hbc
  unfold stop at hbc
  unfold payload
  omega

theorem Tracks.block (ht : Tracks s bs) {a : Allocation} (ha : a∈s.live) :
    ∃ b∈liveBlocks bs, b.payload=a.ptr ∧ ∀ x, a.Byte x → b.PayloadByte x := by
  obtain ⟨b,hb,hptr,hsize⟩ := ht.room a ha
  refine ⟨b,hb,hptr,fun x hx => ?_⟩
  unfold Allocation.Byte InRange at hx
  unfold Block.PayloadByte InRange
  omega

theorem Tracks.ptr_pos (ht : Tracks s bs) {a : Allocation} (ha : a∈s.live) : a.ptr≠0 := by
  obtain ⟨b,-,hptr,-⟩ := ht.block ha
  unfold payload at hptr
  omega

/-- A call that touches no occupied block of `bs` other than those in `ds` keeps the bytes of the
allocations that are not in `ds`. -/
theorem Tracks.bytes_kept (ht : Tracks s bs) {h' : Heap} {a : Allocation} (ha : a∈s.live)
    (hu : ∀ d∈liveBlocks bs, d.payload=a.ptr → Untouched s.heap h' d) :
    ∀ x, a.Byte x → h'.mem x=s.heap.mem x := by
  obtain ⟨b,hb,hptr,hin⟩ := ht.block ha
  exact fun x hx => hu b hb hptr x (hin x hx).own

structure StepKeeps (s s' : State) (c : Call) : Prop where
  live : ∀ a ∈ s.live, ¬ c.Concerns a → a ∈ s'.live
  bytes : ∀ a ∈ s.live, ¬ c.Concerns a → ∀ x, a.Byte x → s'.heap.mem x = s.heap.mem x

theorem step_hmalloc (ht : Tracks s bs) (size : Nat) (answer : MapAnswer) :
    ∃ s' bs', step s (.hmalloc size answer)=some s' ∧ Tracks s' bs' ∧
      StepKeeps s s' (.hmalloc size answer) := by
  obtain ⟨p,h',bs',hrun,ha⟩ := hmalloc_spec ht.wellFormed answer size
  have hbytes : ∀ a∈s.live, ∀ x, a.Byte x → h'.mem x=s.heap.mem x := fun a hal =>
    ht.bytes_kept hal fun d hd _ => ha.untouched d hd
  rcases ha.result with ⟨rfl,hlive⟩ | ⟨us,b,vs,hold,hnew,rfl,hsize,hocc⟩
  · refine ⟨⟨h',s.live⟩,bs',by simp [step,hrun],⟨ha.wellFormed,?_,?_⟩,
      fun a hal _ => hal,fun a hal _ => hbytes a hal⟩
    · exact hlive ▸ ht.owned
    · exact hlive ▸ ht.room
  · have hp : b.payload≠0 := by
      unfold payload
      omega
    refine ⟨⟨h',⟨b.payload,size⟩::s.live⟩,bs',by simp [step,hrun,hp],
      ⟨ha.wellFormed,?_,?_⟩,fun a hal _ => mem_cons_of_mem _ hal,
      fun a hal _ => hbytes a hal⟩
    · rw [hnew,map_append,map_cons,map_cons]
      refine (List.Perm.cons _ ?_).trans perm_middle.symm
      simpa [hold] using ht.owned
    · intro a hal
      rw [hnew]
      rcases mem_cons.mp hal with rfl | hal
      · exact ⟨b,by simp,rfl,hsize⟩
      · obtain ⟨d,hd,hptr,hroom⟩ := ht.room a hal
        rw [hold] at hd
        refine ⟨d,?_,hptr,hroom⟩
        simp only [mem_append,mem_cons] at hd ⊢
        tauto

theorem step_hfree (ht : Tracks s bs) {ptr : Nat} (hal : Allowed s (.hfree ptr)) :
    ∃ s' bs', step s (.hfree ptr)=some s' ∧ Tracks s' bs' ∧ StepKeeps s s' (.hfree ptr) := by
  rcases hal with rfl | ⟨a,ha,rfl⟩
  · have hall : s.live.filter (fun a => a.ptr≠0)=s.live :=
      filter_eq_self.mpr fun a ha => by simpa using ht.ptr_pos ha
    refine ⟨s,bs,?_,ht,fun a ha _ => ha,fun a _ _ x _ => rfl⟩
    simp only [step,hfree,hall]
    rfl
  · obtain ⟨b,hb,hptr,-⟩ := ht.room a ha
    obtain ⟨hmem,hocc⟩ := mem_liveBlocks.mp hb
    obtain ⟨xs,ys,rfl⟩ := append_of_mem hmem
    obtain ⟨h',bs',hrun,hw',hlive,-,hu,-⟩ := hfree_spec ht.wellFormed hocc
    rw [hptr] at hrun
    have hsplit : liveBlocks (xs++b::ys)=liveBlocks xs++b::liveBlocks ys := by
      simp [liveBlocks_cons,hocc]
    have hne : ∀ d∈liveBlocks (xs++ys), d.payload≠a.ptr := by
      intro d hd heq
      have hnodup := ht.wellFormed.layout.payloads_nodup
      rw [hsplit,map_append,map_cons,nodup_middle,nodup_cons] at hnodup
      refine hnodup.1 (mem_append.mpr ?_)
      rw [hptr,← heq]
      rw [liveBlocks_append,mem_append] at hd
      exact hd.imp mem_map_of_mem mem_map_of_mem
    have hothers : (liveBlocks (xs++b::ys)).filter (fun d => d.payload≠a.ptr) =
        liveBlocks (xs++ys) := by
      rw [hsplit,filter_append,filter_cons_of_neg (by simp [hptr]),liveBlocks_append,
        ← filter_append,← liveBlocks_append]
      exact filter_eq_self.mpr fun d hd => by simpa using hne d hd
    have hmem' : ∀ d∈liveBlocks (xs++b::ys), d.payload≠a.ptr →
        d∈liveBlocks (xs++ys) := fun d hd hdp => by
      rw [← hothers]
      exact mem_filter.mpr ⟨hd,by simpa using hdp⟩
    refine ⟨⟨h',s.live.filter fun c => c.ptr≠a.ptr⟩,bs',by simp [step,hrun],⟨hw',?_,?_⟩,?_,?_⟩
    · have hperm := ht.owned.filter (fun q => q≠a.ptr)
      rw [filter_map,filter_map] at hperm
      rw [hlive,← hothers]
      exact hperm
    · intro c hc
      obtain ⟨hcl,hcp⟩ := mem_filter.mp hc
      obtain ⟨d,hd,hdp,hroom⟩ := ht.room c hcl
      exact ⟨d,hlive ▸ hmem' d hd (by simpa [hdp] using hcp),hdp,hroom⟩
    · intro c hc hcon
      exact mem_filter.mpr ⟨hc,decide_eq_true fun heq => hcon heq.symm⟩
    · intro c hc hcon
      exact ht.bytes_kept hc fun d hd hdp =>
        hu d (hmem' d hd fun heq => hcon (heq.symm.trans hdp))

theorem Stored.of_payload {h' : Heap} (hs : Stored h b)
    (hag : AgreeOff b.PayloadByte h.mem h'.mem) : Stored h' b := by
  have hload (a : Nat) (ha : ∀ x, b.PayloadByte x → ¬ InRange a 8 x) :
      load64 h'.mem a=load64 h.mem a := hag.load64 a ha
  have hbyte : h'.mem b.addr=h.mem b.addr := hag b.addr fun hx => by
    unfold Block.PayloadByte payload InRange at hx
    omega
  refine ⟨?_,(hload _ ?_).trans hs.sizeBytes,(hload _ ?_).trans hs.footer,
    (hload _ ?_).trans hs.header⟩
  · simpa only [Heap.isFree,hbyte] using hs.isFree
  all_goals
    intro x hx hx'
    simp only [Block.PayloadByte,payload,foot,InRange] at hx hx'
    omega

theorem WellFormed.write (hw : WellFormed h bs) (hb : b∈liveBlocks bs)
    {x : Nat} (hx : b.PayloadByte x) (v : UInt8) :
    WellFormed { h with mem := storeByte h.mem x v } bs ∧
      ∀ d∈bs, d≠b → Untouched h { h with mem := storeByte h.mem x v } d := by
  obtain ⟨hmem,hocc⟩ := mem_liveBlocks.mp hb
  have hag : AgreeOff b.PayloadByte h.mem (storeByte h.mem x v) :=
    (storeByte_agree h.mem x v).mono fun y hy => by
      obtain rfl : y=x := by unfold InRange at hy; omega
      exact hx
  have hu : ∀ d∈bs, d≠b → Untouched h { h with mem := storeByte h.mem x v } d := by
    intro d hd hne
    refine .of_agree hag fun y hy hown => ?_
    have hap := hw.layout.tiles.apart hd hmem hne
    unfold stop at hap
    unfold Block.PayloadByte payload InRange at hy
    unfold Block.OwnByte InRange at hown
    omega
  refine ⟨⟨hw.nonempty,⟨hw.layout.initialized,hw.layout.start_pos,hw.layout.tiles,
    hw.layout.top,?_⟩,?_,hw.coalesced⟩,hu⟩
  · intro d hd
    by_cases hdb : d=b
    · exact hdb ▸ (hw.layout.stored b hmem).of_payload hag
    · exact (hw.layout.stored d hd).of_untouched (hu d hd hdb)
  · refine hw.freeList.of_agree ⟨rfl,rfl,rfl⟩ rfl hag fun c hc y hy hy' => ?_
    obtain ⟨d,hd,hfree,rfl⟩ := mem_freeAddrs.mp hc
    have hne : d≠b := by
      rintro rfl
      simp [hocc] at hfree
    have hap := hw.layout.tiles.apart hd hmem hne
    unfold stop at hap
    unfold Block.PayloadByte payload InRange at hy
    unfold InRange at hy'
    omega

theorem step_write (ht : Tracks s bs) {addr : Nat} {value : UInt8}
    (hal : Allowed s (.write addr value)) :
    ∃ s' bs', step s (.write addr value)=some s' ∧ Tracks s' bs' ∧
      StepKeeps s s' (.write addr value) := by
  obtain ⟨a,ha,hx⟩ := hal
  obtain ⟨b,hb,-,hin⟩ := ht.block ha
  obtain ⟨hw',-⟩ := ht.wellFormed.write hb (hin addr hx) value
  refine ⟨_,bs,rfl,⟨hw',ht.owned,ht.room⟩,fun c hc _ => hc,fun c _ hcon x hcx => ?_⟩
  exact storeByte_apply_of_ne _ _ _ _ fun heq => hcon (heq ▸ hcx)

theorem step_tracks (ht : Tracks s bs) {c : Call} (hal : Allowed s c) :
    ∃ s' bs', step s c=some s' ∧ Tracks s' bs' ∧ StepKeeps s s' c := by
  cases c with
  | hmalloc size answer => exact step_hmalloc ht size answer
  | hfree ptr => exact step_hfree ht hal
  | write addr value => exact step_write ht hal

theorem run_tracks {cs : List Call} (hs : ∃ bs, Tracks s bs)
    (hp : Permitted step Allowed s cs) : ∃ s', run step s cs=some s' ∧ ∃ bs, Tracks s' bs := by
  refine run_invariant (fun s => ∃ bs, Tracks s bs) ?_ hs hp
  rintro s c ⟨bs,ht⟩ hal
  obtain ⟨s',bs',hrun,ht',-⟩ := step_tracks ht hal
  exact ⟨s',hrun,bs',ht'⟩

theorem run_keeps {cs : List Call} (hs : ∃ bs, Tracks s bs) (hp : Permitted step Allowed s cs)
    {a : Allocation} (ha : a∈s.live) (hcs : ∀ c∈cs, ¬ c.Concerns a) (hrun : run step s cs=some s') :
    a∈s'.live ∧ ∀ x, a.Byte x → s'.heap.mem x=s.heap.mem x := by
  have hstep : ∀ t c, ((∃ bs, Tracks t bs) ∧ a∈t.live ∧
      ∀ x, a.Byte x → t.heap.mem x=s.heap.mem x) → Allowed t c ∧ ¬ c.Concerns a →
      ∃ t', step t c=some t' ∧ (∃ bs, Tracks t' bs) ∧ a∈t'.live ∧
        ∀ x, a.Byte x → t'.heap.mem x=s.heap.mem x := by
    rintro t c ⟨⟨bs,ht⟩,hlive,hbytes⟩ ⟨hal,hcon⟩
    obtain ⟨t',bs',hstep,ht',hk⟩ := step_tracks ht hal
    refine ⟨t',hstep,⟨bs',ht'⟩,hk.live a hlive hcon,fun x hx => ?_⟩
    rw [hk.bytes a hlive hcon x hx,hbytes x hx]
  obtain ⟨t,hrun',-,hlive,hbytes⟩ :=
    run_invariant _ hstep ⟨hs,ha,fun _ _ => rfl⟩ (hp.and hcs)
  obtain rfl : s'=t := Option.some.inj (hrun.symm.trans hrun')
  exact ⟨hlive,hbytes⟩

theorem Tracks.inside (ht : Tracks s bs) {a : Allocation} (ha : a∈s.live) :
    s.heap.firstAvailableVaddr≤a.ptr ∧ a.ptr + a.size ≤ s.heap.lastFooter := by
  obtain ⟨b,hb,hptr,hroom⟩ := ht.room a ha
  have hin := ht.wellFormed.layout.tiles.bounds (mem_liveBlocks.mp hb).1
  unfold stop at hin
  unfold payload at hptr
  omega

theorem Tracks.disjoint (ht : Tracks s bs) :
    s.live.Pairwise fun a b => ∀ x, a.Byte x → ¬ b.Byte x := by
  have hnodup := ht.owned.nodup_iff.mpr ht.wellFormed.layout.payloads_nodup
  refine (pairwise_map.mp hnodup).imp_of_mem fun ha hb hne x hxa hxb => ?_
  obtain ⟨c,hc,hcp,hcin⟩ := ht.block ha
  obtain ⟨d,hd,hdp,hdin⟩ := ht.block hb
  have hcd : c≠d := by
    rintro rfl
    exact hne (hcp.symm.trans hdp)
  have hap := ht.wellFormed.layout.tiles.apart (mem_liveBlocks.mp hc).1 (mem_liveBlocks.mp hd).1 hcd
  have hxc := hcin x hxa
  have hxd := hdin x hxb
  unfold stop at hap
  unfold Block.PayloadByte payload InRange at hxc hxd
  omega

theorem allocations_isolated (region : HeapRegion) (h : Heap) (before after : List Call)
    (hp : Permitted step Allowed (initial region h) (before ++ after)) :
    ∃ s s', run step (initial region h) before = some s ∧ run step s after = some s' ∧
      (∀ a ∈ s.live,
        s.heap.firstAvailableVaddr ≤ a.ptr ∧ a.ptr + a.size ≤ s.heap.lastFooter + 8) ∧
      (s.live.Pairwise fun a b => ∀ x, a.Byte x → ¬ b.Byte x) ∧
      ∀ a ∈ s.live, (∀ c ∈ after, ¬ c.Concerns a) →
        a ∈ s'.live ∧ ∀ x, a.Byte x → s'.heap.mem x = s.heap.mem x := by
  obtain ⟨s,hrun,bs,ht⟩ := run_tracks (initial_tracks region h) hp.append_left
  have hafter := hp.append_right hrun
  obtain ⟨s',hrun',-⟩ := run_tracks ⟨bs,ht⟩ hafter
  refine ⟨s,s',hrun,hrun',fun a ha => ?_,ht.disjoint,fun a ha hcs => ?_⟩
  · have hin := ht.inside ha
    omega
  · exact run_keeps ⟨bs,ht⟩ hafter ha hcs hrun'

private def blankHeap : Heap := ⟨fun _ => 0, 0, 0, 0, 0, false⟩

private def sampleCalls : List Call :=
  [.hmalloc 10 .refuse, .hmalloc 24 .refuse, .hfree 4164, .hmalloc 7 .refuse, .write 4164 255]

theorem allocations_isolated_sample :
    ∃ s s', run step (initial ⟨4096, by decide, by decide⟩ blankHeap) (sampleCalls.take 2) = some s ∧
      run step s (sampleCalls.drop 2) = some s' ∧
      (∀ a ∈ s.live,
        s.heap.firstAvailableVaddr ≤ a.ptr ∧ a.ptr + a.size ≤ s.heap.lastFooter + 8) ∧
      (s.live.Pairwise fun a b => ∀ x, a.Byte x → ¬ b.Byte x) ∧
      ∀ a ∈ s.live, (∀ c ∈ sampleCalls.drop 2, ¬ c.Concerns a) →
        a ∈ s'.live ∧ ∀ x, a.Byte x → s'.heap.mem x = s.heap.mem x :=
  allocations_isolated ⟨4096,by decide,by decide⟩ blankHeap _ _ (by decide +kernel)

theorem growHeapBy_wellFormed (hw : WellFormed h bs) (answer : MapAnswer)
    (pages : Nat) :
    ∃ p h', growHeapBy answer pages h=some (p, h') ∧ ∃ bs', WellFormed h' bs' := by
  rcases growHeapBy_spec hw answer pages with hrun | ⟨h',xs,b,hrun,hw',-⟩
  · exact ⟨0,h,hrun,bs,hw⟩
  · exact ⟨b.addr,h',hrun,_,hw'⟩

/-- The heap is well formed after every call, and after every growth from there, granted or not. -/
theorem heap_stays_wellFormed (region : HeapRegion) (h : Heap) (calls : List Call)
    (hp : Permitted step Allowed (initial region h) calls) :
    ∃ s, run step (initial region h) calls = some s ∧ (∃ bs, WellFormed s.heap bs) ∧
      (∀ answer pages, ∃ p h', growHeapBy answer pages s.heap = some (p, h') ∧
        ∃ bs, WellFormed h' bs) ∧
      ∀ answer, ∃ p h', growHeap answer s.heap = some (p, h') ∧ ∃ bs, WellFormed h' bs := by
  obtain ⟨s,hrun,bs,ht⟩ := run_tracks (initial_tracks region h) hp
  exact ⟨s,hrun,⟨bs,ht.wellFormed⟩,
    fun answer pages => growHeapBy_wellFormed ht.wellFormed answer pages,
    fun answer => growHeapBy_wellFormed (ht.wellFormed.setHeapGrowSize _) answer _⟩

private def growingCalls : List Call :=
  [.hmalloc 100 .refuse, .hmalloc 50000 (.grant fun _ => 170), .hmalloc 50000 .refuse,
    .hfree 4121, .hfree 4254]

theorem heap_stays_wellFormed_growing :
    ∃ s, run step (initial ⟨4096, by decide, by decide⟩ blankHeap) growingCalls = some s ∧
      (∃ bs, WellFormed s.heap bs) ∧
      (∀ answer pages, ∃ p h', growHeapBy answer pages s.heap = some (p, h') ∧
        ∃ bs, WellFormed h' bs) ∧
      ∀ answer, ∃ p h', growHeap answer s.heap = some (p, h') ∧ ∃ bs, WellFormed h' bs :=
  heap_stays_wellFormed ⟨4096,by decide,by decide⟩ blankHeap _ (by decide +kernel)

/-- In a coalesced chain a live block follows every free block but the last. -/
theorem NoAdjacentFree.length_le (h : NoAdjacentFree bs) :
    (freeAddrs bs).length≤(liveBlocks bs).length+1 ∧
      ∀ b∈bs.head?, b.free=false → (freeAddrs bs).length≤(liveBlocks bs).length := by
  induction bs with
  | nil => simp [freeAddrs,liveBlocks]
  | cons b bs ih =>
    have ih := ih h.tail
    cases hb : b.free with
    | false =>
      simp [freeAddrs,liveBlocks,hb] at ih ⊢
      omega
    | true =>
      cases bs with
      | nil => simp [freeAddrs,liveBlocks,hb]
      | cons c bs =>
        have hc : c.free=false := by simpa [hb] using (isChain_cons_cons.mp h).1
        have hle := ih.2 c rfl hc
        simp [freeAddrs,liveBlocks,hb,hc] at hle ⊢
        omega

/-- Over any history the free list has at most one node more than there are allocations, and once
every allocation is freed the whole heap is one free block again. -/
theorem free_list_bounded (region : HeapRegion) (h : Heap) (calls : List Call)
    (hp : Permitted step Allowed (initial region h) calls) :
    ∃ s bs, run step (initial region h) calls = some s ∧ WellFormed s.heap bs ∧
      (freeAddrs bs).length ≤ s.live.length + 1 ∧
      (s.live = [] → ∃ b, bs = [b] ∧ b.free = true) := by
  obtain ⟨s,hrun,bs,ht⟩ := run_tracks (initial_tracks region h) hp
  have hlive := ht.owned.length_eq
  rw [length_map,length_map] at hlive
  have hle := ht.wellFormed.coalesced.length_le.1
  refine ⟨s,bs,hrun,ht.wellFormed,by omega,fun hnone => ?_⟩
  rw [hnone,length_nil,eq_comm,length_eq_zero_iff] at hlive
  have hfree : ∀ b∈bs, b.free=true := by simpa [liveBlocks] using hlive
  have hone : bs.length≤1 := by
    rw [hlive] at hle
    simpa [freeAddrs,filter_eq_self.mpr hfree] using hle
  obtain ⟨b,rfl⟩ := length_eq_one_iff.mp
    (le_antisymm hone (length_pos_iff.mpr ht.wellFormed.nonempty))
  exact ⟨b,rfl,hfree b mem_cons_self⟩

theorem free_list_bounded_growing :
    ∃ s bs, run step (initial ⟨4096, by decide, by decide⟩ blankHeap) growingCalls = some s ∧
      WellFormed s.heap bs ∧ (freeAddrs bs).length ≤ s.live.length + 1 ∧
      (s.live = [] → ∃ b, bs = [b] ∧ b.free = true) :=
  free_list_bounded ⟨4096,by decide,by decide⟩ blankHeap _ (by decide +kernel)

end Hojicha.Hmalloc
