import Hojicha.Hmalloc.Runs

/-!
# Freeing twice

A pointer that has been freed is recognised until the next `hmalloc`: its header is that of a free
block, or coalescing has put it inside of one and erased its footer pointer.
-/

namespace Hojicha.Hmalloc

open Framework

variable {h h' : Heap} {bs bs' : List Block} {p : Nat} {s : State}

/-- The heap determines its blocks. -/
theorem tiles_unique {start stop : Nat} (ht : Tiles start bs stop) (ht' : Tiles start bs' stop)
    (hst : ∀ b∈bs, Stored h b) (hst' : ∀ b∈bs', Stored h b) : bs=bs' := by
  induction bs generalizing start bs' with
  | nil =>
    cases bs' with
    | nil => rfl
    | cons c cs =>
      have hle := ht'.2.le
      have haddr := ht'.1
      unfold Block.stop at hle
      simp only [tiles_nil] at ht
      omega
  | cons b bs ih =>
    cases bs' with
    | nil =>
      have hle := ht.2.le
      have haddr := ht.1
      unfold Block.stop at hle
      simp only [tiles_nil] at ht'
      omega
    | cons c cs =>
      have haddr : b.addr=c.addr := ht.1.trans ht'.1.symm
      have hb := hst b (by simp)
      have hc := hst' c (by simp)
      have hbc : b=c := by
        obtain ⟨addr,size,free⟩ := b
        obtain ⟨addr',size',free'⟩ := c
        obtain rfl : addr=addr' := haddr
        rw [Block.mk.injEq]
        exact ⟨rfl,hb.sizeBytes.symm.trans hc.sizeBytes,hb.isFree.symm.trans hc.isFree⟩
      subst hbc
      rw [ih ht.2 ht'.2 (fun d hd => hst d (by simp [hd])) fun d hd => hst' d (by simp [hd])]

theorem Layout.unique (hl : Layout h bs) (hl' : Layout h bs') : bs=bs' :=
  tiles_unique hl.tiles hl'.tiles hl.stored hl'.stored

/-- Freeing a live pointer coarsens the blocks in which its block is marked free. -/
theorem Tracks.hfree (ht : Tracks s bs) {a : Allocation} (ha : a∈s.live) :
    ∃ xs b ys s' bs', bs=xs++b::ys ∧ b.free=false ∧ b.payload=a.ptr ∧
      step s (.hfree a.ptr)=some s' ∧ Tracks s' bs' ∧ StepKeeps s s' (.hfree a.ptr) ∧
      Coarsens s.heap s'.heap (xs ++ { b with free := true } :: ys) bs' := by
  obtain ⟨s',bs',hstep,ht',hkeeps⟩ := step_hfree ht (.inr ⟨a,ha,rfl⟩)
  obtain ⟨b,hb,hptr,-⟩ := ht.room a ha
  obtain ⟨hmem,hocc⟩ := mem_liveBlocks.mp hb
  obtain ⟨xs,ys,rfl⟩ := List.append_of_mem hmem
  obtain ⟨h',bs'',hrun,hw',-,-,-,hco⟩ := hfree_spec ht.wellFormed hocc
  have hheap : s'.heap=h' := by
    rw [hptr] at hrun
    simp only [step,hrun,Option.pure_def,Option.bind_some,Option.bind_eq_bind,
      Option.some.injEq] at hstep
    rw [← hstep]
  have hbs : bs'=bs'' := by
    have hlay := ht'.wellFormed.layout
    rw [hheap] at hlay
    exact hlay.unique hw'.layout
  subst hbs
  exact ⟨xs,b,ys,s',bs',rfl,hocc,hptr,hstep,ht',hkeeps,hheap ▸ hco⟩

/-- In front of `p` is the header of a free block, or an erased header inside of one. -/
def Spent (h : Heap) (bs : List Block) (p : Nat) : Prop :=
  ∃ c ∈ bs, c.free = true ∧
    (p = c.payload ∨ c.payload + 25 ≤ p ∧ p ≤ c.foot ∧ h.footer (p - 25) = 0)

theorem Spent.hfree (hl : Layout h bs) (hs : Spent h bs p) : hfree p h=some h := by
  obtain ⟨c,hc,hf,hp⟩ := hs
  obtain ⟨xs,ys,rfl⟩ := List.append_of_mem hc
  have hin := hl.bounds
  have htop := hl.top
  unfold Block.stop at hin
  have hsub : wrapSub p SIZEOF_HEADER=p-25 := by
    unfold wrapSub wrap SIZEOF_HEADER
    unfold Block.payload Block.foot at hp
    omega
  have hst := hl.stored c hc
  rw [Hmalloc.hfree,hsub]
  dsimp only
  split_ifs with hnull hout hfooter hfree
  · rfl
  · rfl
  · rfl
  · rfl
  · -- an occupied header with a footer of its own is neither free nor erased
    exfalso
    rcases hp with rfl | ⟨-,-,hzero⟩
    · have haddr : c.payload-25=c.addr := Nat.add_sub_cancel _ _
      rw [haddr,hst.isFree] at hfree
      exact hfree hf
    · rw [hzero] at hfooter
      simp [isFooterInHeap] at hfooter

theorem Spent.not_live (ht : Tracks s bs) (hs : Spent s.heap bs p) {a : Allocation}
    (ha : a∈s.live) : a.ptr≠p := by
  obtain ⟨c,hc,hf,hp⟩ := hs
  obtain ⟨b,hb,hptr,-⟩ := ht.block ha
  obtain ⟨hb,hocc⟩ := mem_liveBlocks.mp hb
  have hne : b≠c := by
    rintro rfl
    rw [hf] at hocc
    cases hocc
  have hap := ht.wellFormed.layout.tiles.apart hb hc hne
  unfold Block.stop at hap
  unfold Block.payload at hptr hp
  unfold Block.foot at hp
  omega

theorem Spent.write {b : Block} (hl : Layout h bs) (hb : b∈liveBlocks bs) {x : Nat}
    (hx : b.PayloadByte x) (v : UInt8) (hs : Spent h bs p) :
    Spent { h with mem := storeByte h.mem x v } bs p := by
  obtain ⟨c,hc,hf,hp⟩ := hs
  obtain ⟨hb,hocc⟩ := mem_liveBlocks.mp hb
  have hne : b≠c := by
    rintro rfl
    rw [hf] at hocc
    cases hocc
  have hap := hl.tiles.apart hb hc hne
  refine ⟨c,hc,hf,hp.imp_right ?_⟩
  rintro ⟨hge,hle,hzero⟩
  refine ⟨hge,hle,?_⟩
  rw [← hzero]
  apply load64_storeByte_of_apart
  unfold Block.stop at hap
  unfold Block.PayloadByte Block.payload InRange at hx
  unfold Block.payload at hge
  unfold Block.foot at hle
  omega

theorem Spent.coarsens {start stop : Nat} (ht : Tiles start bs stop) (hco : Coarsens h h' bs bs')
    (hs : Spent h bs p) : Spent h' bs' p := by
  obtain ⟨c,hc,hf,hp⟩ := hs
  obtain ⟨c',hc',hf',hfoot,hhead⟩ := hco.kept c hc hf
  refine ⟨c',hc',hf',?_⟩
  rcases hp with rfl | ⟨hge,hle,hzero⟩
  · rcases hhead with haddr | ⟨hin,hzero⟩
    · left
      rw [Block.payload,Block.payload,haddr]
    · right
      have haddr : c.payload-25=c.addr := Nat.add_sub_cancel _ _
      rw [haddr]
      unfold Block.payload at hin ⊢
      unfold Block.foot at hfoot ⊢
      exact ⟨by omega,by omega,hzero⟩
  · right
    have hzero' : h'.footer (p-25)=0 := by
      rw [← hzero]
      refine hco.bytes.load64 _ fun x hx hx' => ht.not_bookkeeping hc ?_ hx
      unfold Block.PayloadByte
      unfold Block.payload Block.foot InRange at *
      omega
    unfold Block.payload at hge hhead ⊢
    exact ⟨by omega,by omega,hzero'⟩

/-- The allocator and its clients, and the pointers that were freed since the last `hmalloc`. -/
structure FreeRun where
  state : State
  spent : List Nat

/-- Clients may free again what they have freed since the last `hmalloc`. -/
def FreeRun.Allowed (r : FreeRun) : Call → Prop
  | .hfree ptr => Hmalloc.Allowed r.state (.hfree ptr) ∨ ptr ∈ r.spent
  | c => Hmalloc.Allowed r.state c

instance (r : FreeRun) : (c : Call) → Decidable (r.Allowed c)
  | .hfree ptr => inferInstanceAs (Decidable (Hmalloc.Allowed r.state (.hfree ptr) ∨ ptr ∈ r.spent))
  | .hmalloc size answer =>
    inferInstanceAs (Decidable (Hmalloc.Allowed r.state (.hmalloc size answer)))
  | .write addr value => inferInstanceAs (Decidable (Hmalloc.Allowed r.state (.write addr value)))

def FreeRun.step (r : FreeRun) (c : Call) : Option FreeRun := do
  let state ← Hmalloc.step r.state c
  return ⟨state, match c with
    | .hmalloc _ _ => []
    | .hfree ptr => if ptr = 0 then r.spent else ptr :: r.spent
    | .write _ _ => r.spent⟩

structure FreeRun.Ok (r : FreeRun) (bs : List Block) : Prop where
  tracks : Tracks r.state bs
  spent : ∀ p ∈ r.spent, Spent r.state.heap bs p

section Step

variable {r : FreeRun}

theorem FreeRun.Ok.free (hok : FreeRun.Ok r bs) {a : Allocation} (ha : a∈r.state.live) :
    ∃ state' bs', Hmalloc.step r.state (.hfree a.ptr)=some state' ∧ Tracks state' bs' ∧
      Spent state'.heap bs' a.ptr ∧ ∀ p∈r.spent, Spent state'.heap bs' p := by
  obtain ⟨xs,b,ys,state',bs',rfl,hocc,hptr,hstep,ht',-,hco⟩ := hok.tracks.hfree ha
  refine ⟨state',bs',hstep,ht',?_⟩
  have htiles := (setIsFree_layout hok.tracks.wellFormed.layout true).1.tiles
  constructor
  · refine Spent.coarsens htiles hco ⟨{ b with free := true },by simp,rfl,.inl ?_⟩
    exact hptr.symm
  · intro p hp
    obtain ⟨c,hc,hf,hin⟩ := hok.spent p hp
    refine Spent.coarsens htiles hco ⟨c,?_,hf,hin⟩
    -- the block that is freed was occupied, so it is another one
    have hne : c≠b := by
      rintro rfl
      rw [hf] at hocc
      cases hocc
    simp only [List.mem_append,List.mem_cons] at hc ⊢
    exact hc.imp_right fun hc => .inr (hc.resolve_left hne)

theorem step_hfree_idle (hfree : hfree p s.heap=some s.heap) (hlive : ∀ a∈s.live, a.ptr≠p) :
    step s (.hfree p)=some s := by
  have hkept : s.live.filter (fun a => a.ptr≠p)=s.live := by
    apply List.filter_eq_self.mpr
    intro a ha
    simpa using hlive a ha
  rw [step,hfree]
  simp only [Option.pure_def,Option.bind_some,Option.bind_eq_bind,hkept]

theorem FreeRun.Ok.step {c : Call} (hok : FreeRun.Ok r bs) (hal : r.Allowed c) :
    ∃ r', r.step c=some r' ∧ ∃ bs', FreeRun.Ok r' bs' := by
  cases c with
  | hmalloc size answer =>
    obtain ⟨state',bs',hstep,ht',-⟩ := step_hmalloc hok.tracks size answer
    exact ⟨⟨state',[]⟩,by simp [FreeRun.step,hstep],bs',ht',by simp⟩
  | hfree ptr =>
    by_cases hnull : ptr=0
    · subst hnull
      have hstep : Hmalloc.step r.state (.hfree 0)=some r.state :=
        step_hfree_idle (if_pos (.inl rfl)) fun a ha => hok.tracks.ptr_pos ha
      exact ⟨r,by simp [FreeRun.step,hstep],bs,hok⟩
    · rcases hal with (hzero | ⟨a,ha,rfl⟩) | hspent
      · exact (hnull hzero).elim
      · obtain ⟨state',bs',hstep,ht',hnew,hold⟩ := hok.free ha
        refine ⟨⟨state',a.ptr::r.spent⟩,by simp [FreeRun.step,hstep,hnull],bs',ht',?_⟩
        intro p hp
        rcases List.mem_cons.mp hp with rfl | hp
        · exact hnew
        · exact hold p hp
      · have hs := hok.spent ptr hspent
        have hstep : Hmalloc.step r.state (.hfree ptr)=some r.state :=
          step_hfree_idle (hs.hfree hok.tracks.wellFormed.layout) fun a ha =>
            hs.not_live hok.tracks ha
        refine ⟨⟨r.state,ptr::r.spent⟩,?_,bs,hok.tracks,?_⟩
        · simp [FreeRun.step,hstep,hnull]
        · intro p hp
          rcases List.mem_cons.mp hp with rfl | hp
          · exact hok.spent p hspent
          · exact hok.spent p hp
  | write addr value =>
    obtain ⟨a,ha,hx⟩ := hal
    obtain ⟨b,hb,-,hin⟩ := hok.tracks.block ha
    obtain ⟨hw',-⟩ := hok.tracks.wellFormed.write hb (hin addr hx) value
    refine ⟨_,rfl,bs,⟨hw',hok.tracks.owned,hok.tracks.room⟩,?_⟩
    intro p hp
    exact (hok.spent p hp).write hok.tracks.wellFormed.layout hb (hin addr hx) value

end Step

def freeStart (region : HeapRegion) (h : Heap) : FreeRun := ⟨initial region h, []⟩

theorem double_free_changes_nothing (region : HeapRegion) (h : Heap) (calls : List Call)
    (hp : Permitted FreeRun.step FreeRun.Allowed (freeStart region h) calls) :
    ∃ r, run FreeRun.step (freeStart region h) calls = some r ∧
      ∀ p ∈ r.spent, hfree p r.state.heap = some r.state.heap := by
  have hstart : ∃ bs, FreeRun.Ok (freeStart region h) bs := by
    obtain ⟨bs,ht⟩ := initial_tracks region h
    exact ⟨bs,ht,fun p hp => (List.not_mem_nil hp).elim⟩
  obtain ⟨r,hrun,bs,hok⟩ := run_invariant (fun r => ∃ bs, FreeRun.Ok r bs)
    (fun r c ⟨bs,hok⟩ hal => hok.step hal) hstart hp
  exact ⟨r,hrun,fun p hp => (hok.spent p hp).hfree hok.tracks.wellFormed.layout⟩

/-- Three neighbours are freed, the middle one last, and then all of them again. -/
private def neighbours : List Call :=
  [.hmalloc 10 .refuse, .hmalloc 24 .refuse, .hmalloc 7 .refuse, .hfree 4221, .hfree 4121,
    .hfree 4164, .hfree 4221, .hfree 4121]

theorem double_free_changes_nothing_neighbours :
    ∃ r, run FreeRun.step (freeStart ⟨4096, by decide, by decide⟩ ⟨fun _ => 0, 0, 0, 0, 0, false⟩)
        neighbours = some r ∧ ∀ p ∈ r.spent, hfree p r.state.heap = some r.state.heap :=
  double_free_changes_nothing _ _ _ (by decide +kernel)

end Hojicha.Hmalloc
