import Hojicha.Hmalloc.Runs

/-!
# Reuse of freed blocks

A request of more pages than the growth size never looks at the free list, so the heap grows with
every round.
-/

namespace Hojicha.Hmalloc

open Framework

def Fits (bs : List Block) (size : Nat) : Prop := ∃ b ∈ bs, b.free = true ∧ size ≤ b.size

def SmallRequest (size : Nat) (h : Heap) : Prop :=
  ∃ pages, bytesToPages size = some pages ∧ pages ≤ h.heapGrowSize

instance (size : Nat) (h : Heap) : Decidable (SmallRequest size h) :=
  decidable_of_iff (∃ pages ∈ bytesToPages size, pages ≤ h.heapGrowSize) Iff.rfl

/-- The call returns the lowest-addressed free block with room and leaves the heap's end. -/
def TakesFirstFit (answer : MapAnswer) (size : Nat) (h : Heap) (bs : List Block) : Prop :=
  ∃ b h', FirstFit bs size b ∧ hmalloc answer size h = some (b.payload, h') ∧
    h'.lastFooter = h.lastFooter

def mallocFree (size : Nat) (answer : MapAnswer) (h : Heap) : Option Heap := do
  let (p, h) ← hmalloc answer size h
  hfree p h

structure Growth where
  heap : Heap
  grown : Nat

def Growth.round (size : Nat) (g : Growth) (answer : MapAnswer) : Option Growth := do
  let h ← mallocFree size answer g.heap
  return ⟨h, if h.lastFooter = g.heap.lastFooter then g.grown else g.grown + 1⟩

/-- `p` is the payload of an occupied block with room for `size` bytes. -/
def Holds (h : Heap) (size p : Nat) : Prop :=
  ∃ xs b ys, WellFormed h (xs ++ b :: ys) ∧ b.free = false ∧ size ≤ b.size ∧ b.payload = p

variable {h : Heap} {bs : List Block} {size : Nat}

theorem returnBlock_holds (size : Nat) {xs ys : List Block} {b : Block}
    (hw : WellFormed h (xs++b::ys)) (hb : b.free=true) (hroom : size≤b.size) :
    ∃ h', returnBlock b.addr size h=some (b.payload, h') ∧ Holds h' size b.payload ∧
      h'.lastFooter=h.lastFooter := by
  obtain ⟨h',b',rest,hrun,ho,hw',hsame,-⟩ := returnBlock_spec size hw hb hroom
  have hblock : Holds h' size b.payload := by
    refine ⟨xs,b',rest++ys,?_,ho.occupied,ho.room,?_⟩
    · simpa using hw'
    · simp only [Block.payload,ho.addr]
  exact ⟨h',hrun,hblock,hsame.last⟩

theorem growReturn_spec {pages : Nat} (hw : WellFormed h bs) (answer : MapAnswer)
    (hroom : size + 33≤pages * 4096) :
    ((growHeapBy answer pages h).bind fun r => returnBlock r.1 size r.2)=some (0, h) ∨
    ∃ p h', ((growHeapBy answer pages h).bind fun r => returnBlock r.1 size r.2)=some (p, h') ∧
      Holds h' size p ∧ h.lastFooter<h'.lastFooter := by
  rcases growHeapBy_spec hw answer pages with
    hrun | ⟨h1,zs,b,hrun,hw1,hb,hsize,-,-,hgrows,-⟩
  · exact .inl (by simp [hrun,returnBlock])
  · obtain ⟨h',hrun',hblock,hlast⟩ := returnBlock_holds size hw1 hb (by omega)
    exact .inr ⟨b.payload,h',by simp [hrun,hrun'],hblock,hlast ▸ hgrows⟩

theorem takesFirstFit_of_smallRequest (hw : WellFormed h bs) (hfits : Fits bs size)
    (answer : MapAnswer) (hsmall : SmallRequest size h) : TakesFirstFit answer size h bs := by
  obtain ⟨pages,hpages,hle⟩ := hsmall
  rcases hmalloc_cases hw answer size with ⟨hp,-⟩ | ⟨pages',hp,⟨hbig,-⟩ | ⟨-,hcases⟩⟩
  · rw [hpages] at hp
    cases hp
  · rw [hpages] at hp
    injection hp with hp
    omega
  · rcases hcases with ⟨b,hfirst,hrun⟩ | ⟨hnone,-⟩
    · obtain ⟨us,vs,rfl,hb,hfit,-⟩ := id hfirst
      obtain ⟨h',hrun',-,hlast⟩ := returnBlock_holds size hw hb hfit
      exact ⟨b,h',hfirst,hrun.trans hrun',hlast⟩
    · obtain ⟨b,hb,hbf,hfit⟩ := hfits
      exact absurd (hnone b hb hbf) (not_lt.mpr hfit)

theorem smallRequest_of_takesFirstFit (hw : WellFormed h bs) {answer : MapAnswer}
    (htakes : TakesFirstFit answer size h bs) : SmallRequest size h := by
  obtain ⟨b,h',-,hret,hlast⟩ := htakes
  have hb0 : b.payload≠0 := by
    unfold Block.payload
    omega
  rcases hmalloc_cases hw answer size with ⟨-,hrun⟩ | ⟨pages,hp,⟨-,hrun⟩ | ⟨hle,-⟩⟩
  · rw [hret] at hrun
    injection hrun with hrun
    exact absurd (congrArg Prod.fst hrun) hb0
  · rw [hret] at hrun
    rcases growReturn_spec hw answer (bytesToPages_room hp) with hgrow | ⟨p,h1,hgrow,-,hlt⟩
    · rw [hgrow] at hrun
      injection hrun with hrun
      exact absurd (congrArg Prod.fst hrun) hb0
    · rw [hgrow] at hrun
      injection hrun with hrun
      obtain rfl : h'=h1 := congrArg Prod.snd hrun
      omega
  · exact ⟨pages,hp,hle⟩

theorem Holds.hfree {p : Nat} (hp : Holds h size p) :
    ∃ h' bs', hfree p h=some h' ∧ WellFormed h' bs' ∧ Fits bs' size ∧
      h'.lastFooter=h.lastFooter := by
  obtain ⟨xs,b,ys,hw,hocc,hroom,rfl⟩ := hp
  obtain ⟨h',bs',hrun,hw',-,hsame,-,hco⟩ := hfree_spec hw hocc
  obtain ⟨c,hc,hfree,hfoot,hstart⟩ := hco.kept { b with free := true } (by simp) rfl
  refine ⟨h',bs',hrun,hw',⟨c,hc,hfree,?_⟩,hsame.last⟩
  have haddr : c.addr≤b.addr := by
    rcases hstart with heq | ⟨hle,-⟩
    · exact heq.le
    · unfold Block.payload at hle
      exact (Nat.le_add_right _ _).trans hle
  simp only [Block.foot] at hfoot
  omega

/-- One round of a small request: the heap grows only where nothing fitted, and something fits
afterwards. -/
theorem mallocFree_spec (hw : WellFormed h bs) (answer : MapAnswer)
    (hsmall : SmallRequest size h) :
    ∃ h' bs', mallocFree size answer h=some h' ∧ WellFormed h' bs' ∧
      (h'.lastFooter=h.lastFooter ∧ (Fits bs size → Fits bs' size) ∨
        ¬Fits bs size ∧ Fits bs' size) := by
  obtain ⟨pages,hpages,hle⟩ := hsmall
  rcases hmalloc_cases hw answer size with ⟨hp,-⟩ | ⟨pages',hp,⟨hbig,-⟩ | ⟨hle',hcases⟩⟩
  · rw [hpages] at hp
    cases hp
  · rw [hpages] at hp
    injection hp with hp
    omega
  · rcases hcases with ⟨b,⟨us,vs,rfl,hb,hfit,-⟩,hrun⟩ | ⟨hnone,hrun⟩
    · obtain ⟨h1,hrun1,hblock,hlast1⟩ := returnBlock_holds size hw hb hfit
      obtain ⟨h',bs',hrun',hw',hfits',hlast'⟩ := hblock.hfree
      refine ⟨h',bs',?_,hw',.inl ⟨hlast'.trans hlast1,fun _ => hfits'⟩⟩
      simp [mallocFree,hrun,hrun1,hrun']
    · have hnot : ¬Fits bs size := fun ⟨b,hb,hbf,hfit⟩ =>
        absurd (hnone b hb hbf) (not_lt.mpr hfit)
      have hw1 := hw.setHeapGrowSize (wrap (h.heapGrowSize+1))
      have hroom := (bytesToPages_room hp).trans (Nat.mul_le_mul_right 4096 hle')
      rcases growReturn_spec hw1 answer hroom with hgrow | ⟨p,h1,hgrow,hblock,-⟩
      · -- no pages: `hfree(NULL)` does nothing
        refine ⟨_,bs,?_,hw1,.inl ⟨rfl,id⟩⟩
        rw [growHeap,hgrow] at hrun
        simp [mallocFree,hrun,Hmalloc.hfree]
      · obtain ⟨h',bs',hrun',hw',hfits',-⟩ := hblock.hfree
        refine ⟨h',bs',?_,hw',.inr ⟨hnot,hfits'⟩⟩
        rw [growHeap,hgrow] at hrun
        simp [mallocFree,hrun,hrun']

/-- The heap has not grown yet, or once, and then the request fits. -/
def Growth.Settled (size : Nat) (g : Growth) : Prop :=
  ∃ bs, WellFormed g.heap bs ∧ (g.grown = 0 ∨ g.grown = 1 ∧ Fits bs size)

theorem Growth.Settled.round {g : Growth} (hg : g.Settled size) (answer : MapAnswer)
    (hsmall : SmallRequest size g.heap) :
    ∃ g', g.round size answer=some g' ∧ g'.Settled size := by
  obtain ⟨bs,hw,hgrown⟩ := hg
  obtain ⟨h',bs',hrun,hw',hcases⟩ := mallocFree_spec hw answer hsmall
  refine ⟨_,by simp [Growth.round,hrun]; rfl,bs',hw',?_⟩
  rcases hcases with ⟨hlast,hkept⟩ | ⟨hnot,hfits⟩
  · simpa only [hlast,if_true] using hgrown.imp_right fun ⟨hone,hfits⟩ => ⟨hone,hkept hfits⟩
  · have hzero : g.grown=0 := hgrown.resolve_right fun hone => hnot hone.2
    simp only [hzero]
    split
    · exact .inl rfl
    · exact .inr ⟨rfl,hfits⟩

theorem small_requests_reuse (hw : WellFormed h bs) (size : Nat) :
    (Fits bs size → ∀ answer, TakesFirstFit answer size h bs ↔ SmallRequest size h) ∧
    ∀ answers, Permitted (Growth.round size) (fun g _ => SmallRequest size g.heap) ⟨h, 0⟩ answers →
      ∃ g, run (Growth.round size) ⟨h, 0⟩ answers = some g ∧ g.grown ≤ 1 := by
  constructor
  · intro hfits answer
    exact ⟨smallRequest_of_takesFirstFit hw,takesFirstFit_of_smallRequest hw hfits answer⟩
  · intro answers hp
    have hstart : Growth.Settled size ⟨h,0⟩ := ⟨bs,hw,.inl rfl⟩
    obtain ⟨g,hrun,bs',-,hgrown⟩ := run_invariant (Growth.Settled size)
      (fun g answer hg hsmall => hg.round answer hsmall) hstart hp
    refine ⟨g,hrun,?_⟩
    rcases hgrown with hzero | ⟨hone,-⟩
    · omega
    · omega

def freshHeap : Heap := (hmallocInitialize 4096 ⟨fun _ => 0, 0, 0, 0, 0, false⟩).2

theorem freshHeap_wellFormed : WellFormed freshHeap [⟨4096, 5 * 4096 - 33, true⟩] :=
  initializeHeapRegion_wellFormed _ (by decide) (by decide) (by decide)

private def granted : MapAnswer := .grant fun _ => 0

theorem small_requests_reuse_fresh :
    TakesFirstFit .refuse 100 freshHeap [⟨4096, 5 * 4096 - 33, true⟩] ∧
      ∃ g, run (Growth.round 30000) ⟨freshHeap, 0⟩ [.refuse, granted, granted] = some g ∧
        g.grown ≤ 1 := by
  have hfits : Fits [⟨4096,5 * 4096-33,true⟩] 100 :=
    ⟨_,List.mem_singleton_self _,rfl,by decide⟩
  exact ⟨((small_requests_reuse freshHeap_wellFormed 100).1 hfits .refuse).mpr (by decide +kernel),
    (small_requests_reuse freshHeap_wellFormed 30000).2 _ (by decide +kernel)⟩

/-- What the first round of a large request leaves: a free block that the second one would fit
into. -/
private theorem large_round : ∃ h bs, mallocFree 50000 granted freshHeap=some h ∧
    WellFormed h bs ∧ Fits bs 50000 ∧ ¬SmallRequest 50000 h := by
  have hsmall : (mallocFree 50000 granted freshHeap).all
      (fun h => !decide (SmallRequest 50000 h))=true := by decide +kernel
  have hgrows : (hmalloc granted 50000 freshHeap).all (fun r => r.1 != 0)=true := by
    decide +kernel
  have hpages : bytesToPages 50000=some 13 := by decide
  have hbig : freshHeap.heapGrowSize<13 := by decide +kernel
  rcases hmalloc_cases freshHeap_wellFormed granted 50000 with
    ⟨hp,-⟩ | ⟨pages,hp,⟨-,hrun⟩ | ⟨hle,-⟩⟩
  · rw [hpages] at hp
    cases hp
  · rcases growReturn_spec freshHeap_wellFormed granted (bytesToPages_room hp) with
      hgrow | ⟨p,h1,hgrow,hblock,-⟩
    · rw [hrun,hgrow] at hgrows
      cases hgrows
    · obtain ⟨h',bs',hrun',hw',hfits',-⟩ := hblock.hfree
      have hround : mallocFree 50000 granted freshHeap=some h' := by
        simp [mallocFree,hrun,hgrow,hrun']
      refine ⟨h',bs',hround,hw',hfits',?_⟩
      simpa [hround] using hsmall
  · rw [hpages] at hp
    injection hp with hp
    omega

theorem large_requests_grow_again :
    (∃ h bs, mallocFree 50000 granted freshHeap = some h ∧ WellFormed h bs ∧ Fits bs 50000 ∧
      ¬TakesFirstFit granted 50000 h bs) ∧
    (run (Growth.round 50000) ⟨freshHeap, 0⟩ [granted, granted]).map (·.grown) = some 2 := by
  obtain ⟨h,bs,hround,hw,hfits,hlarge⟩ := large_round
  constructor
  · exact ⟨h,bs,hround,hw,hfits,fun htakes => hlarge (smallRequest_of_takesFirstFit hw htakes)⟩
  · decide +kernel

end Hojicha.Hmalloc
