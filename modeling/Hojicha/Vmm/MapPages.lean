import Hojicha.Vmm.Live

/-! # Mapping a range of pages -/

namespace Hojicha.Vmm

open Framework Framework.Paging

/-- `map_single` on the tables. The result is an address, and 0 means failure. -/
def allocAndMap (r : Frame) (flags virt : Haddr) (σ : Tables) : Bool × Tables :=
  match σ.pool.take with
  | (none, pool) => (false, { σ with pool := pool })
  | (some f, pool) =>
    let (ok, σ) := mapAt r virt (address f) flags { σ with pool := pool }
    (ok && virt &&& MAPPING_STRUCTURE_MASK != 0, σ)

def pagesFrom (virt : Haddr) (pageCount : Nat) : List Haddr :=
  List.iterate (· + PAGE_SIZE) virt pageCount

def mapPages (r : Frame) (flags virt : Haddr) (pageCount : Nat) (σ : Tables) : Bool × Tables :=
  perform (allocAndMap r flags) (pagesFrom virt pageCount) σ

variable {s : Machine} {σ σ' : Tables} {T T' : Node → Option Frame} {w kr r f : Frame}
  {virt flags : Haddr} {space : Space} {vs : List Haddr} {p : Page}

/-- A page that can be edited through the handle. The kernel's own handle needs the page of the
kernel's directory. -/
structure Allowed (s : Machine) (kr : Frame) (space : Space) (virt : Haddr) : Prop where
  editable : Editable s kr space (pageOf virt)
  directory : space = .kernel → pageOf virt ≠ pageOf s.virtualDirectory

theorem Editable.update (h : Editable s kr space p) (m : PhysMem) (pool : FramePool)
    (ev : List Event) : Editable (s.update m pool ev) kr space p := by
  cases space with
  | kernel => exact h
  | own pml4Phys => trivial

theorem Allowed.update (h : Allowed s kr space virt) (m : PhysMem) (pool : FramePool)
    (ev : List Event) : Allowed (s.update m pool ev) kr space virt :=
  ⟨h.editable.update m pool ev,h.directory⟩

theorem allocAndMap_short {pool : FramePool} (h : σ.pool.take=(none, pool)) :
    allocAndMap r flags virt σ=(false, { σ with pool := pool }) := by
  rw [allocAndMap,h]

theorem allocAndMap_taken {pool : FramePool} (h : σ.pool.take=(some f, pool)) :
    allocAndMap r flags virt σ =
      ((mapAt r virt (address f) flags { σ with pool := pool }).1 &&
        virt &&& MAPPING_STRUCTURE_MASK != 0,
      (mapAt r virt (address f) flags { σ with pool := pool }).2) := by
  rw [allocAndMap,h]

theorem mapSingle_run (h : Usable s σ T w kr space) (hspace : IsRoot kr space r)
    (hr : T (.root r)=some r) (hv : Allowed s kr space virt) (flags : Haddr) :
    Leaves T w s (mapSingle space virt flags)
      (if (allocAndMap r flags virt σ).1 then virt &&& MAPPING_STRUCTURE_MASK else 0)
      (allocAndMap r flags virt σ).2 := by
  obtain ⟨rest,htake⟩ | ⟨f,rest,hfree,hf0,htake⟩ := take_cases σ.pool
  · rw [allocAndMap_short htake]
    refine ⟨s.mem,[],?_,h.ready.agree,flushes_nil T,trivial⟩
    rw [mapSingle,bind_run (pmmAllocFrame_run s),h.ready.pool,htake]
    rfl
  · have haddr : address f≠0 := by rwa [ne_eq,address_eq_zero_iff]
    have hsound : Sound ⟨σ.mem,σ.pool.without f rest⟩ T :=
      h.ready.sound.congr_free (fun _ => rfl) fun hg => (without_free.mp hg).1
    have h₁ : Usable (s.update s.mem (σ.pool.without f rest) s.events)
        ⟨σ.mem,σ.pool.without f rest⟩ T w kr space :=
      h.extend hsound id h.ready.agree (fun _ => rfl) _
    obtain ⟨m',evs,hrun,hagree,hflush,-⟩ := mapAtPaddrInternal_run h₁ hspace hr
      (hv.editable.update _ _ _) (address f) flags
    rw [allocAndMap_taken htake]
    obtain ⟨⟨ok,σ'⟩,hres⟩ : ∃ x, mapAt r virt (address f) flags
      ⟨σ.mem,σ.pool.without f rest⟩=x := ⟨_,rfl⟩
    simp only [hres,update_update,update_events] at hrun hagree ⊢
    refine ⟨m',evs,?_,hagree,hflush,trivial⟩
    rw [mapSingle,bind_run (pmmAllocFrame_run s),h.ready.pool,htake,
      if_neg (show ¬ (some f).elim 0 address=0 from haddr)]
    refine hrun.trans ?_
    cases ok
    · rfl
    · by_cases hzero : virt &&& MAPPING_STRUCTURE_MASK=0
      · simp [hzero]
      · simp

structure PageMapped (r f : Frame) (flags virt : Haddr) (σ : Tables) (T : Node → Option Frame)
    (σ' : Tables) (T' : Node → Option Frame) : Prop where
  address_ne : virt &&& MAPPING_STRUCTURE_MASK ≠ 0
  recursive : (pageOf virt).i4 ≠ RECURSIVE_IDX
  taken : σ.pool.take.1 = some f
  fresh : σ.pool.free f = true
  writes : ∃ rest, Writes { σ with pool := σ.pool.without f rest } T σ' T' r (pageOf virt)
    (address f ||| normalizeLeafFlags virt flags)
  failures : σ'.pool.failures = σ.pool.failures

/-- The page is refused for want of a frame, or its frame is lost. -/
inductive PageRefused (r : Frame) (flags virt : Haddr) (σ : Tables) (T : Node → Option Frame) :
    Tables → (Node → Option Frame) → Prop
  | short (rest : List (Option Frame)) : σ.pool.take.1 = none →
    PageRefused r flags virt σ T { σ with pool := σ.pool.fail rest } T
  | lost (f : Frame) (rest : List (Option Frame)) (σ' : Tables) (T' : Node → Option Frame) :
    σ.pool.take.1 = some f → σ.pool.free f = true → Sound σ' T' →
    Extends { σ with pool := σ.pool.without f rest } T σ' T' →
    (virt &&& MAPPING_STRUCTURE_MASK = 0 ∧ σ'.pool.failures = σ.pool.failures ∧
      Writes { σ with pool := σ.pool.without f rest } T σ' T' r (pageOf virt)
        (address f ||| normalizeLeafFlags virt flags) ∨
      Grown { σ with pool := σ.pool.without f rest } T σ' T') →
    PageRefused r flags virt σ T σ' T'

theorem mapAt_failures (r : Frame) (virt phys flags : Haddr) (σ : Tables)
    (h : (mapAt r virt phys flags σ).1=true) :
    (mapAt r virt phys flags σ).2.pool.failures=σ.pool.failures := by
  rw [mapAt] at h ⊢
  split_ifs at h ⊢ with hp
  have hfail := mapPage_failures r virt flags (phys ||| normalizeLeafFlags virt flags) σ
  rw [hfail,if_pos h]
  rfl

theorem allocAndMap_cases (h : Sound σ T) (hr : T (.root r)=some r) (flags virt : Haddr) :
    ((allocAndMap r flags virt σ).1=true ∧ ∃ f T',
      PageMapped r f flags virt σ T (allocAndMap r flags virt σ).2 T') ∨
    ((allocAndMap r flags virt σ).1=false ∧ ∃ T',
      PageRefused r flags virt σ T (allocAndMap r flags virt σ).2 T') := by
  obtain ⟨rest,htake⟩ | ⟨f,rest,hfree,hf0,htake⟩ := take_cases σ.pool
  · rw [allocAndMap_short htake]
    exact .inr ⟨rfl,T,.short rest (by rw [htake])⟩
  · rw [allocAndMap_taken htake]
    have htaken : σ.pool.take.1=some f := by rw [htake]
    have hs₁ : Sound { σ with pool := σ.pool.without f rest } T :=
      h.congr_free (fun _ => rfl) fun hg => (without_free.mp hg).1
    obtain ⟨T',-,hcase⟩ := mapAt_spec hs₁ hr virt (address f) flags
    have hfail := mapAt_failures r virt (address f) flags { σ with pool := σ.pool.without f rest }
    obtain ⟨⟨ok,σ'⟩,hres⟩ : ∃ x, mapAt r virt (address f) flags
      { σ with pool := σ.pool.without f rest } = x := ⟨_,rfl⟩
    simp only [hres] at hcase hfail ⊢
    rcases hcase with ⟨hok,hp,hw⟩ | ⟨hok,hsound,hg,-⟩
    · obtain rfl : ok=true := hok
      by_cases hzero : virt &&& MAPPING_STRUCTURE_MASK=0
      · exact .inr ⟨by simp [hzero],T',.lost f rest σ' T' htaken hfree hw.sound hw.toExtends
          (.inl ⟨hzero,hfail rfl,hw⟩)⟩
      · exact .inl ⟨by simpa using hzero,f,T',hzero,hp,htaken,hfree,⟨rest,hw⟩,hfail rfl⟩
    · obtain rfl : ok=false := hok
      exact .inr ⟨rfl,T',.lost f rest σ' T' htaken hfree hsound hg.toExtends (.inr hg)⟩

namespace PageMapped

variable (h : PageMapped r f flags virt σ T σ' T')
include h

theorem sound : Sound σ' T' := by
  obtain ⟨rest,hw⟩ := h.writes
  exact hw.sound

theorem keeps {n : Node} {g : Frame} (hn : T n=some g) : T' n=some g := by
  obtain ⟨rest,hw⟩ := h.writes
  exact hw.keeps hn

theorem roots (r' : Frame) : T' (.root r')=T (.root r') := by
  obtain ⟨rest,hw⟩ := h.writes
  exact hw.roots r'

theorem elsewhere {r' : Frame} {p : Page} (hr' : T (.root r')=some r')
    (hp : p.i4≠RECURSIVE_IDX) (hne : ¬ SameLeaf r (pageOf virt) r' p) :
    leafEntry σ'.mem r' p=leafEntry σ.mem r' p := by
  obtain ⟨rest,hw⟩ := h.writes
  exact hw.elsewhere hr' hp hne

end PageMapped

inductive PagesMapped (r : Frame) (flags : Haddr) : List Haddr → Tables → (Node → Option Frame) →
    Tables → (Node → Option Frame) → Prop
  | nil (σ : Tables) (T : Node → Option Frame) : PagesMapped r flags [] σ T σ T
  | cons {virt : Haddr} {vs : List Haddr} {f : Frame} {σ σ₁ σ' : Tables}
    {T T₁ T' : Node → Option Frame} : PageMapped r f flags virt σ T σ₁ T₁ →
    PagesMapped r flags vs σ₁ T₁ σ' T' → PagesMapped r flags (virt :: vs) σ T σ' T'

namespace PagesMapped

variable (h : PagesMapped r flags vs σ T σ' T')
include h

theorem sound (hs : Sound σ T) : Sound σ' T' := by
  induction h with
  | nil => exact hs
  | cons hpage _ ih => exact ih hpage.sound

theorem keeps {n : Node} {g : Frame} (hn : T n=some g) : T' n=some g := by
  induction h with
  | nil => exact hn
  | cons hpage _ ih => exact ih (hpage.keeps hn)

theorem roots (r' : Frame) : T' (.root r')=T (.root r') := by
  induction h with
  | nil => rfl
  | cons hpage _ ih => exact ih.trans (hpage.roots r')

end PagesMapped

theorem mapAll_cases (h : Sound σ T) (hr : T (.root r)=some r) (flags : Haddr) (vs : List Haddr) :
    ((perform (allocAndMap r flags) vs σ).1=true ∧ ∃ T',
      PagesMapped r flags vs σ T (perform (allocAndMap r flags) vs σ).2 T') ∨
    ((perform (allocAndMap r flags) vs σ).1=false ∧ ∃ vs₁ v vs₂ σ₁ T₁ T', vs=vs₁++v::vs₂ ∧
      PagesMapped r flags vs₁ σ T σ₁ T₁ ∧
      PageRefused r flags v σ₁ T₁ (perform (allocAndMap r flags) vs σ).2 T') := by
  induction vs generalizing σ T with
  | nil => exact .inl ⟨rfl,T,.nil σ T⟩
  | cons v vs ih =>
    rw [perform]
    rcases allocAndMap_cases h hr flags v with ⟨hok,f,T₁,hpage⟩ | ⟨hok,T',hrefused⟩
    · rw [if_pos hok]
      rcases ih hpage.sound (hpage.keeps hr) with
        ⟨hall,T',hpages⟩ | ⟨hfail,vs₁,v',vs₂,σ₁,T₂,T',rfl,hpages,hrefused⟩
      · exact .inl ⟨hall,T',.cons hpage hpages⟩
      · exact .inr ⟨hfail,v::vs₁,v',vs₂,σ₁,T₂,T',rfl,.cons hpage hpages,hrefused⟩
    · rw [if_neg (by simp [hok])]
      exact .inr ⟨hok,[],v,vs,σ,T,T',rfl,.nil σ T,hrefused⟩

theorem PageMapped.usable {m' : PhysMem} (hpage : PageMapped r f flags virt σ T σ' T')
    (h : Usable s σ T w kr space) (hv : Allowed s kr space virt)
    (hagree : Agree w m' σ'.mem) (ev : List Event) :
    Usable (s.update m' σ'.pool ev) σ' T' w kr space :=
  h.extend hpage.sound hpage.keeps hagree (fun hk => by
    subst hk
    have h : KernelReady s σ T w kr := h
    exact hpage.elsewhere h.root h.recursive fun hs => hv.directory rfl hs.1) ev

namespace PageRefused

variable (h : PageRefused r flags virt σ T σ' T')
include h

theorem sound (hs : Sound σ T) : Sound σ' T' := by
  cases h with
  | short rest => exact ⟨hs.forest,hs.fresh⟩
  | lost f rest _ _ _ hfree hsound => exact hsound

theorem keeps {n : Node} {g : Frame} (hn : T n=some g) : T' n=some g := by
  cases h with
  | short rest => exact hn
  | lost f rest _ _ _ hfree hsound hext => exact hext.keeps hn

theorem roots (r' : Frame) : T' (.root r')=T (.root r') := by
  cases h with
  | short rest => rfl
  | lost f rest _ _ _ hfree hsound hext => exact hext.roots r'

end PageRefused

theorem mapSingles_run (n : Nat) (h : Usable s σ T w kr space) (hspace : IsRoot kr space r)
    (hr : T (.root r)=some r) (hv : ∀ v∈pagesFrom virt n, Allowed s kr space v) (flags : Haddr) :
    Leaves T w s (mapSingles space flags n virt) (mapPages r flags virt n σ).1
      (mapPages r flags virt n σ).2 := by
  induction n generalizing s σ T virt with
  | zero => exact h.ready.returns true trivial
  | succ n ih =>
    have hcons : pagesFrom virt (n+1)=virt::pagesFrom (virt+PAGE_SIZE) n := rfl
    rw [hcons] at hv
    have hsingle := mapSingle_run h hspace hr (hv virt (by simp)) flags
    rw [mapSingles,mapPages,hcons,perform]
    rcases allocAndMap_cases h.ready.sound hr flags virt with ⟨hok,f,T₁,hpage⟩ | ⟨hok,T₁,href⟩
    · rw [hok,if_pos rfl] at hsingle
      rw [if_pos hok]
      refine hsingle.bind hpage.keeps fun m ev hagree _ => ?_
      rw [if_neg hpage.address_ne]
      exact ih (hpage.usable h (hv virt (by simp)) hagree ev) (hpage.keeps hr)
        fun v hmem => (hv v (by simp [hmem])).update _ _ _
    · rw [hok,if_neg (by decide)] at hsingle
      rw [if_neg (by simp [hok]),hok]
      refine hsingle.bind href.keeps fun m ev hagree _ => ?_
      exact (h.ready.extend (href.sound h.ready.sound) href.keeps hagree ev).returns false trivial

theorem Extends.disjoint (h : Extends σ T σ' T') (hpool : σ.pool.Disjoint) : σ'.pool.Disjoint := by
  intro g hg
  obtain ⟨hfree,htable⟩ := h.free.mp hg
  rw [← Bool.not_eq_true,h.held]
  rintro (hheld | ⟨n,-,hn⟩)
  · simp [hpool g hfree] at hheld
  · exact htable n hn

theorem PageMapped.disjoint (h : PageMapped r f flags virt σ T σ' T')
    (hpool : σ.pool.Disjoint) : σ'.pool.Disjoint := by
  obtain ⟨rest,hw⟩ := h.writes
  exact hw.toExtends.disjoint (Disjoint.without hpool rest)

theorem PagesMapped.disjoint (h : PagesMapped r flags vs σ T σ' T')
    (hpool : σ.pool.Disjoint) : σ'.pool.Disjoint := by
  induction h with
  | nil => exact hpool
  | cons hpage _ ih => exact ih (hpage.disjoint hpool)

theorem PageRefused.disjoint (h : PageRefused r flags virt σ T σ' T')
    (hpool : σ.pool.Disjoint) : σ'.pool.Disjoint := by
  cases h with
  | short rest => exact hpool
  | lost f rest _ _ _ hfree hsound hext => exact hext.disjoint (Disjoint.without hpool rest)

end Hojicha.Vmm
