import Hojicha.Vmm.Destroy

/-!
# Copying the pages of an address space

The walk visits every page of the source once; meanwhile everything that is taken from the pool
belongs to the lower half of the new space.
-/

namespace Hojicha.Vmm

open Framework Framework.Paging List

/-- `copy_mapping` on the tables. The result of the mapping is an address, and 0 means failure. -/
def copyPage (d : Frame) (virt : Haddr) (e : Word) (σ : Tables) : Bool × Tables :=
  match σ.pool.take with
  | (none, pool) => (false, { σ with pool := pool })
  | (some f, pool) =>
    let (ok, σ) := mapPage d virt (flagsToMappingRequest (entryFlags e))
      (address f ||| entryFlags e) ⟨setFrame σ.mem f (σ.mem (target e)), pool⟩
    if ok && virt &&& MAPPING_STRUCTURE_MASK != 0 then (true, σ)
    else (false, { σ with pool := σ.pool.give f })

variable {s : Machine} {σ : Tables} {T : Node → Option Frame} {w r d f kr : Frame} {virt : Haddr}
  {e : Word}

theorem copyMapping_run (h : KernelReady s σ T w kr) (hd : T (.root d)=some d)
    (hp : (pageOf virt).i4≠RECURSIVE_IDX) (he : target e≠w) :
    ∃ m' ev, copyMapping (address d) virt e s =
        some ((copyPage d virt e σ).1, s.update m' (copyPage d virt e σ).2.pool ev) ∧
      Agree w m' (copyPage d virt e σ).2.mem := by
  rw [copyMapping,bind_run (pmmAllocFrame_run s),h.pool,copyPage]
  obtain ⟨rest,htake⟩ | ⟨f,rest,hfree,hf0,htake⟩ := take_cases σ.pool
  · rw [htake]
    exact ⟨s.mem,s.events,rfl,h.agree⟩
  · have hfresh := h.sound.fresh hfree
    have haddr : address f≠0 := by rwa [ne_eq,address_eq_zero_iff]
    have hwf : w≠f := fun heq => hfresh _ (heq ▸ h.window)
    have hpool {g : Frame} (hg : (σ.pool.without f rest).free g=true) : σ.pool.free g=true :=
      (without_free.mp hg).1
    obtain ⟨pool,hpool'⟩ : ∃ pool, σ.pool.without f rest=pool := ⟨_,rfl⟩
    rw [htake]
    rw [hpool'] at hpool ⊢
    rw [if_neg (show ¬ (some f).elim 0 address=0 from haddr)]
    simp only [Option.elim_some]
    -- both pages are shown and the copy is made
    have h₁ : KernelReady (s.update s.mem pool s.events) ⟨σ.mem,pool⟩ T w kr :=
      h.congr_free (fun _ => rfl) hpool h.agree _
    obtain ⟨m₂,ev₂,hmap₂,h₂,hsrc₂,-⟩ := h₁.show isWindow_page (target e)
    obtain ⟨m₃,ev₃,hmap₃,h₃,hdst₃,hother₃⟩ := h₂.show isWindow_pml4 f
    dsimp only [update_update,update_mem] at hmap₂ h₂ hmap₃ h₃ hother₃
    have hsrc₃ : m₃ w 0=windowEntry (target e) := (hother₃ 0 (by decide)).trans hsrc₂
    have hcontent : m₃ (target e)=σ.mem (target e) := h₃.agree.frame he
    obtain ⟨ev₄,hcopy⟩ := memcpyPage_run (h₃.reaches_window isWindow_pml4 hdst₃)
      (h₃.reaches_window isWindow_page hsrc₃)
    dsimp only [update_update,update_mem,update_pool] at hcopy
    rw [hcontent] at hcopy
    have h₄ : KernelReady (s.update (setFrame m₃ f (σ.mem (target e))) pool ev₄)
        ⟨setFrame σ.mem f (σ.mem (target e)),pool⟩ T w kr :=
      h₃.congr_free (fun hn => setFrame_of_ne _ _ _ fun hg => hfresh _ (hg ▸ hn)) id
        (h₃.agree.setFrame f _) ev₄
    -- the copy is mapped
    obtain ⟨m₅,evs₅,hmap₅,hagree₅,-⟩ := mapNonKernel_run h₄.toReady hd hp
      (flagsToMappingRequest (entryFlags e)) (address f ||| entryFlags e)
    dsimp only [update_update] at hmap₅
    obtain ⟨ev₅,hmap₅⟩ := exists_events hmap₅
    obtain ⟨⟨ok,σ'⟩,hres⟩ : ∃ x, mapPage d virt (flagsToMappingRequest (entryFlags e))
      (address f ||| entryFlags e) ⟨setFrame σ.mem f (σ.mem (target e)),pool⟩=x := ⟨_,rfl⟩
    simp only [hres] at hmap₅ hagree₅ ⊢
    have hrun (g : Haddr → M Bool) : (mapAtPaddrWithLeafFlags (address d) virt (address f)
        (entryFlags e) >>= g) (s.update (setFrame m₃ f (σ.mem (target e))) pool ev₄) =
          g (if ok then virt &&& MAPPING_STRUCTURE_MASK else 0) (s.update m₅ σ'.pool ev₅) :=
      bind_run hmap₅
    rw [entryPhys_eq,scratchMapPage,scratchMapPage,bind_run hmap₂,bind_run hmap₃,
      if_neg (not_or.mpr ⟨isWindow_page.ne_null,isWindow_pml4.ne_null⟩),bind_run hcopy,hrun]
    by_cases hok : ok=true ∧ virt &&& MAPPING_STRUCTURE_MASK≠0
    · obtain ⟨rfl,hv⟩ := hok
      have hcond : (true && virt &&& MAPPING_STRUCTURE_MASK != 0)=true := by simpa using hv
      rw [if_pos rfl,if_neg hv,if_pos hcond]
      exact ⟨m₅,ev₅,rfl,hagree₅⟩
    · have hcond : ¬ (ok && virt &&& MAPPING_STRUCTURE_MASK != 0)=true := by simpa using hok
      have hzero : (if ok then virt &&& MAPPING_STRUCTURE_MASK else 0)=0 := by
        split_ifs with htrue
        · simpa [htrue] using hok
        · rfl
      rw [if_pos hzero,bind_run (pmmFreeFrame_run _ _),target_address,if_neg hcond]
      exact ⟨m₅,ev₅,rfl,hagree₅⟩

/-- From `σ₀` on, only the lower half of the space `d` has grown. -/
structure Copying (σ₀ : Tables) (T₀ : Node → Option Frame) (d : Frame) (σ : Tables)
    (T : Node → Option Frame) : Prop where
  sound : Sound σ T
  keeps {n : Node} {f : Frame} : T₀ n = some f → T n = some f
  roots (r : Frame) : T (.root r) = T₀ (.root r)
  created {n : Node} {f : Frame} : T n = some f → T₀ n = none →
    n.space = some d ∧ σ₀.pool.free f = true
  others {f : Frame} : σ₀.pool.free f = false → (∀ n, n.space = some d → T₀ n ≠ some f) →
    σ.mem f = σ₀.mem f
  free {f : Frame} : σ.pool.free f = true ↔ σ₀.pool.free f = true ∧ f ∉ lowerFrames σ.mem d
  held {f : Frame} : σ.pool.held f = true ↔ σ₀.pool.held f = true ∨ f ∈ lowerFrames σ.mem d
  stray : σ.pool.stray = σ₀.pool.stray
  exclusive : Exclusive σ T d
  leaf {f : Frame} : IsLeafFrame σ.mem d f → σ₀.pool.free f = true

variable {σ₀ σ' : Tables} {T₀ T' : Node → Option Frame}

theorem Copying.refl (h : Sound σ T) (hd : T (.root d)=some d)
    (hempty : ∀ n : Node, n.space=some d → n.path≠[] → T n=none) : Copying σ T d σ T := by
  have hleaf {f : Frame} : ¬ IsLeafFrame σ.mem d f := by
    rintro ⟨p,hlow,hp,-⟩
    obtain ⟨t,ht,-⟩ := exists_table h hd (ne_recursive_of_lower hlow) hp
    rw [hempty _ (by rw [leafNode_eq,if_neg (BitVec.not_le.mpr hlow)])
      (by simp [leafNode_eq,Page.tables])] at ht
    cases ht
  have hnone (f : Frame) : f∉lowerFrames σ.mem d := by
    rw [mem_lowerFrames h hd]
    rintro (hf | ⟨n,hn,hspace,hne⟩)
    · exact hleaf hf
    · simp [hempty n hspace hne] at hn
  exact
    { sound := h
      keeps := id
      roots := fun _ => rfl
      created := fun hn hnone => by simp [hn] at hnone
      others := fun _ _ => rfl
      free := by simp [hnone]
      held := by simp [hnone]
      stray := rfl
      exclusive := ⟨fun hlow _ hp => absurd ⟨_,hlow,hp,rfl⟩ hleaf,fun hf => absurd hf hleaf⟩
      leaf := fun hf => absurd hf hleaf }

/-- One step: tables of the space `d` are created, and the frames in `new` hold pages of it. -/
structure GrowsBy (d : Frame) (new : Frame → Prop) (σ : Tables) (T : Node → Option Frame)
    (σ' : Tables) (T' : Node → Option Frame) : Prop where
  sound : Sound σ' T'
  keeps {n : Node} {f : Frame} : T n = some f → T' n = some f
  roots (r : Frame) : T' (.root r) = T (.root r)
  created {n : Node} {f : Frame} : T' n = some f → T n = none →
    n.space = some d ∧ σ.pool.free f = true
  others {f : Frame} : σ.pool.free f = false → (∀ n, n.space = some d → T n ≠ some f) →
    σ'.mem f = σ.mem f
  new_free {f : Frame} : new f → σ.pool.free f = true
  new_table {f : Frame} : new f → ∀ n, T' n ≠ some f
  leaf {f : Frame} : IsLeafFrame σ'.mem d f ↔ IsLeafFrame σ.mem d f ∨ new f
  free {f : Frame} : σ'.pool.free f = true ↔
    σ.pool.free f = true ∧ ¬ new f ∧ ∀ n, T' n ≠ some f
  held {f : Frame} : σ'.pool.held f = true ↔
    σ.pool.held f = true ∨ new f ∨ ∃ n, T n = none ∧ T' n = some f
  stray : σ'.pool.stray = σ.pool.stray
  inj {p p' : Page} : p.i4 < KERNEL_PML4_FIRST → p'.i4 < KERNEL_PML4_FIRST →
    isPresent (leafEntry σ'.mem d p) = true → isPresent (leafEntry σ'.mem d p') = true →
    target (leafEntry σ'.mem d p) = target (leafEntry σ'.mem d p') → p = p'

theorem Copying.grow {new : Frame → Prop} (h : Copying σ₀ T₀ d σ T) (h₀ : Sound σ₀ T₀)
    (hd : T₀ (.root d)=some d) (hg : GrowsBy d new σ T σ' T') : Copying σ₀ T₀ d σ' T' := by
  have hdT := h.keeps hd
  have hsub {f : Frame} (hf : σ.pool.free f=true) : σ₀.pool.free f=true := (h.free.mp hf).1
  have hmem {f : Frame} := mem_lowerFrames (f := f) h.sound hdT
  have hmem' {f : Frame} : f∈lowerFrames σ'.mem d ↔ (IsLeafFrame σ.mem d f ∨ new f) ∨
      ∃ n, T' n=some f ∧ n.space=some d ∧ n.path≠[] := by
    rw [mem_lowerFrames hg.sound (hg.keeps hdT),hg.leaf]
  have hkept {f : Frame} (hf : f∈lowerFrames σ.mem d) : f∈lowerFrames σ'.mem d := by
    rcases hmem.mp hf with hf | ⟨n,hn,hspace,hne⟩
    · exact hmem'.mpr (.inl (.inl hf))
    · exact hmem'.mpr (.inr ⟨n,hg.keeps hn,hspace,hne⟩)
  -- tables of other spaces, and the root, were there from the start
  have hold {n : Node} {f : Frame} (hn : T' n=some f) (hout : n.space≠some d ∨ n.path=[]) :
      T₀ n=some f := by
    rcases hout with hspace | hnil
    · cases hT : T n with
      | none => exact absurd (hg.created hn hT).1 hspace
      | some g =>
        obtain rfl := Option.some.inj ((hg.keeps hT).symm.trans hn)
        cases hT₀ : T₀ n with
        | none => exact absurd (h.created hT hT₀).1 hspace
        | some g' => rw [← h.keeps hT₀,hT]
    · obtain ⟨o,is⟩ := n
      obtain rfl : is=[] := hnil
      cases o with
      | none => simp [hg.sound.forest.rootless] at hn
      | some r => rw [← hn]; exact ((hg.roots r).trans (h.roots r)).symm
  refine
    { sound := hg.sound
      keeps := fun hn => hg.keeps (h.keeps hn)
      roots := fun r => (hg.roots r).trans (h.roots r)
      created := fun {n f} hn hnone => ?_
      others := fun {f} hf hd' => ?_
      free := fun {f} => ⟨fun hf => ?_,fun ⟨hf,hout⟩ => ?_⟩
      held := fun {f} => ?_
      stray := hg.stray.trans h.stray
      exclusive := ⟨hg.inj,fun {f} hf n hn => ?_⟩
      leaf := fun {f} hf => ?_ }
  · cases hT : T n with
    | none => exact ⟨(hg.created hn hT).1,hsub (hg.created hn hT).2⟩
    | some g =>
      obtain rfl := Option.some.inj ((hg.keeps hT).symm.trans hn)
      exact h.created hT hnone
  · rw [hg.others ?_ ?_,h.others hf hd']
    · exact Bool.eq_false_iff.mpr fun hfree => by simp [hsub hfree] at hf
    · intro n hspace hn
      cases hT₀ : T₀ n with
      | none => simp [(h.created hn hT₀).2] at hf
      | some g => exact hd' n hspace (hT₀.trans ((h.keeps hT₀).symm.trans hn))
  · obtain ⟨hf,hnew,htable⟩ := hg.free.mp hf
    obtain ⟨hf₀,hout⟩ := h.free.mp hf
    refine ⟨hf₀,fun hin => ?_⟩
    rcases hmem'.mp hin with (hleaf | hnew') | ⟨n,hn,-⟩
    · exact hout (hmem.mpr (.inl hleaf))
    · exact hnew hnew'
    · exact htable n hn
  · refine hg.free.mpr ⟨h.free.mpr ⟨hf,fun hin => hout (hkept hin)⟩,
      fun hnew => hout (hmem'.mpr (.inl (.inr hnew))),fun n hn => ?_⟩
    by_cases hin : n.space=some d ∧ n.path≠[]
    · exact hout (hmem'.mpr (.inr ⟨n,hn,hin⟩))
    · exact h₀.fresh hf n (hold hn (by tauto))
  · rw [hg.held,h.held]
    constructor
    · rintro ((hf | hf) | hnew | ⟨n,hnone,hn⟩)
      · exact .inl hf
      · exact .inr (hkept hf)
      · exact .inr (hmem'.mpr (.inl (.inr hnew)))
      · have hne : n.path≠[] := fun hnil => by
          have := h.keeps (hold hn (.inr hnil))
          simp [hnone] at this
        exact .inr (hmem'.mpr (.inr ⟨n,hn,(hg.created hn hnone).1,hne⟩))
    · rintro (hf | hf)
      · exact .inl (.inl hf)
      · rcases hmem'.mp hf with (hleaf | hnew) | ⟨n,hn,hspace,hne⟩
        · exact .inl (.inr (hmem.mpr (.inl hleaf)))
        · exact .inr (.inl hnew)
        · cases hT : T n with
          | none => exact .inr (.inr ⟨n,hT,hn⟩)
          | some g =>
            obtain rfl := Option.some.inj ((hg.keeps hT).symm.trans hn)
            exact .inl (.inr (hmem.mpr (.inr ⟨n,hT,hspace,hne⟩)))
  · rcases hg.leaf.mp hf with hf | hnew
    · cases hT : T n with
      | some g =>
        obtain rfl := Option.some.inj ((hg.keeps hT).symm.trans hn)
        exact h.exclusive.table hf n hT
      | none =>
        have := (h.free.mp (hg.created hn hT).2).2
        exact this (hmem.mpr (.inl hf))
    · exact hg.new_table hnew n hn
  · rcases hg.leaf.mp hf with hf | hnew
    · exact h.leaf hf
    · exact hsub (hg.new_free hnew)

theorem leafEntry_congr {p : Page} (h : Sound σ T) (h' : Sound σ' T)
    (hmem : ∀ {n g}, T n=some g → σ'.mem g=σ.mem g) (hr : T (.root r)=some r)
    (hp : p.i4≠RECURSIVE_IDX) : leafEntry σ'.mem r p=leafEntry σ.mem r p := by
  rw [leafEntry_eq h hr hp,leafEntry_eq h' hr hp]
  cases ht : T (leafNode r p) with
  | none => rfl
  | some t => exact congrFun (hmem ht) _

section Step

variable {rest : List (Option Frame)} {c : Index → Word} {σ₂ : Tables}
  (h : Sound σ T) (hfree : σ.pool.free f = true)
  (hext : Extends ⟨setFrame σ.mem f c, σ.pool.without f rest⟩ T σ₂ T')
  (hlocal : Local ⟨setFrame σ.mem f c, σ.pool.without f rest⟩ T σ₂ T' d)

include h hfree hext in
private theorem taken_not_table (n : Node) : T' n≠some f := by
  intro hn
  cases hT : T n with
  | none => exact (without_free.mp (hext.created hn hT).1).2 rfl
  | some g =>
    obtain rfl := Option.some.inj ((hext.keeps hT).symm.trans hn)
    exact h.fresh hfree n hT

include hext hlocal in
private theorem taken_created {n : Node} {g : Frame} (hn : T' n=some g) (hnone : T n=none) :
    n.space=some d ∧ σ.pool.free g=true :=
  ⟨hlocal.created hn hnone,(without_free.mp (hext.created hn hnone).1).1⟩

include hfree hext hlocal in
private theorem taken_others {g : Frame} (hg : σ.pool.free g=false)
    (hout : ∀ n, n.space=some d → T n≠some g) : σ₂.mem g=σ.mem g := by
  have hgf : g≠f := by
    rintro rfl
    simp [hfree] at hg
  have hsame : setFrame σ.mem f c g=σ.mem g := setFrame_of_ne _ _ _ hgf
  by_cases htable : ∃ n, T' n=some g
  · obtain ⟨n,hn⟩ := htable
    cases hT : T n with
    | none => simp [(taken_created hext hlocal hn hT).2] at hg
    | some g' =>
      obtain rfl := Option.some.inj ((hext.keeps hT).symm.trans hn)
      exact (hlocal.tables hT fun hspace => hout n hspace hT).trans hsame
  · exact (hext.others fun n hn => htable ⟨n,hn⟩).trans hsame

private theorem growsBy_mapped {p : Page} {e' : Word} (h : Sound σ T)
    (hfree : σ.pool.free f=true) (hd : T (.root d)=some d) (hlow : p.i4<KERNEL_PML4_FIRST)
    (hx : Exclusive σ T d) (hunused : ¬ IsLeafFrame σ.mem d f)
    (habsent : isPresent (leafEntry σ.mem d p)=false)
    (he : isPresent e'=true) (hte : target e'=f)
    (hw : Writes ⟨setFrame σ.mem f c, σ.pool.without f rest⟩ T σ₂ T' d p e')
    (hlocal : Local ⟨setFrame σ.mem f c, σ.pool.without f rest⟩ T σ₂ T' d) :
    GrowsBy d (· = f) σ T σ₂ T' ∧ ∀ p' : Page, p'.i4<KERNEL_PML4_FIRST → p'≠p →
      leafEntry σ₂.mem d p'=leafEntry σ.mem d p' := by
  have hs₁ : Sound ⟨setFrame σ.mem f c,σ.pool.without f rest⟩ T :=
    h.congr_free (fun hn => setFrame_of_ne _ _ _ fun hg => h.fresh hfree _ (hg ▸ hn))
      fun hg => (without_free.mp hg).1
  have hother (p' : Page) (hlow' : p'.i4<KERNEL_PML4_FIRST) (hne : p'≠p) :
      leafEntry σ₂.mem d p'=leafEntry σ.mem d p' := by
    rw [hw.elsewhere hd (ne_recursive_of_lower hlow') fun hs => hne hs.1.symm]
    exact leafEntry_congr h hs₁ (fun hn => setFrame_of_ne _ _ _ fun hg => h.fresh hfree _ (hg ▸ hn))
      hd (ne_recursive_of_lower hlow')
  have hhere := hw.here
  refine ⟨?_,hother⟩
  exact
    { sound := hw.sound
      keeps := hw.keeps
      roots := hw.roots
      created := taken_created hw.toExtends hlocal
      others := taken_others hfree hw.toExtends hlocal
      new_free := fun hf => hf ▸ hfree
      new_table := fun hf => hf ▸ taken_not_table h hfree hw.toExtends
      leaf := fun {g} => by
        constructor
        · rintro ⟨p',hlow',hp',rfl⟩
          by_cases hne : p'=p
          · subst hne
            exact .inr (by rw [hhere,hte])
          · rw [hother p' hlow' hne] at hp' ⊢
            exact .inl ⟨p',hlow',hp',rfl⟩
        · rintro (⟨p',hlow',hp',rfl⟩ | rfl)
          · have hne : p'≠p := by
              rintro rfl
              simp [habsent] at hp'
            rw [← hother p' hlow' hne] at hp' ⊢
            exact ⟨p',hlow',hp',rfl⟩
          · exact ⟨p,hlow,by rw [hhere,he],by rw [hhere,hte]⟩
      free := fun {g} => by
        rw [hw.free]
        exact ⟨fun ⟨hg,ht⟩ => ⟨(without_free.mp hg).1,(without_free.mp hg).2,ht⟩,
          fun ⟨hg,hne,ht⟩ => ⟨without_free.mpr ⟨hg,hne⟩,ht⟩⟩
      held := fun {g} => by
        rw [hw.held,show _ ↔ _ from without_held,or_assoc]
      stray := hw.stray
      inj := fun {p₁ p₂} hl₁ hl₂ hp₁ hp₂ heq => by
        by_cases h₁ : p₁=p
        · by_cases h₂ : p₂=p
          · rw [h₁,h₂]
          · rw [hother p₂ hl₂ h₂] at hp₂ heq
            rw [h₁,hhere,hte] at heq
            exact absurd ⟨p₂,hl₂,hp₂,heq.symm⟩ hunused
        · by_cases h₂ : p₂=p
          · rw [hother p₁ hl₁ h₁] at hp₁ heq
            rw [h₂,hhere,hte] at heq
            exact absurd ⟨p₁,hl₁,hp₁,heq⟩ hunused
          · rw [hother p₁ hl₁ h₁] at hp₁ heq
            rw [hother p₂ hl₂ h₂] at hp₂ heq
            exact hx.inj hl₁ hl₂ hp₁ hp₂ heq }

theorem Sound.give (h : Sound σ T) (hf : ∀ n, T n≠some f) :
    Sound { σ with pool := σ.pool.give f } T := by
  refine ⟨h.forest,fun {g} hg => ?_⟩
  by_cases hgf : g=f
  · exact hgf ▸ hf
  · exact h.fresh (by simpa [FramePool.give,hgf] using hg)

private theorem growsBy_failed (h : Sound σ T) (hfree : σ.pool.free f=true)
    (hheld : σ.pool.held f=false) (hd : T (.root d)=some d) (hx : Exclusive σ T d)
    (hsound : Sound σ₂ T')
    (hg : Grown ⟨setFrame σ.mem f c, σ.pool.without f rest⟩ T σ₂ T')
    (hlocal : Local ⟨setFrame σ.mem f c, σ.pool.without f rest⟩ T σ₂ T' d) :
    GrowsBy d (fun _ => False) σ T { σ₂ with pool := σ₂.pool.give f } T' ∧
      ∀ p' : Page, p'.i4<KERNEL_PML4_FIRST → leafEntry σ₂.mem d p'=leafEntry σ.mem d p' := by
  have hs₁ : Sound ⟨setFrame σ.mem f c,σ.pool.without f rest⟩ T :=
    h.congr_free (fun hn => setFrame_of_ne _ _ _ fun hg => h.fresh hfree _ (hg ▸ hn))
      fun hg => (without_free.mp hg).1
  have hsame (p' : Page) (hlow' : p'.i4<KERNEL_PML4_FIRST) :
      leafEntry σ₂.mem d p'=leafEntry σ.mem d p' := by
    rw [hg.leafEntry hs₁ hsound hd (ne_recursive_of_lower hlow')]
    exact leafEntry_congr h hs₁ (fun hn => setFrame_of_ne _ _ _ fun hg => h.fresh hfree _ (hg ▸ hn))
      hd (ne_recursive_of_lower hlow')
  have hnt := taken_not_table h hfree hg.toExtends
  refine ⟨?_,hsame⟩
  exact
    { sound := hsound.give hnt
      keeps := hg.keeps
      roots := hg.roots
      created := taken_created hg.toExtends hlocal
      others := taken_others hfree hg.toExtends hlocal
      new_free := False.elim
      new_table := False.elim
      leaf := fun {g} => by
        rw [or_false]
        constructor
        · rintro ⟨p',hlow',hp',rfl⟩
          dsimp only at hp' ⊢
          rw [hsame p' hlow'] at hp' ⊢
          exact ⟨p',hlow',hp',rfl⟩
        · rintro ⟨p',hlow',hp',rfl⟩
          rw [← hsame p' hlow'] at hp' ⊢
          exact ⟨p',hlow',hp',rfl⟩
      free := fun {g} => by
        by_cases hgf : g=f
        · subst hgf
          simp [FramePool.give,hfree,hnt]
        · simp only [FramePool.give,Function.update_of_ne hgf,hg.free,without_free,hgf,
            not_false_eq_true,ne_eq,and_true,true_and]
      held := fun {g} => by
        by_cases hgf : g=f
        · subst hgf
          simp [FramePool.give,hheld,hnt]
        · simp only [FramePool.give,Function.update_of_ne hgf,hg.held,without_held,hgf,
            or_false,false_or]
      stray := by
        have hheld' : σ₂.pool.held f=true := hg.held.mpr (.inl (without_held.mpr (.inr rfl)))
        rw [FramePool.give,if_pos hheld']
        exact hg.stray
      inj := fun {p₁ p₂} hl₁ hl₂ hp₁ hp₂ heq => by
        dsimp only at hp₁ hp₂ heq
        rw [hsame p₁ hl₁] at hp₁ heq
        rw [hsame p₂ hl₂] at hp₂ heq
        exact hx.inj hl₁ hl₂ hp₁ hp₂ heq }

end Step

def FramePool.Disjoint (p : FramePool) : Prop := ∀ f, p.free f = true → p.held f = false

theorem Copying.disjoint (hc : Copying σ₀ T₀ d σ T) (h₀ : σ₀.pool.Disjoint) :
    σ.pool.Disjoint := by
  intro f hf
  obtain ⟨hf₀,hout⟩ := hc.free.mp hf
  rw [← Bool.not_eq_true,hc.held]
  simp [h₀ f hf₀,hout]

/-- The frame is not written while the space `d` is filled. -/
def Stable (σ₀ : Tables) (T₀ : Node → Option Frame) (d g : Frame) : Prop :=
  σ₀.pool.free g = false ∧ ∀ n, n.space = some d → T₀ n ≠ some g

structure Copied (σ₀ : Tables) (T₀ : Node → Option Frame) (d : Frame) (ks : List WalkAction)
    (σ σ' : Tables) : Prop where
  nonzero {virt : Haddr} {e : Word} : .visit virt e ∈ ks → virt &&& MAPPING_STRUCTURE_MASK ≠ 0
  page {virt : Haddr} {e : Word} : .visit virt e ∈ ks → ∃ f,
    leafEntry σ'.mem d (pageOf virt) = address f ||| entryFlags e ∧
      (Stable σ₀ T₀ d (target e) → σ'.mem f = σ₀.mem (target e))
  elsewhere {p : Page} : p.i4 < KERNEL_PML4_FIRST →
    (∀ virt e, .visit virt e ∈ ks → pageOf virt ≠ p) →
    leafEntry σ'.mem d p = leafEntry σ.mem d p
  contents {g : Frame} : IsLeafFrame σ.mem d g → σ'.mem g = σ.mem g

/-- What became of the attempt to copy pages: copies of all, a shortage of frames, or, for the
page at address 0, a copy that is taken for a failure and whose frame is given back. -/
inductive CopyOutcome (σ₀ : Tables) (T₀ : Node → Option Frame) (d : Frame)
    (ks : List WalkAction) (σ : Tables) : Bool → Tables → Prop
  | copied (σ' : Tables) (T' : Node → Option Frame) : Copied σ₀ T₀ d ks σ σ' →
    Copying σ₀ T₀ d σ' T' → σ'.pool.failures = σ.pool.failures → CopyOutcome σ₀ T₀ d ks σ true σ'
  | short (σ' : Tables) (T' : Node → Option Frame) :
    Copying σ₀ T₀ d σ' T' → σ'.pool.failures = σ.pool.failures + 1 →
    CopyOutcome σ₀ T₀ d ks σ false σ'
  | zero (σ' : Tables) (T' : Node → Option Frame) (f : Frame) (virt : Haddr) (e : Word) :
    .visit virt e ∈ ks → virt &&& MAPPING_STRUCTURE_MASK = 0 →
    Copying σ₀ T₀ d σ' T' → IsLeafFrame σ'.mem d f → σ'.pool.failures = σ.pool.failures →
    CopyOutcome σ₀ T₀ d ks σ false { σ' with pool := σ'.pool.give f }

theorem isPresent_copy {f : Frame} {e : Word} (he : isPresent e=true) :
    isPresent (address f ||| entryFlags e)=true := by
  rw [isPresent_or,isPresent_entryFlags,he,Bool.or_true]

theorem target_copy (f : Frame) (e : Word) : target (address f ||| entryFlags e)=f := by
  rw [target_or,target_address,target_entryFlags]
  simp

theorem Copying.fail (hc : Copying σ₀ T₀ d σ T) (rest : List (Option Frame)) :
    Copying σ₀ T₀ d { σ with pool := σ.pool.fail rest } T where
  sound := ⟨hc.sound.forest,hc.sound.fresh⟩
  keeps := hc.keeps
  roots := hc.roots
  created := hc.created
  others := hc.others
  free := hc.free
  held := hc.held
  stray := hc.stray
  exclusive := ⟨hc.exclusive.inj,hc.exclusive.table⟩
  leaf := hc.leaf

theorem copyPage_step (hc : Copying σ₀ T₀ d σ T) (h₀ : Sound σ₀ T₀) (hpool : σ₀.pool.Disjoint)
    (hd : T₀ (.root d)=some d) (hlow : (pageOf virt).i4<KERNEL_PML4_FIRST)
    (habsent : isPresent (leafEntry σ.mem d (pageOf virt))=false) (he : isPresent e=true) :
    CopyOutcome σ₀ T₀ d [.visit virt e] σ (copyPage d virt e σ).1 (copyPage d virt e σ).2 := by
  rw [copyPage]
  obtain ⟨rest,htake⟩ | ⟨f,rest,hfree,hf0,htake⟩ := take_cases σ.pool
  · rw [htake]
    exact .short _ T (hc.fail rest) rfl
  · rw [htake]
    dsimp only
    have hdT := hc.keeps hd
    have hunused : ¬ IsLeafFrame σ.mem d f := fun hf =>
      (hc.free.mp hfree).2 ((mem_lowerFrames hc.sound hdT).mpr (.inl hf))
    have hs₁ : Sound ⟨setFrame σ.mem f (σ.mem (target e)),σ.pool.without f rest⟩ T :=
      hc.sound.congr_free (fun hn => setFrame_of_ne _ _ _ fun hg => hc.sound.fresh hfree _ (hg ▸ hn))
        fun hg => (without_free.mp hg).1
    have hfail := mapPage_failures d virt (flagsToMappingRequest (entryFlags e))
      (address f ||| entryFlags e) ⟨setFrame σ.mem f (σ.mem (target e)),σ.pool.without f rest⟩
    obtain ⟨T',-,hlocal,hcase⟩ := mapPage_writes (flagsToMappingRequest (entryFlags e))
      (address f ||| entryFlags e) hs₁ hdT (ne_recursive_of_lower hlow)
    obtain ⟨⟨ok,σ₂⟩,hres⟩ : ∃ x, mapPage d virt (flagsToMappingRequest (entryFlags e))
      (address f ||| entryFlags e)
      ⟨setFrame σ.mem f (σ.mem (target e)),σ.pool.without f rest⟩=x := ⟨_,rfl⟩
    rw [hres] at hlocal hcase hfail
    simp only [hres]
    have hlocal := hlocal hlow
    rcases hcase with ⟨hok,hw⟩ | ⟨hok,hsound,hg,-⟩
    · obtain rfl : ok=true := hok
      obtain ⟨hgrow,hother⟩ := growsBy_mapped hc.sound hfree hdT hlow hc.exclusive hunused habsent
        (isPresent_copy he) (target_copy f e) hw hlocal
      have hc' := hc.grow h₀ hd hgrow
      by_cases hv : virt &&& MAPPING_STRUCTURE_MASK=0
      · rw [if_neg (by simpa using hv)]
        exact .zero σ₂ T' f virt e (by simp) hv hc' (hgrow.leaf.mpr (.inr rfl)) hfail
      · rw [if_pos (by simpa using hv)]
        refine .copied σ₂ T' ?_ hc' hfail
        exact
          { nonzero := by
              rintro v e' hmem
              obtain ⟨rfl,rfl⟩ : v=virt ∧ e'=e := by simpa using hmem
              exact hv
            page := by
              rintro v e' hmem
              obtain ⟨rfl,rfl⟩ : v=virt ∧ e'=e := by simpa using hmem
              refine ⟨f,hw.here,fun hst => ?_⟩
              rw [← hc.others hst.1 hst.2,hw.others (taken_not_table hc.sound hfree hw.toExtends)]
              exact setFrame_self ..
            elsewhere := fun hl hne => hother _ hl (hne virt e (by simp)).symm
            contents := fun {g} hg => by
              refine hgrow.others (Bool.eq_false_iff.mpr fun hgfree => ?_)
                fun n _ => hc.exclusive.table hg n
              exact (hc.free.mp hgfree).2 ((mem_lowerFrames hc.sound hdT).mpr (.inl hg)) }
    · obtain rfl : ok=false := hok
      obtain ⟨hgrow,-⟩ := growsBy_failed hc.sound hfree (hc.disjoint hpool f hfree) hdT hc.exclusive
        hsound hg hlocal
      rw [if_neg (by simp)]
      exact .short _ T' (hc.grow h₀ hd hgrow) hfail

def copyAction (d : Frame) : WalkAction → Tables → Bool × Tables
  | .visit virt e => copyPage d virt e
  | .release _ => fun σ => (true, σ)

/-- `vmm_copy_mappings` on the tables. -/
def copyPages (r d : Frame) (σ : Tables) : Bool × Tables :=
  perform (copyAction d) (lowerActions σ.mem false r) σ

structure CopyList (d : Frame) (ks : List WalkAction) (σ : Tables) : Prop where
  visit : ∀ k ∈ ks, ∃ virt e, k = .visit virt e
  lower {virt : Haddr} {e : Word} : .visit virt e ∈ ks → (pageOf virt).i4 < KERNEL_PML4_FIRST
  present {virt : Haddr} {e : Word} : .visit virt e ∈ ks → isPresent e = true
  absent {virt : Haddr} {e : Word} : .visit virt e ∈ ks →
    isPresent (leafEntry σ.mem d (pageOf virt)) = false
  distinct : ks.Pairwise fun k k' => ∀ virt e virt' e', k = .visit virt e → k' = .visit virt' e' →
    pageOf virt ≠ pageOf virt'

theorem Copied.cons {virt : Haddr} {e : Word} (hl : CopyList d (.visit virt e::ks) σ)
    (h₁ : Copied σ₀ T₀ d [.visit virt e] σ σ₁) (h₂ : Copied σ₀ T₀ d ks σ₁ σ₂) :
    Copied σ₀ T₀ d (.visit virt e::ks) σ σ₂ := by
  have hapart : ∀ v' e', .visit v' e'∈ks → pageOf v'≠pageOf virt := fun v' e' hmem =>
    (rel_of_pairwise_cons hl.distinct hmem virt e v' e' rfl rfl).symm
  have hlow : (pageOf virt).i4<KERNEL_PML4_FIRST := hl.lower mem_cons_self
  have hleaf {g : Frame} : IsLeafFrame σ.mem d g → IsLeafFrame σ₁.mem d g := by
    rintro ⟨p,hp,hpres,rfl⟩
    have hne : pageOf virt≠p := by
      rintro rfl
      simp [hl.absent mem_cons_self] at hpres
    have heq : leafEntry σ₁.mem d p=leafEntry σ.mem d p := h₁.elsewhere hp fun v' e' hmem => by
      obtain ⟨rfl,rfl⟩ : v'=virt ∧ e'=e := by simpa using hmem
      exact hne
    exact ⟨p,hp,by rw [heq,hpres],by rw [heq]⟩
  exact
    { nonzero := fun {v' e'} hmem => by
        rcases mem_cons.mp hmem with heq | hmem
        · exact h₁.nonzero (mem_singleton.mpr heq)
        · exact h₂.nonzero hmem
      page := fun {v' e'} hmem => by
        rcases mem_cons.mp hmem with heq | hmem
        · obtain ⟨rfl,rfl⟩ : v'=virt ∧ e'=e := by simpa using heq
          obtain ⟨f,hf,hcontent⟩ := h₁.page (mem_singleton_self _)
          have hfl : IsLeafFrame σ₁.mem d f := ⟨pageOf v',hlow,by
            rw [hf,isPresent_copy (hl.present mem_cons_self)],by rw [hf,target_copy]⟩
          refine ⟨f,?_,fun hst => ?_⟩
          · rw [h₂.elsewhere hlow hapart,hf]
          · rw [h₂.contents hfl,hcontent hst]
        · exact h₂.page hmem
      elsewhere := fun hp hne => by
        rw [h₂.elsewhere hp fun v' e' hmem => hne v' e' (mem_cons_of_mem _ hmem)]
        refine h₁.elsewhere hp fun v' e' hmem => ?_
        exact hne v' e' (mem_cons.mpr (.inl (mem_singleton.mp hmem)))
      contents := fun hg => by
        rw [h₂.contents (hleaf hg),h₁.contents hg] }

theorem CopyList.tail {virt : Haddr} {e : Word} (hl : CopyList d (.visit virt e::ks) σ)
    (h₁ : Copied σ₀ T₀ d [.visit virt e] σ σ₁) : CopyList d ks σ₁ where
  visit k hk := hl.visit k (mem_cons_of_mem _ hk)
  lower hk := hl.lower (mem_cons_of_mem _ hk)
  present hk := hl.present (mem_cons_of_mem _ hk)
  absent {v' e'} hk := by
    have hk' : .visit v' e'∈(.visit virt e::ks : List WalkAction) := mem_cons_of_mem _ hk
    rw [h₁.elsewhere (hl.lower hk') fun v'' e'' hmem => ?_]
    · exact hl.absent hk'
    · obtain ⟨rfl,rfl⟩ : v''=virt ∧ e''=e := by simpa using hmem
      exact rel_of_pairwise_cons hl.distinct hk _ _ _ _ rfl rfl
  distinct := hl.distinct.of_cons

theorem copyAll_outcome (h₀ : Sound σ₀ T₀) (hpool : σ₀.pool.Disjoint) (hd : T₀ (.root d)=some d)
    (ks : List WalkAction) {σ : Tables} {T : Node → Option Frame} (hc : Copying σ₀ T₀ d σ T)
    (hl : CopyList d ks σ) :
    CopyOutcome σ₀ T₀ d ks σ (perform (copyAction d) ks σ).1 (perform (copyAction d) ks σ).2 := by
  induction ks generalizing σ T with
  | nil =>
    refine .copied σ T ⟨?_,?_,fun _ _ => rfl,fun _ => rfl⟩ hc rfl <;> simp
  | cons k ks ih =>
    obtain ⟨virt,e,rfl⟩ := hl.visit k mem_cons_self
    have hstep := copyPage_step hc h₀ hpool hd (hl.lower mem_cons_self)
      (hl.absent mem_cons_self) (hl.present mem_cons_self)
    rw [perform,copyAction]
    obtain ⟨⟨ok,σ₁⟩,hres⟩ : ∃ x, copyPage d virt e σ=x := ⟨_,rfl⟩
    simp only [hres] at hstep ⊢
    cases hstep with
    | copied _ T₁ hcopied hc₁ hfail =>
      rw [if_pos rfl]
      have hrest := ih hc₁ (hl.tail hcopied)
      generalize (perform (copyAction d) ks σ₁).1=ok', (perform (copyAction d) ks σ₁).2=σ' at *
      cases hrest with
      | copied _ T₂ hcopied₂ hc₂ hfail₂ =>
        exact .copied _ T₂ (hcopied.cons hl hcopied₂) hc₂ (hfail₂.trans hfail)
      | short _ T₂ hc₂ hfail₂ => exact .short _ T₂ hc₂ (by rw [hfail₂,hfail])
      | zero σ₂ T₂ f v' e' hmem hv hc₂ hf hfail₂ =>
        exact .zero σ₂ T₂ f v' e' (mem_cons_of_mem _ hmem) hv hc₂ hf (hfail₂.trans hfail)
    | short _ T₁ hc₁ hfail =>
      rw [if_neg (by simp)]
      exact .short _ T₁ hc₁ hfail
    | zero σ₂ T₁ f v' e' hmem hv hc₁ hf hfail =>
      rw [if_neg (by simp)]
      exact .zero σ₂ T₁ f v' e' (by simpa using .inl (by simpa using hmem)) hv hc₁ hf hfail

/-- The walk visits each present page of the source once. -/
theorem copyList_lowerActions (h : Sound σ T) (hr : T (.root r)=some r)
    (hempty : ∀ p : Page, p.i4<KERNEL_PML4_FIRST →
      isPresent (leafEntry σ.mem d p)=false) :
    CopyList d (lowerActions σ.mem false r) σ := by
  have hordered : Ordered σ.mem T r [] (lowerActions σ.mem false r) :=
    ordered_lowerActions h.forest hr
  have hvisit {virt : Haddr} {e : Word} (hk : .visit virt e∈lowerActions σ.mem false r) :
      ∃ p : Page, virt=virtOf p.i4 p.i3 p.i2 p.i1 ∧ p.i4<KERNEL_PML4_FIRST ∧
        leafEntry σ.mem r p=e ∧ isPresent e=true := by
    obtain ⟨-,q,-,hl⟩ := hordered.below _ hk
    obtain ⟨p,-,hp⟩ := (located_visit h hr).mp hl
    exact ⟨p,hp⟩
  have hlower {virt : Haddr} {e : Word} (hk : .visit virt e∈lowerActions σ.mem false r) :
      (pageOf virt).i4<KERNEL_PML4_FIRST := by
    obtain ⟨p,rfl,hlow,-⟩ := hvisit hk
    rwa [pageOf_virtOf]
  refine ⟨fun k hk => ?_,hlower,fun hk => ?_,fun hk => hempty _ (hlower hk),?_⟩
  · cases k with
    | visit virt e => exact ⟨virt,e,rfl⟩
    | release t => exact absurd hk (release_not_mem t)
  · obtain ⟨p,-,-,-,hp⟩ := hvisit hk
    exact hp
  · refine List.Pairwise.imp_of_mem ?_ hordered.nodup
    rintro _ _ hk hk' hne virt e virt' e' rfl rfl heq
    obtain ⟨p,rfl,-,rfl,-⟩ := hvisit hk
    obtain ⟨p',rfl,-,rfl,-⟩ := hvisit hk'
    rw [pageOf_virtOf,pageOf_virtOf] at heq
    exact hne (by rw [show p=p' from heq])

theorem copyPages_outcome (h : Sound σ T) (hpool : σ.pool.Disjoint) (hr : T (.root r)=some r)
    (hd : T (.root d)=some d) (hempty : ∀ n : Node, n.space=some d → n.path≠[] → T n=none) :
    CopyOutcome σ T d (lowerActions σ.mem false r) σ (copyPages r d σ).1 (copyPages r d σ).2 := by
  refine copyAll_outcome h hpool hd _ (.refl h hd hempty) (copyList_lowerActions h hr fun p hp => ?_)
  rw [leafEntry_eq h hd (ne_recursive_of_lower hp),hempty]
  · exact show isPresent 0=false by decide
  · rw [leafNode_eq,if_neg (BitVec.not_le.mpr hp)]
  · simp [leafNode_eq,Page.tables]

private theorem KernelReady.locally {m' : PhysMem} (h : KernelReady s σ T w kr)
    (hsound : Sound σ' T') (hkeeps : ∀ {n g}, T n=some g → T' n=some g)
    (hlocal : Local σ T σ' T' d) (hagree : Agree w m' σ'.mem) (ev : List Event) :
    KernelReady (s.update m' σ'.pool ev) σ' T' w kr := by
  refine h.extend hsound hkeeps hagree ?_ ev
  obtain ⟨t,ht,heq⟩ := exists_table h.sound h.root h.recursive h.directory.present
  have hspace : (leafNode kr (pageOf s.virtualDirectory)).space≠some d := by
    rw [leafNode_eq,if_pos h.image]
    simp
  rw [heq,leafEntry_eq hsound (hkeeps h.root) h.recursive,hkeeps ht]
  exact congrFun (hlocal.tables ht hspace) _

theorem copyPage_local (h : Sound σ T) (hd : T (.root d)=some d)
    (hlow : (pageOf virt).i4<KERNEL_PML4_FIRST) :
    ∃ T', Sound (copyPage d virt e σ).2 T' ∧ (∀ {n g}, T n=some g → T' n=some g) ∧
      Local σ T (copyPage d virt e σ).2 T' d := by
  rw [copyPage]
  obtain ⟨rest,htake⟩ | ⟨f,rest,hfree,hf0,htake⟩ := take_cases σ.pool
  · rw [htake]
    exact ⟨T,⟨h.forest,h.fresh⟩,id,fun hn hnone => by simp [hn] at hnone,fun _ _ => rfl⟩
  · rw [htake]
    dsimp only
    have hne {n : Node} {g : Frame} (hn : T n=some g) : g≠f := fun hg =>
      h.fresh hfree _ (hg ▸ hn)
    have hs₁ : Sound ⟨setFrame σ.mem f (σ.mem (target e)),σ.pool.without f rest⟩ T :=
      h.congr_free (fun hn => setFrame_of_ne _ _ _ (hne hn)) fun hg => (without_free.mp hg).1
    obtain ⟨T',-,hlocal,hcase⟩ := mapPage_writes (flagsToMappingRequest (entryFlags e))
      (address f ||| entryFlags e) hs₁ hd (ne_recursive_of_lower hlow)
    obtain ⟨⟨ok,σ₂⟩,hres⟩ : ∃ x, mapPage d virt (flagsToMappingRequest (entryFlags e))
      (address f ||| entryFlags e)
      ⟨setFrame σ.mem f (σ.mem (target e)),σ.pool.without f rest⟩=x := ⟨_,rfl⟩
    rw [hres] at hlocal hcase
    simp only [hres]
    have hlocal := hlocal hlow
    obtain ⟨hsound,hext⟩ : Sound σ₂ T' ∧
        Extends ⟨setFrame σ.mem f (σ.mem (target e)),σ.pool.without f rest⟩ T σ₂ T' := by
      rcases hcase with ⟨-,hw⟩ | ⟨-,hsound,hg,-⟩
      · exact ⟨hw.sound,hw.toExtends⟩
      · exact ⟨hsound,hg.toExtends⟩
    have hnt := taken_not_table h hfree hext
    have hmem {n : Node} {g : Frame} (hn : T n=some g) (hspace : n.space≠some d) :
        σ₂.mem g=σ.mem g := (hlocal.tables hn hspace).trans (setFrame_of_ne _ _ _ (hne hn))
    refine ⟨T',?_,hext.keeps,fun hn hnone => hlocal.created hn hnone,fun hn hspace => ?_⟩
    · split_ifs
      · exact hsound
      · exact hsound.give hnt
    · split_ifs <;> exact hmem hn hspace

/-- The machine holds the tables `σ`, in which the space `r` is as it was in `m`. -/
private def Walking (s₀ : Machine) (m : PhysMem) (T₀ : Node → Option Frame) (w kr r : Frame)
    (σ : Tables) (s : Machine) : Prop :=
  ∃ T, KernelReady s σ T w kr ∧ (∀ {n g}, T₀ n = some g → T n = some g) ∧
    (∀ {n g}, T₀ n = some g → n.space = some r → σ.mem g = m g) ∧ ∃ m' p ev, s = s₀.update m' p ev

private theorem Walking.shows {s₀ : Machine} {m : PhysMem} {n : Node} {t : Frame} {ptr : Haddr}
    {k : Index} (hn : T₀ n=some t) (hspace : n.space=some r) (hk : IsWindow ptr k) :
    Shows (Walking s₀ m T₀ w kr r) ptr m t := by
  rintro σ s ⟨T,h,hkeeps,hsame,m₀,p₀,ev₀,rfl⟩
  have hne : t≠w := by
    rintro rfl
    rw [h.sound.forest.inj (hkeeps hn) h.window] at hspace
    cases hspace
  obtain ⟨s',ev,rfl,hmap,hread⟩ := scratchMapTable_read h.windowed hk hne
  have hready := h.step h.sound (.refl h.sound)
    ((agree_setWindow _ hk.small (windowEntry t)).trans h.agree) ev
  rw [← h.pool] at hready
  refine ⟨_,hmap,⟨T,hready,hkeeps,hsame,_,p₀,ev,rfl⟩,fun i => ?_⟩
  rw [hread i,h.agree.frame hne,hsame hn hspace]

theorem vmmCopyMappings_run (h : KernelReady s σ T w kr) (hr : T (.root r)=some r)
    (hd : T (.root d)=some d) (hne : r≠d)
    (hwin : ∀ {p : Page}, p.i4<KERNEL_PML4_FIRST → isPresent (leafEntry σ.mem r p)=true →
      target (leafEntry σ.mem r p)≠w) :
    ∃ m' ev T', vmmCopyMappings (address d) (address r) s =
        some ((copyPages r d σ).1, s.update m' (copyPages r d σ).2.pool ev) ∧
      KernelReady (s.update m' (copyPages r d σ).2.pool ev) (copyPages r d σ).2 T' w kr := by
  have hwalk : Refines (Walking s σ.mem T w kr r)
      (walkLowerMappings (address r) (copyMapping (address d)) false)
      (perform (copyAction d) (lowerActions σ.mem false r)) := by
    refine walkLowerMappings_refines h.sound.forest hr
      (fun hn hspace _ _ hk => Walking.shows hn hspace hk) (fun {p t} hlow ht hp => ?_) (by simp)
    rintro σ₁ s₁ ⟨T₁,h₁,hkeeps,hsame,m₀,p₀,ev₀,rfl⟩
    have hentry : leafEntry σ.mem r p=σ.mem t p.i1 := by
      rw [leafEntry_eq h.sound hr (ne_recursive_of_lower hlow),ht]
    have hlow' : (pageOf (virtOf p.i4 p.i3 p.i2 p.i1)).i4<KERNEL_PML4_FIRST := by
      rwa [pageOf_virtOf]
    have htarget : target (σ.mem t p.i1)≠w := hentry ▸ hwin hlow (hentry ▸ hp)
    obtain ⟨m₂,ev₂,hrun,hagree⟩ := copyMapping_run h₁ (hkeeps hd)
      (ne_recursive_of_lower hlow') htarget
    obtain ⟨T₂,hsound,hkeeps₂,hlocal⟩ := copyPage_local (e := σ.mem t p.i1) h₁.sound (hkeeps hd) hlow'
    refine ⟨_,hrun,T₂,h₁.locally hsound hkeeps₂ hlocal hagree ev₂,
      fun hn => hkeeps₂ (hkeeps hn),fun hn hspace => ?_,m₂,_,ev₂,rfl⟩
    have hother := hlocal.tables (hkeeps hn) (by rw [hspace]; simpa using hne)
    exact hother.trans (hsame hn hspace)
  obtain ⟨s',hrun,T',hready,-,-,m',pool,ev,rfl⟩ :=
    hwalk σ s ⟨T,h,id,fun _ _ => rfl,s.mem,s.pool,s.events,rfl⟩
  obtain rfl : pool=(copyPages r d σ).2.pool := hready.pool
  exact ⟨m',ev,T',hrun,hready⟩

end Hojicha.Vmm
