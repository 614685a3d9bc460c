import Hojicha.Vmm.Boot

/-!
# Page tables as a flat map

Two address spaces can differ in the no-execute bit of an upper entry of their roots, and then
mapping an executable page loosens the rights of its neighbours.
-/

namespace Hojicha.Vmm

open Framework.Paging

variable {s : Machine} {σ σ' : Tables} {T T' : Node → Option Frame} {w r kr frame : Frame}
  {virt flags : Haddr} {p : Page}

/-- The walk of one page becomes `result`, the walks of all others stay as they are. -/
structure FlatUpdate (T : Node → Option Frame) (r : Frame) (virt : Haddr)
    (result : Option (Frame × Rights)) (m m' : PhysMem) : Prop where
  here : walk m' r (pageOf virt).path = result
  elsewhere {r' : Frame} {p : Page} : T (.root r') = some r' → Ordinary p →
    ¬ SameLeaf r (pageOf virt) r' p → walk m' r' p.path = walk m r' p.path

theorem Ready.walk_eq (h : Ready s σ T w) (hr : T (.root r)=some r) (hp : Ordinary p) :
    walk s.mem r p.path=walk σ.mem r p.path := by
  have hself : Sound ⟨s.mem,σ.pool⟩ T := ⟨h.forest,h.sound.fresh⟩
  have hinner {n : Node} {f : Frame} (hn : T n=some f) (hlen : n.path.length<3) :
      (⟨s.mem,σ.pool⟩ : Tables).mem f=σ.mem f := h.inner_eq hn hlen
  exact walk_congr hinner h.sound hself hr hp.ne (h.leafEntry hr hp.ne hp.window)

theorem Ready.stale_iff (h : Ready s σ T w) (hr : T (.root r)=some r) :
    Stale s.mem r virt flags ↔ Stale σ.mem r virt flags := by
  have hroot := h.inner_eq hr (by simp [Node.root])
  simp only [Stale,hroot]
  refine and_congr_right fun _ => and_congr_right fun _ => and_congr_right fun _ =>
    exists_congr fun p => and_congr_right fun _ => and_congr_right fun _ => and_congr_right
      fun hord => ?_
  rw [h.leafEntry hr hord.ne hord.window]

theorem Ready.flatUpdate {s' : Machine} {result : Option (Frame × Rights)} (h : Ready s σ T w)
    (h' : Ready s' σ' T' w) (hkeeps : ∀ {n f}, T n=some f → T' n=some f)
    (hr : T (.root r)=some r) (hp : Ordinary (pageOf virt)) :
    FlatUpdate T r virt result s.mem s'.mem ↔ FlatUpdate T r virt result σ.mem σ'.mem := by
  have hwalk {r' : Frame} {p : Page} (hr' : T (.root r')=some r') (hord : Ordinary p) :
      walk s.mem r' p.path=walk σ.mem r' p.path ∧ walk s'.mem r' p.path=walk σ'.mem r' p.path :=
    ⟨h.walk_eq hr' hord,h'.walk_eq (hkeeps hr') hord⟩
  constructor
  · rintro ⟨hhere,helse⟩
    refine ⟨(hwalk hr hp).2 ▸ hhere,fun hr' hord hne => ?_⟩
    rw [← (hwalk hr' hord).1,← (hwalk hr' hord).2]
    exact helse hr' hord hne
  · rintro ⟨hhere,helse⟩
    refine ⟨(hwalk hr hp).2 ▸ hhere,fun hr' hord hne => ?_⟩
    rw [(hwalk hr' hord).1,(hwalk hr' hord).2]
    exact helse hr' hord hne

private theorem mapAt_flat (ht : Tidy σ T) (hs : Sound σ T)
    (he : Entries virt flags (.root r) (pageOf virt).tables σ T σ' T')
    (hw : Writes σ T σ' T' r (pageOf virt) (address frame ||| normalizeLeafFlags virt flags))
    (ht' : Tidy σ' T') (hr : T (.root r)=some r) (hp : Ordinary (pageOf virt)) :
    FlatUpdate T r virt (some (frame, rights (normalizeLeafFlags virt flags))) σ.mem σ'.mem ↔
      isPresent flags=true ∧ frame ||| target flags=frame ∧ ¬ Stale σ.mem r virt flags := by
  have hhere := walk_here ht' he hw hr hp.ne
  constructor
  · rintro ⟨hwalk,helse⟩
    rw [hhere] at hwalk
    split_ifs at hwalk with hpres
    obtain ⟨hframe,-⟩ := Prod.mk.inj (Option.some.inj hwalk)
    refine ⟨hpres,hframe,fun hstale => ?_⟩
    obtain ⟨p,hord,hne,hchange⟩ := walk_changes ht hs he hw hr hstale
    exact hchange (helse hr hord hne)
  · rintro ⟨hpres,hframe,hstale⟩
    refine ⟨by rw [hhere,if_pos hpres,hframe],fun hr' hord hne => ?_⟩
    exact walk_elsewhere ht hs he hw hr' hord hne hstale

/-- A successful `map_at_paddr_internal` is an update of a flat map exactly when the flags mark the
page present and do not reach into the address, and no entry of the root is stale. A successful
`unmap_internal` always is one. Both keep the tables tidy. -/
theorem flat_map_iff (vmm : Space) (virt : Haddr) (h : KernelReady s σ T w kr) (ht : Tidy σ T)
    (hvmm : IsRoot kr vmm r) (hr : T (.root r) = some r) (hp : Ordinary (pageOf virt))
    (hd : Editable s kr vmm (pageOf virt)) :
    (∀ frame flags, ∃ ret s' σ' T',
      mapAtPaddrInternal vmm virt (address frame) flags s = some (ret, s') ∧
      Ready s' σ' T' w ∧ Tidy σ' T' ∧
      (pageOf virt ≠ pageOf s.virtualDirectory → KernelReady s' σ' T' w kr) ∧
      (ret ≠ 0 → (FlatUpdate T r virt (some (frame, rights (normalizeLeafFlags virt flags)))
          s.mem s'.mem ↔
        isPresent flags = true ∧ frame ||| target flags = frame ∧
          ¬ Stale s.mem r virt flags))) ∧
    ∃ ret s' σ', unmapInternal vmm virt s = some (ret, s') ∧ Ready s' σ' T w ∧ Tidy σ' T ∧
      (pageOf virt ≠ pageOf s.virtualDirectory → KernelReady s' σ' T w kr) ∧
      (ret ≠ 0 → FlatUpdate T r virt none s.mem s'.mem) := by
  refine ⟨fun frame flags => ?_,?_⟩
  · obtain ⟨m',ev,hrun,hagree,-⟩ :=
        mapAtPaddrInternal_run (h.usable vmm) hvmm hr hd (address frame) flags
    obtain ⟨T',he,⟨hok,-,hw⟩ | ⟨hok,hs',hg,-⟩⟩ :=
      mapAt_spec h.sound hr virt (address frame) flags
    · have hready := h.toReady.extend hw.sound hw.keeps hagree (ev++s.events)
      have htidy : Tidy (mapAt r virt (address frame) flags σ).2 T' := by
        refine ht.step frame h.sound hw.toExtends hw.sound hr he fun {r' p'} hr' hord => ?_
        by_cases hsame : SameLeaf r (pageOf virt) r' p'
        · refine .inr ⟨hsame,?_⟩
          rw [hsame.leafEntry hw.sound (hw.keeps hr) (hw.keeps hr') hp.ne,hw.here]
        · exact .inl (hw.elsewhere hr' hord.ne hsame)
      refine ⟨_,_,_,T',hrun,hready,htidy,fun hv => h.writes hw hv hagree _,fun _ => ?_⟩
      rw [h.flatUpdate hready hw.keeps hr hp,h.stale_iff hr]
      exact mapAt_flat ht h.sound he hw htidy hr hp
    · refine ⟨_,_,_,T',hrun,h.toReady.extend hs' hg.keeps hagree _,
        ht.step frame h.sound hg.toExtends hs' hr he
          fun hr' hord => .inl (hg.leafEntry h.sound hs' hr' hord.ne),
        fun _ => h.step hs' hg hagree _,fun hret => absurd ?_ hret⟩
      rw [hok]
      rfl
  · obtain ⟨m',ev,hrun,hagree,-⟩ := unmapInternal_run (h.usable vmm) hvmm hr hd
    obtain ⟨-,-,hw,hinner,-⟩ | ⟨hfail,-⟩ := unmapAt_spec h.sound hr virt
    · have hready := h.toReady.extend hw.sound hw.keeps hagree (ev++s.events)
      have hleaf {r' : Frame} {p : Page} (hr' : T (.root r')=some r') (hord : Ordinary p) :
          leafEntry (unmapAt r virt σ).2.mem r' p=leafEntry σ.mem r' p ∨
            leafEntry (unmapAt r virt σ).2.mem r' p=0 := by
        by_cases hsame : SameLeaf r (pageOf virt) r' p
        · right
          rw [hsame.leafEntry hw.sound hr hr' hp.ne,hw.here]
        · exact .inl (hw.elsewhere hr' hord.ne hsame)
      refine ⟨_,_,_,hrun,hready,ht.clear hinner h.sound hw.sound hleaf,
        fun hv => h.writes hw hv hagree _,fun _ => ?_⟩
      rw [h.flatUpdate hready id hr hp]
      refine ⟨?_,fun hr' hord hne =>
        walk_congr hinner h.sound hw.sound hr' hord.ne (hw.elsewhere hr' hord.ne hne)⟩
      obtain ⟨t,htv⟩ := Option.ne_none_iff_exists'.mp hw.table
      obtain ⟨t3,t2,hpath⟩ := exists_path hw.sound hr hp.ne htv
      have hhere := hw.here
      rw [hpath.entry_eq hw.sound] at hhere
      rw [hpath.walk hw.sound,hhere]
      rfl
    · rw [hfail] at hrun hagree
      exact ⟨_,_,σ,hrun,h.toReady.step h.sound (.refl h.sound) hagree _,ht,
        fun _ => h.step h.sound (.refl h.sound) hagree _,fun hret => absurd rfl hret⟩

/-- The kernel maps a page for itself. -/
theorem flat_map_at_boot : ∃ ret s' σ' T',
    mapAtPaddrInternal .kernel 0xFFFF800000001000 (address 4096) 0x203 (bootMachine samplePool) =
      some (ret, s') ∧
    Ready s' σ' T' windowPt ∧ Tidy σ' T' ∧
    (pageOf 0xFFFF800000001000 ≠ pageOf (bootMachine samplePool).virtualDirectory →
      KernelReady s' σ' T' windowPt bootRoot) ∧
    (ret ≠ 0 → (FlatUpdate bootNodes bootRoot 0xFFFF800000001000
        (some (4096, rights (normalizeLeafFlags 0xFFFF800000001000 0x203)))
        (bootMachine samplePool).mem s'.mem ↔
      isPresent 0x203 = true ∧ 4096 ||| target 0x203 = (4096 : Frame) ∧
        ¬ Stale (bootMachine samplePool).mem bootRoot 0xFFFF800000001000 0x203)) :=
  (flat_map_iff .kernel 0xFFFF800000001000 (bootMachine_ready samplePool_free) bootTidy rfl rfl
    (by decide) (.inl (by decide))).1 4096 0x203

/-- The kernel path and the non-kernel path return the same, take the same frames and leave the
same tables. Only the entries of the scratch windows differ. -/
theorem map_paths_agree (h : KernelReady s σ T w kr) (hd : Direct s kr (pageOf virt))
    (frame : Frame) (flags : Haddr) : ∃ ret s₁ s₂ σ' T',
      mapAtPaddrInternal .kernel virt (address frame) flags s = some (ret, s₁) ∧
      mapAtPaddrInternal (.own (address kr)) virt (address frame) flags s = some (ret, s₂) ∧
      Ready s₁ σ' T' w ∧ Ready s₂ σ' T' w ∧ Agree w s₁.mem s₂.mem ∧ s₁.pool = s₂.pool := by
  obtain ⟨m₁,ev₁,hrun₁,hagree₁,-⟩ :=
    mapAtPaddrInternal_run (h.usable .kernel) rfl h.root hd (address frame) flags
  have hown : Editable s kr (.own (address kr)) (pageOf virt) := trivial
  obtain ⟨m₂,ev₂,hrun₂,hagree₂,-⟩ :=
    mapAtPaddrInternal_run (h.usable (.own (address kr))) rfl h.root hown (address frame) flags
  obtain ⟨T',hsound,hkeeps⟩ : ∃ T', Sound (mapAt kr virt (address frame) flags σ).2 T' ∧
      ∀ {n f}, T n=some f → T' n=some f := by
    obtain ⟨T',-,⟨-,-,hw⟩ | ⟨-,hs',hg,-⟩⟩ :=
      mapAt_spec h.sound h.root virt (address frame) flags
    · exact ⟨T',hw.sound,hw.keeps⟩
    · exact ⟨T',hs',hg.keeps⟩
  exact ⟨_,_,_,_,T',hrun₁,hrun₂,h.toReady.extend hsound hkeeps hagree₁ _,
    h.toReady.extend hsound hkeeps hagree₂ _,hagree₁.trans hagree₂.symm,rfl⟩

theorem map_paths_agree_at_boot : ∃ ret s₁ s₂ σ' T',
    mapAtPaddrInternal .kernel 0x400000 (address 4096) 0x207 (bootMachine samplePool) =
      some (ret, s₁) ∧
    mapAtPaddrInternal (.own (address bootRoot)) 0x400000 (address 4096) 0x207
      (bootMachine samplePool) = some (ret, s₂) ∧
    Ready s₁ σ' T' windowPt ∧ Ready s₂ σ' T' windowPt ∧ Agree windowPt s₁.mem s₂.mem ∧
    s₁.pool = s₂.pool :=
  map_paths_agree (bootMachine_ready samplePool_free) (.inr rfl) 4096 0x207

def windowAfter (k : Index) (call : M Haddr) : Option (Haddr × Word) :=
  (call (bootMachine samplePool)).map fun x => (x.1, x.2.mem windowPt k)

/-- Only the non-kernel path maps the root of the tables at `VIRT_SCRATCH_L4`. -/
theorem paths_differ_in_windows :
    windowAfter 2 (mapAtPaddrInternal .kernel 0x400000 (address 4096) 0x207) =
      some (0x400000, 0) ∧
    windowAfter 2 (mapAtPaddrInternal (.own (address bootRoot)) 0x400000 (address 4096) 0x207) =
      some (0x400000, windowEntry bootRoot) := by
  constructor
  · decide +kernel
  · decide +kernel

def sampleTables : Tables := ⟨bootMem, samplePool⟩

def firstPage : Haddr := 0xFFFF800000001000
def secondPage : Haddr := 0xFFFF800000002000

def executable : Haddr := PAGE_PRESENT ||| PAGE_WRITABLE ||| PAGE_EXECUTABLE

/-- A space is made, the kernel maps the first page and the space the second one. -/
def spaceTables : Tables := (newRoot bootRoot 0 sampleTables).2
def firstTables : Tables := (mapAt bootRoot firstPage (address 4096) executable spaceTables).2
def secondTables : Tables := (mapAt 2048 secondPage (address 4097) executable firstTables).2

/-- The first page was not executable in the new space, and becomes so when the second is mapped. -/
theorem stale_entry_loosened : ∃ s₁ s₂ s₃,
    newPml4 0 (bootMachine samplePool) = some (some (address 2048), s₁) ∧
    mapAtPaddrInternal .kernel firstPage (address 4096) executable s₁ = some (firstPage, s₂) ∧
    mapAtPaddrInternal (.own (address 2048)) secondPage (address 4097) executable s₂ =
      some (secondPage, s₃) ∧
    walk s₂.mem 2048 (pageOf firstPage).path = some (4096, ⟨true, false, true⟩) ∧
    walk s₃.mem 2048 (pageOf firstPage).path = some (4096, ⟨true, false, false⟩) := by
  have h := bootMachine_ready samplePool_free
  have hord : Ordinary (pageOf firstPage) := by decide
  have hdir₁ : pageOf firstPage≠pageOf (bootMachine samplePool).virtualDirectory := by decide
  have hdir₂ : pageOf secondPage≠pageOf (bootMachine samplePool).virtualDirectory := by decide
  -- the space
  obtain ⟨m₁,ev₁,hnew,hadded⟩ := h.newSpace 0
  have hroot : (newRoot bootRoot 0 sampleTables).1=some 2048 := by decide +kernel
  rw [show (⟨bootMem,samplePool⟩ : Tables)=sampleTables from rfl,hroot] at hnew hadded
  obtain ⟨-,h₁⟩ := hadded
  -- the two pages
  obtain ⟨m₂,ev₂,T₂,hmap₂,h₂,hext₂⟩ := h₁.map .kernel firstPage rfl h₁.root
    (.inl (by decide)) hdir₁ (address 4096) executable
  have hspace : T₂ (.root 2048)=some 2048 := hext₂.keeps (Function.update_self ..)
  obtain ⟨m₃,ev₃,T₃,hmap₃,h₃,hext₃⟩ := h₂.map (.own (address 2048)) secondPage rfl hspace
    trivial hdir₂ (address 4097) executable
  have hok₂ : (mapAt bootRoot firstPage (address 4096) executable spaceTables).1=true := by
    decide +kernel
  have hok₃ : (mapAt 2048 secondPage (address 4097) executable firstTables).1=true := by
    decide +kernel
  rw [← spaceTables,hok₂] at hmap₂
  rw [← spaceTables,← firstTables,hok₃] at hmap₃
  refine ⟨_,_,_,hnew,hmap₂,hmap₃,?_,?_⟩
  · refine (h₂.walk_eq hspace hord).trans ?_
    show walk firstTables.mem 2048 (pageOf firstPage).path=_
    decide +kernel
  · refine (h₃.walk_eq (hext₃.keeps hspace) hord).trans ?_
    show walk secondTables.mem 2048 (pageOf firstPage).path=_
    decide +kernel

end Hojicha.Vmm
