import Hojicha.Vmm.NonKernel

/-!
# The kernel path refines the tables

The root is written through a page of the kernel image, the lower tables through the recursive
entry of whatever root is loaded. The two agree in the upper half only.
-/

namespace Hojicha.Vmm

open Framework.Paging

structure KernelReady (s : Machine) (σ : Tables) (T : Node → Option Frame) (w kr : Frame) :
    Prop extends Ready s σ T w where
  root : T (.root kr) = some kr
  phys : s.kernelPml4Phys = address kr
  image : KERNEL_PML4_FIRST ≤ (pageOf s.virtualDirectory).i4
  recursive : (pageOf s.virtualDirectory).i4 ≠ RECURSIVE_IDX
  apart : (pageOf s.virtualDirectory).tables ≠ windowNode.path
  directory : LeadsTo (leafEntry σ.mem kr (pageOf s.virtualDirectory)) kr

variable {s : Machine} {σ σ' : Tables} {T T' : Node → Option Frame} {w t u f r kr : Frame}
  {n : Node} {i j k : Index} {m m' : PhysMem} {ptr child virt phys flags : Haddr} {js : List Index}
  {p : Page}

/-- The windows are not inner entries, so the machine's own memory is a forest too. -/
theorem Ready.forest (h : Ready s σ T w) : Forest shape s.mem T :=
  h.sound.forest.congr fun hn hlen => by
    rw [h.inner_eq hn hlen]
    exact ⟨rfl,fun _ => ⟨rfl,rfl⟩⟩

theorem leafNode_shared (hp : KERNEL_PML4_FIRST≤p.i4) (r r' : Frame) :
    leafNode r p=leafNode r' p := by
  rw [leafNode_eq,leafNode_eq,if_pos hp,if_pos hp]

theorem KernelReady.reaches_directory (h : KernelReady s σ T w kr) :
    Reaches s.mem s.cr3 (pageOf s.virtualDirectory).path kr := by
  have hdir := h.directory
  rw [leafEntry_eq h.sound h.root h.recursive] at hdir
  cases ht : T (leafNode kr (pageOf s.virtualDirectory)) with
  | none =>
    rw [ht] at hdir
    exact absurd hdir.present (show ¬ isPresent 0=true by decide)
  | some t =>
    rw [ht] at hdir
    have htw : t≠w := by
      rintro rfl
      have hnode := h.sound.forest.inj ht h.window
      rw [leafNode_eq] at hnode
      exact h.apart (congrArg Node.path hnode)
    rw [leafNode_shared h.image kr s.cr3] at ht
    have hreach := h.forest.reaches (pageOf s.virtualDirectory).tables h.current
      (by simp [Node.root,Page.tables]) (fun _ hhead => h.recursive (Option.some.inj hhead)) ht
    refine hreach.append (LeadsTo.reaches ?_ (reaches_nil _ _))
    rwa [h.agree.frame htw]

theorem KernelReady.step (h : KernelReady s σ T w kr) (hsound : Sound σ' T')
    (hgrown : Grown σ T σ' T') (hagree : Agree w m' σ'.mem) (ev : List Event) :
    KernelReady (s.update m' σ'.pool ev) σ' T' w kr where
  toReady := h.toReady.step hsound hgrown hagree ev
  root := hgrown.keeps h.root
  phys := h.phys
  image := h.image
  recursive := h.recursive
  apart := h.apart
  directory := by
    have hleaf := hgrown.leafEntry h.sound hsound h.root h.recursive
    rw [update_virtualDirectory,hleaf]
    exact h.directory

theorem Ready.reaches_recursive (h : Ready s σ T w) (k : Nat) (is : List Index)
    (hlen : is.length≤3) (hself : is.head? ≠ some RECURSIVE_IDX)
    (hu : T ((Node.root s.cr3).descend shape is)=some u) :
    Reaches s.mem s.cr3 (List.replicate k RECURSIVE_IDX++is) u := by
  induction k with
  | zero => exact h.forest.reaches is h.current (by simpa [Node.root] using hlen) (fun _ => hself) hu
  | succ k ih => exact h.forest.reaches_self h.current ih

private theorem leadsTo_setAbsent (habsent : isPresent (m t i)=false) (e : Word)
    (h : LeadsTo (m f j) u) : LeadsTo (setWord m t i e f j) u := by
  rw [setWord_of_ne]
  · exact h
  · rintro ⟨rfl,rfl⟩
    have := h.present
    simp [habsent] at this

private theorem openKernelTable_run (h : KernelReady s σ T w kr) (hn : T n=some t)
    (hi : n.Links shape i) (virt flags : Haddr)
    (hreach : ∀ {m' σ' T' ev}, Grown σ T σ' T' → KernelReady (s.update m' σ'.pool ev) σ' T' w kr →
      Reaches m' s.cr3 (pageOf ptr).path t)
    (hchild : isPresent (σ.mem t i)=false → ∃ js, (pageOf child).path=js++[i] ∧
      Reaches s.mem s.cr3 js t) :
    Leaves T w s (openKernelTable ptr i child virt flags)
      (openTable virt flags true t i σ).1.isSome (openTable virt flags true t i σ).2 := by
  have hstart : Reaches s.mem s.cr3 (pageOf ptr).path t :=
    @hreach _ _ _ s.events (.refl h.sound) (h.step h.sound (.refl h.sound) h.agree _)
  have heq := congrFun (h.inner_eq hn hi.1) i
  have hread := readWord_run (i := i) hstart
  rw [heq] at hread
  cases hp : isPresent (σ.mem t i) with
  | true =>
    obtain ⟨s₁,evs,hevs,hclear,huser⟩ := loosen_run (i := i) hstart virt flags
    rw [heq] at huser
    have hopen : openTable virt flags true t i σ=(some (target (σ.mem t i)),
        { σ with mem := setWord σ.mem t i (loosen virt flags (σ.mem t i)) }) := by
      simp only [openTable,hp,if_true]
    rw [hopen]
    refine ⟨_,evs,?_,h.agree.setWord t i _,hevs.flushes h.sound hn hi.1,trivial⟩
    rw [openKernelTable,bind_run hread,entryIsPresent_eq,hp,Bool.not_true,if_neg (by decide)]
    dsimp only
    rw [bind_run hclear,bind_run huser,h.pool]
    rfl
  | false =>
    obtain ⟨js,hpath,hjs⟩ := hchild hp
    obtain ⟨rest,htake⟩ | ⟨f,rest,hfree,hf0,htake⟩ := take_cases σ.pool
    · have hopen : openTable virt flags true t i σ =
          (none, { σ with pool := σ.pool.fail rest }) := by simp [openTable,hp,htake]
      rw [hopen]
      refine ⟨s.mem,[],?_,h.agree,flushes_nil T,trivial⟩
      rw [openKernelTable,bind_run hread,entryIsPresent_eq,hp,Bool.not_false,if_pos rfl,
        bind_run (pmmAllocFrame_run s),h.pool,htake]
      rfl
    · have haddr : address f≠0 := by rwa [ne_eq,address_eq_zero_iff]
      have htf : t≠f := fun htf => h.sound.fresh hfree _ (htf ▸ hn)
      obtain ⟨hsound,hgrown⟩ := h.sound.create hn hi hp hfree hf0 virt flags rest
      obtain ⟨hpres,hwr,htar⟩ := bits_tableEntry f virt flags
      have hloosen := loosen_normalizeTableFlags virt flags f
      obtain ⟨e,he⟩ : ∃ e, address f ||| normalizeTableFlags virt flags=e := ⟨_,rfl⟩
      obtain ⟨pool,hpool⟩ : ∃ pool, σ.pool.without f rest=pool := ⟨_,rfl⟩
      rw [he] at hsound hgrown hpres hwr htar hloosen
      rw [hpool] at hsound hgrown
      have hopen : openTable virt flags true t i σ =
          (some f, ⟨setFrame (setWord σ.mem t i e) f fun _ => 0,pool⟩) := by
        simp [openTable,hp,htake,he,hpool]
      rw [hopen]
      -- the entry is written and the new table cleared; the entry needs no loosening
      have hwrite := writeWord_run (s := s.update s.mem pool s.events) (i := i) hstart e
      have hnew : Reaches (setWord s.mem t i e) s.cr3 (pageOf child).path f := by
        rw [hpath]
        refine (hjs.mono fun g j v hlead => ?_).append (LeadsTo.reaches ?_ (reaches_nil _ _))
        · exact leadsTo_setAbsent (heq ▸ hp) e hlead
        · rw [setWord_self]
          exact ⟨hpres,hwr,htar⟩
      have hset := memsetPage_run
        (s := s.update (setWord s.mem t i e) pool (.store t i e::s.events)) hnew
      have hagree := (h.agree.setWord t i e).setFrame f fun _ => 0
      have hready := h.step hsound hgrown hagree (.fill f :: .store t i e::s.events)
      have hentry : setFrame (setWord s.mem t i e) f (fun _ => 0) t i=e := by
        rw [setFrame_of_ne _ _ _ htf,setWord_self]
      obtain ⟨s₁,evs,hevs,hclear,huser⟩ := loosen_run (i := i)
        (s := s.update (setFrame (setWord s.mem t i e) f fun _ => 0) pool
          (.fill f :: .store t i e::s.events)) (hreach hgrown hready) virt flags
      have hsame := setWord_same (setFrame (setWord s.mem t i e) f fun _ => 0) t i
      rw [hentry] at hsame
      rw [update_mem,hentry,hloosen,hsame] at huser
      have hstore : StoresAt t i [.store t i e] := by simp [StoresAt]
      refine ⟨_,evs++([.fill f]++[.store t i e]),?_,hagree,
        (hevs.flushes h.sound hn hi.1).append ((flushes_fill h.sound hfree).append
          (hstore.flushes h.sound hn hi.1)),trivial⟩
      rw [openKernelTable,bind_run hread,entryIsPresent_eq,hp,Bool.not_false,if_pos rfl,
        bind_run (pmmAllocFrame_run s),h.pool,htake,hpool,
        if_neg (show ¬ (some f).elim 0 address=0 from haddr)]
      dsimp only [Option.elim_some]
      rw [he,bind_run hwrite]
      dsimp only [update_mem,update_pool,update_events,update_update]
      rw [bind_run hset]
      dsimp only [update_mem,update_pool,update_events,update_update]
      rw [bind_run hclear,bind_run huser,List.append_assoc]
      rfl

/-- The kernel path is used for the upper half, or with the root of the kernel loaded. -/
def Direct (s : Machine) (kr : Frame) (p : Page) : Prop := KERNEL_PML4_FIRST ≤ p.i4 ∨ s.cr3 = kr

private theorem descend_eq (h : Direct s kr p) (is : List Index) :
    (Node.root s.cr3).descend shape (p.i4::is)=(Node.root kr).descend shape (p.i4::is) := by
  rcases h with h | h
  · rw [Node.root_descend,Node.root_descend]
    simp [shape,h]
  · rw [h]

private theorem openRoot_run (h : KernelReady s σ T w kr) (hp : (pageOf virt).i4≠RECURSIVE_IDX)
    (hd : Direct s kr (pageOf virt)) (flags : Haddr) :
    Leaves T w s
      (openKernelTable s.virtualDirectory (pageOf virt).i4 (getPml4Entry virt) virt flags)
      (openTable virt flags true kr (pageOf virt).i4 σ).1.isSome
      (openTable virt flags true kr (pageOf virt).i4 σ).2 := by
  have hlinks : (Node.root kr).Links shape (pageOf virt).i4 :=
    ⟨by simp [Node.root],fun hself => hp hself.2⟩
  refine openKernelTable_run h h.root hlinks virt flags (fun _ h' => h'.reaches_directory)
    fun habsent => ⟨List.replicate 3 RECURSIVE_IDX,?_,?_⟩
  · rw [getPml4Entry,pageOf_recursiveAddr]
    rfl
  · -- only the lower half has entries that are not present
    have hns := h.sound.forest.not_shared h.root hlinks habsent
    have hcr3 : s.cr3=kr := hd.resolve_left fun hge => by
      simp [Node.root,shape,hge] at hns
    have hreach := h.reaches_recursive 3 [] (by simp) (by simp) h.current
    rwa [hcr3] at hreach ⊢

private theorem openInner_run (is : List Index) (ptr child : Haddr) (i : Index)
    (h : KernelReady s σ T w kr) (hlen : is.length<2)
    (hp : (pageOf virt).i4≠RECURSIVE_IDX) (hd : Direct s kr (pageOf virt))
    (ht : T ((Node.root kr).descend shape ((pageOf virt).i4::is))=some t) (k : Nat)
    (hptr : (pageOf ptr).path=List.replicate (k + 1) RECURSIVE_IDX++(pageOf virt).i4::is)
    (hchild : (pageOf child).path=List.replicate k RECURSIVE_IDX++(pageOf virt).i4::is++[i])
    (flags : Haddr) :
    Leaves T w s (openKernelTable ptr i child virt flags)
      (openTable virt flags true t i σ).1.isSome (openTable virt flags true t i σ).2 := by
  have hself : ((pageOf virt).i4::is).head? ≠ some RECURSIVE_IDX := by simpa using hp
  have hlinks : ((Node.root kr).descend shape ((pageOf virt).i4::is)).Links shape i := by
    rw [Node.root_descend]
    exact ⟨by simp; omega,by simp⟩
  refine openKernelTable_run h ht hlinks virt flags (fun hgrown h' => ?_) fun _ => ⟨_,hchild,?_⟩
  · rw [hptr]
    refine h'.reaches_recursive (k+1) _ (by simp; omega) hself ?_
    rw [update_cr3,descend_eq hd]
    exact hgrown.keeps ht
  · refine h.reaches_recursive k _ (by simp; omega) hself ?_
    rw [descend_eq hd]
    exact ht

/-- What the three levels leave behind: the page table can be written through `getPdEntry`. -/
private theorem reaches_pt (h : Ready s σ T w) (hp : (pageOf virt).i4≠RECURSIVE_IDX)
    (hd : Direct s kr (pageOf virt)) (hu : T (leafNode kr (pageOf virt))=some u) :
    Reaches s.mem s.cr3 (pageOf (getPdEntry virt)).path u := by
  rw [getPdEntry,pageOf_recursiveAddr]
  refine h.reaches_recursive 1 (pageOf virt).tables (by simp [Page.tables])
    (fun hhead => hp (Option.some.inj hhead)) ?_
  rw [Page.tables,descend_eq hd]
  exact hu

private def written (virt entry : Haddr) : Option Frame × Tables → Bool × Tables
  | (none, σ) => (false, σ)
  | (some u, σ) => (true, { σ with mem := setWord σ.mem u (pageOf virt).i1 entry })

private def Maps (T : Node → Option Frame) (w : Frame) (s : Machine) (x : M Haddr)
    (virt entry : Haddr) (y : Option Frame × Tables) : Prop :=
  Leaves T w s x (if (written virt entry y).1 then virt &&& MAPPING_STRUCTURE_MASK else 0)
    (written virt entry y).2

private theorem KernelReady.open {is : List Index} {g : M Haddr} {entry : Haddr}
    (h : KernelReady s σ T w kr) (hn : T n=some t) (hi : n.Links shape i)
    (hopen : Leaves T w s (openKernelTable ptr i child virt flags)
      (openTable virt flags true t i σ).1.isSome (openTable virt flags true t i σ).2)
    (hg : ∀ {m' ev σ₁ T₁ u}, KernelReady (s.update m' σ₁.pool ev) σ₁ T₁ w kr →
      T₁ (n.child shape i)=some u →
      Maps T₁ w (s.update m' σ₁.pool ev) g virt entry (openPath virt flags true is u σ₁)) :
    Maps T w s (do
        if !(← openKernelTable ptr i child virt flags) then return 0
        g)
      virt entry (openPath virt flags true (i::is) t σ) := by
  obtain ⟨T₁,hsound,hgrown,hchild,-⟩ := openTable_spec h.sound hn hi virt flags true
  rw [openPath]
  obtain ⟨⟨res,σ₁⟩,hres⟩ : ∃ x, openTable virt flags true t i σ=x := ⟨_,rfl⟩
  rw [hres] at hopen hsound hgrown hchild ⊢
  refine hopen.bind hgrown.keeps fun m ev hagree _ => ?_
  have hready := h.step hsound hgrown hagree ev
  cases res with
  | none => exact hready.returns 0 trivial
  | some u => exact hg hready (hchild u rfl)

theorem mapKernel_run (h : KernelReady s σ T w kr) (hp : (pageOf virt).i4≠RECURSIVE_IDX)
    (hd : Direct s kr (pageOf virt)) (phys flags : Haddr) :
    Leaves T w s (mapKernel virt phys flags)
      (if (mapPage kr virt flags (phys ||| normalizeLeafFlags virt flags) σ).1 then
        virt &&& MAPPING_STRUCTURE_MASK else 0)
      (mapPage kr virt flags (phys ||| normalizeLeafFlags virt flags) σ).2 := by
  obtain ⟨entry,hentry⟩ : ∃ entry, phys ||| normalizeLeafFlags virt flags=entry := ⟨_,rfl⟩
  have hmaps : Maps T w s (mapKernel virt phys flags) virt entry
      (openPath virt flags true (pageOf virt).tables kr σ) := by
    rw [mapKernel,hentry]
    refine LeavesWith.read (get_run s)
      (h.open h.root ⟨by simp [Node.root],fun hself => hp hself.2⟩ (openRoot_run h hp hd flags)
      fun h₁ hT₁ => ?_)
    refine h₁.open hT₁ ⟨by simp [Node.root],by simp⟩ (openInner_run [] (getPml4Entry virt)
      (getPml3Entry virt) (pageOf virt).i3 h₁ (by simp) hp hd hT₁ 2
      (by rw [getPml4Entry,pageOf_recursiveAddr]; rfl)
      (by rw [getPml3Entry,pageOf_recursiveAddr]; rfl) flags) fun h₂ hT₂ => ?_
    refine h₂.open hT₂ ⟨by simp [Node.root],by simp⟩ (openInner_run [(pageOf virt).i3]
      (getPml3Entry virt) (getPdEntry virt) (pageOf virt).i2 h₂ (by simp) hp hd hT₂ 1
      (by rw [getPml3Entry,pageOf_recursiveAddr]; rfl)
      (by rw [getPdEntry,pageOf_recursiveAddr]; rfl) flags) fun h₃ hT₃ => ?_
    exact h₃.writePage (reaches_pt h₃.toReady hp hd hT₃) hT₃ rfl _ entry
  rw [hentry]
  exact hmaps

private theorem readInner_run (is : List Index) (h : Ready s σ T w) (hlen : is.length<2)
    (hp : (pageOf virt).i4≠RECURSIVE_IDX) (hd : Direct s kr (pageOf virt))
    (ht : T ((Node.root kr).descend shape ((pageOf virt).i4::is))=some t) (k : Nat)
    (hptr : (pageOf ptr).path=List.replicate k RECURSIVE_IDX++(pageOf virt).i4::is) :
    readWord ptr i s=some (σ.mem t i, s) := by
  have hself : ((pageOf virt).i4::is).head? ≠ some RECURSIVE_IDX := by simpa using hp
  have heq := h.inner_eq ht (by rw [Node.root_descend]; simp; omega)
  rw [← heq]
  refine readWord_run ?_
  rw [hptr]
  refine h.reaches_recursive k _ (by simp; omega) hself ?_
  rw [descend_eq hd]
  exact ht

private theorem KernelReady.look {is : List Index} {g : M Haddr} (h : KernelReady s σ T w kr)
    (hn : T n=some t) (hi : n.Links shape i) (hread : readWord ptr i s=some (σ.mem t i, s))
    (hg : ∀ u, T (n.child shape i)=some u → Maps T w s g virt 0 (follow σ.mem u is, σ)) :
    Maps T w s (do
        if !entryIsPresent (← readWord ptr i) then return 0
        g)
      virt 0 (follow σ.mem t (i::is), σ) := by
  have hlink := h.sound.forest.link hn hi
  by_cases hp : isPresent (σ.mem t i)=true
  · rw [if_pos hp] at hlink
    rw [show follow σ.mem t (i::is)=follow σ.mem (target (σ.mem t i)) is from if_pos hp]
    refine LeavesWith.read hread ?_
    rw [entryIsPresent_eq,if_neg (by simp [hp])]
    exact hg _ hlink
  · rw [show follow σ.mem t (i::is)=none from if_neg hp]
    refine LeavesWith.read hread ?_
    rw [entryIsPresent_eq,if_pos (by simpa using hp)]
    exact h.returns 0 trivial

theorem unmapKernel_run (h : KernelReady s σ T w kr) (hp : (pageOf virt).i4≠RECURSIVE_IDX)
    (hd : Direct s kr (pageOf virt)) :
    Leaves T w s (unmapKernel virt)
      (if (unmapPage kr virt σ).1 then virt &&& MAPPING_STRUCTURE_MASK else 0)
      (unmapPage kr virt σ).2 := by
  have hroot := readWord_run (i := getPml4Idx virt) h.reaches_directory
  rw [h.inner_eq h.root (by simp [Node.root])] at hroot
  have hmaps : Maps T w s (unmapKernel virt) virt 0
      (follow σ.mem kr (pageOf virt).tables, σ) := by
    rw [unmapKernel]
    refine LeavesWith.read (get_run s) (h.look h.root
      ⟨by simp [Node.root],fun hself => hp hself.2⟩ hroot fun u₁ hT₁ => ?_)
    refine h.look hT₁ ⟨by simp [Node.root],by simp⟩ (readInner_run [] h.toReady (by simp) hp hd hT₁
      3 (by rw [getPml4Entry,pageOf_recursiveAddr]; rfl)) fun u₂ hT₂ => ?_
    refine h.look hT₂ ⟨by simp [Node.root],by simp⟩ (readInner_run [(pageOf virt).i3] h.toReady
      (by simp) hp hd hT₂ 2 (by rw [getPml3Entry,pageOf_recursiveAddr]; rfl)) fun u₃ hT₃ => ?_
    exact h.writePage (reaches_pt h.toReady hp hd hT₃) hT₃ (pageOf_base virt) _ 0
  rw [unmapPage,openPath_lookup]
  exact hmaps

end Hojicha.Vmm
