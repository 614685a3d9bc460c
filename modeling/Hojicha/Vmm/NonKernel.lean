import Hojicha.Vmm.Windows

/-!
# The non-kernel path refines the tables

Only the six entries of the windows differ. Every write to the entry of a page is followed by an
invalidation of the page.
-/

namespace Hojicha.Vmm

open Framework.Paging

def windowNode : Node := ⟨none, [511, 509, 384]⟩

def Agree (w : Frame) (m m' : PhysMem) : Prop := ∀ f i, ¬ (f = w ∧ i < 6) → m f i = m' f i

structure Ready (s : Machine) (σ : Tables) (T : Node → Option Frame) (w : Frame) : Prop where
  sound : Sound σ T
  window : T windowNode = some w
  current : T (.root s.cr3) = some s.cr3
  agree : Agree w s.mem σ.mem
  pool : s.pool = σ.pool

variable {s : Machine} {σ σ' : Tables} {T T' : Node → Option Frame} {w t u f r : Frame} {n : Node}
  {i j k : Index} {m m' m'' : PhysMem} {ptr scratch virt flags : Haddr} {create : Bool}

theorem Agree.refl (w : Frame) (m : PhysMem) : Agree w m m := fun _ _ _ => rfl

section

variable (h : Agree w m m')
include h

theorem Agree.trans (h' : Agree w m' m'') : Agree w m m'' :=
  fun f i hfi => (h f i hfi).trans (h' f i hfi)

theorem Agree.symm : Agree w m' m := fun f i hfi => (h f i hfi).symm

theorem Agree.frame (hf : f≠w) : m f=m' f :=
  funext fun i => h f i fun hfi => hf hfi.1

theorem Agree.setWord (f : Frame) (i : Index) (e : Word) :
    Agree w (setWord m f i e) (setWord m' f i e) := by
  intro g j hgj
  simp only [Framework.Paging.setWord]
  split_ifs
  · rfl
  · exact h g j hgj

theorem Agree.setFrame (f : Frame) (c : Index → Word) :
    Agree w (setFrame m f c) (setFrame m' f c) := by
  intro g j hgj
  simp only [Framework.Paging.setFrame]
  split_ifs
  · rfl
  · exact h g j hgj

end

theorem agree_setWindow (m : PhysMem) (hk : k<6) (e : Word) : Agree w (setWord m w k e) m :=
  fun _ _ hfi => setWord_of_ne _ _ _ _ fun ⟨hf,hi⟩ => hfi ⟨hf,hi ▸ hk⟩

theorem Ready.inner_ne (h : Ready s σ T w) (hn : T n=some t) (hlen : n.path.length<3) :
    t≠w :=
  h.sound.ne_of_length h.window hn (by simp [windowNode]; omega)

theorem Ready.inner_eq (h : Ready s σ T w) (hn : T n=some t) (hlen : n.path.length<3) :
    s.mem t=σ.mem t :=
  h.agree.frame (h.inner_ne hn hlen)

theorem Ready.windowed (h : Ready s σ T w) : Windowed s.mem s.cr3 w := by
  have hforest := h.sound.forest
  have hw : T ((⟨none,[511,509]⟩ : Node).child shape 384)=some w := h.window
  obtain ⟨t2,ht2⟩ := hforest.parent hw (by simp)
  have ht2' : T ((⟨none,[511]⟩ : Node).child shape 509)=some t2 := ht2
  obtain ⟨t3,ht3⟩ := hforest.parent ht2' (by simp)
  have ht3' : T ((Node.root s.cr3).child shape 511)=some t3 := ht3
  obtain ⟨hp,hwr,ht⟩ := hforest.self h.current
  have hroot := h.inner_eq h.current (by simp [Node.root])
  refine ⟨?_,t3,t2,?_,?_,?_⟩
  · rw [hroot]
    exact ⟨hp,hwr,ht⟩
  · rw [hroot]
    exact hforest.leadsTo h.current ⟨by simp [Node.root],fun h => absurd h.2 (by decide)⟩ ht3'
  · rw [h.inner_eq ht3 (by decide)]
    exact hforest.leadsTo ht3 ⟨by decide,by decide⟩ ht2'
  · rw [h.inner_eq ht2 (by decide)]
    exact hforest.leadsTo ht2 ⟨by decide,by decide⟩ hw

/-- Every write to entry `i` of `t` is followed by an invalidation of the page `p`. The latest event
comes first. -/
def Flushed (t : Frame) (i : Index) (p : Page) : List Event → Prop
  | [] => True
  | .invlpg virt :: evs => pageOf virt = p ∨ Flushed t i p evs
  | .store f j _ :: evs => ¬ (f = t ∧ j = i) ∧ Flushed t i p evs
  | .fill f :: evs => f ≠ t ∧ Flushed t i p evs

def Flushes (T : Node → Option Frame) (evs : List Event) : Prop :=
  ∀ r p t, T (leafNode r p) = some t → Flushed t p.i1 p evs

def StoresAt (t : Frame) (i : Index) (evs : List Event) : Prop := ∀ ev ∈ evs, ∃ e, ev = .store t i e

section Events

variable {evs evs' : List Event} {p : Page}

theorem Flushed.append (h : Flushed t i p evs) (h' : Flushed t i p evs') :
    Flushed t i p (evs++evs') := by
  induction evs with
  | nil => exact h'
  | cons ev evs ih =>
    cases ev with
    | store f j e => exact ⟨h.1,ih h.2⟩
    | fill f => exact ⟨h.1,ih h.2⟩
    | invlpg virt => exact h.imp id ih

theorem flushes_nil (T : Node → Option Frame) : Flushes T [] := fun _ _ _ _ => trivial

theorem Flushes.append (h : Flushes T evs) (h' : Flushes T evs') : Flushes T (evs++evs') :=
  fun r p t ht => (h r p t ht).append (h' r p t ht)

theorem Flushes.mono (h : Flushes T' evs) (hkeeps : ∀ {n f}, T n=some f → T' n=some f) :
    Flushes T evs := fun r p t ht => h r p t (hkeeps ht)

theorem StoresAt.flushes (h : StoresAt t i evs) (hs : Sound σ T) (hn : T n=some t)
    (hlen : n.path.length<3) : Flushes T evs := by
  intro r p u hu
  have hne : t≠u := hs.ne_of_length hu hn (by rw [length_leafNode]; omega)
  induction evs with
  | nil => trivial
  | cons ev evs ih =>
    obtain ⟨e,rfl⟩ := h ev List.mem_cons_self
    exact ⟨fun heq => hne heq.1,ih fun ev hev => h ev (List.mem_cons_of_mem _ hev)⟩

theorem flushes_fill (hs : Sound σ T) (hf : σ.pool.free f=true) : Flushes T [.fill f] :=
  fun _ _ _ ht => ⟨fun heq => hs.fresh hf _ (heq ▸ ht),trivial⟩

theorem flushes_page (hs : Sound σ T) (hu : T (leafNode r p)=some u) (hp : pageOf ptr=p)
    (e : Word) : Flushes T [.invlpg ptr, .store u p.i1 e] := by
  intro r' p' t ht
  by_cases heq : u=t ∧ p.i1=p'.i1
  · obtain ⟨rfl,hi⟩ := heq
    exact .inl (hp.trans ((sameLeaf_iff ..).mp ⟨hs.forest.inj hu ht,hi⟩).1)
  · exact .inr ⟨heq,trivial⟩

theorem Ready.flushes_window (h : Ready s σ T w) (hk : IsWindow ptr k) (f : Frame) :
    Flushes T (windowEvents ptr w k f) := by
  have hw : T (leafNode s.cr3 (pageOf ptr))=some w := by
    rw [leafNode_eq,hk.page]
    exact h.window
  have hi : k=(pageOf ptr).i1 := by rw [hk.page]
  rw [windowEvents,hi]
  exact fun r p t ht => .inr (flushes_page h.sound hw rfl _ r p t ht)

end Events

private theorem leadsTo_setWord {e : Word} (e' : Word) (hm : m t i=e)
    (hbits : isPresent e'=isPresent e ∧ isWritable e'=isWritable e ∧ target e'=target e)
    (g : Frame) (j : Index) (v : Frame) (h : LeadsTo (m g j) v) :
    LeadsTo (setWord m t i e' g j) v := by
  by_cases hpos : g=t ∧ j=i
  · obtain ⟨rfl,rfl⟩ := hpos
    rw [setWord_self]
    rw [hm] at h
    exact ⟨hbits.1.trans h.present,hbits.2.1.trans h.writable,hbits.2.2.trans h.target⟩
  · rwa [setWord_of_ne _ _ _ _ hpos]

/-- One word is read and, under two conditions, written back changed. -/
private theorem storeIf_run (h : Reaches s.mem s.cr3 (pageOf ptr).path t) (c : Bool)
    (p : Word → Bool) (g : Word → Word) :
    ∃ evs, StoresAt t i evs ∧
      (do if c then
            let e ← readWord ptr i
            if p e then writeWord ptr i (g e) : M Unit) s =
        some ((), s.update (setWord s.mem t i (if c && p (s.mem t i) then g (s.mem t i)
          else s.mem t i)) s.pool (evs++s.events)) := by
  cases c with
  | false => exact ⟨[],by simp [StoresAt],by simp [update_self,pure_run]⟩
  | true =>
    rw [if_pos rfl,bind_run (readWord_run h)]
    cases hp : p (s.mem t i) with
    | false => exact ⟨[],by simp [StoresAt],by simp [update_self,pure_run]⟩
    | true => exact ⟨[.store t i (g (s.mem t i))],by simp [StoresAt],by simpa using writeWord_run h _⟩

theorem loosen_run (h : Reaches s.mem s.cr3 (pageOf ptr).path t) (virt flags : Haddr) :
    ∃ s₁ evs, StoresAt t i evs ∧ clearNx ptr i flags s=some ((), s₁) ∧
      setUserAccess ptr i virt flags s₁=some ((),
        s.update (setWord s.mem t i (loosen virt flags (s.mem t i))) s.pool (evs++s.events)) := by
  obtain ⟨evs,hevs,hclear⟩ := storeIf_run (i := i) h (hasFlag flags PAGE_EXECUTABLE)
    (hasFlag · PAGE_NO_EXECUTE) (· &&& ~~~PAGE_NO_EXECUTE)
  obtain ⟨c,hc⟩ : ∃ c, (if hasFlag flags PAGE_EXECUTABLE && hasFlag (s.mem t i) PAGE_NO_EXECUTE then
    s.mem t i &&& ~~~PAGE_NO_EXECUTE else s.mem t i)=c := ⟨_,rfl⟩
  rw [hc] at hclear
  have h₁ : Reaches (setWord s.mem t i c) s.cr3 (pageOf ptr).path t := by
    have hbits := bits_clear_noExec (s.mem t i)
    refine h.mono (leadsTo_setWord _ rfl ?_)
    rw [← hc]
    split_ifs
    · exact ⟨congrArg Bits.present hbits,congrArg Bits.writable hbits,congrArg Bits.target hbits⟩
    · exact ⟨rfl,rfl,rfl⟩
  obtain ⟨evs',hevs',huser⟩ := storeIf_run
    (s := s.update (setWord s.mem t i c) s.pool (evs++s.events)) (i := i) h₁
    (hasFlag flags PAGE_USER_ACCESIBLE && !isHigherHalf virt) (!hasFlag · PAGE_USER_ACCESIBLE)
    (· ||| PAGE_USER_ACCESIBLE)
  refine ⟨_,evs'++evs,?_,hclear,huser.trans ?_⟩
  · intro ev hev
    exact (List.mem_append.mp hev).elim (hevs' ev) (hevs ev)
  · simp only [update_mem,update_pool,update_update,setWord_self,setWord_setWord,loosen,hc,
      List.append_assoc]
    rfl

theorem Ready.step (h : Ready s σ T w) (hsound : Sound σ' T') (hgrown : Grown σ T σ' T')
    (hagree : Agree w m' σ'.mem) (ev : List Event) : Ready (s.update m' σ'.pool ev) σ' T' w :=
  ⟨hsound,hgrown.keeps h.window,hgrown.keeps h.current,hagree,rfl⟩

theorem Ready.reaches_window (h : Ready s σ T w) (hk : IsWindow ptr k)
    (hf : s.mem w k=windowEntry f) : Reaches s.mem s.cr3 (pageOf ptr).path f :=
  h.windowed.reaches_window hk hf

/-- The program returns `a`, leaves the tables `σ'` and a memory with `P`, and flushes what it
writes. -/
def LeavesWith {α : Type} (P : PhysMem → Prop) (T : Node → Option Frame) (w : Frame) (s : Machine)
    (x : M α) (a : α) (σ' : Tables) : Prop :=
  ∃ m' evs, x s = some (a, s.update m' σ'.pool (evs ++ s.events)) ∧ Agree w m' σ'.mem ∧
    Flushes T evs ∧ P m'

def Leaves {α : Type} (T : Node → Option Frame) (w : Frame) (s : Machine) (x : M α) (a : α)
    (σ' : Tables) : Prop :=
  LeavesWith (fun _ => True) T w s x a σ'

/-- The program opens a table and shows it in a window, or returns `NULL`. -/
def OpensInto (T : Node → Option Frame) (w : Frame) (s : Machine) (scratch : Haddr) (j : Index)
    (x : M Haddr) (y : Option Frame × Tables) : Prop :=
  LeavesWith (fun m => ∀ u ∈ y.1, m w j = windowEntry u) T w s x
    (y.1.elim NULL fun _ => scratch) y.2

section Programs

variable {α β : Type} {a : α} {b : β} {P Q : PhysMem → Prop}

theorem LeavesWith.bind {x : M α} {g : α → M β} (hx : LeavesWith P T w s x a σ)
    (hkeeps : ∀ {n f}, T n=some f → T' n=some f)
    (hg : ∀ m ev, Agree w m σ.mem → P m →
      LeavesWith Q T' w (s.update m σ.pool ev) (g a) b σ') :
    LeavesWith Q T w s (x >>= g) b σ' := by
  obtain ⟨m₁,evs₁,hrun₁,hagree₁,hflush₁,hP⟩ := hx
  obtain ⟨m₂,evs₂,hrun₂,hagree₂,hflush₂,hQ⟩ := hg m₁ (evs₁++s.events) hagree₁ hP
  refine ⟨m₂,evs₂++evs₁,?_,hagree₂,(hflush₂.mono hkeeps).append hflush₁,hQ⟩
  rw [bind_run hrun₁,hrun₂,List.append_assoc]
  rfl

theorem LeavesWith.read {x : M α} {g : α → M β} (hx : x s=some (a, s))
    (hg : LeavesWith P T w s (g a) b σ') : LeavesWith P T w s (x >>= g) b σ' := by
  obtain ⟨m',evs,hrun,hrest⟩ := hg
  exact ⟨m',evs,(bind_run hx).trans hrun,hrest⟩

theorem Ready.returns (h : Ready s σ T w) (a : α) (hP : P s.mem) :
    LeavesWith P T w s (pure a) a σ :=
  ⟨s.mem,[],by rw [← h.pool]; rfl,h.agree,flushes_nil T,hP⟩

end Programs

section

variable (h : Ready s σ T w)
include h

theorem Ready.writePage (hptr : Reaches s.mem s.cr3 (pageOf ptr).path u)
    (hu : T (leafNode r (pageOf virt))=some u) {v : Haddr} (hv : pageOf v=pageOf virt)
    (ret : Haddr) (e : Word) :
    Leaves T w s (do writeWord ptr (getPtIdx virt) e; invlpg v; return ret) ret
      { σ with mem := setWord σ.mem u (pageOf virt).i1 e } := by
  refine ⟨_,_,?_,h.agree.setWord u _ e,flushes_page h.sound hu hv e,trivial⟩
  rw [bind_run (writeWord_run hptr e),bind_run (invlpg_run _ _),h.pool]
  rfl

section

variable (hn : T n=some t) (hi : n.Links shape i)
include hn hi

private theorem createChildTable_run (habsent : isPresent (σ.mem t i)=false) (hk : IsWindow ptr k)
    (ht : s.mem w k=windowEntry t) (hj : IsWindow scratch j) (virt flags : Haddr) :
    OpensInto T w s scratch j (createChildTable ptr i scratch virt flags)
      (openTable virt flags true t i σ) := by
  obtain ⟨rest,htake⟩ | ⟨f,rest,hfree,hf0,htake⟩ := take_cases σ.pool
  · have hopen : openTable virt flags true t i σ=(none, { σ with pool := σ.pool.fail rest }) := by
      simp [openTable,habsent,htake]
    rw [hopen]
    refine ⟨s.mem,[],?_,h.agree,flushes_nil T,by simp⟩
    rw [createChildTable,bind_run (pmmAllocFrame_run s),h.pool,htake]
    rfl
  · have haddr : address f≠0 := by rwa [ne_eq,address_eq_zero_iff]
    have hfw : w≠f := fun hwf => h.sound.fresh hfree _ (hwf ▸ h.window)
    have heq := congrFun (h.inner_eq hn hi.1) i
    obtain ⟨e,he⟩ : ∃ e, address f ||| normalizeTableFlags virt flags=e := ⟨_,rfl⟩
    obtain ⟨pool,hpool⟩ : ∃ pool, σ.pool.without f rest=pool := ⟨_,rfl⟩
    have hopen : openTable virt flags true t i σ =
        (some f, ⟨setFrame (setWord σ.mem t i e) f fun _ => 0,pool⟩) := by
      simp [openTable,habsent,htake,he,hpool]
    rw [hopen]
    -- the entry is written, the window pointed at the new table, and the table cleared
    have hwin : Windowed (setWord s.mem t i e) s.cr3 w := h.windowed.setAbsent (heq ▸ habsent) e
    have hself : setWord (setWord s.mem t i e) w j (windowEntry f) w j=windowEntry f :=
      setWord_self ..
    have hwrite := writeWord_run (s := s.update s.mem pool s.events) (i := i)
      (h.reaches_window hk ht) e
    have hmap := scratchMapTable_run
      (s := s.update (setWord s.mem t i e) pool (.store t i e::s.events)) hwin hj f
    have hset := memsetPage_run
      (s := s.update (setWord (setWord s.mem t i e) w j (windowEntry f)) pool
        (windowEvents scratch w j f ++ .store t i e::s.events))
      ((hwin.setWindow hj.small w _).reaches_window hj hself)
    have hstore : StoresAt t i [.store t i e] := by simp [StoresAt]
    refine ⟨_,.fill f::(windowEvents scratch w j f++[.store t i e]),?_,
      ((agree_setWindow _ hj.small (windowEntry f)).trans (h.agree.setWord t i e)).setFrame f _,
      (flushes_fill h.sound hfree).append ((h.flushes_window hj f).append
        (hstore.flushes h.sound hn hi.1)),?_⟩
    · rw [createChildTable,bind_run (pmmAllocFrame_run s),h.pool,htake,hpool]
      rw [if_neg (show ¬ (some f).elim 0 address=0 from haddr)]
      dsimp only [Option.elim_some]
      rw [he,bind_run hwrite]
      dsimp only [update_mem,update_pool,update_events,update_update]
      rw [bind_run hmap,if_neg hj.ne_null]
      dsimp only [update_mem,update_pool,update_events,update_update]
      rw [bind_run hset]
      rfl
    · intro u hu
      obtain rfl := Option.some.inj hu
      rw [setFrame_of_ne _ _ _ hfw,hself]

section

variable (hk : IsWindow ptr k) (ht : s.mem w k=windowEntry t) (hj : IsWindow scratch j)
include hk ht hj

theorem walkToChildTable_run (virt flags : Haddr) (create : Bool) :
    OpensInto T w s scratch j (walkToChildTable ptr i scratch virt flags create)
      (openTable virt flags create t i σ) := by
  have hreach := h.reaches_window hk ht
  have heq := congrFun (h.inner_eq hn hi.1) i
  have hread := readWord_run (i := i) hreach
  rw [heq] at hread
  cases hp : isPresent (σ.mem t i) with
  | false =>
    cases create with
    | false =>
      have hopen : openTable virt flags false t i σ=(none, σ) := by simp [openTable,hp]
      rw [hopen]
      refine ⟨s.mem,[],?_,h.agree,flushes_nil T,by simp⟩
      rw [walkToChildTable,bind_run hread,entryIsPresent_eq,hp,← h.pool]
      rfl
    | true =>
      obtain ⟨m',evs,hrun,hrest⟩ := createChildTable_run h hn hi hp hk ht hj virt flags
      refine ⟨m',evs,?_,hrest⟩
      rw [walkToChildTable,bind_run hread,entryIsPresent_eq,hp]
      exact hrun
  | true =>
    obtain ⟨s₁,evs,hevs,hclear,huser⟩ := loosen_run (i := i) hreach virt flags
    have hbits := bits_loosen virt flags (s.mem t i)
    have hopen : openTable virt flags create t i σ=(some (target (σ.mem t i)),
        { σ with mem := setWord σ.mem t i (loosen virt flags (s.mem t i)) }) := by
      simp only [openTable,hp,if_true,heq]
    rw [hopen]
    obtain ⟨e,he⟩ : ∃ e, loosen virt flags (s.mem t i)=e := ⟨_,rfl⟩
    rw [he] at hbits huser ⊢
    have hlead := leadsTo_setWord (m := s.mem) (t := t) (i := i) e rfl
      ⟨congrArg Bits.present hbits,congrArg Bits.writable hbits,congrArg Bits.target hbits⟩
    have hwin : Windowed (setWord s.mem t i e) s.cr3 w := h.windowed.congr fun _ _ _ _ => hlead _ _ _
    have hphys : entryPhys (setWord s.mem t i e t i)=address (target (σ.mem t i)) := by
      rw [setWord_self,entryPhys_eq,← heq]
      exact congrArg address (congrArg Bits.target hbits)
    have hmap := scratchMapTable_run
      (s := s.update (setWord s.mem t i e) s.pool (evs++s.events)) hwin hj (target (σ.mem t i))
    have hreach' : Reaches (setWord s.mem t i e) s.cr3 (pageOf ptr).path t := hreach.mono hlead
    refine ⟨_,windowEvents scratch w j (target (σ.mem t i))++evs,?_,
      (agree_setWindow _ hj.small (windowEntry (target (σ.mem t i)))).trans (h.agree.setWord t i e),
      (h.flushes_window hj _).append (hevs.flushes h.sound hn hi.1),?_⟩
    · rw [walkToChildTable,bind_run hread,entryIsPresent_eq,hp,Bool.not_true,
        if_neg (by decide),bind_run hclear,bind_run huser,
        bind_run (readWord_run (s := s.update (setWord s.mem t i e) s.pool (evs++s.events)) hreach')]
      dsimp only [update_mem]
      rw [hphys,hmap,← h.pool,List.append_assoc]
      rfl
    · intro u hu
      obtain rfl := Option.some.inj hu
      exact setWord_self ..

private theorem Ready.down {is : List Index} {last : Haddr} {l : Index} {g : Haddr → M Haddr}
    (hg : ∀ {s₁ σ₁ T₁ u}, Ready s₁ σ₁ T₁ w → T₁ (n.child shape i)=some u →
      s₁.mem w j=windowEntry u →
      OpensInto T₁ w s₁ last l (g scratch) (openPath virt flags create is u σ₁)) :
    OpensInto T w s last l (do
        let child ← walkToChildTable ptr i scratch virt flags create
        if child=NULL then return NULL
        g child)
      (openPath virt flags create (i::is) t σ) := by
  obtain ⟨T₁,hsound,hgrown,hchild,-⟩ := openTable_spec h.sound hn hi virt flags create
  have hwalk := walkToChildTable_run h hn hi hk ht hj virt flags create
  rw [openPath]
  obtain ⟨⟨res,σ₁⟩,hopen⟩ : ∃ x, openTable virt flags create t i σ=x := ⟨_,rfl⟩
  rw [hopen] at hwalk hsound hgrown hchild ⊢
  refine hwalk.bind hgrown.keeps fun m ev hagree hshown => ?_
  have hready := h.step hsound hgrown hagree ev
  cases res with
  | none => exact hready.returns NULL (by simp)
  | some u =>
    rw [if_neg (show (some u).elim NULL (fun _ => scratch)≠NULL from hj.ne_null)]
    exact hg hready (hchild u rfl) (hshown u rfl)

end

end

section

variable (hr : T (.root r)=some r) (hp : (pageOf virt).i4≠RECURSIVE_IDX)
include hr hp

theorem walkNonKernelToPt_run (flags : Haddr) (create : Bool) :
    OpensInto T w s VIRT_SCRATCH_L1 5 (walkNonKernelToPt (address r) virt flags create)
      (openPath virt flags create (pageOf virt).tables r σ) := by
  have hroot : LeavesWith (fun m => m w 2=windowEntry r) T w s
      (scratchMapTable VIRT_SCRATCH_L4 (address r)) VIRT_SCRATCH_L4 σ := by
    refine ⟨_,_,?_,(agree_setWindow _ isWindow_l4.small _).trans h.agree,
      h.flushes_window isWindow_l4 r,setWord_self ..⟩
    rw [scratchMapTable_run h.windowed isWindow_l4 r,h.pool]
  rw [walkNonKernelToPt,if_neg (show getPml4Idx virt≠RECURSIVE_IDX from hp)]
  refine hroot.bind id fun m ev hagree hshown => ?_
  rw [if_neg isWindow_l4.ne_null]
  -- each level shows the next table in the next window
  have h₀ := h.step h.sound (.refl h.sound) hagree ev
  refine h₀.down hr ⟨by simp [Node.root],fun hself => hp hself.2⟩ isWindow_l4 hshown isWindow_l3
    fun h₁ hT₁ hw₁ => ?_
  refine h₁.down hT₁ ⟨by simp [Node.root],by simp⟩ isWindow_l3 hw₁ isWindow_l2 fun h₂ hT₂ hw₂ => ?_
  have hlast := walkToChildTable_run h₂ hT₂ ⟨by simp [Node.root],by simp⟩ isWindow_l2 hw₂
    isWindow_l1 virt flags create (i := (pageOf virt).i2)
  rwa [← openPath_singleton] at hlast

private theorem opened (flags : Haddr) (create : Bool) :
    ∃ T', Sound (openPath virt flags create (pageOf virt).tables r σ).2 T' ∧
      Grown σ T (openPath virt flags create (pageOf virt).tables r σ).2 T' ∧
      T' (leafNode r (pageOf virt))=(openPath virt flags create (pageOf virt).tables r σ).1 := by
  obtain ⟨T',hsound,hgrown,hend,-⟩ := openPath_spec (pageOf virt).tables h.sound hr
    (by simp [Node.root,Page.tables]) (fun _ hhead => hp (Option.some.inj hhead)) virt flags create
  exact ⟨T',hsound,hgrown,hend⟩

theorem mapNonKernel_run (request entry : Haddr) :
    Leaves T w s (mapNonKernel (address r) virt request entry)
      (if (mapPage r virt request entry σ).1 then virt &&& MAPPING_STRUCTURE_MASK else 0)
      (mapPage r virt request entry σ).2 := by
  have hwalk := walkNonKernelToPt_run h hr hp request true
  obtain ⟨T',hsound,hgrown,hend⟩ := opened h hr hp request true
  rw [mapNonKernel,mapPage]
  obtain ⟨⟨res,σ₁⟩,hopen⟩ : ∃ x, openPath virt request true (pageOf virt).tables r σ=x := ⟨_,rfl⟩
  rw [hopen] at hwalk hsound hgrown hend ⊢
  refine hwalk.bind hgrown.keeps fun m ev hagree hshown => ?_
  have hready := h.step hsound hgrown hagree ev
  cases res with
  | none => exact hready.returns 0 trivial
  | some u =>
    rw [if_neg (show (some u).elim NULL (fun _ => VIRT_SCRATCH_L1)≠NULL from
      isWindow_l1.ne_null)]
    exact hready.writePage (hready.reaches_window isWindow_l1 (hshown u rfl)) hend rfl _ entry

/-- The last write of the non-kernel path of `unmap_internal` is not followed by an invalidation. -/
theorem unmapNonKernel_run : ∃ m' evs, unmapInternal (.own (address r)) virt s =
        some (if (unmapPage r virt σ).1 then virt &&& MAPPING_STRUCTURE_MASK else 0,
          s.update m' (unmapPage r virt σ).2.pool (evs++s.events)) ∧
      Agree w m' (unmapPage r virt σ).2.mem ∧
      (T (leafNode r (pageOf virt))=none → Flushes T evs) ∧
      ∀ t∈T (leafNode r (pageOf virt)), m' t (pageOf virt).i1=0 ∧
        ∃ evs', evs = .store t (pageOf virt).i1 0::evs' ∧ Flushes T evs' := by
  obtain ⟨m₁,evs,hwalk,hagree,hflush,hshown⟩ := walkNonKernelToPt_run h hr hp 0 false
  rw [unmapInternal,if_neg (show getPml4Idx virt≠RECURSIVE_IDX from hp)]
  rw [bind_run hwalk,unmapPage]
  rw [openPath_lookup,follow_tables h.sound hr hp] at hagree hshown ⊢
  cases hu : T (leafNode r (pageOf virt)) with
  | none => exact ⟨m₁,evs,rfl,hagree,fun _ => hflush,by simp⟩
  | some u =>
    rw [hu] at hshown
    have hready := h.step h.sound (.refl h.sound) hagree (evs++s.events)
    have hwrite := writeWord_run (i := getPtIdx virt)
      (hready.reaches_window isWindow_l1 (hshown u rfl)) 0
    rw [if_neg (show (some u).elim NULL (fun _ => VIRT_SCRATCH_L1)≠NULL from
      isWindow_l1.ne_null)]
    dsimp only [Option.elim_some]
    rw [bind_run hwrite]
    refine ⟨_,.store u (pageOf virt).i1 0::evs,rfl,hagree.setWord u (pageOf virt).i1 0,
      by simp,fun t ht => ?_⟩
    obtain rfl := Option.some.inj ht
    exact ⟨setWord_self ..,evs,rfl,hflush⟩

end

end

end Hojicha.Vmm
