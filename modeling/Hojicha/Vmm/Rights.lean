import Hojicha.Vmm.Mapping

/-!
# Effective permissions

A page has the rights that all four entries on the way grant. Other pages do not notice that
shared entries are loosened as long as the entries above a page withhold nothing (`Tidy`), except
for the entry of the root, which belongs to one space.
-/

namespace Hojicha.Vmm

open Framework.Paging

variable {s : Machine} {σ σ' : Tables} {T T' : Node → Option Frame} {w r r' kr : Frame}
  {n n' : Node} {t3 t2 t f frame : Frame} {i i' : Index} {is : List Index} {m' : PhysMem}
  {virt phys flags : Haddr} {p p' : Page} {vmm : Space} {e e' : Word}

structure Path (T : Node → Option Frame) (r : Frame) (p : Page) (t3 t2 t : Frame) : Prop where
  root : T (.root r) = some r
  ne : p.i4 ≠ RECURSIVE_IDX
  pml3 : T ((Node.root r).child shape p.i4) = some t3
  pd : T (((Node.root r).child shape p.i4).child shape p.i3) = some t2
  pt : T (leafNode r p) = some t

theorem exists_path (h : Sound σ T) (hr : T (.root r)=some r) (hp : p.i4≠RECURSIVE_IDX)
    (ht : T (leafNode r p)=some t) : ∃ t3 t2, Path T r p t3 t2 t := by
  obtain ⟨t2,ht2⟩ := h.forest.parent (n := ((Node.root r).child shape p.i4).child shape p.i3)
    (i := p.i2) ht (by simp)
  obtain ⟨t3,ht3⟩ := h.forest.parent ht2 (by simp)
  exact ⟨t3,t2,hr,hp,ht3,ht2,ht⟩

theorem Path.links4 (h : Path T r p t3 t2 t) : (Node.root r).Links shape p.i4 :=
  ⟨by simp [Node.root],fun hself => h.ne hself.2⟩

theorem links3 (r : Frame) (i j : Index) : ((Node.root r).child shape i).Links shape j :=
  ⟨by simp [Node.root],by simp⟩

theorem links2 (r : Frame) (i j k : Index) :
    (((Node.root r).child shape i).child shape j).Links shape k :=
  ⟨by simp [Node.root],by simp⟩

theorem Path.keeps (h : Path T r p t3 t2 t) (hkeeps : ∀ {n f}, T n=some f → T' n=some f) :
    Path T' r p t3 t2 t :=
  ⟨hkeeps h.root,h.ne,hkeeps h.pml3,hkeeps h.pd,hkeeps h.pt⟩

theorem Path.entry_eq (h : Path T r p t3 t2 t) (hs : Sound σ T) :
    leafEntry σ.mem r p=σ.mem t p.i1 := by
  rw [leafEntry_eq hs h.root h.ne,h.pt]

def granted (m : PhysMem) (r t3 t2 t : Frame) (p : Page) : Rights :=
  ⟨isWritable (m t p.i1),
    isUser (m r p.i4) && (isUser (m t3 p.i3) && (isUser (m t2 p.i2) && isUser (m t p.i1))),
    isNoExec (m r p.i4) || (isNoExec (m t3 p.i3) || (isNoExec (m t2 p.i2) || isNoExec (m t p.i1)))⟩

theorem Path.walk (h : Path T r p t3 t2 t) (hs : Sound σ T) :
    walk σ.mem r p.path=if isPresent (σ.mem t p.i1) then
      some (target (σ.mem t p.i1), granted σ.mem r t3 t2 t p) else none := by
  have h4 := hs.forest.leadsTo h.root h.links4 h.pml3
  have h3 := hs.forest.leadsTo h.pml3 (links3 ..) h.pd
  have h2 := hs.forest.leadsTo h.pd (links2 ..) h.pt
  simp only [Page.path,Framework.Paging.walk,h4.present,h4.target,h3.present,h3.target,
    h2.present,h2.target,if_true]
  split_ifs
  · simp [granted,rights,Rights.meet,Rights.full,h4.writable,h3.writable,h2.writable]
  · rfl

theorem walk_eq_none (h : Sound σ T) (hr : T (.root r)=some r) (hp : p.i4≠RECURSIVE_IDX)
    (ht : T (leafNode r p)=none) : walk σ.mem r p.path=none := by
  have hfollow : follow σ.mem r p.path=none := by
    rw [show p.path=p.tables++[p.i1] from rfl,follow_append,follow_tables h hr hp,ht]
    rfl
  rw [← walk_fst] at hfollow
  simpa using hfollow

def IsLower (n : Node) (i : Index) : Prop := ∀ a ∈ (n.path ++ [i]).head?, a < KERNEL_PML4_FIRST

/-- Not a page of the recursive entry, and not a window. -/
structure Ordinary (p : Page) : Prop where
  ne : p.i4 ≠ RECURSIVE_IDX
  window : ¬ (p.tables = windowNode.path ∧ p.i1 < 6)

instance (p : Page) : Decidable (Ordinary p) :=
  decidable_of_iff (p.i4 ≠ RECURSIVE_IDX ∧ ¬ (p.tables = windowNode.path ∧ p.i1 < 6))
    ⟨fun h => ⟨h.1, h.2⟩, fun h => ⟨h.ne, h.window⟩⟩

theorem ordinary_of_lower (hp : p.i4<KERNEL_PML4_FIRST) : Ordinary p := by
  refine ⟨ne_recursive_of_lower hp,fun hw => ?_⟩
  have hhead : p.i4=511 := by simpa [Page.tables,windowNode] using congrArg List.head? hw.1
  rw [hhead] at hp
  exact absurd hp (by decide)

/-- The entries above a page grant what its own entry grants, except for the entry of the root in
the upper half. -/
structure Tidy (σ : Tables) (T : Node → Option Frame) : Prop where
  user {r : Frame} {p : Page} {t3 t2 t : Frame} : Path T r p t3 t2 t → Ordinary p →
    isPresent (σ.mem t p.i1) = true → isUser (σ.mem t p.i1) = true →
    isUser (σ.mem r p.i4) = true ∧ isUser (σ.mem t3 p.i3) = true ∧ isUser (σ.mem t2 p.i2) = true
  lower {n : Node} {f : Frame} {i : Index} : T n = some f → n.path.length < 3 → IsLower n i →
    isPresent (σ.mem f i) = true → isNoExec (σ.mem f i) = false
  upper {r : Frame} {p : Page} {t3 t2 t : Frame} : Path T r p t3 t2 t → Ordinary p →
    KERNEL_PML4_FIRST ≤ p.i4 → isPresent (σ.mem t p.i1) = true →
    isNoExec (σ.mem t p.i1) = false →
    isNoExec (σ.mem t3 p.i3) = false ∧ isNoExec (σ.mem t2 p.i2) = false

section

variable (h : Opened virt flags e e')
include h

theorem Opened.user (huser : isUser flags=true)
    (hlow : isHigherHalf virt=false) : isUser e'=true := by
  cases h with
  | loosened hp =>
    have := congrArg Bits.user (bits_loosen virt flags e)
    simpa [bits,huser,hlow] using this
  | created u hp =>
    have := congrArg Bits.user (bits_normalizeTableFlags virt flags)
    simp only [bits,huser,hlow,Bool.not_false,Bool.and_true] at this
    rw [isUser_or,this,Bool.or_true]

theorem Opened.exec (hexec : hasFlag flags PAGE_EXECUTABLE=true) : isNoExec e'=false := by
  cases h with
  | loosened hp =>
    have := congrArg Bits.noExec (bits_loosen virt flags e)
    simpa [bits,hexec] using this
  | created u hp =>
    have := congrArg Bits.noExec (bits_normalizeTableFlags virt flags)
    simp only [bits,hexec,Bool.not_true,Bool.and_false] at this
    rw [isNoExec_or,isNoExec_address,this,Bool.or_false]

theorem Opened.lower (hlow : isHigherHalf virt=false)
    (he : isPresent e=true → isNoExec e=false) : isNoExec e'=false := by
  cases h with
  | loosened hp =>
    have := congrArg Bits.noExec (bits_loosen virt flags e)
    simpa [bits,he hp] using this
  | created u hp =>
    have := congrArg Bits.noExec (bits_normalizeTableFlags virt flags)
    simp only [bits,hlow,Bool.false_and] at this
    rw [isNoExec_or,isNoExec_address,this,Bool.or_false]

theorem Opened.looser (hp : isPresent e=true) :
    (isUser e=true → isUser e'=true) ∧ (isNoExec e=false → isNoExec e'=false) := by
  cases h with
  | loosened _ =>
    have hbits := bits_loosen virt flags e
    have hu := congrArg Bits.user hbits
    have hx := congrArg Bits.noExec hbits
    simp only [bits] at hu hx
    refine ⟨fun h => ?_,fun h => ?_⟩
    · rw [hu,h,Bool.true_or]
    · rw [hx,h,Bool.false_and]
  | created u hp' => simp [hp] at hp'

theorem Opened.noExec_eq (hp : isPresent e=true)
    (hexec : hasFlag flags PAGE_EXECUTABLE=false) : isNoExec e'=isNoExec e := by
  cases h with
  | loosened _ =>
    have := congrArg Bits.noExec (bits_loosen virt flags e)
    simpa [bits,hexec] using this
  | created u hp' => simp [hp] at hp'

end

theorem OnPath.isLower (h : OnPath (.root r) (i::is) n' i') :
    IsLower n' i' ↔ i<KERNEL_PML4_FIRST := by
  have hbelow {n : Node} {is : List Index} (hn : n.path.head? = some i)
      (h : OnPath n is n' i') : (n'.path++[i']).head? = some i := by
    induction is generalizing n with
    | nil => exact h.elim
    | cons j is ih =>
      rcases h with ⟨rfl,rfl⟩ | h
      · simp [hn]
      · exact ih (by simp [hn]) h
  have hhead : (n'.path++[i']).head? = some i := by
    rcases h with ⟨rfl,rfl⟩ | h
    · rfl
    · exact hbelow rfl h
  simp [IsLower,hhead]

theorem Entries.looser (he : Entries virt flags n is σ T σ' T') (hn : T n'=some f)
    (hlen : n'.path.length<3) (hp : isPresent (σ.mem f i)=true) :
    (isUser (σ.mem f i)=true → isUser (σ'.mem f i)=true) ∧
      (isNoExec (σ.mem f i)=false → isNoExec (σ'.mem f i)=false) := by
  by_cases hon : OnPath n is n' i
  · rcases he.on hn hlen hon with heq | ho
    · rw [heq]
      exact ⟨id,id⟩
    · exact ho.looser hp
  · rw [he.off hn hlen hon]
    exact ⟨id,id⟩

theorem Path.looser (hp : Path T r p t3 t2 t) (hs : Sound σ T)
    (he : Entries virt flags n is σ T σ' T') :
    (isUser (σ.mem r p.i4)=true → isUser (σ'.mem r p.i4)=true) ∧
      (isUser (σ.mem t3 p.i3)=true → isUser (σ'.mem t3 p.i3)=true) ∧
      (isUser (σ.mem t2 p.i2)=true → isUser (σ'.mem t2 p.i2)=true) ∧
      (isNoExec (σ.mem r p.i4)=false → isNoExec (σ'.mem r p.i4)=false) ∧
      (isNoExec (σ.mem t3 p.i3)=false → isNoExec (σ'.mem t3 p.i3)=false) ∧
      (isNoExec (σ.mem t2 p.i2)=false → isNoExec (σ'.mem t2 p.i2)=false) := by
  have h4 := he.looser hp.root hp.links4.1 (hs.forest.leadsTo hp.root hp.links4 hp.pml3).present
  have h3 := he.looser hp.pml3 (links3 r p.i4 p.i3).1 (i := p.i3)
    (hs.forest.leadsTo hp.pml3 (links3 ..) hp.pd).present
  have h2 := he.looser hp.pd (links2 r p.i4 p.i3 p.i2).1 (i := p.i2)
    (hs.forest.leadsTo hp.pd (links2 ..) hp.pt).present
  exact ⟨h4.1,h3.1,h2.1,h4.2,h3.2,h2.2⟩

theorem Path.before (hp : Path T' r p t3 t2 t) (hs : Sound σ T) (hr : T (.root r)=some r)
    (hext : Extends σ T σ' T') (hpresent : isPresent (leafEntry σ.mem r p)=true) :
    Path T r p t3 t2 t := by
  have hleaf := leafEntry_eq hs hr hp.ne
  cases ht : T (leafNode r p) with
  | none =>
    rw [ht] at hleaf
    rw [hleaf] at hpresent
    exact absurd hpresent (show ¬ isPresent 0=true by decide)
  | some t₀ =>
    obtain ⟨u3,u2,hpath⟩ := exists_path hs hr hp.ne ht
    have hpath' := hpath.keeps hext.keeps
    obtain rfl := Option.some.inj (hpath'.pml3.symm.trans hp.pml3)
    obtain rfl := Option.some.inj (hpath'.pd.symm.trans hp.pd)
    obtain rfl := Option.some.inj (hpath'.pt.symm.trans hp.pt)
    exact hpath

theorem bits_leaf (frame : Frame) (virt flags : Haddr) :
    bits (address frame ||| normalizeLeafFlags virt flags)=⟨isPresent flags, isWritable flags,
      frame ||| target flags, isUser flags && !isHigherHalf virt,
      !hasFlag flags PAGE_EXECUTABLE && (isHigherHalf virt || isNoExec flags)⟩ := by
  have hbits := bits_normalizeLeafFlags virt flags
  simp only [bits,Bits.mk.injEq] at hbits
  simp only [bits,isPresent_or,isWritable_or,target_or,isUser_or,isNoExec_or,
    isPresent_address,isWritable_address,target_address,isUser_address,isNoExec_address,
    hbits,Bool.false_or]

theorem not_higher_iff : isHigherHalf virt=false ↔ (pageOf virt).i4<KERNEL_PML4_FIRST := by
  rw [isHigherHalf,decide_eq_false_iff_not,BitVec.not_le]
  rfl

theorem Path.opened (hp : Path T' r (pageOf virt) t3 t2 t)
    (he : Entries virt flags (.root r) (pageOf virt).tables σ T σ' T') :
    (∃ e, Opened virt flags e (σ'.mem r (pageOf virt).i4)) ∧
      (∃ e, Opened virt flags e (σ'.mem t3 (pageOf virt).i3)) ∧
      ∃ e, Opened virt flags e (σ'.mem t2 (pageOf virt).i2) := by
  have h4 := he.done hp.pt hp.root hp.links4.1 (.inl ⟨rfl,rfl⟩)
  have h3 := he.done hp.pt hp.pml3 (links3 r _ (pageOf virt).i3).1 (.inr (.inl ⟨rfl,rfl⟩))
  have h2 := he.done hp.pt hp.pd (links2 r _ _ (pageOf virt).i2).1 (.inr (.inr (.inl ⟨rfl,rfl⟩)))
  exact ⟨h4.imp fun _ h => h.1,h3.imp fun _ h => h.1,h2.imp fun _ h => h.1⟩

/-- The path of a page of the upper half in another space differs in the root only. -/
theorem Path.other (hp : Path T r p t3 t2 t) (hr' : T (.root r')=some r')
    (hhigh : KERNEL_PML4_FIRST≤p.i4) : Path T r' p t3 t2 t := by
  have hchild : (Node.root r').child shape p.i4=(Node.root r).child shape p.i4 := by
    simp [Node.child,Node.root,shape,hhigh]
  refine ⟨hr',hp.ne,hchild ▸ hp.pml3,hchild ▸ hp.pd,?_⟩
  rw [leafNode_shared hhigh r' r]
  exact hp.pt

/-- Opening the tables of a page and writing its entry, or none, keeps the tables tidy. -/
theorem Tidy.step (frame : Frame) (ht : Tidy σ T) (hs : Sound σ T) (hext : Extends σ T σ' T')
    (hs' : Sound σ' T') (hr : T (.root r)=some r)
    (he : Entries virt flags (.root r) (pageOf virt).tables σ T σ' T')
    (hleaf : ∀ {r' p'}, T (.root r')=some r' → Ordinary p' →
      leafEntry σ'.mem r' p'=leafEntry σ.mem r' p' ∨ SameLeaf r (pageOf virt) r' p' ∧
        leafEntry σ'.mem r' p'=address frame ||| normalizeLeafFlags virt flags) :
    Tidy σ' T' := by
  have hbits := bits_leaf frame virt flags
  refine ⟨fun {r' p t3 t2 t} hp hord hpres huser => ?_,fun {n f i} hn hlen hlow hpres => ?_,
    fun {r' p t3 t2 t} hp hord hhigh hpres hexec => ?_⟩
  · have hr' : T (.root r')=some r' := (hext.roots r').symm.trans hp.root
    rcases hleaf hr' hord with hsame | ⟨⟨rfl,hshared⟩,hnew⟩
    · rw [hp.entry_eq hs'] at hsame
      rw [hsame] at hpres huser
      have hp₀ := hp.before hs hr' hext hpres
      rw [hp₀.entry_eq hs] at hpres huser
      obtain ⟨h4,h3,h2⟩ := ht.user hp₀ hord hpres huser
      obtain ⟨l4,l3,l2,-⟩ := hp₀.looser hs he
      exact ⟨l4 h4,l3 h3,l2 h2⟩
    · -- a user page: it lies in the lower half, so its space is the one that is edited
      rw [hp.entry_eq hs'] at hnew
      rw [hnew,show isUser _=_ from congrArg Bits.user hbits,Bool.and_eq_true,
        Bool.not_eq_true'] at huser
      obtain rfl : r=r' := hshared.resolve_right
        (BitVec.not_le.mpr (not_higher_iff.mp huser.2))
      obtain ⟨⟨_,h4⟩,⟨_,h3⟩,_,h2⟩ := hp.opened he
      exact ⟨h4.user huser.1 huser.2,h3.user huser.1 huser.2,h2.user huser.1 huser.2⟩
  · have hlow' {n' : Node} {i' : Index} (hon : OnPath (.root r) (pageOf virt).tables n' i')
        (hl : IsLower n' i') : isHigherHalf virt=false := not_higher_iff.mpr (hon.isLower.mp hl)
    cases hT : T n with
    | none =>
      rcases he.new hn hT hlen (j := i) with hzero | ⟨hon,ho⟩
      · rw [hzero] at hpres
        exact absurd hpres (by decide)
      · exact ho.lower (hlow' hon hlow) fun h => absurd h (by decide)
    | some g =>
      obtain rfl := Option.some.inj ((hext.keeps hT).symm.trans hn)
      by_cases hon : OnPath (.root r) (pageOf virt).tables n i
      · rcases he.on hT hlen hon with heq | ho
        · rw [heq] at hpres ⊢
          exact ht.lower hT hlen hlow hpres
        · exact ho.lower (hlow' hon hlow) fun h => ht.lower hT hlen hlow h
      · rw [he.off hT hlen hon] at hpres ⊢
        exact ht.lower hT hlen hlow hpres
  · have hr' : T (.root r')=some r' := (hext.roots r').symm.trans hp.root
    rcases hleaf hr' hord with hsame | ⟨⟨rfl,hshared⟩,hnew⟩
    · rw [hp.entry_eq hs'] at hsame
      rw [hsame] at hpres hexec
      have hp₀ := hp.before hs hr' hext hpres
      rw [hp₀.entry_eq hs] at hpres hexec
      obtain ⟨h3,h2⟩ := ht.upper hp₀ hord hhigh hpres hexec
      obtain ⟨-,-,-,-,l3,l2⟩ := hp₀.looser hs he
      exact ⟨l3 h3,l2 h2⟩
    · rw [hp.entry_eq hs'] at hnew
      have hhigh' : isHigherHalf virt=true := by
        rw [← Bool.not_eq_false,not_higher_iff,BitVec.not_lt]
        exact hhigh
      rw [hnew,show isNoExec _=_ from congrArg Bits.noExec hbits,hhigh',Bool.true_or,
        Bool.and_true,Bool.not_eq_false'] at hexec
      obtain ⟨-,⟨_,h3⟩,_,h2⟩ :=
        (hp.other ((hext.roots r).trans hr) hhigh).opened he
      exact ⟨h3.exec hexec,h2.exec hexec⟩

/-- A page of the same slot of the root is executable but for the entry of the root, and that entry
is about to be loosened. -/
def Stale (m : PhysMem) (r : Frame) (virt flags : Haddr) : Prop :=
  hasFlag flags PAGE_EXECUTABLE = true ∧ KERNEL_PML4_FIRST ≤ (pageOf virt).i4 ∧
    isNoExec (m r (pageOf virt).i4) = true ∧
    ∃ p, p ≠ pageOf virt ∧ p.i4 = (pageOf virt).i4 ∧ Ordinary p ∧
      isPresent (leafEntry m r p) = true ∧ isNoExec (leafEntry m r p) = false

private theorem root_entry (he : Entries virt flags (.root r) (pageOf virt).tables σ T σ' T')
    (hp : Path T r' p t3 t2 t) :
    σ'.mem r' p.i4=σ.mem r' p.i4 ∨ r'=r ∧ p.i4=(pageOf virt).i4 := by
  by_cases hon : OnPath (.root r) (pageOf virt).tables (.root r') p.i4
  · rcases hon with ⟨hroot,hi⟩ | hon
    · exact .inr ⟨by simpa [Node.root] using hroot,hi⟩
    · have := hon.length_le
      simp [Node.root] at this
  · exact .inl (he.off hp.root hp.links4.1 hon)

section

variable (ht : Tidy σ T) (hs : Sound σ T)
    (he : Entries virt flags (.root r) (pageOf virt).tables σ T σ' T')
include ht hs he

private theorem granted_eq
    (hp : Path T r' p t3 t2 t) (hord : Ordinary p) (hpres : isPresent (σ.mem t p.i1)=true)
    (hleaf : σ'.mem t p.i1=σ.mem t p.i1)
    (hroot : KERNEL_PML4_FIRST≤p.i4 → isNoExec (σ.mem t p.i1)=false →
      isNoExec (σ'.mem r' p.i4)=isNoExec (σ.mem r' p.i4)) :
    granted σ'.mem r' t3 t2 t p=granted σ.mem r' t3 t2 t p := by
  obtain ⟨u4,u3,u2,x4,x3,x2⟩ := hp.looser hs he
  have huser : (isUser (σ'.mem r' p.i4) && (isUser (σ'.mem t3 p.i3) && (isUser (σ'.mem t2 p.i2) &&
      isUser (σ.mem t p.i1))))=(isUser (σ.mem r' p.i4) && (isUser (σ.mem t3 p.i3) &&
      (isUser (σ.mem t2 p.i2) && isUser (σ.mem t p.i1)))) := by
    cases hu : isUser (σ.mem t p.i1) with
    | false => simp
    | true =>
      obtain ⟨h4,h3,h2⟩ := ht.user hp hord hpres hu
      simp [h4,h3,h2,u4 h4,u3 h3,u2 h2]
  have hexec : (isNoExec (σ'.mem r' p.i4) || (isNoExec (σ'.mem t3 p.i3) ||
      (isNoExec (σ'.mem t2 p.i2) || isNoExec (σ.mem t p.i1))))=(isNoExec (σ.mem r' p.i4) ||
      (isNoExec (σ.mem t3 p.i3) || (isNoExec (σ.mem t2 p.i2) || isNoExec (σ.mem t p.i1)))) := by
    cases hx : isNoExec (σ.mem t p.i1) with
    | true => simp
    | false =>
      by_cases hhigh : KERNEL_PML4_FIRST≤p.i4
      · obtain ⟨h3,h2⟩ := ht.upper hp hord hhigh hpres hx
        simp [h3,h2,x3 h3,x2 h2,hroot hhigh hx]
      · have hlow (is : List Index) : ∀ a∈(p.i4::is).head?, a<KERNEL_PML4_FIRST := by
          simpa using hhigh
        have h4 := ht.lower hp.root hp.links4.1 (hlow [])
          (hs.forest.leadsTo hp.root hp.links4 hp.pml3).present
        have h3 := ht.lower hp.pml3 (links3 r' p.i4 p.i3).1 (hlow [p.i3])
          (hs.forest.leadsTo hp.pml3 (links3 ..) hp.pd).present
        have h2 := ht.lower hp.pd (links2 r' p.i4 p.i3 p.i2).1 (hlow [p.i3,p.i2])
          (hs.forest.leadsTo hp.pd (links2 ..) hp.pt).present
        simp [h4,h3,h2,x4 h4,x3 h3,x2 h2]
  simp only [granted,hleaf,huser,hexec]

/-- Unless an entry of the root is stale, mapping a page changes the walk of no other page. -/
theorem walk_elsewhere
    (hw : Writes σ T σ' T' r (pageOf virt) e) (hr' : T (.root r')=some r') (hord : Ordinary p)
    (hne : ¬ SameLeaf r (pageOf virt) r' p) (hstale : ¬ Stale σ.mem r virt flags) :
    walk σ'.mem r' p.path=walk σ.mem r' p.path := by
  have hleaf := hw.elsewhere hr' hord.ne hne
  have hroot' : T' (.root r')=some r' := hw.keeps hr'
  cases ht' : T' (leafNode r' p) with
  | none =>
    have hT : T (leafNode r' p)=none := by
      cases hT : T (leafNode r' p) with
      | none => rfl
      | some t => simp [hw.keeps hT] at ht'
    rw [walk_eq_none hw.sound hroot' hord.ne ht',walk_eq_none hs hr' hord.ne hT]
  | some t =>
    obtain ⟨t3,t2,hp'⟩ := exists_path hw.sound hroot' hord.ne ht'
    rw [hp'.walk hw.sound]
    rw [hp'.entry_eq hw.sound] at hleaf
    cases hpres : isPresent (leafEntry σ.mem r' p) with
    | false =>
      rw [hleaf,hpres,if_neg (by simp)]
      cases hT : T (leafNode r' p) with
      | none => exact (walk_eq_none hs hr' hord.ne hT).symm
      | some t₀ =>
        obtain ⟨u3,u2,hp⟩ := exists_path hs hr' hord.ne hT
        rw [hp.walk hs,← hp.entry_eq hs,hpres,if_neg (by simp)]
    | true =>
      have hp := hp'.before hs hr' hw.toExtends hpres
      rw [hp.entry_eq hs] at hleaf hpres
      rw [hp.walk hs,hleaf,granted_eq ht hs he hp hord hpres hleaf fun hhigh hx => ?_]
      rcases root_entry he hp with hsame | ⟨rfl,hi⟩
      · rw [hsame]
      · -- the entry of the root was loosened
        by_contra hchange
        refine hstale ?_
        have hpage : p≠pageOf virt := fun hpage => hne ⟨hpage.symm,.inl rfl⟩
        have hlooser := (hp.looser hs he).2.2.2.1
        have hbefore : isNoExec (σ.mem r' p.i4)=true := by
          by_contra hfalse
          rw [Bool.not_eq_true] at hfalse
          exact hchange (by rw [hlooser hfalse,hfalse])
        refine ⟨?_,hi ▸ hhigh,hi ▸ hbefore,p,hpage,hi,hord,?_,?_⟩
        · by_contra hexec
          rw [Bool.not_eq_true] at hexec
          refine hchange ?_
          rcases he.on hp.root hp.links4.1 (.inl ⟨rfl,hi⟩) with heq | ho
          · rw [heq]
          · exact ho.noExec_eq (hs.forest.leadsTo hp.root hp.links4 hp.pml3).present hexec
        · rw [hp.entry_eq hs,hpres]
        · rw [hp.entry_eq hs,hx]

/-- A stale entry of the root does change a walk. -/
theorem walk_changes (hw : Writes σ T σ' T' r (pageOf virt) e) (hr : T (.root r)=some r)
    (hstale : Stale σ.mem r virt flags) :
    ∃ p, Ordinary p ∧ ¬ SameLeaf r (pageOf virt) r p ∧
      walk σ'.mem r p.path≠walk σ.mem r p.path := by
  obtain ⟨hexec,hhigh,hroot,p,hpage,hi,hord,hpres,hx⟩ := hstale
  have hne : ¬ SameLeaf r (pageOf virt) r p := fun hsame => hpage hsame.1.symm
  refine ⟨p,hord,hne,?_⟩
  have hleaf := hw.elsewhere hr hord.ne hne
  cases hT : T (leafNode r p) with
  | none =>
    rw [leafEntry_eq hs hr hord.ne,hT] at hpres
    exact absurd hpres (show ¬ isPresent 0=true by decide)
  | some t =>
    obtain ⟨t3,t2,hp⟩ := exists_path hs hr hord.ne hT
    have hp' := hp.keeps hw.keeps
    rw [hp.entry_eq hs] at hpres hx hleaf
    rw [hp'.entry_eq hw.sound] at hleaf
    have hhigh' : KERNEL_PML4_FIRST≤p.i4 := hi ▸ hhigh
    obtain ⟨h3,h2⟩ := ht.upper hp hord hhigh' hpres hx
    obtain ⟨-,-,-,-,l3,l2⟩ := hp.looser hs he
    -- the page's own path is opened, and its first entry is the one of the root
    obtain ⟨tv,htv⟩ := Option.ne_none_iff_exists'.mp hw.table
    obtain ⟨v3,v2,hv⟩ := exists_path hw.sound (hw.keeps hr) (by rw [← hi]; exact hord.ne) htv
    obtain ⟨⟨_,h4⟩,-⟩ := hv.opened he
    have h4' := h4.exec hexec
    rw [← hi] at h4' hroot
    rw [hp'.walk hw.sound,hp.walk hs,hleaf,if_pos hpres,if_pos hpres]
    intro heq
    have hrights := congrArg (fun x => x.map fun y : Frame × Rights => y.2.noExec) heq
    simp [granted,hleaf,hx,h3,h2,l3 h3,l2 h2,h4',hroot] at hrights

end

theorem walk_here (ht' : Tidy σ' T')
    (he : Entries virt flags (.root r) (pageOf virt).tables σ T σ' T')
    (hw : Writes σ T σ' T' r (pageOf virt) (address frame ||| normalizeLeafFlags virt flags))
    (hr : T (.root r)=some r) (hne : (pageOf virt).i4≠RECURSIVE_IDX) :
    walk σ'.mem r (pageOf virt).path=if isPresent flags then
      some (frame ||| target flags, rights (normalizeLeafFlags virt flags)) else none := by
  have hbits := bits_leaf frame virt flags
  have hflags := bits_normalizeLeafFlags virt flags
  simp only [bits,Bits.mk.injEq] at hbits hflags
  obtain ⟨t,htv⟩ := Option.ne_none_iff_exists'.mp hw.table
  obtain ⟨t3,t2,hp⟩ := exists_path hw.sound (hw.keeps hr) hne htv
  have hhere := hw.here
  rw [hp.entry_eq hw.sound] at hhere
  rw [hp.walk hw.sound,hhere]
  simp only [hbits]
  split_ifs with hpres
  swap
  · rfl
  obtain ⟨⟨_,h4⟩,⟨_,h3⟩,_,h2⟩ := hp.opened he
  simp only [Option.some.injEq,Prod.mk.injEq,true_and,granted,hhere,rights,hbits,hflags,
    Rights.mk.injEq]
  constructor
  · cases hu : isUser flags && !isHigherHalf virt with
    | false => simp
    | true =>
      rw [Bool.and_eq_true,Bool.not_eq_true'] at hu
      simp [h4.user hu.1 hu.2,h3.user hu.1 hu.2,h2.user hu.1 hu.2]
  · cases hx : hasFlag flags PAGE_EXECUTABLE with
    | true => simp [h4.exec hx,h3.exec hx,h2.exec hx]
    | false =>
      cases hh : isHigherHalf virt with
      | true => simp
      | false =>
        have hlow (is : List Index) : ∀ a∈((pageOf virt).i4::is).head?, a<KERNEL_PML4_FIRST := by
          simpa using not_higher_iff.mp hh
        have h4 := ht'.lower hp.root hp.links4.1 (hlow [])
          (hw.sound.forest.leadsTo hp.root hp.links4 hp.pml3).present
        have h3 := ht'.lower hp.pml3 (links3 r _ (pageOf virt).i3).1 (hlow [(pageOf virt).i3])
          (hw.sound.forest.leadsTo hp.pml3 (links3 ..) hp.pd).present
        have h2 := ht'.lower hp.pd (links2 r _ _ (pageOf virt).i2).1
          (hlow [(pageOf virt).i3,(pageOf virt).i2])
          (hw.sound.forest.leadsTo hp.pd (links2 ..) hp.pt).present
        simp [h4,h3,h2]

section Clear

variable (hinner : ∀ {n f}, T n = some f → n.path.length < 3 → σ'.mem f = σ.mem f)
include hinner

private theorem Path.inner_eq (hp : Path T r p t3 t2 t) :
    σ'.mem r=σ.mem r ∧ σ'.mem t3=σ.mem t3 ∧ σ'.mem t2=σ.mem t2 :=
  ⟨hinner hp.root hp.links4.1,hinner hp.pml3 (links3 r p.i4 0).1,
    hinner hp.pd (links2 r p.i4 p.i3 0).1⟩

/-- Where only entries of pages differ, the walk of a page depends on its own entry. -/
theorem walk_congr (hs : Sound σ T) (hs' : Sound σ' T) (hr : T (.root r)=some r)
    (hp : p.i4≠RECURSIVE_IDX) (hleaf : leafEntry σ'.mem r p=leafEntry σ.mem r p) :
    walk σ'.mem r p.path=walk σ.mem r p.path := by
  cases ht : T (leafNode r p) with
  | none => rw [walk_eq_none hs' hr hp ht,walk_eq_none hs hr hp ht]
  | some t =>
    obtain ⟨t3,t2,hpath⟩ := exists_path hs hr hp ht
    rw [hpath.entry_eq hs,hpath.entry_eq hs'] at hleaf
    obtain ⟨h4,h3,h2⟩ := hpath.inner_eq hinner
    rw [hpath.walk hs,hpath.walk hs']
    simp only [granted,hleaf,h4,h3,h2]

theorem Tidy.clear (ht : Tidy σ T) (hs : Sound σ T) (hs' : Sound σ' T)
    (hleaf : ∀ {r p}, T (.root r)=some r → Ordinary p →
      leafEntry σ'.mem r p=leafEntry σ.mem r p ∨ leafEntry σ'.mem r p=0) : Tidy σ' T := by
  have hsame {r : Frame} {p : Page} {t3 t2 t : Frame} (hp : Path T r p t3 t2 t) (hord : Ordinary p)
      (hpres : isPresent (σ'.mem t p.i1)=true) : σ'.mem t p.i1=σ.mem t p.i1 := by
    have := hleaf hp.root hord
    rw [hp.entry_eq hs,hp.entry_eq hs'] at this
    refine this.resolve_right fun hzero => ?_
    rw [hzero] at hpres
    exact absurd hpres (by decide)
  refine ⟨fun hp hord hpres huser => ?_,fun hn hlen hlow hpres => ?_,
    fun hp hord hhigh hpres hexec => ?_⟩
  · obtain ⟨h4,h3,h2⟩ := hp.inner_eq hinner
    have heq := hsame hp hord hpres
    rw [heq] at hpres huser
    rw [h4,h3,h2]
    exact ht.user hp hord hpres huser
  · rw [hinner hn hlen] at hpres ⊢
    exact ht.lower hn hlen hlow hpres
  · obtain ⟨-,h3,h2⟩ := hp.inner_eq hinner
    have heq := hsame hp hord hpres
    rw [heq] at hpres hexec
    rw [h3,h2]
    exact ht.upper hp hord hhigh hpres hexec

end Clear

end Hojicha.Vmm
