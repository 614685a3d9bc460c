import Hojicha.Framework.TableForest
import Hojicha.Vmm.Flags

/-!
# Mapping a page in physical memory

What the functions of `vmm.c` do to the tables, without the windows: walk down, create missing
tables, loosen the others, and write an entry.
-/

namespace Hojicha.Vmm

open Framework.Paging Option FramePool
open Function (update update_of_ne)

structure Tables where
  mem : PhysMem
  pool : FramePool

def openTable (virt flags : Haddr) (create : Bool) (t : Frame) (i : Index) (σ : Tables) :
    Option Frame × Tables :=
  if isPresent (σ.mem t i) then
    (some (target (σ.mem t i)), { σ with mem := setWord σ.mem t i (loosen virt flags (σ.mem t i)) })
  else if create then
    match σ.pool.take with
    | (none, pool) => (none, { σ with pool := pool })
    | (some f, pool) =>
      (some f, ⟨setFrame (setWord σ.mem t i (address f ||| normalizeTableFlags virt flags)) f
        fun _ => 0, pool⟩)
  else (none, σ)

def openPath (virt flags : Haddr) (create : Bool) : List Index → Frame → Tables →
    Option Frame × Tables
  | [], t, σ => (some t, σ)
  | i :: is, t, σ =>
    match openTable virt flags create t i σ with
    | (none, σ) => (none, σ)
    | (some u, σ) => openPath virt flags create is u σ

def mapPage (root : Frame) (virt request entry : Haddr) (σ : Tables) : Bool × Tables :=
  match openPath virt request true (pageOf virt).tables root σ with
  | (none, σ) => (false, σ)
  | (some t, σ) => (true, { σ with mem := setWord σ.mem t (pageOf virt).i1 entry })

def unmapPage (root : Frame) (virt : Haddr) (σ : Tables) : Bool × Tables :=
  match openPath virt 0 false (pageOf virt).tables root σ with
  | (none, σ) => (false, σ)
  | (some t, σ) => (true, { σ with mem := setWord σ.mem t (pageOf virt).i1 0 })

def shape : Shape where
  self := RECURSIVE_IDX
  shared i := KERNEL_PML4_FIRST ≤ i

/-- The tables are a forest, and no free frame holds one of them. -/
structure Sound (σ : Tables) (T : Node → Option Frame) : Prop where
  forest : Forest shape σ.mem T
  fresh {f : Frame} : σ.pool.free f = true → ∀ n, T n ≠ some f

/-- The tables of `T` are still there, and the frames of the new ones were taken from the pool. -/
structure Extends (σ : Tables) (T : Node → Option Frame) (σ' : Tables) (T' : Node → Option Frame) :
    Prop where
  keeps {n : Node} {f : Frame} : T n = some f → T' n = some f
  roots (r : Frame) : T' (.root r) = T (.root r)
  created {n : Node} {f : Frame} : T' n = some f → T n = none → σ.pool.free f = true ∧ f ≠ 0
  others {f : Frame} : (∀ n, T' n ≠ some f) → σ'.mem f = σ.mem f
  free {f : Frame} : σ'.pool.free f = true ↔ σ.pool.free f = true ∧ ∀ n, T' n ≠ some f
  held {f : Frame} : σ'.pool.held f = true ↔
    σ.pool.held f = true ∨ ∃ n, T n = none ∧ T' n = some f
  stray : σ'.pool.stray = σ.pool.stray

structure Grown (σ : Tables) (T : Node → Option Frame) (σ' : Tables) (T' : Node → Option Frame) :
    Prop extends Extends σ T σ' T' where
  leaf {n : Node} {f : Frame} : T n = some f → n.path.length = 3 → σ'.mem f = σ.mem f
  empty {n : Node} {f : Frame} : T' n = some f → T n = none → n.path.length = 3 →
    σ'.mem f = fun _ => 0

variable {σ σ' σ'' : Tables} {T T' T'' : Node → Option Frame} {n n' : Node} {t u f : Frame}
  {i i' : Index}

theorem Extends.of_pool (h : Sound σ T) {m : PhysMem}
    (hm : ∀ {f}, (∀ n, T n≠some f) → m f=σ.mem f) : Extends σ T { σ with mem := m } T where
  keeps h := h
  roots _ := rfl
  created h h' := by simp [h] at h'
  others hf := hm hf
  free := ⟨fun hf => ⟨hf,h.fresh hf⟩,And.left⟩
  held := ⟨.inl,fun h => h.resolve_right fun ⟨n,h,h'⟩ => by simp [h] at h'⟩
  stray := rfl

theorem Grown.refl (h : Sound σ T) : Grown σ T σ T where
  toExtends := .of_pool h fun _ => rfl
  leaf _ _ := rfl
  empty h h' := by simp [h] at h'

theorem Extends.trans (h : Extends σ T σ' T') (h' : Extends σ' T' σ'' T'') :
    Extends σ T σ'' T'' where
  keeps hn := h'.keeps (h.keeps hn)
  roots r := (h'.roots r).trans (h.roots r)
  created {n f} hn hn' := by
    cases hmid : T' n with
    | none =>
      obtain ⟨hfree,hne⟩ := h'.created hn hmid
      exact ⟨(h.free.mp hfree).1,hne⟩
    | some g =>
      obtain rfl := some.inj ((h'.keeps hmid).symm.trans hn)
      exact h.created hmid hn'
  others hf := (h'.others hf).trans (h.others fun n hn => hf n (h'.keeps hn))
  free {f} := by
    rw [h'.free,h.free]
    exact ⟨fun ⟨⟨h1,_⟩,h3⟩ => ⟨h1,h3⟩,fun ⟨h1,h3⟩ => ⟨⟨h1,fun n hn => h3 n (h'.keeps hn)⟩,h3⟩⟩
  held {f} := by
    rw [h'.held,h.held]
    constructor
    · rintro ((hf | ⟨n,hn,hn'⟩) | ⟨n,hn,hn'⟩)
      · exact .inl hf
      · exact .inr ⟨n,hn,h'.keeps hn'⟩
      · refine .inr ⟨n,?_,hn'⟩
        cases hT : T n with
        | none => rfl
        | some g => simp [h.keeps hT] at hn
    · rintro (hf | ⟨n,hn,hn'⟩)
      · exact .inl (.inl hf)
      · cases hmid : T' n with
        | none => exact .inr ⟨n,hmid,hn'⟩
        | some g =>
          obtain rfl := some.inj ((h'.keeps hmid).symm.trans hn')
          exact .inl (.inr ⟨n,hn,hmid⟩)
  stray := h'.stray.trans h.stray

theorem Grown.trans (h : Grown σ T σ' T') (h' : Grown σ' T' σ'' T'') : Grown σ T σ'' T'' where
  toExtends := h.toExtends.trans h'.toExtends
  leaf hn hlen := (h'.leaf (h.keeps hn) hlen).trans (h.leaf hn hlen)
  empty {n f} hn hn' hlen := by
    cases hmid : T' n with
    | none => exact h'.empty hn hmid hlen
    | some g =>
      obtain rfl := some.inj ((h'.keeps hmid).symm.trans hn)
      rw [h'.leaf hmid hlen,h.empty hmid hn' hlen]

def OnPath : Node → List Index → Node → Index → Prop
  | _, [], _, _ => False
  | n, i :: is, n', i' => (n' = n ∧ i' = i) ∨ OnPath (n.child shape i) is n' i'

inductive Opened (virt flags : Haddr) (e : Word) : Word → Prop
  | loosened : isPresent e = true → Opened virt flags e (loosen virt flags e)
  | created (u : Frame) : isPresent e = false →
    Opened virt flags e (address u ||| normalizeTableFlags virt flags)

/-- Only the entries on the path are opened, all of them when the end of the path is reached. -/
structure Entries (virt flags : Haddr) (n : Node) (is : List Index) (σ : Tables)
    (T : Node → Option Frame) (σ' : Tables) (T' : Node → Option Frame) : Prop where
  off {n' : Node} {f : Frame} {j : Index} : T n' = some f → n'.path.length < 3 →
    ¬ OnPath n is n' j → σ'.mem f j = σ.mem f j
  on {n' : Node} {f : Frame} {j : Index} : T n' = some f → n'.path.length < 3 →
    OnPath n is n' j → σ'.mem f j = σ.mem f j ∨ Opened virt flags (σ.mem f j) (σ'.mem f j)
  new {n' : Node} {f : Frame} {j : Index} : T' n' = some f → T n' = none → n'.path.length < 3 →
    σ'.mem f j = 0 ∨ OnPath n is n' j ∧ Opened virt flags 0 (σ'.mem f j)
  done {n' : Node} {f u : Frame} {j : Index} : T' (n.descend shape is) = some u →
    T' n' = some f → n'.path.length < 3 → OnPath n is n' j →
    ∃ e, Opened virt flags e (σ'.mem f j) ∧ (T n' = some f → e = σ.mem f j)

theorem OnPath.length_le {is : List Index} (h : OnPath n is n' i') :
    n.path.length≤n'.path.length := by
  induction is generalizing n with
  | nil => exact h.elim
  | cons i is ih =>
    rcases h with ⟨rfl,-⟩ | h
    · exact le_rfl
    · have := ih h
      simp at this
      omega

section Entries

variable {virt flags : Haddr} {is : List Index}

theorem Entries.nil (virt flags : Haddr) (n : Node) (σ : Tables) (T : Node → Option Frame) :
    Entries virt flags n [] σ T σ T where
  off _ _ _ := rfl
  on _ _ h := h.elim
  new h h' := by simp [h] at h'
  done _ _ _ h := h.elim

theorem Entries.stop (h : Entries virt flags n [i] σ T σ' T')
    (hend : T' (n.descend shape (i::is))=none) :
    Entries virt flags n (i::is) σ T σ' T' where
  off hn hlen hoff := h.off hn hlen fun hon => hoff (.inl (hon.resolve_right id))
  on {n' f i'} hn hlen hon := by
    by_cases hpos : n'=n ∧ i'=i
    · exact h.on hn hlen (.inl hpos)
    · exact .inl (h.off hn hlen fun hon => hpos (hon.resolve_right id))
  new hn hn' hlen := (h.new hn hn' hlen).imp_right fun ⟨hon,ho⟩ => ⟨.inl (hon.resolve_right id),ho⟩
  done hend' := by
    rw [hend] at hend'
    exact absurd hend' (by simp)

theorem Entries.refl (hend : T (n.descend shape is)=none) :
    Entries virt flags n is σ T σ T where
  off _ _ _ := rfl
  on _ _ _ := .inl rfl
  new h h' := by simp [h] at h'
  done hend' := by
    rw [hend] at hend'
    exact absurd hend' (by simp)

theorem Entries.cons (h : Entries virt flags n [i] σ T σ' T')
    (h' : Entries virt flags (n.child shape i) is σ' T' σ'' T'') (hn : T n=some t)
    (hlen : n.path.length<3) (hchild : T' (n.child shape i)=some u)
    (hkeeps : ∀ {n f}, T n=some f → T' n=some f)
    (hkeeps' : ∀ {n f}, T' n=some f → T'' n=some f) :
    Entries virt flags n (i::is) σ T σ'' T'' := by
  have hbelow {n' : Node} {i' : Index} (hon : OnPath (n.child shape i) is n' i') :
      ¬ OnPath n [i] n' i' := by
    rintro (⟨rfl,-⟩ | hfalse)
    · have := hon.length_le
      simp at this
    · exact hfalse
  have habove : ¬ OnPath (n.child shape i) is n i := fun hon => hbelow hon (.inl ⟨rfl,rfl⟩)
  refine ⟨fun {n' f i'} hn' hlen' hoff => ?_,fun {n' f i'} hn' hlen' hon => ?_,
    fun {n' f i'} hn' hnone hlen' => ?_,fun {n' f v i'} hend hn' hlen' hon => ?_⟩
  · rw [h'.off (hkeeps hn') hlen' fun hon => hoff (.inr hon),
      h.off hn' hlen' fun hon => hoff (.inl (hon.resolve_right id))]
  · rcases hon with ⟨rfl,rfl⟩ | hon
    · rw [h'.off (hkeeps hn') hlen' habove]
      exact h.on hn' hlen' (.inl ⟨rfl,rfl⟩)
    · have hsame := h.off hn' hlen' (hbelow hon)
      have := h'.on (hkeeps hn') hlen' hon
      rwa [hsame] at this
  · cases hmid : T' n' with
    | none =>
      exact (h'.new hn' hmid hlen').imp_right fun ⟨hon,ho⟩ => ⟨.inr hon,ho⟩
    | some g =>
      obtain rfl := some.inj ((hkeeps' hmid).symm.trans hn')
      have hzero : σ'.mem g i'=0 := by
        rcases h.new hmid hnone hlen' (j := i') with hz | ⟨⟨rfl,-⟩ | hfalse,-⟩
        · exact hz
        · simp [hn] at hnone
        · exact hfalse.elim
      by_cases hon : OnPath (n.child shape i) is n' i'
      · have := h'.on hmid hlen' hon
        rw [hzero] at this
        exact this.imp_right fun ho => ⟨.inr hon,ho⟩
      · rw [h'.off hmid hlen' hon]
        exact .inl hzero
  · rcases hon with ⟨rfl,rfl⟩ | hon
    · obtain rfl := some.inj ((hkeeps' (hkeeps hn)).symm.trans hn')
      rw [h'.off (hkeeps hn) hlen' habove]
      exact h.done hchild (hkeeps hn) hlen' (.inl ⟨rfl,rfl⟩)
    · obtain ⟨e,ho,he⟩ := h'.done hend hn' hlen' hon
      refine ⟨e,ho,fun hT => ?_⟩
      rw [he (hkeeps hT),h.off hT hlen' (hbelow hon)]

end Entries

theorem take_cases (p : FramePool) :
    (∃ rest, p.take=(none, p.fail rest)) ∨
    ∃ f rest, p.free f=true ∧ f≠0 ∧ p.take=(some f, p.without f rest) := by
  rw [take]
  cases p.answers with
  | nil => exact .inl ⟨[],rfl⟩
  | cons a rest =>
    cases a with
    | none => exact .inl ⟨rest,rfl⟩
    | some f =>
      by_cases hf : p.free f && f != 0
      · obtain ⟨h1,h2⟩ := Bool.and_eq_true_iff.mp hf
        exact .inr ⟨f,rest,h1,bne_iff_ne.mp h2,if_pos hf⟩
      · exact .inl ⟨rest,if_neg hf⟩

theorem without_free {p : FramePool} {f g : Frame} {rest : List (Option Frame)} :
    (p.without f rest).free g=true ↔ p.free g=true ∧ g≠f := by
  by_cases hg : g=f <;> simp [without,hg]

theorem without_held {p : FramePool} {f g : Frame} {rest : List (Option Frame)} :
    (p.without f rest).held g=true ↔ p.held g=true ∨ g=f := by
  by_cases hg : g=f <;> simp [without,hg]

theorem bits_tableEntry (f : Frame) (virt flags : Haddr) :
    isPresent (address f ||| normalizeTableFlags virt flags)=true ∧
      isWritable (address f ||| normalizeTableFlags virt flags)=true ∧
      target (address f ||| normalizeTableFlags virt flags)=f := by
  have hbits := bits_normalizeTableFlags virt flags
  refine ⟨?_,?_,?_⟩
  · rw [isPresent_or,show isPresent _=true from congrArg Bits.present hbits,Bool.or_true]
  · rw [isWritable_or,show isWritable _=true from congrArg Bits.writable hbits,Bool.or_true]
  · rw [target_or,target_address,
      show target (normalizeTableFlags virt flags)=0 from congrArg Bits.target hbits]
    simp

theorem Sound.loosen (h : Sound σ T) (virt flags : Haddr) :
    Sound { σ with mem := setWord σ.mem t i (Vmm.loosen virt flags (σ.mem t i)) } T := by
  have hbits := bits_loosen virt flags (σ.mem t i)
  refine ⟨h.forest.congr fun {n' f j} hn' _ => ?_,h.fresh⟩
  dsimp only
  by_cases hpos : f=t ∧ j=i
  · obtain ⟨rfl,rfl⟩ := hpos
    rw [setWord_self]
    exact ⟨congrArg Bits.present hbits,
      fun _ => ⟨congrArg Bits.writable hbits,congrArg Bits.target hbits⟩⟩
  · rw [setWord_of_ne _ _ _ _ hpos]
    exact ⟨rfl,fun _ => ⟨rfl,rfl⟩⟩

theorem Sound.ne_of_length (h : Sound σ T) (hn : T n=some t) (hn' : T n'=some f)
    (hlen : n.path.length≠n'.path.length) : f≠t := by
  rintro rfl
  exact hlen (congrArg (fun n => n.path.length) (h.forest.inj hn hn'))

theorem Grown.loosen (h : Sound σ T) (hn : T n=some t) (hlen : n.path.length<3)
    (w : Word) : Grown σ T { σ with mem := setWord σ.mem t i w } T where
  toExtends := .of_pool h fun hf => setWord_of_frame_ne _ _ _ _ fun heq => hf n (heq ▸ hn)
  leaf hn' hlen' := setWord_of_frame_ne _ _ _ _ (h.ne_of_length hn hn' (by omega))
  empty h h' := by simp [h] at h'

theorem Sound.create (h : Sound σ T) (hn : T n=some t) (hi : n.Links shape i)
    (habsent : isPresent (σ.mem t i)=false) (hfree : σ.pool.free f=true) (hf0 : f≠0)
    (virt flags : Haddr) (rest : List (Option Frame)) :
    Sound ⟨setFrame (setWord σ.mem t i (address f ||| normalizeTableFlags virt flags)) f fun _ => 0,
        σ.pool.without f rest⟩ (update T (n.child shape i) (some f)) ∧
      Grown σ T
        ⟨setFrame (setWord σ.mem t i (address f ||| normalizeTableFlags virt flags)) f fun _ => 0,
          σ.pool.without f rest⟩ (update T (n.child shape i) (some f)) := by
  have hfresh := h.fresh hfree
  have hnone : T (n.child shape i)=none := by
    rw [h.forest.link hn hi,habsent]
    rfl
  have hold {n' : Node} {g : Frame} (hn' : T n'=some g) : n'≠n.child shape i := by
    rintro rfl
    simp [hnone] at hn'
  have hkeeps {n' : Node} {g : Frame} (hn' : T n'=some g) :
      update T (n.child shape i) (some f) n'=some g := by
    rwa [update_of_ne (hold hn')]
  have hnew {n' : Node} {g : Frame}
      (hn' : update T (n.child shape i) (some f) n'=some g) (hn : T n'=none) :
      n'=n.child shape i ∧ g=f := by
    by_cases hc : n'=n.child shape i
    · subst hc
      rw [Function.update_self,some.injEq] at hn'
      exact ⟨rfl,hn'.symm⟩
    · rw [update_of_ne hc,hn] at hn'
      simp at hn'
  have hin (n' : Node) (g : Frame) :
      update T (n.child shape i) (some f) n'=some g ↔
        T n'=some g ∨ (n'=n.child shape i ∧ g=f) := by
    constructor
    · intro hn'
      cases hT : T n' with
      | none => exact .inr (hnew hn' hT)
      | some g' =>
        obtain rfl := some.inj ((hkeeps hT).symm.trans hn')
        exact .inl rfl
    · rintro (hn' | ⟨rfl,rfl⟩)
      · exact hkeeps hn'
      · exact Function.update_self ..
  refine ⟨⟨?_,fun {g} hg n' hn' => ?_⟩,⟨hkeeps,
    fun r => update_of_ne Node.child_ne_root.symm _ _,fun hn' hT => ?_,fun {g} hg => ?_,
    fun {g} => ?_,fun {g} => ?_,rfl⟩,fun {n' g} hn' hlen => ?_,fun {n' g} hn' hT _ => ?_⟩
  · obtain ⟨hpres,hwr,htar⟩ := bits_tableEntry f virt flags
    exact h.forest.newTable hn hi habsent hfresh hpres hwr htar
  · obtain ⟨hg,hgf⟩ := without_free.mp hg
    obtain hn' | ⟨-,hgf'⟩ := (hin n' g).mp hn'
    · exact h.fresh hg n' hn'
    · exact hgf hgf'
  · obtain ⟨-,rfl⟩ := hnew hn' hT
    exact ⟨hfree,hf0⟩
  · have hgf : g≠f := fun hgf => hg _ ((hin _ _).mpr (.inr ⟨rfl,hgf⟩))
    have hgt : g≠t := fun hgt => hg n (hkeeps (hgt ▸ hn))
    dsimp only
    rw [setFrame_of_ne _ _ _ hgf,setWord_of_frame_ne _ _ _ _ hgt]
  · by_cases hgf : g=f
    · subst hgf
      simp only [without,Function.update_self,Bool.false_eq_true,false_iff,not_and]
      exact fun _ hcon => hcon _ (Function.update_self (n.child shape i) _ _)
    · simp only [without,update_of_ne hgf,ne_eq,hin,hgf,and_false,or_false]
      exact ⟨fun hg => ⟨hg,h.fresh hg⟩,And.left⟩
  · by_cases hgf : g=f
    · subst hgf
      simp only [without,Function.update_self,true_iff]
      exact .inr ⟨_,hnone,by simp⟩
    · simp only [without,update_of_ne hgf,hin,hgf,and_false,or_false]
      exact ⟨.inl,fun hg => hg.resolve_right fun ⟨n',h1,h2⟩ => by simp [h1] at h2⟩
  · have hgf : g≠f := fun hgf => hfresh n' (hgf ▸ hn')
    have hgt : g≠t := h.ne_of_length hn hn' (by have := hi.1; omega)
    dsimp only
    rw [setFrame_of_ne _ _ _ hgf,setWord_of_frame_ne _ _ _ _ hgt]
  · obtain ⟨-,rfl⟩ := hnew hn' hT
    exact setFrame_self ..

private theorem not_onPath_iff :
    ¬ OnPath n [i] n' i' ↔ ¬ (n'=n ∧ i'=i) := by
  simp [OnPath]

private theorem Sound.pos_ne (h : Sound σ T) (hn : T n=some t)
    (hn' : T n'=some f) (hoff : ¬ OnPath n [i] n' i') : ¬ (f=t ∧ i'=i) := by
  rintro ⟨rfl,rfl⟩
  exact not_onPath_iff.mp hoff ⟨h.forest.inj hn' hn,rfl⟩

private theorem Entries.loosened (h : Sound σ T) (hn : T n=some t) {virt flags : Haddr}
    (hp : isPresent (σ.mem t i)=true) :
    Entries virt flags n [i] σ T
      { σ with mem := setWord σ.mem t i (Vmm.loosen virt flags (σ.mem t i)) } T := by
  have hon {n' : Node} {f : Frame} {i' : Index} (hn' : T n'=some f) (hon : OnPath n [i] n' i') :
      Opened virt flags (σ.mem f i')
        (setWord σ.mem t i (Vmm.loosen virt flags (σ.mem t i)) f i') := by
    obtain ⟨rfl,rfl⟩ := hon.resolve_right id
    obtain rfl := some.inj (hn.symm.trans hn')
    rw [setWord_self]
    exact .loosened hp
  exact ⟨fun hn' _ hoff => setWord_of_ne _ _ _ _ (h.pos_ne hn hn' hoff),
    fun hn' _ ho => .inr (hon hn' ho),fun hn' hnone => by simp [hn'] at hnone,
    fun _ hn' _ ho => ⟨_,hon hn' ho,fun _ => rfl⟩⟩

private theorem Entries.absent {virt flags : Haddr} (hnone : T (n.child shape i)=none)
    (hmem : σ'.mem=σ.mem) : Entries virt flags n [i] σ T σ' T where
  off _ _ _ := by rw [hmem]
  on _ _ _ := .inl (by rw [hmem])
  new hn hn' := by simp [hn] at hn'
  done hend := by simp [hnone] at hend

private theorem Entries.created (h : Sound σ T) (hn : T n=some t) {virt flags : Haddr}
    (hp : isPresent (σ.mem t i)=false) (hfree : σ.pool.free f=true) (pool : FramePool) :
    Entries virt flags n [i] σ T
      ⟨setFrame (setWord σ.mem t i (address f ||| normalizeTableFlags virt flags)) f fun _ => 0,
        pool⟩ (update T (n.child shape i) (some f)) := by
  have hne {n' : Node} {g : Frame} (hn' : T n'=some g) : g≠f :=
    fun hg => h.fresh hfree n' (hg ▸ hn')
  have hon {n' : Node} {g : Frame} {i' : Index} (hn' : T n'=some g) (hon : OnPath n [i] n' i') :
      Opened virt flags (σ.mem g i') (setFrame (setWord σ.mem t i
        (address f ||| normalizeTableFlags virt flags)) f (fun _ => 0) g i') := by
    obtain ⟨rfl,rfl⟩ := hon.resolve_right id
    obtain rfl := some.inj (hn.symm.trans hn')
    rw [setFrame_of_ne _ _ _ (hne hn),setWord_self]
    exact .created f hp
  refine ⟨fun {n' g i'} hn' _ hoff => ?_,fun hn' _ ho => .inr (hon hn' ho),
    fun {n' g i'} hn' hnone _ => ?_,fun {n' g u i'} _ hn' _ ho => ?_⟩
  · dsimp only
    rw [setFrame_of_ne _ _ _ (hne hn'),setWord_of_ne _ _ _ _ (h.pos_ne hn hn' hoff)]
  · by_cases hc : n'=n.child shape i
    · subst hc
      rw [Function.update_self,some.injEq] at hn'
      subst hn'
      exact .inl (by simp)
    · rw [update_of_ne hc,hnone] at hn'
      simp at hn'
  · obtain ⟨rfl,rfl⟩ := ho.resolve_right id
    rw [update_of_ne Node.child_ne_self.symm] at hn'
    exact ⟨_,hon hn' (.inl ⟨rfl,rfl⟩),fun _ => rfl⟩

theorem openTable_spec (h : Sound σ T) (hn : T n=some t) (hi : n.Links shape i)
    (virt flags : Haddr) (create : Bool) :
    ∃ T', Sound (openTable virt flags create t i σ).2 T' ∧
      Grown σ T (openTable virt flags create t i σ).2 T' ∧
      (∀ u∈(openTable virt flags create t i σ).1, T' (n.child shape i)=some u) ∧
      ((openTable virt flags create t i σ).1=none → T'=T ∧ T (n.child shape i)=none ∧
        (openTable virt flags create t i σ).2.mem=σ.mem) ∧
      Entries virt flags n [i] σ T (openTable virt flags create t i σ).2 T' := by
  have hlink := h.forest.link hn hi
  by_cases hp : isPresent (σ.mem t i)=true
  · rw [openTable,if_pos hp]
    rw [if_pos hp] at hlink
    refine ⟨T,h.loosen virt flags,.loosen h hn hi.1 _,?_,by simp,.loosened h hn hp⟩
    simpa using hlink
  rw [if_neg hp] at hlink
  rw [Bool.not_eq_true] at hp
  by_cases hc : create=true
  swap
  · have heq : openTable virt flags create t i σ=(none, σ) := by simp [openTable,hp,hc]
    rw [heq]
    exact ⟨T,h,.refl h,by simp,fun _ => ⟨rfl,hlink,rfl⟩,.absent hlink rfl⟩
  obtain ⟨rest,htake⟩ | ⟨f,rest,hfree,hf0,htake⟩ := take_cases σ.pool
  · have heq : openTable virt flags create t i σ =
        (none, { σ with pool := σ.pool.fail rest }) := by
      simp [openTable,hp,hc,htake]
    rw [heq]
    refine ⟨T,⟨h.forest,h.fresh⟩,?_,by simp,fun _ => ⟨rfl,hlink,rfl⟩,.absent hlink rfl⟩
    obtain ⟨⟨h1,h2,h3,h4,h5,h6,h7⟩,h8,h9⟩ := Grown.refl h
    exact ⟨⟨h1,h2,h3,h4,h5,h6,h7⟩,h8,h9⟩
  · have heq : openTable virt flags create t i σ=(some f,
        ⟨setFrame (setWord σ.mem t i (address f ||| normalizeTableFlags virt flags)) f fun _ => 0,
          σ.pool.without f rest⟩) := by
      simp [openTable,hp,hc,htake,without]
    rw [heq]
    obtain ⟨hsound,hgrown⟩ := h.create hn hi hp hfree hf0 virt flags rest
    exact ⟨_,hsound,hgrown,by simp,by simp,.created h hn hp hfree _⟩

theorem openPath_spec (is : List Index) (h : Sound σ T) (hn : T n=some t)
    (hlen : n.path.length + is.length≤3) (hself : n.path=[] → is.head? ≠ some RECURSIVE_IDX)
    (virt flags : Haddr) (create : Bool) :
    ∃ T', Sound (openPath virt flags create is t σ).2 T' ∧
      Grown σ T (openPath virt flags create is t σ).2 T' ∧
      T' (n.descend shape is)=(openPath virt flags create is t σ).1 ∧
      Entries virt flags n is σ T (openPath virt flags create is t σ).2 T' := by
  induction is generalizing n t σ T with
  | nil => exact ⟨T,h,.refl h,hn,.nil ..⟩
  | cons i is ih =>
    have hi : n.Links shape i :=
      ⟨by simp at hlen; omega,fun ⟨hp,hi⟩ => hself hp (by rw [hi]; rfl)⟩
    obtain ⟨T₁,hsound,hgrown,hsome,hnone,hentries⟩ := openTable_spec h hn hi virt flags create
    rw [openPath]
    cases hopen : openTable virt flags create t i σ with
    | mk r σ₁ =>
      rw [hopen] at hsound hgrown hsome hnone hentries
      cases r with
      | none =>
        obtain ⟨rfl,hchild,-⟩ := hnone rfl
        have hend : T₁ (n.descend shape (i::is))=none :=
          hsound.forest.closed_descend (n := n.child shape i) is hchild (by simp)
        exact ⟨T₁,hsound,hgrown,hend,hentries.stop hend⟩
      | some u =>
        obtain ⟨T',hsound',hgrown',hend,hentries'⟩ := ih hsound (hsome u rfl)
          (by simp at hlen ⊢; omega) (by simp)
        exact ⟨T',hsound',hgrown.trans hgrown',hend,
          hentries.cons hentries' hn hi.1 (hsome u rfl) hgrown.keeps hgrown'.keeps⟩

theorem openPath_singleton (virt flags : Haddr) (create : Bool) (i : Index) (t : Frame)
    (σ : Tables) :
    openPath virt flags create [i] t σ=openTable virt flags create t i σ := by
  rw [openPath]
  rcases openTable virt flags create t i σ with ⟨_ | u,σ₁⟩ <;> rfl

theorem openPath_failures (virt flags : Haddr) (is : List Index) (t : Frame) (σ : Tables) :
    (openPath virt flags true is t σ).2.pool.failures =
      σ.pool.failures + if (openPath virt flags true is t σ).1.isSome then 0 else 1 := by
  induction is generalizing t σ with
  | nil => rfl
  | cons i is ih =>
    by_cases hp : isPresent (σ.mem t i)=true
    · simp only [openPath,openTable,if_pos hp]
      exact ih _ _
    · obtain ⟨rest,htake⟩ | ⟨f,rest,-,-,htake⟩ := take_cases σ.pool
      · simp [openPath,openTable,hp,htake,fail]
      · simp only [openPath,openTable,hp,htake,Bool.false_eq_true,if_false,if_true]
        exact ih _ _

theorem openPath_lookup (virt : Haddr) (is : List Index) (t : Frame) (σ : Tables) :
    openPath virt 0 false is t σ=(follow σ.mem t is, σ) := by
  induction is generalizing t with
  | nil => rfl
  | cons i is ih =>
    by_cases hp : isPresent (σ.mem t i)=true
    · simp only [openPath,openTable,if_pos hp,loosen_zero,setWord_same,follow]
      exact ih _
    · simp [openPath,openTable,hp,follow]

def leafNode (r : Frame) (p : Page) : Node := (Node.root r).descend shape p.tables

/-- The two pages have one entry: they are the same page of one address space, or of two spaces
that share it. -/
def SameLeaf (r : Frame) (p : Page) (r' : Frame) (p' : Page) : Prop :=
  p = p' ∧ (r = r' ∨ KERNEL_PML4_FIRST ≤ p.i4)

theorem ne_recursive_of_lower {i : Index} (hi : i<KERNEL_PML4_FIRST) : i≠RECURSIVE_IDX := by
  rintro rfl
  exact absurd hi (by decide)

theorem leafNode_eq (r : Frame) (p : Page) :
    leafNode r p=⟨if KERNEL_PML4_FIRST≤p.i4 then none else some r, p.tables⟩ := by
  have h := Node.root_descend (S := shape) r p.i4 [p.i3,p.i2]
  simpa [leafNode,Page.tables,shape] using h

theorem sameLeaf_iff (r : Frame) (p : Page) (r' : Frame) (p' : Page) :
    leafNode r p=leafNode r' p' ∧ p.i1=p'.i1 ↔ SameLeaf r p r' p' := by
  rw [leafNode_eq,leafNode_eq]
  obtain ⟨a,b,c,d⟩ := p
  obtain ⟨a',b',c',d'⟩ := p'
  simp only [Node.mk.injEq,Page.tables,List.cons.injEq,and_true,SameLeaf,Page.mk.injEq]
  constructor
  · rintro ⟨⟨hspace,rfl,rfl,rfl⟩,rfl⟩
    refine ⟨⟨rfl,rfl,rfl,rfl⟩,?_⟩
    by_cases ha : KERNEL_PML4_FIRST≤a
    · exact .inr ha
    · simp only [ha,if_false,some.injEq] at hspace
      exact .inl hspace
  · rintro ⟨⟨rfl,rfl,rfl,rfl⟩,rfl | ha⟩
    · simp
    · simp [ha]

theorem length_leafNode (r : Frame) (p : Page) : (leafNode r p).path.length=3 := by
  rw [leafNode_eq]
  rfl

variable {r r' : Frame} {p p' : Page} {virt request entry : Haddr}

theorem follow_tables (h : Sound σ T) (hr : T (.root r)=some r) (hp : p.i4≠RECURSIVE_IDX) :
    follow σ.mem r p.tables=T (leafNode r p) := by
  refine h.forest.follow_eq hr ?_ fun _ => ?_
  · simp [Node.root,Page.tables]
  · exact fun hhead => hp (some.inj hhead)

theorem leafEntry_eq (h : Sound σ T) (hr : T (.root r)=some r) (hp : p.i4≠RECURSIVE_IDX) :
    leafEntry σ.mem r p=match T (leafNode r p) with
      | some t => σ.mem t p.i1
      | none => 0 := by
  rewrite [leafEntry,follow_tables h hr hp]
  rfl

/-- New tables are empty, so opening a path changes no leaf entry. -/
theorem Grown.leafEntry (hg : Grown σ T σ' T') (h : Sound σ T) (h' : Sound σ' T')
    (hr : T (.root r)=some r) (hp : p.i4≠RECURSIVE_IDX) :
    leafEntry σ'.mem r p=leafEntry σ.mem r p := by
  have hlen := length_leafNode r p
  rw [leafEntry_eq h hr hp,leafEntry_eq h' (hg.keeps hr) hp]
  cases hT : T (leafNode r p) with
  | some t =>
    rw [hg.keeps hT]
    exact congrFun (hg.leaf hT hlen) p.i1
  | none =>
    cases hT' : T' (leafNode r p) with
    | none => rfl
    | some t => exact congrFun (hg.empty hT' hT hlen) p.i1

section

variable (h : Sound σ T) (ht : T (leafNode r p) = some t)
include h ht

theorem Sound.setLeaf (w : Word) : Sound { σ with mem := setWord σ.mem t i w } T := by
  refine ⟨h.forest.congr fun {n f j} hn hlen => ?_,h.fresh⟩
  have hft : f≠t := h.ne_of_length ht hn (by rw [length_leafNode]; omega)
  dsimp only
  rw [setWord_of_frame_ne _ _ _ _ hft]
  exact ⟨rfl,fun _ => ⟨rfl,rfl⟩⟩

theorem leafEntry_setLeaf (hr : T (.root r)=some r) (hp : p.i4≠RECURSIVE_IDX) (w : Word) :
    leafEntry (setWord σ.mem t p.i1 w) r p=w := by
  rw [show setWord σ.mem t p.i1 w=Tables.mem { σ with mem := setWord σ.mem t p.i1 w } from rfl,
    leafEntry_eq (h.setLeaf ht w) hr hp,ht]
  exact setWord_self ..

theorem leafEntry_setLeaf_of_ne
    (hr' : T (.root r')=some r') (hp' : p'.i4≠RECURSIVE_IDX) (hne : ¬ SameLeaf r p r' p')
    (w : Word) : leafEntry (setWord σ.mem t p.i1 w) r' p'=leafEntry σ.mem r' p' := by
  rw [show setWord σ.mem t p.i1 w=Tables.mem { σ with mem := setWord σ.mem t p.i1 w } from rfl,
    leafEntry_eq (h.setLeaf ht w) hr' hp',leafEntry_eq h hr' hp']
  cases ht' : T (leafNode r' p') with
  | none => rfl
  | some t' =>
    refine setWord_of_ne _ _ _ _ fun ⟨htt,hi⟩ => hne ?_
    exact (sameLeaf_iff r p r' p').mp ⟨h.forest.inj ht (htt ▸ ht'),hi.symm⟩

end

theorem mapPage_spec (request entry : Haddr) (h : Sound σ T) (hr : T (.root r)=some r)
    (hp : (pageOf virt).i4≠RECURSIVE_IDX) :
    ∃ T' σ₁, Sound σ₁ T' ∧ Grown σ T σ₁ T' ∧
      Entries virt request (.root r) (pageOf virt).tables σ T σ₁ T' ∧
      (mapPage r virt request entry σ=(false, σ₁) ∧ T' (leafNode r (pageOf virt))=none ∨
      ∃ t, T' (leafNode r (pageOf virt))=some t ∧ mapPage r virt request entry σ =
        (true, { σ₁ with mem := setWord σ₁.mem t (pageOf virt).i1 entry })) := by
  obtain ⟨T',hsound,hgrown,hend,hentries⟩ := openPath_spec (pageOf virt).tables h hr
    (by simp [Node.root,Page.tables]) (fun _ hhead => hp (some.inj hhead)) virt request true
  refine ⟨T',_,hsound,hgrown,hentries,?_⟩
  rw [mapPage]
  rw [← leafNode] at hend
  cases hopen : openPath virt request true (pageOf virt).tables r σ with
  | mk res σ₁ =>
    rw [hopen] at hend
    cases res with
    | none => exact .inl ⟨rfl,hend⟩
    | some t => exact .inr ⟨t,hend,rfl⟩

theorem mapPage_failures (r : Frame) (virt request entry : Haddr) (σ : Tables) :
    (mapPage r virt request entry σ).2.pool.failures =
      σ.pool.failures + if (mapPage r virt request entry σ).1 then 0 else 1 := by
  have h := openPath_failures virt request (pageOf virt).tables r σ
  rw [mapPage]
  cases hopen : openPath virt request true (pageOf virt).tables r σ with
  | mk res σ₁ =>
    rw [hopen] at h
    cases res <;> exact h

theorem unmapPage_spec (h : Sound σ T) (hr : T (.root r)=some r)
    (hp : (pageOf virt).i4≠RECURSIVE_IDX) :
    unmapPage r virt σ=(false, σ) ∧ T (leafNode r (pageOf virt))=none ∨
      ∃ t, T (leafNode r (pageOf virt))=some t ∧
        unmapPage r virt σ=(true, { σ with mem := setWord σ.mem t (pageOf virt).i1 0 }) := by
  rw [unmapPage,openPath_lookup,follow_tables h hr hp]
  cases T (leafNode r (pageOf virt)) with
  | none => exact .inl ⟨rfl,rfl⟩
  | some t => exact .inr ⟨t,rfl,rfl⟩

end Hojicha.Vmm
