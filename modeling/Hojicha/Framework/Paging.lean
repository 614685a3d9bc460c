import Mathlib.Tactic

/-!
# Page tables in physical memory

A word of a table is an entry: bit 0 is presence, bits 1, 2 and 63 are the write, user and
no-execute permissions, and bits 12 to 51 name a frame.
-/

namespace Hojicha.Framework.Paging

abbrev Frame := BitVec 40

abbrev Index := BitVec 9

abbrev Word := BitVec 64

abbrev PhysMem := Frame → Index → Word

def isPresent (e : Word) : Bool := e.getLsbD 0

def isWritable (e : Word) : Bool := e.getLsbD 1

def isUser (e : Word) : Bool := e.getLsbD 2

def isNoExec (e : Word) : Bool := e.getLsbD 63

def target (e : Word) : Frame := e.extractLsb' 12 40

def address (f : Frame) : Word := f.setWidth 64 <<< 12

section

variable (a b : Word)
include a b

@[simp]
theorem isPresent_or : isPresent (a ||| b)=(isPresent a || isPresent b) := by
  simp [isPresent]

@[simp]
theorem isWritable_or : isWritable (a ||| b)=(isWritable a || isWritable b) := by
  simp [isWritable]

@[simp]
theorem isUser_or : isUser (a ||| b)=(isUser a || isUser b) := by
  simp [isUser]

@[simp]
theorem isNoExec_or : isNoExec (a ||| b)=(isNoExec a || isNoExec b) := by
  simp [isNoExec]

@[simp]
theorem target_or : target (a ||| b)=target a ||| target b := by
  simp only [target]
  ext i hi
  simp

@[simp]
theorem isPresent_and : isPresent (a &&& b)=(isPresent a && isPresent b) := by
  simp [isPresent]

@[simp]
theorem isWritable_and : isWritable (a &&& b)=(isWritable a && isWritable b) := by
  simp [isWritable]

@[simp]
theorem isUser_and : isUser (a &&& b)=(isUser a && isUser b) := by
  simp [isUser]

@[simp]
theorem isNoExec_and : isNoExec (a &&& b)=(isNoExec a && isNoExec b) := by
  simp [isNoExec]

@[simp]
theorem target_and : target (a &&& b)=target a &&& target b := by
  simp only [target]
  ext i hi
  simp

end

section

variable (f : Frame)
include f

@[simp]
theorem target_address : target (address f)=f := by
  ext i hi
  simp only [target,address,BitVec.getElem_extractLsb',BitVec.getLsbD_shiftLeft,
    BitVec.getLsbD_setWidth]
  have h1 : 12+i<64 := by omega
  have h2 : ¬ 12+i<12 := by omega
  have h3 : i<64 := by omega
  simp [h1,h2,h3,BitVec.getLsbD_eq_getElem hi]

private theorem address_low {i : Nat} (hi : i<12 ∨ 52 ≤ i) : (address f).getLsbD i=false := by
  simp only [address,BitVec.getLsbD_shiftLeft,BitVec.getLsbD_setWidth]
  rcases hi with hi | hi
  · simp [hi]
  · have : f.getLsbD (i-12)=false := BitVec.getLsbD_of_ge f _ (by omega)
    simp [this]

@[simp]
theorem isPresent_address : isPresent (address f)=false :=
  address_low f (.inl (by decide))

@[simp]
theorem isWritable_address : isWritable (address f)=false :=
  address_low f (.inl (by decide))

@[simp]
theorem isUser_address : isUser (address f)=false :=
  address_low f (.inl (by decide))

@[simp]
theorem isNoExec_address : isNoExec (address f)=false :=
  address_low f (.inr (by decide))

theorem address_eq_zero_iff : address f=0 ↔ f=0 := by
  constructor
  · intro h
    rw [← target_address f,h]
    decide
  · rintro rfl
    decide

end

def setWord (m : PhysMem) (f : Frame) (i : Index) (w : Word) : PhysMem := fun g j =>
  if g = f ∧ j = i then w else m g j

def setFrame (m : PhysMem) (f : Frame) (content : Index → Word) : PhysMem := fun g =>
  if g = f then content else m g

variable (m : PhysMem) (f : Frame) (i : Index) (w : Word) (content : Index → Word)

@[simp]
theorem setWord_self : setWord m f i w f i=w := by
  simp [setWord]

@[simp]
theorem setWord_setWord (w' : Word) : setWord (setWord m f i w) f i w'=setWord m f i w' := by
  ext1 g
  ext1 j
  by_cases hpos : g=f ∧ j=i
  · simp [setWord,hpos]
  · simp [setWord,hpos]

@[simp]
theorem setWord_same : setWord m f i (m f i)=m := by
  ext1 g
  ext1 j
  by_cases hpos : g=f ∧ j=i
  · rw [hpos.1,hpos.2,setWord_self]
  · simp only [setWord,if_neg hpos]

theorem setWord_of_frame_ne {g : Frame} (h : g≠f) : setWord m f i w g=m g := by
  ext j
  simp [setWord,h]

theorem setWord_of_ne {g : Frame} {j : Index} (h : ¬ (g=f ∧ j=i)) :
    setWord m f i w g j=m g j := by
  simp only [setWord,if_neg h]

@[simp]
theorem setFrame_self : setFrame m f content f=content := by
  simp [setFrame]

theorem setFrame_of_ne {g : Frame} (h : g≠f) : setFrame m f content g=m g := by
  simp [setFrame,h]

def follow (m : PhysMem) : Frame → List Index → Option Frame
  | t, [] => some t
  | t, i :: is => if isPresent (m t i) then follow m (target (m t i)) is else none

structure Rights where
  write : Bool
  user : Bool
  noExec : Bool
deriving DecidableEq

def rights (e : Word) : Rights := ⟨isWritable e, isUser e, isNoExec e⟩

def Rights.meet (a b : Rights) : Rights :=
  ⟨a.write && b.write, a.user && b.user, a.noExec || b.noExec⟩

def Rights.full : Rights := ⟨true, true, false⟩

def walk (m : PhysMem) : Frame → List Index → Option (Frame × Rights)
  | t, [] => some (t, .full)
  | t, i :: is =>
    if isPresent (m t i) then
      (walk m (target (m t i)) is).map fun r => (r.1, (rights (m t i)).meet r.2)
    else none

variable {m}

theorem follow_append (t : Frame) (is js : List Index) :
    follow m t (is++js)=(follow m t is).bind fun u => follow m u js := by
  induction is generalizing t with
  | nil => rfl
  | cons i is ih =>
    rw [List.cons_append,follow,follow]
    split_ifs
    · exact ih _
    · rfl

theorem walk_fst (t : Frame) (is : List Index) : (walk m t is).map Prod.fst=follow m t is := by
  induction is generalizing t with
  | nil => rfl
  | cons i is ih =>
    rw [walk,follow]
    split_ifs
    · rw [Option.map_map,← ih]
      rfl
    · rfl

structure Page where
  i4 : Index
  i3 : Index
  i2 : Index
  i1 : Index
deriving DecidableEq

def Page.tables (p : Page) : List Index := [p.i4, p.i3, p.i2]

def Page.path (p : Page) : List Index := [p.i4, p.i3, p.i2, p.i1]

def pageOf (virt : Word) : Page :=
  ⟨virt.extractLsb' 39 9, virt.extractLsb' 30 9, virt.extractLsb' 21 9, virt.extractLsb' 12 9⟩

/-- A supervisor read of the `i`-th word of a page; `none` is a page fault. -/
def load (m : PhysMem) (root : Frame) (p : Page) (i : Index) : Option Word :=
  (follow m root p.path).map fun f => m f i

def writableFrame (m : PhysMem) (root : Frame) (p : Page) : Option Frame :=
  match walk m root p.path with
  | some (f, r) => if r.write then some f else none
  | none => none

def Reaches (m : PhysMem) (t : Frame) (is : List Index) (u : Frame) : Prop :=
  ∃ ρ, walk m t is = some (u, ρ) ∧ ρ.write = true

variable {t u : Frame} {is : List Index} {p : Page}

theorem reaches_nil (m : PhysMem) (t : Frame) : Reaches m t [] t := ⟨.full,rfl,rfl⟩

theorem Reaches.cons {i : Index} (hp : isPresent (m t i)=true) (hw : isWritable (m t i)=true)
    (h : Reaches m (target (m t i)) is u) : Reaches m t (i::is) u := by
  obtain ⟨ρ,hwalk,hρ⟩ := h
  exact ⟨(rights (m t i)).meet ρ,by simp [walk,hp,hwalk],by simp [Rights.meet,rights,hw,hρ]⟩

/-- An entry that leads on to `u` and allows writing. -/
structure LeadsTo (e : Word) (u : Frame) : Prop where
  present : isPresent e = true
  writable : isWritable e = true
  target : target e = u

theorem LeadsTo.reaches {f : Frame} {i : Index} (h : LeadsTo (m t i) u) (hu : Reaches m u is f) :
    Reaches m t (i::is) f :=
  .cons h.present h.writable (by rwa [h.target])

theorem Reaches.mono {m' : PhysMem} (h : Reaches m t is u)
    (hsame : ∀ f i v, LeadsTo (m f i) v → LeadsTo (m' f i) v) : Reaches m' t is u := by
  induction is generalizing t with
  | nil => exact h
  | cons i is ih =>
    obtain ⟨ρ,hwalk,hρ⟩ := h
    rw [walk] at hwalk
    split_ifs at hwalk with hp
    obtain ⟨⟨u',ρ'⟩,hwalk',heq⟩ := Option.map_eq_some_iff.mp hwalk
    obtain ⟨rfl,rfl⟩ := Prod.mk.inj heq
    rw [Rights.meet,Bool.and_eq_true] at hρ
    exact (hsame t i _ ⟨hp,hρ.1,rfl⟩).reaches (ih ⟨ρ',hwalk',hρ.2⟩)

theorem Reaches.append {v : Frame} {js : List Index} (h : Reaches m t is u)
    (h' : Reaches m u js v) : Reaches m t (is++js) v := by
  induction is generalizing t with
  | nil =>
    obtain ⟨ρ,hwalk,-⟩ := h
    rw [walk,Option.some.injEq,Prod.mk.injEq] at hwalk
    exact hwalk.1 ▸ h'
  | cons i is ih =>
    obtain ⟨ρ,hwalk,hρ⟩ := h
    rw [walk] at hwalk
    split_ifs at hwalk with hp
    obtain ⟨⟨u',ρ'⟩,hwalk',heq⟩ := Option.map_eq_some_iff.mp hwalk
    obtain ⟨rfl,rfl⟩ := Prod.mk.inj heq
    rw [Rights.meet,Bool.and_eq_true] at hρ
    exact .cons hp hρ.1 (ih ⟨ρ',hwalk',hρ.2⟩)

theorem Reaches.follow (h : Reaches m t is u) : follow m t is=some u := by
  obtain ⟨ρ,hwalk,-⟩ := h
  rw [← walk_fst,hwalk]
  rfl

theorem Reaches.load {i : Index} (h : Reaches m t p.path u) : load m t p i=some (m u i) := by
  rw [Paging.load,h.follow]
  rfl

theorem Reaches.writableFrame (h : Reaches m t p.path u) : writableFrame m t p=some u := by
  obtain ⟨ρ,hwalk,hρ⟩ := h
  rw [Paging.writableFrame,hwalk]
  exact if_pos hρ

/-- The entry of a page in the table of the last level, and 0 where there is no such table. -/
def leafEntry (m : PhysMem) (root : Frame) (p : Page) : Word :=
  match follow m root p.tables with
  | some t => m t p.i1
  | none => 0

end Hojicha.Framework.Paging
