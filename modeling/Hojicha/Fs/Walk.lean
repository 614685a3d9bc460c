import Hojicha.Framework.Fields
import Hojicha.Fs.Vfs

/-!
# Walks over components

A path is the list of its components: slashes only separate them. A link is replaced by the
components of its target.
-/

namespace Hojicha.Fs

open Framework

def components (path : Path) : List Name := fields '/' path

def walkNames (s : Vfs) (follow : Addr → Addr → List Name → Except Status Addr)
    (stopAtParent : Bool) : Addr → List Name → Except Status LookupResult
  | current, [] => .ok ⟨current, none⟩
  | current, c :: cs =>
    if (s.node current).type ≠ .dir then .error .notdir
    else if stopAtParent ∧ cs = [] then .ok ⟨current, some c⟩
    else if c = ['.'] then walkNames s follow stopAtParent current cs
    else if c = ['.', '.'] then
      match componentParent s current with
      | .error e => .error e
      | .ok parent => walkNames s follow stopAtParent parent cs
    else
      match opLookup s current c with
      | .error e => .error e
      | .ok child =>
        if (s.node (crossMount s child)).type = .symlink then
          match follow current (crossMount s child) cs with
          | .error e => .error e
          | .ok resolved => .ok ⟨resolved, none⟩
        else walkNames s follow stopAtParent (crossMount s child) cs

/-- A link whose target and the components after it are walked with `left` more links. -/
def followLink (s : Vfs) : Nat → Addr → Addr → List Name → Except Status Addr
  | 0, _, _, _ => .error .loop
  | left + 1, base, link, cs =>
    match cloneSymlinkTarget s link with
    | .error e => .error e
    | .ok target =>
      (walkNames s (followLink s left) false (walkStart s (some base) target)
        (components target ++ cs)).map (·.vnode)

theorem components_skipSlashes (path : Path) : components (skipSlashes path)=components path :=
  fields_dropWhile path

def AtComponent (cursor : Path) : Prop := cursor.head? ≠ some '/'

theorem atComponent_skipSlashes (path : Path) : AtComponent (skipSlashes path) := by
  intro h
  have hne : skipSlashes path≠[] := by
    intro hnil
    rw [hnil] at h
    exact absurd h (by simp)
  have hfalse := List.head_dropWhile_not (· == '/') hne
  rw [List.head?_eq_some_head hne,Option.some.injEq] at h
  exact absurd (hfalse.symm.trans (beq_iff_eq.mpr h)) (by simp)

private theorem atComponent_afterComponent (cursor : Path) : AtComponent (afterComponent cursor) :=
  atComponent_skipSlashes _

private theorem components_cons {cursor : Path} (hne : cursor≠[]) (hat : AtComponent cursor) :
    components cursor=firstComponent cursor::components (afterComponent cursor) := by
  rw [afterComponent,components_skipSlashes]
  exact fields_word cursor hne hat

theorem components_eq_nil {cursor : Path} (hat : AtComponent cursor) :
    components cursor=[] ↔ cursor=[] := by
  constructor
  · intro h
    by_contra hne
    rw [components_cons hne hat] at h
    exact absurd h (by simp)
  · intro h
    rw [h]
    rfl

private theorem components_join (target remaining : Path) :
    components (joinSymlinkPath target remaining)=components target++components remaining := by
  rw [joinSymlinkPath]
  split_ifs with h
  · exact fields_append target remaining
  · have hnil : remaining=[] := List.length_eq_zero_iff.mp (Nat.eq_zero_of_not_pos h)
    rw [hnil]
    exact (List.append_nil _).symm

private theorem walkLoop_eq (s : Vfs) {follow : Addr → Addr → Path → Except Status Addr}
    {follow' : Addr → Addr → List Name → Except Status Addr}
    (hfollow : ∀ base link p, AtComponent p → follow base link p=follow' base link (components p))
    (stopAtParent : Bool) (current : Addr) (cursor : Path) (hat : AtComponent cursor) :
    walkLoop s follow stopAtParent current cursor =
      walkNames s follow' stopAtParent current (components cursor) := by
  induction hn : cursor.length using Nat.strong_induction_on generalizing current cursor with
  | _ n ih =>
  have ih' : cursor≠[] → ∀ current', walkLoop s follow stopAtParent current'
      (afterComponent cursor) =
      walkNames s follow' stopAtParent current' (components (afterComponent cursor)) := by
    intro hne current'
    exact ih _ (hn ▸ length_afterComponent hne) current' _ (atComponent_afterComponent cursor) rfl
  rw [walkLoop]
  by_cases hne : cursor=[]
  · rw [dif_pos hne,hne]
    rfl
  rw [dif_neg hne,components_cons hne hat,walkNames]
  by_cases hdir : (s.node current).type ≠ .dir
  · rw [if_pos hdir,if_pos hdir]
  have hlast := components_eq_nil (atComponent_afterComponent cursor)
  rw [if_neg hdir,if_neg hdir]
  by_cases hstop : stopAtParent=true ∧ afterComponent cursor=[]
  · rw [if_pos hstop,if_pos ⟨hstop.1,hlast.mpr hstop.2⟩]
  · have hstop' : ¬(stopAtParent=true ∧ components (afterComponent cursor)=[]) := by
      intro h
      exact hstop ⟨h.1,hlast.mp h.2⟩
    rw [if_neg hstop,if_neg hstop']
    apply Eq.trans
    · simp only [ih' hne,hfollow _ _ _ (atComponent_afterComponent cursor)]
      rfl
    · rfl

private theorem target_ne_nil {s : Vfs} {link : Addr} {target : Path}
    (h : cloneSymlinkTarget s link = .ok target) : target≠[] := by
  rw [cloneSymlinkTarget] at h
  split_ifs at h with hlen
  rw [Except.ok.injEq] at h
  rw [← h]
  intro hnil
  exact hlen (Or.inl (by rw [hnil]; rfl))

private theorem walkStart_join {target : Path} (h : target≠[]) (s : Vfs) (base : Option Addr)
    (remaining : Path) :
    walkStart s base (joinSymlinkPath target remaining)=walkStart s base target := by
  have hhead : (joinSymlinkPath target remaining).head? = target.head? := by
    rw [joinSymlinkPath]
    split_ifs
    · exact List.head?_append_of_ne_nil _ h
    · rfl
  rw [walkStart,walkStart,hhead]

theorem resolveSymlinkComponent_eq (s : Vfs) (left : Nat) (base link : Addr) (p : Path)
    (hat : AtComponent p) :
    resolveSymlinkComponent s left base link p=followLink s left base link (components p) := by
  induction left generalizing base link p with
  | zero => rfl
  | succ left ih =>
    rw [resolveSymlinkComponent,followLink]
    cases htarget : cloneSymlinkTarget s link with
    | error e => rfl
    | ok target =>
      have hne := target_ne_nil htarget
      have hjoined : joinSymlinkPath target p≠[] := by
        rw [joinSymlinkPath]
        split_ifs
        · simp
        · exact hne
      dsimp only
      rw [if_neg hjoined,walkStart_join hne,walkLoop_eq s ih _ _ _ (atComponent_skipSlashes _),
        components_skipSlashes,components_join]
      cases walkNames s (followLink s left) false (walkStart s (some base) target)
        (components target++components p) with
      | error e => rfl
      | ok result => rfl

theorem walkPath_eq (s : Vfs) (base : Option Addr) {path : Path} (hne : path≠[])
    (stopAtParent : Bool) :
    walkPath s base path stopAtParent =
      walkNames s (followLink s VFS_SYMLINK_MAX_DEPTH) stopAtParent (walkStart s base path)
        (components path) := by
  rw [walkPath,if_neg hne,← components_skipSlashes]
  apply walkLoop_eq s _ stopAtParent _ _ (atComponent_skipSlashes path)
  intro base link p hat
  exact resolveSymlinkComponent_eq s VFS_SYMLINK_MAX_DEPTH base link p hat

inductive NextStep
  | fail (e : Status)
  | go (next : Addr)
  | follow (link : Addr)
deriving DecidableEq

def nextStep (s : Vfs) (current : Addr) (c : Name) : NextStep :=
  if (s.node current).type ≠ .dir then .fail .notdir
  else if c = ['.'] then .go current
  else if c = ['.', '.'] then
    match componentParent s current with
    | .error e => .fail e
    | .ok parent => .go parent
  else
    match opLookup s current c with
    | .error e => .fail e
    | .ok child =>
      if (s.node (crossMount s child)).type = .symlink then .follow (crossMount s child)
      else .go (crossMount s child)

variable {s : Vfs} {left : Nat} {current d : Addr} {c : Name} {cs : List Name} {P : Addr → Prop}
  {r : Except Status Addr}

theorem nextStep_dot (hdir : (s.node current).type = .dir) :
    nextStep s current ['.'] = .go current := by
  rw [nextStep,if_neg (not_not.mpr hdir),if_pos rfl]

theorem nextStep_dotdot (hdir : (s.node current).type = .dir) :
    nextStep s current ['.', '.'] =
      match componentParent s current with
      | .error e => .fail e
      | .ok parent => .go parent := by
  rw [nextStep,if_neg (not_not.mpr hdir),if_neg (by simp),if_pos rfl]

def Plain (c : Name) : Prop := c ≠ ['.'] ∧ c ≠ ['.', '.']

instance (c : Name) : Decidable (Plain c) := inferInstanceAs (Decidable (_ ∧ _))

theorem nextStep_plain (hdir : (s.node current).type = .dir) (hc : Plain c) :
    nextStep s current c =
      match opLookup s current c with
      | .error e => .fail e
      | .ok child =>
        if (s.node (crossMount s child)).type = .symlink then .follow (crossMount s child)
        else .go (crossMount s child) := by
  rw [nextStep,if_neg (not_not.mpr hdir),if_neg hc.1,if_neg hc.2]

theorem dir_of_nextStep (c : Name) (h : nextStep s current c ≠ .fail .notdir) :
    (s.node current).type = .dir := by
  by_contra hdir
  exact h (by rw [nextStep,if_pos hdir])

theorem nextStep_go {next : Addr} (h : nextStep s current c = .go next) :
    (c=['.'] ∧ next=current) ∨ (c=['.', '.'] ∧ componentParent s current = .ok next) ∨
      (Plain c ∧ ∃ child, opLookup s current c = .ok child ∧ next=crossMount s child) := by
  have hdir : (s.node current).type = .dir := dir_of_nextStep c (by simp [h])
  by_cases hdot : c=['.']
  · subst hdot
    rw [nextStep_dot hdir,NextStep.go.injEq] at h
    exact Or.inl ⟨rfl,h.symm⟩
  by_cases hdotdot : c=['.','.']
  · subst hdotdot
    rw [nextStep_dotdot hdir] at h
    cases hparent : componentParent s current with
    | error e => simp [hparent] at h
    | ok parent =>
      rw [hparent,NextStep.go.injEq] at h
      exact Or.inr (Or.inl ⟨rfl,by rw [h]⟩)
  rw [nextStep_plain hdir ⟨hdot,hdotdot⟩] at h
  cases hchild : opLookup s current c with
  | error e => simp [hchild] at h
  | ok child =>
    rw [hchild] at h
    dsimp only at h
    split_ifs at h with hlink
    rw [NextStep.go.injEq] at h
    exact Or.inr (Or.inr ⟨⟨hdot,hdotdot⟩,child,rfl,h.symm⟩)

theorem walkNames_cons {follow : Addr → Addr → List Name → Except Status Addr}
    {stopAtParent : Bool} (hstop : ¬(stopAtParent=true ∧ cs=[])) :
    walkNames s follow stopAtParent current (c::cs) =
      match nextStep s current c with
      | .fail e => .error e
      | .go next => walkNames s follow stopAtParent next cs
      | .follow link => (follow current link cs).map (⟨·, none⟩) := by
  rw [walkNames,nextStep,if_neg hstop]
  by_cases hdir : (s.node current).type = .dir
  swap
  · rw [if_pos hdir,if_pos hdir]
  rw [if_neg (not_not.mpr hdir),if_neg (not_not.mpr hdir)]
  by_cases hdot : c=['.']
  · rw [if_pos hdot,if_pos hdot]
  rw [if_neg hdot,if_neg hdot]
  by_cases hdotdot : c=['.','.']
  · rw [if_pos hdotdot,if_pos hdotdot]
    cases componentParent s current with
    | error e => rfl
    | ok parent => rfl
  rw [if_neg hdotdot,if_neg hdotdot]
  cases opLookup s current c with
  | error e => rfl
  | ok child =>
    by_cases hlink : (s.node (crossMount s child)).type = .symlink
    · simp only [if_pos hlink]
      cases follow current (crossMount s child) cs with
      | error e => rfl
      | ok resolved => rfl
    · simp only [if_neg hlink]

def resolve (s : Vfs) (left : Nat) (current : Addr) (cs : List Name) : Except Status Addr :=
  (walkNames s (followLink s left) false current cs).map (·.vnode)

@[simp] theorem resolve_nil : resolve s left current [] = .ok current := rfl

theorem resolve_cons (s : Vfs) (left : Nat) (current : Addr) (c : Name) (cs : List Name) :
    resolve s left current (c::cs) =
      match nextStep s current c with
      | .fail e => .error e
      | .go next => resolve s left next cs
      | .follow link => followLink s left current link cs := by
  rw [resolve,walkNames_cons (by simp)]
  cases nextStep s current c with
  | fail e => rfl
  | go next => rfl
  | follow link =>
    dsimp only
    cases followLink s left current link cs with
    | error e => rfl
    | ok resolved => rfl

theorem followLink_succ (base link : Addr) :
    followLink s (left + 1) base link cs=(cloneSymlinkTarget s link).bind fun target =>
      resolve s left (walkStart s (some base) target) (components target++cs) := by
  rw [followLink]
  cases cloneSymlinkTarget s link with
  | error e => rfl
  | ok target => rfl

theorem resolve_notdir (hdir : (s.node current).type ≠ .dir) :
    resolve s left current (c::cs) = .error .notdir := by
  rw [resolve_cons,nextStep,if_pos hdir]

section

variable (hdir : (s.node current).type = .dir)
include hdir

theorem resolve_dot : resolve s left current (['.']::cs)=resolve s left current cs := by
  rw [resolve_cons,nextStep_dot hdir]

theorem resolve_dotdot : resolve s left current (['.', '.']::cs) =
      (componentParent s current).bind fun parent => resolve s left parent cs := by
  rw [resolve_cons,nextStep_dotdot hdir]
  cases componentParent s current with
  | error e => rfl
  | ok parent => rfl

theorem resolve_plain (hc : Plain c) :
    resolve s left current (c::cs)=(opLookup s current c).bind fun child =>
      if (s.node (crossMount s child)).type = .symlink then
        followLink s left current (crossMount s child) cs
      else resolve s left (crossMount s child) cs := by
  rw [resolve_cons,nextStep_plain hdir hc]
  cases opLookup s current c with
  | error e => rfl
  | ok child =>
    by_cases hlink : (s.node (crossMount s child)).type = .symlink
    · simp only [Except.bind,if_pos hlink]
    · simp only [Except.bind,if_neg hlink]

end

section

variable (hgo : ∀ d c next, c ≠ [] → '/' ∉ c → P d → nextStep s d c = .go next → P next)
include hgo

private theorem resolve_invariant_of_follow
    (hfollow : ∀ base link cs, P base → (s.node base).type = .dir →
      (∀ c∈cs, c≠[] ∧ '/'∉c) → followLink s left base link cs = .ok d → P d)
    (hcs : ∀ c∈cs, c≠[] ∧ '/'∉c) (hcurrent : P current)
    (h : resolve s left current cs = .ok d) : P d := by
  induction cs generalizing current with
  | nil =>
    rw [resolve_nil,Except.ok.injEq] at h
    rw [← h]
    exact hcurrent
  | cons c cs ih =>
    have hrest : ∀ c∈cs, c≠[] ∧ '/'∉c := fun v hv => hcs v (List.mem_cons_of_mem c hv)
    have hc := hcs c List.mem_cons_self
    rw [resolve_cons] at h
    cases hstep : nextStep s current c with
    | fail e =>
      rw [hstep] at h
      cases h
    | go next =>
      rw [hstep] at h
      exact ih hrest (hgo current c next hc.1 hc.2 hcurrent hstep) h
    | follow link =>
      rw [hstep] at h
      exact hfollow current link cs hcurrent (dir_of_nextStep c (by simp [hstep])) hrest h

section

variable
    (hstart : ∀ base target, P base → (s.node base).type = .dir → P (walkStart s (some base) target))
include hstart

private theorem followLink_invariant (base link : Addr) (cs : List Name)
    (hbase : P base) (hdir : (s.node base).type = .dir) (hcs : ∀ c∈cs, c≠[] ∧ '/'∉c)
    (h : followLink s left base link cs = .ok d) : P d := by
  induction left generalizing base link cs with
  | zero => exact absurd h (by simp [followLink])
  | succ left ih =>
    rw [followLink_succ] at h
    cases htarget : cloneSymlinkTarget s link with
    | error e =>
      rw [htarget] at h
      cases h
    | ok target =>
      rw [htarget] at h
      apply resolve_invariant_of_follow hgo ih _ (hstart base target hbase hdir) h
      intro c hc
      rcases List.mem_append.mp hc with hmem | hmem
      · exact mem_fields hmem
      · exact hcs c hmem

/-- What holds where a walk starts and is kept by each step holds where the walk ends. -/
theorem resolve_invariant (hcs : ∀ c∈cs, c≠[] ∧ '/'∉c)
    (hcurrent : P current) (h : resolve s left current cs = .ok d) : P d :=
  resolve_invariant_of_follow hgo (followLink_invariant hgo hstart) hcs hcurrent h

end

end

/-- A walk that ends somewhere goes on with components that do not depend on the links left, if the
same holds for the links on its way. -/
private theorem resolve_append_of_follow {rest : List Name}
    (hrest : ∀ l, resolve s l d rest=r)
    (hfollow : ∀ base link cs, followLink s left base link cs = .ok d →
      followLink s left base link (cs++rest)=r)
    (h : resolve s left current cs = .ok d) : resolve s left current (cs++rest)=r := by
  induction cs generalizing current with
  | nil =>
    rw [resolve_nil,Except.ok.injEq] at h
    rw [h]
    exact hrest left
  | cons c cs ih =>
    rw [resolve_cons] at h
    rw [List.cons_append,resolve_cons]
    cases hstep : nextStep s current c with
    | fail e =>
      rw [hstep] at h
      exact absurd h (by simp)
    | go next =>
      rw [hstep] at h
      exact ih h
    | follow link =>
      rw [hstep] at h
      exact hfollow current link cs h

private theorem followLink_append {rest : List Name}
    (hrest : ∀ l, resolve s l d rest=r) (base link : Addr)
    (h : followLink s left base link cs = .ok d) : followLink s left base link (cs++rest)=r := by
  induction left generalizing base link cs with
  | zero => exact absurd h (by simp [followLink])
  | succ left ih =>
    rw [followLink_succ] at h ⊢
    cases htarget : cloneSymlinkTarget s link with
    | error e =>
      rw [htarget] at h
      exact absurd h (by simp [Except.bind])
    | ok target =>
      rw [htarget] at h
      simp only [Except.bind] at h ⊢
      rw [← List.append_assoc]
      exact resolve_append_of_follow hrest (fun base link cs h => ih base link h) h

theorem resolve_append_of_ok {rest : List Name}
    (h : resolve s left current cs = .ok d) (hrest : ∀ l, resolve s l d rest=r) :
    resolve s left current (cs++rest)=r :=
  resolve_append_of_follow hrest (fun base link _ h => followLink_append hrest base link h) h

theorem vfsLookup_eq (s : Vfs) {path : Path} (hne : path≠[]) :
    vfsLookup s path =
      resolve s VFS_SYMLINK_MAX_DEPTH (walkStart s none path) (components path) := by
  rw [vfsLookup,vfsLookupAt,walkPath_eq s none hne,resolve]

theorem path_ne_nil {p : Path} (h : vfsLookup s p = .ok d) : p≠[] := by
  intro hnil
  rw [hnil] at h
  exact absurd h (by simp [vfsLookup,vfsLookupAt,walkPath,Except.map])

theorem vfsLookup_append {p : Path} (h : vfsLookup s p = .ok d) {rest : Path}
    (hrest : ∀ left, resolve s left d (components rest)=r) :
    vfsLookup s (p ++ '/'::rest)=r := by
  have hne := path_ne_nil h
  have hhead : (p ++ '/'::rest).head? = p.head? := List.head?_append_of_ne_nil _ hne
  rw [vfsLookup_eq s hne] at h
  rw [vfsLookup_eq s (by simp),walkStart,hhead,← walkStart,components,fields_append,
    ← components,← components]
  exact resolve_append_of_ok h hrest

private theorem walkPath_congr {p q : Path} (base : Option Addr) (stopAtParent : Bool)
    (habs : p.head? = some '/' ↔ q.head? = some '/') (hcomp : components p=components q) :
    walkPath s base p stopAtParent=walkPath s base q stopAtParent := by
  -- a path without components that is not empty is absolute
  have hnil {p q : Path} (habs : p.head? = some '/' ↔ q.head? = some '/')
      (hcomp : components p=components q) (hp : p=[]) : q=[] := by
    subst hp
    cases q with
    | nil => rfl
    | cons c q =>
      have hc : c = '/' := eq_sep_of_fields_eq_nil hcomp.symm c List.mem_cons_self
      exact absurd (habs.mpr (by rw [hc]; rfl)) (by simp)
  by_cases hp : p=[]
  · rw [hp,hnil habs hcomp hp]
  · have hq : q≠[] := fun hq => hp (hnil habs.symm hcomp.symm hq)
    rw [walkPath_eq s base hp,walkPath_eq s base hq,hcomp,walkStart,walkStart,if_congr habs rfl rfl]

/-- Only the components of a path matter, and whether it is absolute. -/
theorem lookup_depends_on_components (s : Vfs) {p q : Path}
    (habs : p.head? = some '/' ↔ q.head? = some '/') (hcomp : components p = components q) :
    vfsLookup s p = vfsLookup s q ∧ vfsLookupParent s p = vfsLookupParent s q :=
  ⟨congrArg (·.map (·.vnode)) (walkPath_congr none false habs hcomp),
    walkPath_congr none true habs hcomp⟩

theorem lookup_depends_on_components_slashes :
    vfsLookup smallTree ['/', 'l', '/', '/', 'e', '/'] = vfsLookup smallTree ['/', 'l', '/', 'e'] ∧
      vfsLookupParent smallTree ['/', 'l', '/', '/', 'e', '/'] =
        vfsLookupParent smallTree ['/', 'l', '/', 'e'] :=
  lookup_depends_on_components smallTree (by decide) (by decide)

end Hojicha.Fs
