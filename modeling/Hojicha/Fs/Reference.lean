import Hojicha.Fs.Walk

/-!
# The reference walk

What a path means, with any number of links. `vfs_lookup` differs behind a `..` that leads to a
covered directory.
-/

namespace Hojicha.Fs

open Framework

def refStep (s : Vfs) (current : Addr) (c : Name) : NextStep :=
  if (s.node current).type ≠ .dir then .fail .notdir
  else if c = ['.'] then .go current
  else if c = ['.', '.'] then
    match componentParent s current with
    | .error e => .fail e
    | .ok parent => .go (crossMount s parent)
  else
    match opLookup s current c with
    | .error e => .fail e
    | .ok child =>
      if (s.node (crossMount s child)).type = .symlink then .follow (crossMount s child)
      else .go (crossMount s child)

/-- Where the walk goes on with the target of a link that is in the directory `dir`. -/
def refStart (s : Vfs) (dir link : Addr) : Addr := walkStart s (some dir) (s.node link).target

def refTarget (s : Vfs) (link : Addr) (cs : List Name) : List Name :=
  components (s.node link).target ++ cs

inductive RefWalk (s : Vfs) : Addr → List Name → Nat → Except Status Addr → Prop
  | done {d : Addr} : RefWalk s d [] 0 (.ok d)
  | fail {d : Addr} {c : Name} {cs : List Name} {e : Status} (h : refStep s d c = .fail e) :
      RefWalk s d (c :: cs) 0 (.error e)
  | go {d next : Addr} {c : Name} {cs : List Name} {k : Nat} {r : Except Status Addr}
      (h : refStep s d c = .go next) (hw : RefWalk s next cs k r) : RefWalk s d (c :: cs) k r
  | follow {d link : Addr} {c : Name} {cs : List Name} {k : Nat} {r : Except Status Addr}
      (h : refStep s d c = .follow link)
      (hw : RefWalk s (refStart s d link) (refTarget s link cs) k r) :
      RefWalk s d (c :: cs) (k + 1) r

inductive FollowsAtLeast (s : Vfs) : Addr → List Name → Nat → Prop
  | zero {d : Addr} {cs : List Name} : FollowsAtLeast s d cs 0
  | go {d next : Addr} {c : Name} {cs : List Name} {k : Nat} (h : refStep s d c = .go next)
      (hw : FollowsAtLeast s next cs k) : FollowsAtLeast s d (c :: cs) k
  | follow {d link : Addr} {c : Name} {cs : List Name} {k : Nat}
      (h : refStep s d c = .follow link)
      (hw : FollowsAtLeast s (refStart s d link) (refTarget s link cs) k) :
      FollowsAtLeast s d (c :: cs) (k + 1)

def RefResult (s : Vfs) (start : Addr) (cs : List Name) (left : Nat) (r : Except Status Addr) :
    Prop :=
  (∃ k, k ≤ left ∧ RefWalk s start cs k r ∧ r ≠ .error .loop) ∨
    (FollowsAtLeast s start cs (left + 1) ∧ r = .error .loop)

def Reference (s : Vfs) (path : Path) (r : Except Status Addr) : Prop :=
  if path = [] then r = .error .noent
  else RefResult s (walkStart s none path) (components path) VFS_SYMLINK_MAX_DEPTH r

inductive Reach (s : Vfs) : Addr → Prop
  | root : Reach s (crossMount s s.root)
  | cwd : Reach s (crossMount s (s.cwd.getD s.root))
  | step {d next : Addr} {c : Name} (hd : Reach s d) (hc : c ≠ [] ∧ '/' ∉ c)
      (h : nextStep s d c = .go next) : Reach s next

def ParentsUncovered (s : Vfs) : Prop :=
  ∀ d p, Reach s d → (s.node d).type = .dir → componentParent s d = .ok p → crossMount s p = p

/-- On the root of a mount, the vnode refers to the mount that owns the root. -/
def RootsOwned (s : Vfs) : Prop :=
  ∀ n m, (s.node n).mount = some m → n = (s.mount m).root ∨
    (s.node (s.mount m).root).mount = some m

def TargetsShort (s : Vfs) : Prop :=
  ∀ n, (s.node n).type = .symlink →
    0 < (s.node n).target.length ∧ (s.node n).target.length < VFS_SYMLINK_TARGET_MAX

variable {s : Vfs} {d current : Addr} {c : Name} {cs : List Name} {left k : Nat}
  {r : Except Status Addr}

private theorem crossMount_idem (hs : RootsOwned s) (n : Addr) :
    crossMount s (crossMount s n)=crossMount s n := by
  cases hmount : (s.node n).mount with
  | none =>
    have hcross : crossMount s n=n := by rw [crossMount,hmount]
    rw [hcross,hcross]
  | some m =>
    by_cases hroot : n=(s.mount m).root
    · have hcross : crossMount s n=n := by
        rw [crossMount,hmount]
        exact if_pos hroot
      rw [hcross,hcross]
    · have hcross : crossMount s n=(s.mount m).root := by
        rw [crossMount,hmount]
        exact if_neg hroot
      rw [hcross,crossMount,(hs n m hmount).resolve_left hroot]
      exact if_pos rfl

/-- The walk and the reference differ behind `..` only. -/
private theorem refStep_eq (h : ∀ p, componentParent s current = .ok p → crossMount s p=p) :
    refStep s current c=nextStep s current c := by
  rewrite [refStep,nextStep]
  cases hparent : componentParent s current with
  | error e => rfl
  | ok p =>
    have hcross := h p hparent
    dsimp only
    rewrite [hcross]
    rfl

private theorem opLookup_ne_loop (name : Name) : opLookup s d name ≠ .error .loop := by
  rw [opLookup]
  split_ifs
  · simp
  · cases findChild s d name with
    | none => simp
    | some child => simp

private theorem componentParent_ne_loop : componentParent s d ≠ .error .loop := by
  rw [componentParent]
  split_ifs
  · simp
  · cases (s.node d).mount with
    | none => simp
    | some m =>
      dsimp only
      split_ifs
      · cases (s.mount m).point with
        | none => simp
        | some point =>
          dsimp only
          split_ifs
          · simp
          · simp
      · simp

private theorem refStep_ne_loop : refStep s current c ≠ .fail .loop := by
  intro h
  rw [refStep] at h
  split_ifs at h
  · exact absurd h (by simp)
  · cases hparent : componentParent s current with
    | error e =>
      rw [hparent] at h
      rw [NextStep.fail.inj h] at hparent
      exact componentParent_ne_loop hparent
    | ok p => simp [hparent] at h
  · cases hchild : opLookup s current c with
    | error e =>
      rw [hchild] at h
      rw [NextStep.fail.inj h] at hchild
      exact opLookup_ne_loop c hchild
    | ok child =>
      rw [hchild] at h
      dsimp only at h
      split_ifs at h

private theorem symlink_of_follow {link : Addr} (h : refStep s current c = .follow link) :
    (s.node link).type = .symlink := by
  rw [refStep] at h
  split_ifs at h
  · cases hparent : componentParent s current with
    | error e => simp [hparent] at h
    | ok p => simp [hparent] at h
  · cases hchild : opLookup s current c with
    | error e => simp [hchild] at h
    | ok child =>
      rw [hchild] at h
      dsimp only at h
      split_ifs at h with hlink
      rw [← NextStep.follow.inj h]
      exact hlink

private theorem refWalk_ne_loop (h : RefWalk s current cs k r) : r ≠ .error .loop := by
  induction h with
  | done => simp
  | @fail d c cs e h =>
    intro heq
    rw [Except.error.inj heq] at h
    exact refStep_ne_loop h
  | go _ _ ih => exact ih
  | follow _ _ ih => exact ih

private theorem refWalk_or_follows_of
    (hfollow : ∀ current link cs, (∃ k r, k + 1≤left ∧
      RefWalk s (refStart s current link) (refTarget s link cs) k r) ∨
      FollowsAtLeast s (refStart s current link) (refTarget s link cs) left) :
    (∃ k r, k≤left ∧ RefWalk s current cs k r) ∨ FollowsAtLeast s current cs (left + 1) := by
  induction cs generalizing current with
  | nil => exact Or.inl ⟨0,_,Nat.zero_le _,RefWalk.done⟩
  | cons c cs ih =>
    cases hstep : refStep s current c with
    | fail e => exact Or.inl ⟨0,_,Nat.zero_le _,RefWalk.fail hstep⟩
    | go next =>
      have hnext : (∃ k r, k≤left ∧ RefWalk s next cs k r) ∨
          FollowsAtLeast s next cs (left+1) := ih
      rcases hnext with ⟨k,r,hk,hw⟩ | hw
      · exact Or.inl ⟨k,r,hk,RefWalk.go hstep hw⟩
      · exact Or.inr (FollowsAtLeast.go hstep hw)
    | follow link =>
      rcases hfollow current link cs with ⟨k,r,hk,hw⟩ | hw
      · exact Or.inl ⟨k+1,r,hk,RefWalk.follow hstep hw⟩
      · exact Or.inr (FollowsAtLeast.follow hstep hw)

/-- With any number of links allowed, the walk ends within them or has to follow one more. -/
private theorem refWalk_or_follows (s : Vfs) (left : Nat) (current : Addr) (cs : List Name) :
    (∃ k r, k≤left ∧ RefWalk s current cs k r) ∨ FollowsAtLeast s current cs (left + 1) := by
  induction left generalizing current cs with
  | zero => exact refWalk_or_follows_of fun _ _ _ => Or.inr FollowsAtLeast.zero
  | succ left ih =>
    apply refWalk_or_follows_of
    intro current link cs
    rcases ih (refStart s current link) (refTarget s link cs) with ⟨k,r,hk,hw⟩ | hw
    · exact Or.inl ⟨k,r,Nat.succ_le_succ hk,hw⟩
    · exact Or.inr hw

section Agreement

variable (hroots : RootsOwned s) (htargets : TargetsShort s) (hup : ParentsUncovered s)

include hup in
private theorem refStep_of_reach (h : Reach s current) (c : Name) :
    refStep s current c=nextStep s current c := by
  by_cases hdir : (s.node current).type = .dir
  · apply refStep_eq
    intro p hp
    exact hup current p h hdir hp
  · rw [refStep,nextStep,if_pos hdir,if_pos hdir]

include hroots hup in
private theorem crossMount_reach (h : Reach s current) : crossMount s current=current := by
  induction h with
  | root => exact crossMount_idem hroots _
  | cwd => exact crossMount_idem hroots _
  | @step d next c hd _ h ih =>
    rcases nextStep_go h with ⟨_,heq⟩ | ⟨_,hparent⟩ | ⟨_,child,_,heq⟩
    · rw [heq]
      exact ih
    · exact hup d next hd (dir_of_nextStep c (by simp [h])) hparent
    · rw [heq]
      exact crossMount_idem hroots _

include hroots hup in
private theorem reach_refStart (h : Reach s current) (link : Addr) :
    Reach s (refStart s current link) := by
  rw [refStart,walkStart]
  split_ifs
  · exact Reach.root
  · rw [Option.getD_some,crossMount_reach hroots hup h]
    exact h

include htargets in
private theorem followLink_eq {link : Addr} (h : (s.node link).type = .symlink) (base : Addr)
    (cs : List Name) :
    followLink s (left + 1) base link cs =
      resolve s left (refStart s base link) (refTarget s link cs) := by
  obtain ⟨hpos,hlt⟩ := htargets link h
  have hclone : cloneSymlinkTarget s link = .ok (s.node link).target := by
    rw [cloneSymlinkTarget,List.take_of_length_le hlt.le]
    exact if_neg (by omega)
  rw [followLink_succ,hclone]
  rfl

include hroots htargets hup in
private theorem resolve_of_refWalk (h : RefWalk s current cs k r) (hreach : Reach s current)
    (hcs : ∀ c∈cs, c≠[] ∧ '/'∉c) (hk : k≤left) : resolve s left current cs=r := by
  induction h generalizing left with
  | done => rfl
  | @fail d c cs e h =>
    rw [refStep_of_reach hup hreach] at h
    rw [resolve_cons,h]
  | @go d next c cs k r h _ ih =>
    rw [refStep_of_reach hup hreach] at h
    rw [resolve_cons,h]
    exact ih (Reach.step hreach (hcs c List.mem_cons_self) h)
      (fun v hv => hcs v (List.mem_cons_of_mem c hv)) hk
  | @follow d link c cs k r h _ ih =>
    have hlink := symlink_of_follow h
    obtain ⟨left,rfl⟩ : ∃ l, left=l+1 := ⟨left-1,by omega⟩
    rw [refStep_of_reach hup hreach] at h
    rw [resolve_cons,h]
    dsimp only
    rw [followLink_eq htargets hlink]
    apply ih (reach_refStart hroots hup hreach link) _ (by omega)
    intro v hv
    rcases List.mem_append.mp hv with hmem | hmem
    · exact mem_fields hmem
    · exact hcs v (List.mem_cons_of_mem c hmem)

include hroots htargets hup in
private theorem resolve_of_followsAtLeast (h : FollowsAtLeast s current cs k)
    (hreach : Reach s current) (hcs : ∀ c∈cs, c≠[] ∧ '/'∉c) (hk : k=left + 1) :
    resolve s left current cs = .error .loop := by
  induction h generalizing left with
  | zero => omega
  | @go d next c cs k h _ ih =>
    rw [refStep_of_reach hup hreach] at h
    rw [resolve_cons,h]
    exact ih (Reach.step hreach (hcs c List.mem_cons_self) h)
      (fun v hv => hcs v (List.mem_cons_of_mem c hv)) hk
  | @follow d link c cs k h hw ih =>
    have hlink := symlink_of_follow h
    rw [refStep_of_reach hup hreach] at h
    rw [resolve_cons,h]
    dsimp only
    cases left with
    | zero => rfl
    | succ left =>
      rw [followLink_eq htargets hlink]
      apply ih (reach_refStart hroots hup hreach link) _ (by omega)
      intro v hv
      rcases List.mem_append.mp hv with hmem | hmem
      · exact mem_fields hmem
      · exact hcs v (List.mem_cons_of_mem c hmem)

include hroots htargets hup in
private theorem resolve_iff_refResult (hreach : Reach s current) (hcs : ∀ c∈cs, c≠[] ∧ '/'∉c) :
    resolve s left current cs=r ↔ RefResult s current cs left r := by
  constructor
  · intro h
    rcases refWalk_or_follows s left current cs with ⟨k,r',hk,hw⟩ | hw
    · rw [resolve_of_refWalk hroots htargets hup hw hreach hcs hk] at h
      rw [← h]
      exact Or.inl ⟨k,hk,hw,refWalk_ne_loop hw⟩
    · rw [resolve_of_followsAtLeast hroots htargets hup hw hreach hcs rfl] at h
      exact Or.inr ⟨hw,h.symm⟩
  · rintro (⟨k,hk,hw,_⟩ | ⟨hw,hr⟩)
    · exact resolve_of_refWalk hroots htargets hup hw hreach hcs hk
    · rw [hr]
      exact resolve_of_followsAtLeast hroots htargets hup hw hreach hcs rfl

private theorem reach_walkStart (s : Vfs) (path : Path) : Reach s (walkStart s none path) := by
  rw [walkStart]
  split_ifs
  · exact Reach.root
  · exact Reach.cwd

end Agreement

private theorem exists_path (h : Reach s d) (hdir : (s.node d).type = .dir) :
    ∃ path, vfsLookup s path = .ok d := by
  induction h with
  | root =>
    refine ⟨['/'],?_⟩
    rw [vfsLookup_eq s (by simp)]
    rfl
  | cwd =>
    refine ⟨['.'],?_⟩
    rw [vfsLookup_eq s (by simp)]
    exact resolve_dot hdir
  | @step d next c hd hc h ih =>
    obtain ⟨path,hpath⟩ := ih (dir_of_nextStep c (by simp [h]))
    refine ⟨path ++ '/'::c,?_⟩
    apply vfsLookup_append hpath
    intro left
    have hcomp : components c=[c] := fields_self hc.1 hc.2
    rw [hcomp,resolve_cons,h]
    rfl

private theorem refWalk_append {next : Addr} (h : RefWalk s current cs k r) (hr : r = .ok d)
    (hstep : refStep s d c = .go next) : RefWalk s current (cs++[c]) k (.ok next) := by
  induction h with
  | done =>
    rw [Except.ok.injEq] at hr
    subst hr
    exact RefWalk.go hstep RefWalk.done
  | fail h => exact absurd hr (by simp)
  | go h _ ih => exact RefWalk.go h (ih hr)
  | follow h _ ih =>
    have hw := ih hr
    rw [refTarget,List.append_assoc] at hw
    exact RefWalk.follow h hw

private theorem crossMount_parent_of_agree
    (hagree : ∀ path r, vfsLookup s path=r ↔ Reference s path r) : ParentsUncovered s := by
  intro d p hreach hdir hparent
  obtain ⟨path,hpath⟩ := exists_path hreach hdir
  have hne := path_ne_nil hpath
  have hcode : vfsLookup s (path ++ '/'::['.','.']) = .ok p := by
    apply vfsLookup_append hpath
    intro left
    have hcomp : components ['.','.']=[['.','.']] := rfl
    rw [hcomp,resolve_dotdot hdir,hparent]
    rfl
  have hstep : refStep s d ['.','.'] = .go (crossMount s p) := by
    rw [refStep,if_neg (not_not.mpr hdir),if_neg (by simp),if_pos rfl,hparent]
  have href : Reference s (path ++ '/'::['.','.']) (.ok (crossMount s p)) := by
    have hres := (hagree path _).mp hpath
    rw [Reference,if_neg hne] at hres
    have hhead : (path ++ '/'::['.','.']).head? = path.head? :=
      List.head?_append_of_ne_nil _ hne
    rw [Reference,if_neg (by simp),walkStart,hhead,← walkStart,components,fields_append,
      ← components]
    obtain ⟨k,hk,hw,_⟩ := hres.resolve_right (by simp)
    exact Or.inl ⟨k,hk,refWalk_append hw rfl hstep,by simp⟩
  have hsame := (hagree _ _).mpr href
  rw [hcode,Except.ok.injEq] at hsame
  exact hsame.symm

/-- `vfs_lookup` returns what the reference walk returns, for every path, if and only if no `..` on
the way leads to a covered directory. -/
theorem vfs_lookup_eq_reference_iff (s : Vfs) (hroots : RootsOwned s) (htargets : TargetsShort s) :
    (∀ path r, vfsLookup s path = r ↔ Reference s path r) ↔ ParentsUncovered s := by
  constructor
  · exact crossMount_parent_of_agree
  · intro hup path r
    rw [Reference]
    split_ifs with hnil
    · rw [hnil]
      exact eq_comm
    · rw [vfsLookup_eq s hnil]
      exact resolve_iff_refResult hroots htargets hup (reach_walkStart s path)
        fun c hc => mem_fields hc

private theorem smallTree_mount (n : Addr) :
    (smallTree.node n).mount=if n=0 then some 0 else none := by
  rcases n with _ | _ | _ | _ | _ | _ | n <;> rfl

private theorem smallTree_symlink {n : Addr} (h : (smallTree.node n).type = .symlink) : n=2 := by
  rcases n with _ | _ | _ | _ | _ | _ | n
  case succ.succ.zero => rfl
  case succ.succ.succ.succ.zero => exact absurd (show NodeType.file = .symlink from h) (by decide)
  all_goals exact absurd (show NodeType.dir = .symlink from h) (by decide)

private theorem crossMount_smallTree (n : Addr) : crossMount smallTree n=n := by
  rw [crossMount,smallTree_mount]
  by_cases hn : n=0
  · rw [if_pos hn]
    exact if_pos hn
  · rw [if_neg hn]

theorem reference_of_link :
    vfsLookup smallTree ['l'] = .ok 1 ∧ Reference smallTree ['l'] (.ok 1) := by
  have hroots : RootsOwned smallTree := by
    intro n m hn
    rw [smallTree_mount] at hn
    split_ifs at hn with hzero
    rw [← Option.some.inj hn]
    exact Or.inl hzero
  have htargets : TargetsShort smallTree := by
    intro n hn
    rw [smallTree_symlink hn]
    decide
  have hlookup : vfsLookup smallTree ['l'] = .ok 1 := by
    rw [vfsLookup_eq _ (by simp)]
    decide
  exact ⟨hlookup,((vfs_lookup_eq_reference_iff smallTree hroots htargets).mpr
    (fun _ p _ _ _ => crossMount_smallTree p) ['l'] (.ok 1)).mp hlookup⟩

def coveredTree : Vfs := { (vfsMount smallTree 1 1 none).2 with cwd := some 3 }

theorem dotdot_does_not_cross :
    vfsLookup coveredTree ['.', '.'] = .ok 1 ∧ Reference coveredTree ['.', '.'] (.ok 5) := by
  constructor
  · rw [vfsLookup_eq _ (by simp)]
    decide
  · rw [Reference,if_neg (by simp)]
    have hstep : refStep coveredTree 3 ['.','.'] = .go 5 := by decide
    exact Or.inl ⟨0,Nat.zero_le _,RefWalk.go hstep RefWalk.done,by simp⟩

end Hojicha.Fs
