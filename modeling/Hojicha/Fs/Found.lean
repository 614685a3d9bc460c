import Hojicha.Fs.Lifetimes

/-! # What lookups find -/

namespace Hojicha.Fs

open Framework

variable {roots : Set Addr} {mounts : Addr → Nat} {s : Vfs} {σ : Session} {d n : Addr} {path : Path}
  {op : TreeOp}

structure Walkable (roots : Set Addr) (s : Vfs) : Prop extends Shape roots s where
  top : s.root ∈ roots
  mountRoot : ∀ n m, s.live n = true → (s.node n).mount = some m → (s.mount m).root ∈ roots
  point : ∀ n m p, s.live n = true → (s.node n).mount = some m → (s.mount m).point = some p →
    s.live p = true ∧ (s.node p).type = .dir
  cwd : ∀ d, s.cwd = some d → s.live d = true ∧ (s.node d).type = .dir

structure Found (s : Vfs) (n : Addr) : Prop where
  live : s.live n = true
  named : (s.node n).type ≠ .dir → (entries s n).Nonempty

private theorem found_dir (h : s.live n=true ∧ (s.node n).type = .dir) : Found s n :=
  ⟨h.1,fun htype => absurd h.2 htype⟩

section

variable (h : Walkable roots s)
include h

theorem Walkable.found_root (hn : n∈roots) : Found s n := by
  have hroot := h.root n hn
  exact found_dir ⟨hroot.1,hroot.2.1⟩

theorem Walkable.found_crossMount (hn : Found s n) : Found s (crossMount s n) := by
  rw [crossMount]
  cases hmount : (s.node n).mount with
  | none => exact hn
  | some m =>
    dsimp only
    split_ifs
    · exact hn
    · exact h.found_root (h.mountRoot n m hn.live hmount)

private theorem Walkable.found_opParent
    (hn : s.live n=true ∧ (s.node n).type = .dir) : Found s (opParent s n) := by
  rw [opParent]
  cases hparent : (s.node n).parent with
  | none => exact found_dir hn
  | some d =>
    have hd := h.parent n d hn.1 hparent
    apply found_dir ⟨hd.1,_⟩
    by_contra hleaf
    rw [h.leaf d hd.1 hleaf] at hd
    exact List.not_mem_nil hd.2

private theorem Walkable.found_componentParent
    (hd : s.live d=true ∧ (s.node d).type = .dir) (hn : componentParent s d = .ok n) :
    Found s n := by
  rw [componentParent] at hn
  split_ifs at hn
  cases hmount : (s.node d).mount with
  | none =>
    rw [hmount] at hn
    cases hn
    exact h.found_opParent hd
  | some m =>
    rw [hmount] at hn
    dsimp only at hn
    split_ifs at hn
    · cases hpoint : (s.mount m).point with
      | none =>
        rw [hpoint] at hn
        cases hn
      | some point =>
        have hp := h.point d m point hd.1 hmount hpoint
        rw [hpoint] at hn
        dsimp only at hn
        split_ifs at hn
        · cases hn
          exact found_dir hp
        · cases hn
          exact h.found_opParent hp
    · cases hn
      exact h.found_opParent hd

theorem Walkable.found_opLookup {name : Name} (hd : s.live d=true)
    (hn : opLookup s d name = .ok n) : Found s n := by
  rw [opLookup] at hn
  split_ifs at hn
  cases hfind : findChild s d name with
  | none =>
    rw [hfind] at hn
    cases hn
  | some c =>
    rw [hfind] at hn
    have htarget : (s.node c).hardTarget.getD c=n := Except.ok.inj hn
    have hc := h.child d c hd (findChild_spec hfind)
    refine ⟨(target_spec h.toShape hc.1 htarget).1,fun _ => ⟨c,hc.1,?_,htarget⟩⟩
    rw [hc.2]
    exact Option.some_ne_none d

theorem Walkable.found_go {c : Name} {next : Addr} (hd : Found s d)
    (hstep : nextStep s d c = .go next) : Found s next := by
  have hdir : (s.node d).type = .dir := dir_of_nextStep c (by simp [hstep])
  rcases nextStep_go hstep with ⟨_,heq⟩ | ⟨_,hparent⟩ | ⟨_,child,hchild,heq⟩
  · rw [heq]
    exact hd
  · exact h.found_componentParent ⟨hd.live,hdir⟩ hparent
  · rw [heq]
    exact h.found_crossMount (h.found_opLookup hd.live hchild)

theorem Walkable.found_walkStart {base : Option Addr} (path : Path)
    (hbase : ∀ d, base=some d → Found s d) : Found s (walkStart s base path) := by
  rw [walkStart]
  split_ifs
  · exact h.found_crossMount (h.found_root h.top)
  · apply h.found_crossMount
    cases base with
    | some d => exact hbase d rfl
    | none =>
      cases hcwd : s.cwd with
      | none => exact h.found_root h.top
      | some d => exact found_dir (h.cwd d hcwd)

private theorem Walkable.found_resolve {left : Nat} {rest : Path}
    (hn : resolve s left (walkStart s none path) (components rest) = .ok n) : Found s n := by
  apply resolve_invariant (P := Found s) _ _ _ _ hn
  · intro d c next _ _ hd hstep
    exact h.found_go hd hstep
  · intro base target hbase _
    apply h.found_walkStart
    intro d hd
    cases hd
    exact hbase
  · intro c hc
    exact mem_fields hc
  · apply h.found_walkStart
    intro d hd
    cases hd

theorem Walkable.found_lookup (hn : vfsLookup s path = .ok n) : Found s n := by
  rw [vfsLookup_eq s (path_ne_nil hn)] at hn
  exact h.found_resolve hn

theorem Walkable.found_parent {name : Name}
    (hn : lookupParentEntry s path = .ok (n, name)) : Found s n := by
  obtain ⟨p,_,_,hdir,_,_⟩ := lookupParentEntry_cases hn
  rw [lookupDir_eq] at hdir
  exact h.found_resolve hdir

end

/-- The roots of the mounts in use are roots of trees, and the points are directories that the
mounts hold. -/
structure MountsIn (roots : Set Addr) (mounts : Addr → Nat) (s : Vfs) : Prop where
  root : s.root ∈ roots
  mountRoot : ∀ n m, s.live n = true → (s.node n).mount = some m → (s.mount m).root ∈ roots
  point : ∀ n m p, s.live n = true → (s.node n).mount = some m → (s.mount m).point = some p →
    0 < mounts p ∧ (s.node p).type = .dir

private theorem release_mount (n : Addr) : (vfsVnodeRelease s n).mount=s.mount ∧
    (vfsVnodeRelease s n).rootMount=s.rootMount := by
  by_cases hpos : (s.node n).refcount=0
  · rw [vfsVnodeRelease,if_pos hpos]
    exact ⟨rfl,rfl⟩
  · rw [release_eq hpos]
    split_ifs
    · exact ⟨rfl,rfl⟩
    · exact ⟨rfl,rfl⟩

private theorem withoutEntry_mount (d c : Addr) : (withoutEntry s d c).mount=s.mount ∧
    (withoutEntry s d c).rootMount=s.rootMount := by
  rw [withoutEntry]
  split_ifs
  · exact ⟨rfl,rfl⟩
  · exact ⟨rfl,rfl⟩

private theorem perform_mount (htree : TreeOk roots σ.vfs) (hvalid : op.Valid σ) :
    (σ.perform op).2.vfs.mount=σ.vfs.mount ∧
      (σ.perform op).2.vfs.rootMount=σ.vfs.rootMount := by
  apply perform_rule (I := fun s => s.mount=σ.vfs.mount ∧ s.rootMount=σ.vfs.rootMount)
    htree hvalid ⟨rfl,rfl⟩
  · intro d n name node _ _ _
    exact ⟨rfl,rfl⟩
  · intro d c t _ _
    have hrelease := release_mount (s := (withoutEntry (vfsVnodeBorrow σ.vfs t) d c).modify t
      fun node => node.withLinkCount (node.linkCount-1)) t
    have hwithout := withoutEntry_mount (s := vfsVnodeBorrow σ.vfs t) d c
    exact ⟨hrelease.1.trans hwithout.1,hrelease.2.trans hwithout.2⟩
  · intro s n hs
    exact hs
  · intro s n hs
    exact ⟨(release_mount n).1.trans hs.1,(release_mount n).2.trans hs.2⟩
  · intro s n hs
    exact hs

private theorem perform_covered (htree : TreeOk roots σ.vfs) (hvalid : op.Valid σ) (k : Addr)
    (hk : (σ.perform op).2.vfs.live k=true) :
    σ.vfs.live k=true ∨ ((σ.perform op).2.vfs.node k).mount=none := by
  revert hk
  apply perform_rule
    (I := fun s => s.live k=true → σ.vfs.live k=true ∨ (s.node k).mount=none) htree hvalid
  · exact Or.inl
  · intro d n name node hd hn hnew hk
    rcases (createChild_live k).mp hk with heq | hlive
    · rw [heq,createChild_new (ne_of_fresh hn hd).symm]
      exact Or.inr hnew.mount
    · exact Or.inl hlive
  · intro d c t _ hr hk
    exact Or.inl ((afterRemoval_live hr.ne k).mp hk).1
  · intro s n hs hk
    rw [borrow_field (·.mount) (fun _ _ => rfl)]
    exact hs hk
  · intro s n hs hk
    rw [release_field (·.mount) (fun _ _ => rfl)]
    exact hs ((release_live n k).mp hk).1
  · intro s n hs hk
    rw [linkCount_field (·.mount) (fun _ _ => rfl) (· + 1)]
    exact hs hk

theorem MountsIn.perform (h : MountsIn roots mounts σ.vfs)
    (hσ : SessionOk roots mounts σ) (hvalid : op.Valid σ) :
    MountsIn roots mounts (σ.perform op).2.vfs := by
  have hmount := perform_mount hσ.tree hvalid
  have hold : ∀ k m, (σ.perform op).2.vfs.live k=true →
      ((σ.perform op).2.vfs.node k).mount=some m →
      σ.vfs.live k=true ∧ (σ.vfs.node k).mount=some m := by
    intro k m hk hm
    rcases perform_covered hσ.tree hvalid k hk with hlive | hnone
    · rw [perform_field (·.mount) (fun _ _ => rfl) (fun _ _ => rfl) (fun _ _ => rfl)
        (fun _ _ => rfl) (fun _ _ => rfl) hσ.tree hvalid hlive] at hm
      exact ⟨hlive,hm⟩
    · rw [hnone] at hm
      cases hm
  constructor
  · rw [Vfs.root,hmount.1,hmount.2]
    exact h.root
  · intro k m hk hm
    have hbefore := hold k m hk hm
    rw [hmount.1]
    exact h.mountRoot k m hbefore.1 hbefore.2
  · intro k m p hk hm hpoint
    have hbefore := hold k m hk hm
    rw [hmount.1] at hpoint
    have hp := h.point k m p hbefore.1 hbefore.2 hpoint
    rw [perform_field (·.type) (fun _ _ => rfl) (fun _ _ => rfl) (fun _ _ => rfl)
      (fun _ _ => rfl) (fun _ _ => rfl) hσ.tree hvalid (hσ.mounts p hp.1).1]
    exact hp

/-- The tree as a process with this working directory sees it. -/
def Session.seenFrom (σ : Session) (cwd : Option Addr) : Vfs := { σ.vfs with cwd := cwd }

def CwdHeld (σ : Session) (cwd : Option Addr) : Prop :=
  ∀ d, cwd = some d → d ∈ σ.held ∧ (σ.vfs.node d).type = .dir

theorem SessionOk.walkable {cwd : Option Addr} (hσ : SessionOk roots mounts σ)
    (h : MountsIn roots mounts σ.vfs) (hcwd : CwdHeld σ cwd) :
    Walkable roots (σ.seenFrom cwd) where
  toShape := hσ.tree.toShape.congr rfl fun _ => ⟨rfl,rfl,rfl,rfl,rfl⟩
  top := h.root
  mountRoot := h.mountRoot
  point n m p hn hm hp := by
    have hpoint := h.point n m p hn hm hp
    exact ⟨(hσ.mounts p hpoint.1).1,hpoint.2⟩
  cwd d hd := by
    have hheld := hcwd d hd
    exact ⟨(hσ.held d hheld.1).1,hheld.2⟩

theorem mountsIn_smallTree :
    MountsIn {0, 5} (fun n => if n=0 then 1 else 0) smallTree where
  root := Or.inl rfl
  mountRoot n m hn hm := by
    rw [smallTree_live] at hn
    interval_cases n <;> cases hm
    exact Or.inl rfl
  point n m p hn hm hp := by
    rw [smallTree_live] at hn
    interval_cases n <;> cases hm
    cases hp

theorem walkable_smallTree : Walkable {0, 5} smallTree :=
  sessionOk_smallTree.walkable (σ := ⟨smallTree,[]⟩) mountsIn_smallTree fun d hd => by cases hd

end Hojicha.Fs
