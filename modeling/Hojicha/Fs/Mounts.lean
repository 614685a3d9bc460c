import Hojicha.Fs.Walk

/-!
# Mounts

A mount covers a directory with the root of another tree. Descending through a covered directory
arrives at the root, and `..` leads from there to the parent of the covered directory.
-/

namespace Hojicha.Fs

open Framework

def Active (s : Vfs) (m : Addr) : Prop := (s.node (s.mount m).root).mount = some m

structure FreshMount (s : Vfs) (point m : Addr) (parent : Option Addr) : Prop where
  point_dir : (s.node point).type = .dir
  point_mount : (s.node point).mount = none
  root_dir : (s.node (s.mount m).root).type = .dir
  root_mount : (s.node (s.mount m).root).mount = none
  root_unlisted : ∀ d, (s.mount m).root ∉ (s.node d).children
  root_ne : (s.mount m).root ≠ point
  unused : ∀ n, (s.node n).mount ≠ some m
  blank : (s.mount m).point = none ∧ (s.mount m).parent = none
  parent_active : ∀ k, parent = some k → Active s k
  point_held : 0 < (s.node point).refcount ∨ 0 < (s.node point).linkCount
  root_held : 0 < (s.node (s.mount m).root).refcount ∨ 0 < (s.node (s.mount m).root).linkCount

structure RootMountOnly (s : Vfs) : Prop where
  root_dir : (s.node s.root).type = .dir
  root : (s.node s.root).mount = some s.rootMount
  others : ∀ n, n ≠ s.root → (s.node n).mount = none
  unlisted : ∀ d, s.root ∉ (s.node d).children
  parent : (s.mount s.rootMount).parent = none

/-- The trees of mounts that `vfs_mount` builds. -/
inductive MountTree : Vfs → Prop
  | boot {s : Vfs} (h : RootMountOnly s) : MountTree s
  | mount {s : Vfs} {point m : Addr} {parent : Option Addr} (hs : MountTree s)
      (h : FreshMount s point m parent) : MountTree (vfsMount s point m parent).2

structure MountsOk (s : Vfs) : Prop where
  root_active : Active s s.rootMount
  roots_dir : ∀ m, Active s m → (s.node (s.mount m).root).type = .dir
  roots_unlisted : ∀ m, Active s m → ∀ d, (s.mount m).root ∉ (s.node d).children
  covers : ∀ n m, (s.node n).mount = some m →
    n = (s.mount m).root ∨ ((s.mount m).point = some n ∧ Active s m ∧ m ≠ s.rootMount)
  covered_dir : ∀ n m, (s.node n).mount = some m → (s.node n).type = .dir
  parents : ∀ m, Active s m → ∀ k, (s.mount m).parent = some k → Active s k

variable {s : Vfs} {point m n d : Addr} {parent : Option Addr} {c : Name}

def mounted (s : Vfs) (point m : Addr) (parent : Option Addr) : Vfs :=
  { s with
    node := fun n =>
      if n = (s.mount m).root ∨ n = point then
        ((s.node n).withMount (some m)).withRefcount ((s.node n).refcount + 1)
      else s.node n
    mount := Function.update s.mount m { s.mount m with point := some point, parent := parent } }

theorem modify_node (s : Vfs) (n k : Addr) (f : Node → Node) :
    (s.modify n f).node k=if k=n then f (s.node n) else s.node k :=
  Function.update_apply ..

@[simp] theorem setMount_node (s : Vfs) (m : Addr) (mount : Mount) :
    (s.setMount m mount).node=s.node := rfl

@[simp] theorem modify_mount (s : Vfs) (n : Addr) (f : Node → Node) :
    (s.modify n f).mount=s.mount := rfl

@[simp] theorem withMount_refcount (node : Node) (m : Option Addr) :
    (node.withMount m).refcount=node.refcount := rfl

private theorem vfsMount_fresh (h : FreshMount s point m parent) :
    vfsMount s point m parent=(.ok, mounted s point m parent) := by
  have hvalid : validateRootMount s m = .ok := by
    rw [validateRootMount,if_neg (not_not.mpr h.root_dir)]
  rw [vfsMount,if_neg (not_not.mpr hvalid),if_neg (not_not.mpr h.point_dir),
    if_neg (not_not.mpr h.point_mount)]
  have hne := h.root_ne
  have hroot : ((s.setMount m { s.mount m with point := some point, parent := parent }).mount
      m).root=(s.mount m).root := by
    simp [Vfs.setMount]
  apply congrArg (Prod.mk Status.ok)
  apply Vfs.ext
  · funext k
    simp only [vfsVnodeBorrow,modify_node,modify_mount,hroot,setMount_node,mounted]
    by_cases hkroot : k=(s.mount m).root
    · simp [hkroot,hne]
    · by_cases hkpoint : k=point
      · simp [hkpoint,Ne.symm hne]
      · simp [hkroot,hkpoint]
  · rfl
  · rfl
  · rfl
  · rfl

private theorem mounted_field {α : Type} (f : Node → α)
    (hf : ∀ node m r, f ((Node.withMount node m).withRefcount r)=f node) (n : Addr) :
    f ((mounted s point m parent).node n)=f (s.node n) := by
  simp only [mounted]
  split_ifs
  · exact hf _ _ _
  · rfl

@[simp] theorem mounted_children (n : Addr) :
    ((mounted s point m parent).node n).children=(s.node n).children :=
  mounted_field (·.children) (fun _ _ _ => rfl) n

@[simp] theorem mounted_type (n : Addr) :
    ((mounted s point m parent).node n).type=(s.node n).type :=
  mounted_field (·.type) (fun _ _ _ => rfl) n

@[simp] theorem mounted_parent (n : Addr) :
    ((mounted s point m parent).node n).parent=(s.node n).parent :=
  mounted_field (·.parent) (fun _ _ _ => rfl) n

@[simp] theorem mounted_hardTarget (n : Addr) :
    ((mounted s point m parent).node n).hardTarget=(s.node n).hardTarget :=
  mounted_field (·.hardTarget) (fun _ _ _ => rfl) n

@[simp] theorem mounted_root (k : Addr) :
    ((mounted s point m parent).mount k).root=(s.mount k).root := by
  by_cases h : k=m
  · subst h
    simp [mounted]
  · simp [mounted,h]

private theorem mounted_mount : ((mounted s point m parent).node n).mount =
    if n=(s.mount m).root ∨ n=point then some m else (s.node n).mount := by
  simp only [mounted]
  split_ifs
  · rfl
  · rfl

private theorem active_mounted (h : FreshMount s point m parent) (k : Addr) :
    Active (mounted s point m parent) k ↔ k=m ∨ Active s k := by
  rw [Active,mounted_root,mounted_mount]
  by_cases hk : k=m
  · subst hk
    simp
  · have hm : Active s k → ¬((s.mount k).root=(s.mount m).root ∨ (s.mount k).root=point) := by
      intro hactive hor
      rw [Active] at hactive
      rcases hor with heq | heq
      · rw [heq,h.root_mount] at hactive
        exact absurd hactive (by simp)
      · rw [heq,h.point_mount] at hactive
        exact absurd hactive (by simp)
    split_ifs with hor
    · simp only [Option.some.injEq,hk,false_or]
      exact iff_of_false (Ne.symm hk) fun hactive => hm hactive hor
    · simp only [hk,false_or]
      exact Iff.rfl

private theorem mountsOk_boot (h : RootMountOnly s) : MountsOk s := by
  have hactive : ∀ m, Active s m → m=s.rootMount := by
    intro m hm
    rw [Active] at hm
    by_cases heq : (s.mount m).root=s.root
    · rw [heq,h.root,Option.some.injEq] at hm
      exact hm.symm
    · rw [h.others _ heq] at hm
      exact absurd hm (by simp)
  have hroot : ∀ n m, (s.node n).mount=some m → n=(s.mount m).root := by
    intro n m hn
    by_cases heq : n=s.root
    · subst heq
      rw [h.root,Option.some.injEq] at hn
      rw [← hn]
      rfl
    · rw [h.others n heq] at hn
      exact absurd hn (by simp)
  refine ⟨h.root,?_,?_,fun n m hn => Or.inl (hroot n m hn),?_,?_⟩
  · intro m hm
    rw [hactive m hm]
    exact h.root_dir
  · intro m hm
    rw [hactive m hm]
    exact h.unlisted
  · intro n m hn
    have heq : n=s.root := by
      by_contra hne
      rw [h.others n hne] at hn
      exact absurd hn (by simp)
    rw [heq]
    exact h.root_dir
  · intro m hm k hk
    rw [hactive m hm,h.parent] at hk
    exact absurd hk (by simp)

private theorem mountsOk_mounted (hs : MountsOk s) (h : FreshMount s point m parent) :
    MountsOk (mounted s point m parent) := by
  have hne : m≠s.rootMount := by
    intro heq
    have hroot := hs.root_active
    rw [← heq] at hroot
    exact h.unused _ hroot
  constructor
  · exact (active_mounted h s.rootMount).mpr (Or.inr hs.root_active)
  · intro k hk
    rw [mounted_root,mounted_type]
    rcases (active_mounted h k).mp hk with heq | hactive
    · rw [heq]
      exact h.root_dir
    · exact hs.roots_dir k hactive
  · intro k hk d
    rw [mounted_root,mounted_children]
    rcases (active_mounted h k).mp hk with heq | hactive
    · rw [heq]
      exact h.root_unlisted d
    · exact hs.roots_unlisted k hactive d
  · intro n k hn
    rw [mounted_mount] at hn
    rw [mounted_root,active_mounted h]
    split_ifs at hn with hor
    · rw [Option.some.injEq] at hn
      subst hn
      rcases hor with heq | heq
      · exact Or.inl heq
      · refine Or.inr ⟨?_,Or.inl rfl,hne⟩
        simp [mounted,heq]
    · have hkm : k≠m := fun heq => h.unused n (heq ▸ hn)
      rcases hs.covers n k hn with heq | ⟨hpoint,hactive,hother⟩
      · exact Or.inl heq
      · refine Or.inr ⟨?_,Or.inr hactive,hother⟩
        simpa [mounted,hkm] using hpoint
  · intro n k hn
    rw [mounted_mount] at hn
    rw [mounted_type]
    split_ifs at hn with hor
    · rcases hor with heq | heq
      · rw [heq]
        exact h.root_dir
      · rw [heq]
        exact h.point_dir
    · exact hs.covered_dir n k hn
  · intro k hk j hj
    rw [active_mounted h]
    by_cases heq : k=m
    · subst heq
      exact Or.inr (h.parent_active j (by simpa [mounted] using hj))
    · have hactive := ((active_mounted h k).mp hk).resolve_left heq
      exact Or.inr (hs.parents k hactive j (by simpa [mounted,heq] using hj))

theorem mountsOk (h : MountTree s) : MountsOk s := by
  induction h with
  | boot h => exact mountsOk_boot h
  | mount _ h ih =>
    rw [vfsMount_fresh h]
    exact mountsOk_mounted ih h

theorem vfsVnodeRelease_held (n : Addr) {r : Nat} (hcount : (s.node n).refcount=r + 1)
    (hheld : 0<r ∨ 0<(s.node n).linkCount) :
    vfsVnodeRelease s n=s.modify n fun node => node.withRefcount (node.refcount - 1) := by
  have hkeep : ¬(((s.modify n fun node => node.withRefcount (node.refcount-1)).node n).refcount
      = 0 ∧ ((s.modify n fun node => node.withRefcount (node.refcount-1)).node n).linkCount
      = 0) := by
    rw [modify_node,if_pos rfl]
    simp only [Node.withRefcount]
    omega
  rw [vfsVnodeRelease,if_neg (by omega)]
  exact if_neg hkeep

private theorem vfsUnmount_mounted (hs : MountsOk s) (h : FreshMount s point m parent) :
    vfsUnmount (mounted s point m parent) m=(.ok, s) := by
  have hne : m≠s.rootMount := by
    intro heq
    have hroot := hs.root_active
    rw [← heq] at hroot
    exact h.unused _ hroot
  have hpoint : ((mounted s point m parent).mount m).point=some point := by simp [mounted]
  have hcovered : ((mounted s point m parent).node point).mount=some m := by
    rw [mounted_mount,if_pos (Or.inr rfl)]
  have hroot := h.root_ne
  rw [vfsUnmount,if_neg (show ¬m=(mounted s point m parent).rootMount from hne),hpoint]
  simp only [hcovered,ne_eq,not_true,if_false,mounted_root]
  have hnodeRoot : (mounted s point m parent).node (s.mount m).root =
      ((s.node (s.mount m).root).withMount (some m)).withRefcount
        ((s.node (s.mount m).root).refcount+1) := if_pos (Or.inl rfl)
  have hnodePoint : (mounted s point m parent).node point =
      ((s.node point).withMount (some m)).withRefcount ((s.node point).refcount+1) :=
    if_pos (Or.inr rfl)
  rw [vfsVnodeRelease_held (s.mount m).root (r := (s.node (s.mount m).root).refcount),
    vfsVnodeRelease_held point (r := (s.node point).refcount)]
  · apply congrArg (Prod.mk Status.ok)
    apply Vfs.ext
    · funext k
      simp only [modify_node,setMount_node]
      by_cases hkroot : k=(s.mount m).root
      · subst hkroot
        simp only [hroot,if_false,if_true,hnodeRoot]
        apply Node.ext
        all_goals first | rfl | exact h.root_mount.symm
      · by_cases hkpoint : k=point
        · subst hkpoint
          simp only [hkroot,if_false,if_true,hnodePoint]
          apply Node.ext
          all_goals first | rfl | exact h.point_mount.symm
        · simp [hkroot,hkpoint,mounted]
    · rfl
    · funext k
      by_cases hk : k=m
      · subst hk
        simp only [Vfs.setMount,Function.update_self]
        exact Mount.ext (mounted_root k) h.blank.1.symm h.blank.2.symm
      · simp [Vfs.setMount,mounted,hk]
    · rfl
    · rfl
  · simp [modify_node,Ne.symm hroot,hnodePoint,Node.withRefcount,Node.withMount]
  · simpa [modify_node,Ne.symm hroot,hnodePoint,Node.withRefcount,Node.withMount]
      using h.point_held
  · simp [modify_node,hroot,hnodeRoot,Node.withRefcount,Node.withMount]
  · simpa [modify_node,hroot,hnodeRoot,Node.withRefcount,Node.withMount] using h.root_held

theorem crossMount_of_active {k : Addr} (h : Active s k) :
    crossMount s (s.mount k).root=(s.mount k).root := by
  have hmount : (s.node (s.mount k).root).mount=some k := h
  rw [crossMount,hmount]
  exact if_pos rfl

private theorem crossMount_cases (hs : MountsOk s) (n : Addr) :
    crossMount s n=n ∨ ∃ k, (s.mount k).point=some n ∧ Active s k ∧ k≠s.rootMount ∧
      crossMount s n=(s.mount k).root := by
  cases hmount : (s.node n).mount with
  | none => exact Or.inl (by rw [crossMount,hmount])
  | some k =>
    by_cases heq : n=(s.mount k).root
    · apply Or.inl
      rw [crossMount,hmount]
      exact if_pos heq
    · obtain ⟨hpoint,hactive,hother⟩ := (hs.covers n k hmount).resolve_left heq
      refine Or.inr ⟨k,hpoint,hactive,hother,?_⟩
      rw [crossMount,hmount]
      exact if_neg heq

theorem crossMount_crossMount (hs : MountsOk s) (n : Addr) :
    crossMount s (crossMount s n)=crossMount s n := by
  rcases crossMount_cases hs n with heq | ⟨k,_,hactive,_,heq⟩
  · rw [heq,heq]
  · rw [heq]
    exact crossMount_of_active hactive

/-- The shape of the trees: an entry that is a directory knows the directory it is in, and an alias
stands for a file. -/
structure TreeShape (s : Vfs) : Prop where
  parent : ∀ d c, c ∈ (s.node d).children → (s.node c).type = .dir → (s.node c).parent = some d
  alias_file : ∀ d c t, c ∈ (s.node d).children → (s.node c).hardTarget = some t →
    (s.node t).type = .file

private theorem treeShape_mounted (hs : TreeShape s) : TreeShape (mounted s point m parent) := by
  constructor
  · intro d c hc hdir
    rw [mounted_children] at hc
    rw [mounted_type] at hdir
    rw [mounted_parent]
    exact hs.parent d c hc hdir
  · intro d c t hc htarget
    rw [mounted_children] at hc
    rw [mounted_hardTarget] at htarget
    rw [mounted_type]
    exact hs.alias_file d c t hc htarget

theorem opLookup_dir (hs : TreeShape s) (h : opLookup s d c = .ok n)
    (hdir : (s.node n).type = .dir) :
    n∈(s.node d).children ∧ (s.node n).parent=some d ∧ (s.node n).name=some c := by
  rw [opLookup] at h
  split_ifs at h with hd
  cases hchild : findChild s d c with
  | none =>
    rw [hchild] at h
    exact absurd h (by simp)
  | some child =>
    have hmem : child∈(s.node d).children := List.mem_of_find?_eq_some hchild
    have hname : (s.node child).name=some c := by simpa using List.find?_some hchild
    rw [hchild,Except.ok.injEq] at h
    cases htarget : (s.node child).hardTarget with
    | none =>
      rw [htarget,Option.getD_none] at h
      subst h
      exact ⟨hmem,hs.parent d child hmem hdir,hname⟩
    | some t =>
      rw [htarget,Option.getD_some] at h
      subst h
      have hfile := hs.alias_file d child t hmem htarget
      rw [hdir] at hfile
      exact absurd hfile (by simp)

/-- An entry is not a root. It shows itself, or the root of a mount that knows the way back. -/
theorem listed_cases (hs : MountsOk s) (hmem : n∈(s.node d).children) :
    n≠s.root ∧ (((s.node n).mount=none ∧ crossMount s n=n) ∨
      ∃ k, (s.mount k).point=some n ∧ (s.node (s.mount k).root).mount=some k ∧
        k≠s.rootMount ∧ (s.mount k).root≠s.root ∧
        n≠(s.mount ((s.mount k).parent.getD s.rootMount)).root ∧
        crossMount s n=(s.mount k).root) := by
  have hroot : ∀ k, Active s k → n≠(s.mount k).root := by
    intro k hk heq
    exact hs.roots_unlisted k hk d (heq ▸ hmem)
  refine ⟨hroot _ hs.root_active,?_⟩
  cases hmount : (s.node n).mount with
  | none => exact Or.inl ⟨rfl,by rw [crossMount,hmount]⟩
  | some k =>
    have hself : n≠(s.mount k).root := by
      intro heq
      exact hroot k (by rw [Active,← heq,hmount]) heq
    obtain ⟨hpoint,hactive,hother⟩ := (hs.covers n k hmount).resolve_left hself
    have hne : (s.mount k).root≠s.root := by
      intro heq
      have hr := hs.root_active
      rw [Active,← Vfs.root,← heq,hactive,Option.some.injEq] at hr
      exact hother hr
    -- the parent of the mount is a mount of the tree, so its root is not an entry
    have hparent : Active s ((s.mount k).parent.getD s.rootMount) := by
      cases hp : (s.mount k).parent with
      | none => exact hs.root_active
      | some j => exact hs.parents k hactive j hp
    refine Or.inr ⟨k,hpoint,hactive,hother,hne,hroot _ hparent,?_⟩
    rw [crossMount,hmount]
    exact if_neg hself

/-- From the node that a directory shows, `..` leads to the parent of the directory. -/
theorem componentParent_crossMount (hs : MountsOk s)
    (hmem : n∈(s.node d).children) (hparent : (s.node n).parent=some d) :
    componentParent s (crossMount s n) = .ok d := by
  have hop : opParent s n=d := by rw [opParent,hparent,Option.getD_some]
  obtain ⟨hroot,⟨hmount,hcross⟩ | ⟨k,hpoint,hactive,hother,hne,hlisted,hcross⟩⟩ :=
    listed_cases hs hmem
  · rw [hcross,componentParent,if_neg hroot,hmount]
    exact congrArg _ hop
  · rw [hcross,componentParent,if_neg hne,hactive]
    simp only [hother,ne_eq,not_false_eq_true,and_self,if_true,hpoint,if_neg hlisted,hop]

def ReturnsFrom (s : Vfs) (d : Addr) (c : Name) : Prop :=
  if c = ['.'] then componentParent s d = .ok d
  else if c = ['.', '.'] then
    ∃ q, componentParent s d = .ok q ∧ (s.node q).type = .dir ∧ componentParent s q = .ok d
  else True

theorem crossMount_dir (hs : MountsOk s) (hn : (s.node n).type = .dir) :
    (s.node (crossMount s n)).type = .dir := by
  rw [crossMount]
  cases hmount : (s.node n).mount with
  | none => exact hn
  | some m =>
    dsimp only
    split_ifs with heq
    · exact hn
    · exact hs.roots_dir m ((hs.covers n m hmount).resolve_left heq).2.1

private theorem resolve_there_and_back (hs : MountsOk s) (hshape : TreeShape s)
    (hd : (s.node d).type = .dir) (hlookup : opLookup s d c = .ok n)
    (hdir : (s.node n).type = .dir) (hplain : Plain c) (left : Nat) :
    resolve s left d [c, ['.', '.']] = .ok d := by
  obtain ⟨hmem,hparent,_⟩ := opLookup_dir hshape hlookup hdir
  have hcross := crossMount_dir hs hdir
  rw [resolve_plain hd hplain,hlookup]
  simp only [Except.bind,hcross]
  rw [if_neg (by simp),resolve_dotdot hcross,componentParent_crossMount hs hmem hparent]
  rfl

private theorem resolve_returns_iff (hs : MountsOk s) (hshape : TreeShape s)
    (hd : (s.node d).type = .dir) (hlookup : opLookup s d c = .ok n)
    (hdir : (s.node n).type = .dir) :
    ∃ r, (∀ left, resolve s left d [c, ['.', '.']]=r) ∧ (r = .ok d ↔ ReturnsFrom s d c) := by
  by_cases hdot : c=['.']
  · refine ⟨componentParent s d,?_,by rw [ReturnsFrom,if_pos hdot]⟩
    intro left
    rw [hdot,resolve_dot hd,resolve_dotdot hd]
    cases componentParent s d with
    | error e => rfl
    | ok parent => rfl
  by_cases hdotdot : c=['.','.']
  · refine ⟨(componentParent s d).bind fun q =>
      if (s.node q).type = .dir then componentParent s q else .error .notdir,?_,?_⟩
    · intro left
      rw [hdotdot,resolve_dotdot hd]
      cases componentParent s d with
      | error e => rfl
      | ok q =>
        simp only [Except.bind]
        split_ifs with hq
        · rw [resolve_dotdot hq]
          cases componentParent s q with
          | error e => rfl
          | ok parent => rfl
        · exact resolve_notdir hq
    · rw [ReturnsFrom,if_neg hdot,if_pos hdotdot]
      cases componentParent s d with
      | error e => simp [Except.bind]
      | ok q =>
        by_cases hq : (s.node q).type = .dir
        · simp [Except.bind,hq]
        · simp [Except.bind,hq]
  · refine ⟨.ok d,resolve_there_and_back hs hshape hd hlookup hdir ⟨hdot,hdotdot⟩,?_⟩
    rw [ReturnsFrom,if_neg hdot,if_neg hdotdot]
    simp

/-- Into a subdirectory and back by `..` is where the walk was, for every name but `.` and `..`, and
unmounting restores the state in front of the mount. -/
theorem lookup_returns_and_unmount_restores (s : Vfs) (hs : MountTree s) (hshape : TreeShape s) :
    (∀ (p : Path) (d n : Addr) (c : Name), vfsLookup s p = .ok d → (s.node d).type = .dir →
      c ≠ [] → '/' ∉ c → opLookup s d c = .ok n → (s.node n).type = .dir →
      (vfsLookup s (p ++ '/' :: (c ++ ['/', '.', '.'])) = .ok d ↔ ReturnsFrom s d c)) ∧
    ∀ (point m : Addr) (parent : Option Addr), FreshMount s point m parent →
      vfsUnmount (vfsMount s point m parent).2 m = (.ok, s) := by
  have hok := mountsOk hs
  constructor
  · intro p d n c hp hd hne hslash hlookup hdir
    have hcomp : components (c++['/','.','.'])=[c,['.','.']] := by
      rw [components,fields_append,fields_self hne hslash]
      rfl
    obtain ⟨r,hr,hiff⟩ := resolve_returns_iff hok hshape hd hlookup hdir
    rw [vfsLookup_append hp (by rw [hcomp]; exact hr)]
    exact hiff
  · intro point m parent h
    rw [vfsMount_fresh h]
    exact vfsUnmount_mounted hok h

def renamedTree (name : Name) : Vfs :=
  smallTree.modify 1 fun node => { node with name := some name }

private theorem renamedTree_mount (name : Name) (n : Addr) :
    ((renamedTree name).node n).mount=if n=0 then some 0 else none := by
  rcases n with _ | _ | _ | _ | _ | _ | n <;> rfl

private theorem renamedTree_children (name : Name) (n : Addr) :
    ((renamedTree name).node n).children=if n=0 then [1, 2, 4] else if n=1 then [3] else [] := by
  rcases n with _ | _ | _ | _ | _ | _ | n <;> rfl

private theorem renamedTree_hardTarget (name : Name) (n : Addr) :
    ((renamedTree name).node n).hardTarget=none := by
  rcases n with _ | _ | _ | _ | _ | _ | n <;> rfl

private theorem mountTree_renamedTree (name : Name) : MountTree (renamedTree name) := by
  apply MountTree.boot
  refine ⟨rfl,rfl,?_,?_,rfl⟩
  · intro n hn
    have hzero : n≠0 := hn
    rw [renamedTree_mount,if_neg hzero]
  · intro d
    have hzero : (renamedTree name).root=0 := rfl
    rw [renamedTree_children,hzero]
    split_ifs <;> decide

private theorem treeShape_renamedTree (name : Name) : TreeShape (renamedTree name) := by
  constructor
  · intro d c hc hdir
    rw [renamedTree_children] at hc
    split_ifs at hc with h0 h1
    · simp only [List.mem_cons,List.not_mem_nil,or_false] at hc
      rcases hc with rfl | rfl | rfl
      · rw [h0]
        rfl
      · exact absurd (show NodeType.symlink = .dir from hdir) (by decide)
      · exact absurd (show NodeType.file = .dir from hdir) (by decide)
    · rw [List.mem_singleton] at hc
      rw [hc,h1]
      rfl
    · exact absurd hc (by simp)
  · intro d c t _ htarget
    rw [renamedTree_hardTarget] at htarget
    exact absurd htarget (by simp)

private theorem freshMount_renamedTree : FreshMount (renamedTree ['d']) 1 1 none where
  point_dir := rfl
  point_mount := rfl
  root_dir := rfl
  root_mount := rfl
  root_unlisted d := by
    have hroot : ((renamedTree ['d']).mount 1).root=5 := rfl
    rw [renamedTree_children,hroot]
    split_ifs <;> decide
  root_ne := by decide
  unused n := by
    rw [renamedTree_mount]
    split_ifs <;> decide
  blank := ⟨rfl,rfl⟩
  parent_active k hk := absurd hk (by simp)
  point_held := Or.inr (by decide)
  root_held := Or.inr (by decide)

theorem lookup_returns_from_mount :
    vfsLookup (vfsMount (renamedTree ['d']) 1 1 none).2 ['/', '/', 'd', '/', '.', '.'] = .ok 0 ∧
    vfsUnmount (vfsMount (renamedTree ['d']) 1 1 none).2 1 = (.ok, renamedTree ['d']) := by
  have htree := mountTree_renamedTree ['d']
  have hshape : TreeShape (vfsMount (renamedTree ['d']) 1 1 none).2 := by
    rw [vfsMount_fresh freshMount_renamedTree]
    exact treeShape_mounted (treeShape_renamedTree ['d'])
  have hroot : vfsLookup (vfsMount (renamedTree ['d']) 1 1 none).2 ['/'] = .ok 0 := by
    rw [vfsLookup_eq _ (by simp)]
    decide
  constructor
  · exact ((lookup_returns_and_unmount_restores _ (htree.mount freshMount_renamedTree) hshape).1
      ['/'] 0 1 ['d'] hroot (by decide) (by decide) (by decide) (by decide) (by decide)).mpr trivial
  · exact (lookup_returns_and_unmount_restores _ htree (treeShape_renamedTree ['d'])).2 1 1 none
      freshMount_renamedTree

/-- A directory whose name is a dot. -/
theorem lookup_does_not_return_from_dot :
    MountTree (renamedTree ['.']) ∧ TreeShape (renamedTree ['.']) ∧
    vfsLookup (renamedTree ['.']) ['/'] = .ok 0 ∧ opLookup (renamedTree ['.']) 0 ['.'] = .ok 1 ∧
    ((renamedTree ['.']).node 1).type = .dir ∧
    vfsLookup (renamedTree ['.']) ['/', '/', '.', '/', '.', '.'] = .error .noent := by
  refine ⟨mountTree_renamedTree _,treeShape_renamedTree _,?_,by decide,by decide,?_⟩
  · rw [vfsLookup_eq _ (by simp)]
    decide
  · rw [vfsLookup_eq _ (by simp)]
    decide

end Hojicha.Fs
