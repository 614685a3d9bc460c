import Hojicha.Fs.Found

/-!
# Hard links between directories

`vfs_link` compares the mounts of the file and of the new directory, which it finds by climbing from
each of them to the root of a mount.
-/

namespace Hojicha.Fs

open Framework

def rootOf (s : Vfs) (n : Addr) : Option Addr :=
  if n = s.root then some s.rootMount
  else
    match (s.node n).mount with
    | none => none
    | some m => if n = (s.mount m).root then some m else none

/-- The loop of `vnode_owning_mount`. When it runs out, the status is that of the last parent, and
the mount is not set. -/
def owningLoop (s : Vfs) : Nat → Addr → Except Status (Option Addr)
  | 0, _ => .ok none
  | depth + 1, current =>
    match rootOf s current with
    | some m => .ok (some m)
    | none =>
      if opParent s current = current then .error .noent
      else owningLoop s depth (opParent s current)

def vnodeOwningMount (s : Vfs) (n : Addr) : Except Status (Option Addr) :=
  owningLoop s VFS_SYMLINK_TARGET_MAX n

def vfsLink (s : Vfs) (oldPath newPath : Path) (new : Option Addr) : Status × Vfs :=
  match vfsLookup s oldPath with
  | .error e => (e, s)
  | .ok target =>
    if (s.node target).type = .dir then (.isdir, s)
    else if (s.node target).type ≠ .file then (.invalidArg, s)
    else
      match lookupParentEntry s newPath with
      | .error e => (e, s)
      | .ok (parent, name) =>
        if dirMutationAllowed s parent name ≠ .ok then (dirMutationAllowed s parent name, s)
        else
          match vnodeOwningMount s target with
          | .error e => (e, s)
          | .ok targetMount =>
            match vnodeOwningMount s parent with
            | .error e => (e, s)
            | .ok parentMount =>
              if targetMount ≠ parentMount then (.xdev, s)
              else vfsLinkIn s parent name target new

inductive Below (s : Vfs) (m : Addr) : Addr → Nat → Prop
  | root {n : Addr} : rootOf s n = some m → Below s m n 0
  | step {n d : Addr} {k : Nat} : rootOf s n = none → (s.node n).parent = some d →
      Below s m d k → Below s m n (k + 1)

variable {s : Vfs} {m m' n d t p : Addr} {k kp : Nat} {oldPath newPath : Path}

private theorem opParent_of_some (h : (s.node n).parent=some d) : opParent s n=d := by
  rw [opParent,h]
  rfl

private theorem Below.unique {k' : Nat} (h : Below s m n k) (h' : Below s m' n k') :
    m=m' ∧ k=k' := by
  induction h generalizing k' with
  | root hroot =>
    cases h' with
    | root hroot' =>
      rw [hroot] at hroot'
      exact ⟨Option.some.inj hroot',rfl⟩
    | step hnone _ _ =>
      rw [hroot] at hnone
      cases hnone
  | step hnone hparent _ ih =>
    cases h' with
    | root hroot' =>
      rw [hnone] at hroot'
      cases hroot'
    | step _ hparent' hbelow' =>
      rw [hparent] at hparent'
      have heq := Option.some.inj hparent'
      subst heq
      have hsame := ih hbelow'
      exact ⟨hsame.1,congrArg (· + 1) hsame.2⟩

private theorem Below.parent_ne (h : Below s m d k) (hparent : (s.node n).parent=some d)
    (hnone : rootOf s n=none) : d≠n := by
  intro heq
  subst heq
  have hstep := Below.step hnone hparent h
  have hk := (h.unique hstep).2
  omega

private theorem Below.owningLoop (h : Below s m n k) (depth : Nat) :
    owningLoop s depth n = .ok (if k<depth then some m else none) := by
  induction h generalizing depth with
  | root hroot =>
    cases depth with
    | zero => rfl
    | succ depth => simp [Fs.owningLoop,hroot]
  | step hnone hparent hbelow ih =>
    cases depth with
    | zero => rfl
    | succ depth =>
      have hne := hbelow.parent_ne hparent hnone
      rw [Fs.owningLoop,hnone,opParent_of_some hparent]
      simp only [hne,if_false]
      rw [ih depth]
      simp only [Nat.add_lt_add_iff_right]

private theorem owningMount_detached (hnone : rootOf s n=none) (hparent : (s.node n).parent=none) :
    vnodeOwningMount s n = .error .noent := by
  have hself : opParent s n=n := by
    rw [opParent,hparent]
    rfl
  have hmax : VFS_SYMLINK_TARGET_MAX=1023+1 := rfl
  rw [vnodeOwningMount,hmax,owningLoop,hnone]
  simp only [hself,if_true]

/-- An entry is in the file system of its directory, and only `initrd` has files. -/
structure OneFs (s : Vfs) : Prop where
  up : ∀ n d, s.live n = true → (s.node n).parent = some d → (s.node n).fs = (s.node d).fs
  file : ∀ n, s.live n = true → (s.node n).type = .file → (s.node n).fs = .initrd

variable {roots : Set Addr} {mounts : Addr → Nat} {σ : Session} {s' : Vfs} {name : Name}

section

variable (h : OneFs s)
include h

private theorem OneFs.attach {node : Node} (hshape : Shape roots s) (hd : s.live d=true)
    (hn : s.live n=false) (hnew : NewEntry s d name node) : OneFs (createChild s d n node) := by
  have hne : n≠d := (ne_of_fresh hn hd).symm
  have hfs : ∀ {k}, s.live k=true →
      ((createChild s d n node).node k).fs=(s.node k).fs := fun hk =>
    createChild_old (·.fs) (fun _ => rfl) hne (ne_of_fresh hn hk)
  constructor
  · intro k e hk hparent
    rcases (createChild_live k).mp hk with heq | hlive
    · rw [heq,createChild_new hne,hnew.parent,Option.some.injEq] at hparent
      rw [heq,← hparent,createChild_new hne,hfs hd]
      exact hnew.fs
    · rw [createChild_old (·.parent) (fun _ => rfl) hne (ne_of_fresh hn hlive)] at hparent
      rw [hfs hlive,hfs (hshape.parent k e hlive hparent).1]
      exact h.up k e hlive hparent
  · intro k hk hfile
    rcases (createChild_live k).mp hk with heq | hlive
    · rw [heq,createChild_new hne] at hfile ⊢
      exact hnew.file hfile
    · rw [createChild_old (·.type) (fun _ => rfl) hne (ne_of_fresh hn hlive)] at hfile
      rw [hfs hlive]
      exact h.file k hlive hfile

private theorem OneFs.congr (hlive : ∀ k, s'.live k=true → s.live k=true)
    (hfs : ∀ k, (s'.node k).fs=(s.node k).fs) (htype : ∀ k, (s'.node k).type=(s.node k).type)
    (hparent : ∀ k e, (s'.node k).parent=some e → (s.node k).parent=some e) : OneFs s' where
  up k e hk hp := by
    rw [hfs,hfs]
    exact h.up k e (hlive k hk) (hparent k e hp)
  file k hk ht := by
    rw [htype] at ht
    rw [hfs]
    exact h.file k (hlive k hk) ht

private theorem OneFs.borrow (n : Addr) : OneFs (vfsVnodeBorrow s n) := by
  apply h.congr
  · intro k hk
    exact hk
  · exact borrow_field (·.fs) (fun _ _ => rfl) n
  · exact borrow_field (·.type) (fun _ _ => rfl) n
  · intro k e hp
    rw [borrow_field (·.parent) (fun _ _ => rfl)] at hp
    exact hp

private theorem OneFs.release (n : Addr) : OneFs (vfsVnodeRelease s n) := by
  apply h.congr
  · intro k hk
    exact ((release_live n k).mp hk).1
  · exact release_field (·.fs) (fun _ _ => rfl) n
  · exact release_field (·.type) (fun _ _ => rfl) n
  · intro k e hp
    rw [release_field (·.parent) (fun _ _ => rfl)] at hp
    exact hp

private theorem OneFs.linkCount (n : Addr) (r : Nat → Nat) :
    OneFs (s.modify n fun node => node.withLinkCount (r node.linkCount)) := by
  apply h.congr
  · intro k hk
    exact hk
  · exact linkCount_field (·.fs) (fun _ _ => rfl) r n
  · exact linkCount_field (·.type) (fun _ _ => rfl) r n
  · intro k e hp
    rw [linkCount_field (·.parent) (fun _ _ => rfl)] at hp
    exact hp

private theorem OneFs.remove {c : Addr} (hr : Removes s d c t) : OneFs (afterRemoval s d c t) := by
  have hwithout : OneFs (withoutEntry (vfsVnodeBorrow s t) d c) := by
    apply (h.borrow t).congr
    · intro k hk
      exact ((withoutEntry_live k).mp hk).1
    · intro k
      rw [withoutEntry_node]
      exact detached_field (·.fs) (fun _ => rfl) (fun _ => rfl) hr.ne k
    · intro k
      rw [withoutEntry_node]
      exact detached_field (·.type) (fun _ => rfl) (fun _ => rfl) hr.ne k
    · intro k e hp
      rw [withoutEntry_node,detached_parent hr.ne] at hp
      split_ifs at hp
      exact hp
  exact (hwithout.linkCount t (· - 1)).release t

end

private theorem OneFs.perform {op : TreeOp} (h : OneFs σ.vfs) (htree : TreeOk roots σ.vfs)
    (hvalid : op.Valid σ) : OneFs (σ.perform op).2.vfs := by
  apply perform_rule htree hvalid h
  · intro d n name node hd hn hnew
    exact h.attach htree.toShape hd hn hnew
  · intro d c t _ hr
    exact h.remove hr
  · intro s n hs
    exact hs.borrow n
  · intro s n hs
    exact hs.release n
  · intro s n hs
    exact hs.linkCount n (· + 1)

private theorem rootOf_eq (h : rootOf s n=some m) : n=(s.mount m).root := by
  rw [rootOf] at h
  split_ifs at h with hroot
  · rw [← Option.some.inj h]
    exact hroot
  · cases hmount : (s.node n).mount with
    | none =>
      rw [hmount] at h
      cases h
    | some k =>
      rw [hmount] at h
      dsimp only at h
      split_ifs at h with heq
      rw [← Option.some.inj h]
      exact heq

private theorem Below.fs_eq (hfs : OneFs s) (hshape : Shape roots s) (h : Below s m n k)
    (hn : s.live n=true) : (s.node n).fs=(s.node (s.mount m).root).fs := by
  induction h with
  | root hroot => rw [← rootOf_eq hroot]
  | step _ hparent _ ih =>
    rw [hfs.up _ _ hn hparent]
    exact ih (hshape.parent _ _ hn hparent).1

def FileOn (s : Vfs) (m t : Addr) : Prop := ∀ c ∈ entries s t, ∃ k, Below s m c k

private theorem vfsLinkIn_ne_xdev (new : Option Addr) : (vfsLinkIn s d name t new).1 ≠ .xdev := by
  rw [vfsLinkIn]
  split_ifs
  · exact Status.noConfusion
  rw [opLink.eq_def]
  split_ifs
  · exact Status.noConfusion
  · exact Status.noConfusion
  · cases new with
    | none => exact Status.noConfusion
    | some n => exact Status.noConfusion

private theorem vfsLinkIn_ok (hdir : dirMutationAllowed s d name = .ok)
    (hfs : (s.node d).fs = .initrd)
    (hfile : (s.node t).type = .file) (hfree : findChild s d name=none) (n : Addr) :
    (vfsLinkIn s d name t (some n)).1 = .ok := by
  rw [dirMutationAllowed] at hdir
  split_ifs at hdir with htype hvalid
  have hbad : ¬((s.node d).type ≠ .dir ∨ (s.node t).type ≠ .file ∨ (!vfsValidateName name)=true) := by
    rw [not_or,not_or]
    exact ⟨htype,not_not.mpr hfile,hvalid⟩
  have hdev : (s.node d).fs ≠ .devfs := by
    rw [hfs]
    exact FileSystem.noConfusion
  simp only [vfsLinkIn,opLink,if_neg hdev,if_neg hbad,hfree,ne_eq,not_true,if_false]

private theorem vfsLink_status (hold : vfsLookup s oldPath = .ok t)
    (hfile : (s.node t).type = .file) (hnew : lookupParentEntry s newPath = .ok (p, name))
    (hdir : dirMutationAllowed s p name = .ok) (new : Option Addr)
    {b : Option Addr} (hp : vnodeOwningMount s p = .ok b) :
    (vfsLink s oldPath newPath new).1 =
      match vnodeOwningMount s t with
      | .error e => e
      | .ok a => if a≠b then .xdev else (vfsLinkIn s p name t new).1 := by
  rw [vfsLink,hold]
  simp only [hfile,hnew,hdir,hp,ne_eq,not_true,if_false,reduceCtorEq]
  cases vnodeOwningMount s t with
  | error e => rfl
  | ok a =>
    dsimp only
    split_ifs
    · rfl
    · rfl

private theorem rootOf_mem (h : Walkable roots s) (hn : s.live n=true) (hroot : rootOf s n=some m) :
    n∈roots := by
  rw [rootOf] at hroot
  split_ifs at hroot with htop
  · rw [htop]
    exact h.top
  · cases hmount : (s.node n).mount with
    | none =>
      rw [hmount] at hroot
      cases hroot
    | some k =>
      rw [hmount] at hroot
      dsimp only at hroot
      split_ifs at hroot with heq
      rw [heq]
      exact h.mountRoot n k hn hmount

private theorem rootOf_file (h : Walkable roots s) (ht : s.live t=true)
    (hfile : (s.node t).type = .file) : rootOf s t=none := by
  cases hroot : rootOf s t with
  | none => rfl
  | some k =>
    have htype := (h.root t (rootOf_mem h ht hroot)).2.1
    rw [hfile] at htype
    cases htype

/-- A link to a free name in the directory `p` does what it should: it succeeds if the file is on
the mount of the directory, and is refused as one between mounts if it is not. -/
def LinkOk (s : Vfs) (oldPath newPath : Path) (new m m' : Addr) : Prop :=
  (m' = m → (vfsLink s oldPath newPath (some new)).1 = .ok) ∧
    ((vfsLink s oldPath newPath (some new)).1 = .xdev ↔ m' ≠ m)

/-- The climbs to the mounts are short enough, or both too long on one mount. -/
def ClimbsOk (m m' kt kp : Nat) : Prop :=
  (m' = m → (kt < VFS_SYMLINK_TARGET_MAX ↔ kp < VFS_SYMLINK_TARGET_MAX)) ∧
    (m' ≠ m → kt < VFS_SYMLINK_TARGET_MAX ∨ kp < VFS_SYMLINK_TARGET_MAX)

private theorem linkOk_of_climbs {kt : Nat} (hfs : OneFs s)
    (hshape : Shape roots s) (hold : vfsLookup s oldPath = .ok t) (hlive : s.live t=true)
    (hfile : (s.node t).type = .file) (hnew : lookupParentEntry s newPath = .ok (p, name))
    (hdir : dirMutationAllowed s p name = .ok) (hplive : s.live p=true)
    (hfree : findChild s p name=none) (hp : Below s m p kp) (ht : Below s m' t kt) (n : Addr) :
    LinkOk s oldPath newPath n m m' ↔ ClimbsOk m m' kt kp := by
  have hstatus := vfsLink_status hold hfile hnew hdir (some n) (hp.owningLoop _)
  have howner : vnodeOwningMount s t = .ok (if kt<VFS_SYMLINK_TARGET_MAX then some m' else none) :=
    ht.owningLoop _
  rw [howner] at hstatus
  dsimp only at hstatus
  rw [LinkOk,ClimbsOk,hstatus]
  have hne : (vfsLinkIn s p name t (some n)).1 ≠ .xdev := vfsLinkIn_ne_xdev _
  by_cases hm : m'=m
  · subst hm
    have hpfs : (s.node p).fs = .initrd := by
      rw [hp.fs_eq hfs hshape hplive,← ht.fs_eq hfs hshape hlive]
      exact hfs.file t hlive hfile
    have hok := vfsLinkIn_ok hdir hpfs hfile hfree n
    by_cases hkt : kt<VFS_SYMLINK_TARGET_MAX
    · by_cases hkp : kp<VFS_SYMLINK_TARGET_MAX
      · simp [hkt,hkp,hok]
      · simp [hkt,hkp]
    · by_cases hkp : kp<VFS_SYMLINK_TARGET_MAX
      · simp [hkt,hkp]
      · simp [hkt,hkp,hok]
  · by_cases hkt : kt<VFS_SYMLINK_TARGET_MAX
    · by_cases hkp : kp<VFS_SYMLINK_TARGET_MAX
      · simp [hkt,hkp,hm]
      · simp [hkt,hkp,hm]
    · by_cases hkp : kp<VFS_SYMLINK_TARGET_MAX
      · simp [hkt,hkp,hm]
      · simp [hkt,hkp,hm,hne]

/-- Without its first name, a file has no mount. -/
private theorem not_linkOk_detached (h : Walkable roots s)
    (hold : vfsLookup s oldPath = .ok t) (hlive : s.live t=true)
    (hfile : (s.node t).type = .file) (hnew : lookupParentEntry s newPath = .ok (p, name))
    (hdir : dirMutationAllowed s p name = .ok) (hp : Below s m p kp)
    (hparent : (s.node t).parent=none) (n : Addr) : ¬LinkOk s oldPath newPath n m m' := by
  have hstatus := vfsLink_status hold hfile hnew hdir (some n) (hp.owningLoop _)
  rw [owningMount_detached (rootOf_file h hlive hfile) hparent] at hstatus
  dsimp only at hstatus
  rw [LinkOk,hstatus]
  intro hok
  by_cases hm : m'=m
  · exact absurd (hok.1 hm) Status.noConfusion
  · exact absurd (hok.2.mpr hm) Status.noConfusion

private theorem Below.parent_ne_none (h : Below s m n k) (hroot : rootOf s n=none) :
    (s.node n).parent≠none := by
  cases h with
  | root hsome =>
    rw [hroot] at hsome
    cases hsome
  | step _ hparent _ =>
    rw [hparent]
    exact Option.some_ne_none _

private theorem linkOk_iff (h : Walkable roots s) (hfs : OneFs s)
    (hnul : Char.ofNat 0∉newPath) (hold : vfsLookup s oldPath = .ok t)
    (hfile : (s.node t).type = .file) (hnew : lookupParentEntry s newPath = .ok (p, name))
    (hfree : findChild s p name=none) (hp : Below s m p kp) (ht : FileOn s m' t) (n : Addr) :
    LinkOk s oldPath newPath n m m' ↔ ∃ kt, Below s m' t kt ∧ ClimbsOk m m' kt kp := by
  have hdir := dirMutationAllowed_of_lookup hnul hnew
  have hplive := (h.found_parent hnew).live
  have hfound := h.found_lookup hold
  have hnotroot := rootOf_file h hfound.live hfile
  cases hparent : (s.node t).parent with
  | none =>
    constructor
    · intro hok
      exact absurd hok (not_linkOk_detached h hold hfound.live hfile hnew hdir hp hparent n)
    · intro hex
      obtain ⟨kt,hbelow,_⟩ := hex
      exact absurd hparent (hbelow.parent_ne_none hnotroot)
  | some d =>
    -- the file itself is one of its entries
    have hnotdir : (s.node t).type ≠ .dir := by
      rw [hfile]
      exact NodeType.noConfusion
    obtain ⟨c,hc⟩ := hfound.named hnotdir
    have hentry : t∈entries s t := by
      refine ⟨hfound.live,?_,?_⟩
      · rw [hparent]
        exact Option.some_ne_none d
      · rw [(target_spec h.toShape hc.1 hc.2.2).2.1]
        rfl
    obtain ⟨kt,hkt⟩ := ht t hentry
    have hclimbs := linkOk_of_climbs hfs h.toShape hold hfound.live hfile hnew hdir hplive hfree hp
      hkt n
    rw [hclimbs]
    constructor
    · intro hok
      exact ⟨kt,hkt,hok⟩
    · intro hex
      obtain ⟨k,hk,hok⟩ := hex
      rw [(hkt.unique hk).2]
      exact hok

/-- After every run that creates no entry in a removed directory, a link of a file to a free name
does what it should if and only if the first name of the file is still there and the climbs to the
mounts end alike. -/
theorem vfs_link_iff (start : Session) (hstart : SessionOk roots mounts start)
    (hfs : OneFs start.vfs) (hmounts : MountsIn roots mounts start.vfs) (ops : List TreeOp)
    (hall : Always Session.perform (fun σ op => op.Valid σ ∧ op.InLinkedDir σ) start ops)
    (cwd : Option Addr) (s : Vfs) (hs : s = (trace Session.perform start ops).2.seenFrom cwd)
    (hcwd : CwdHeld (trace Session.perform start ops).2 cwd) (oldPath newPath : Path)
    (hnul : Char.ofNat 0 ∉ newPath) (t p : Addr) (name : Name) (hold : vfsLookup s oldPath = .ok t)
    (hfile : (s.node t).type = .file) (hnew : lookupParentEntry s newPath = .ok (p, name))
    (hfree : findChild s p name = none) (m m' kp : Addr) (hp : Below s m p kp)
    (ht : FileOn s m' t) (n : Addr) :
    LinkOk s oldPath newPath n m m' ↔ ∃ kt, Below s m' t kt ∧ ClimbsOk m m' kt kp := by
  have hend : SessionOk roots mounts (trace Session.perform start ops).2 ∧
      OneFs (trace Session.perform start ops).2.vfs ∧
      MountsIn roots mounts (trace Session.perform start ops).2.vfs := by
    apply trace_invariant (fun σ => SessionOk roots mounts σ ∧ OneFs σ.vfs ∧
      MountsIn roots mounts σ.vfs) _ ⟨hstart,hfs,hmounts⟩ hall
    intro σ op hσ hop
    exact ⟨hσ.1.perform hop.1 hop.2,hσ.2.1.perform hσ.1.tree hop.1,hσ.2.2.perform hσ.1 hop.1⟩
  have hwalk : Walkable roots s := by
    rw [hs]
    exact hend.1.walkable hend.2.2 hcwd
  have hone : OneFs s := by
    rw [hs]
    exact ⟨hend.2.1.up,hend.2.1.file⟩
  exact linkOk_iff hwalk hone hnul hold hfile hnew hfree hp ht n

private theorem oneFs_smallTree : OneFs smallTree where
  up n d hn hp := by
    rw [smallTree_live] at hn
    interval_cases n <;> cases hp <;> rfl
  file n hn hf := by
    rw [smallTree_live] at hn
    interval_cases n <;> first | rfl | cases hf

/-- A link from `/d/g` to the file `/f`. -/
theorem vfs_link_iff_smallTree :
    LinkOk smallTree ['/', 'f'] ['/', 'd', '/', 'g'] 6 0 0 := by
  have hfile : Below smallTree 0 4 1 := Below.step rfl rfl (Below.root rfl)
  apply (vfs_link_iff ⟨smallTree,[]⟩ sessionOk_smallTree oneFs_smallTree mountsIn_smallTree []
    trivial none smallTree rfl (fun d hd => by cases hd) ['/','f'] ['/','d','/','g'] (by decide)
    4 1 ['g'] ?_ rfl ?_ rfl 0 0 1 (Below.step rfl rfl (Below.root rfl)) ?_ 6).mpr
  · exact ⟨1,hfile,fun _ => Iff.rfl,fun hne => absurd rfl hne⟩
  · rw [vfsLookup_eq _ (by decide)]
    decide
  · rw [lookupParentEntry,vfsLookupParent,walkPath_eq _ _ (by decide)]
    decide
  · intro c hc
    rw [entries_smallTree (by decide) (by simp)] at hc
    rw [hc]
    exact ⟨1,hfile⟩

def renamedFile : Vfs :=
  (trace Session.perform ⟨smallTree, []⟩ [.link 0 ['g'] 4 (some 6), .unlink 0 ['f']]).2.vfs

/-- A file whose first name has been unlinked cannot be linked. -/
theorem link_fails_without_first_name :
    Always Session.perform (fun σ op => op.Valid σ ∧ op.InLinkedDir σ) ⟨smallTree, []⟩
        [.link 0 ['g'] 4 (some 6), .unlink 0 ['f']] ∧
      vfsLookup renamedFile ['/', 'g'] = .ok 4 ∧ (renamedFile.node 4).type = .file ∧
      lookupParentEntry renamedFile ['/', 'h'] = .ok (0, ['h']) ∧
      findChild renamedFile 0 ['h'] = none ∧ Below renamedFile 0 0 0 ∧ FileOn renamedFile 0 4 ∧
      (vfsLink renamedFile ['/', 'g'] ['/', 'h'] (some 7)).1 = .noent := by
  have hlookup : vfsLookup renamedFile ['/','g'] = .ok 4 := by
    rw [vfsLookup_eq _ (by decide)]
    decide
  have hparent : lookupParentEntry renamedFile ['/','h'] = .ok (0, ['h']) := by
    rw [lookupParentEntry,vfsLookupParent,walkPath_eq _ _ (by decide)]
    decide
  refine ⟨⟨⟨⟨rfl,rfl,rfl,?_⟩,Nat.one_pos⟩,⟨rfl,trivial⟩,trivial⟩,hlookup,rfl,hparent,
    by decide,Below.root rfl,?_,?_⟩
  · intro n hn
    cases hn
    rfl
  · intro c hc
    have hlive : renamedFile.live=Function.update smallTree.live 6 true := rfl
    have hc' := hc.1
    rw [hlive,Function.update_apply] at hc'
    split_ifs at hc' with hsix
    · rw [hsix]
      exact ⟨1,Below.step rfl rfl (Below.root rfl)⟩
    · rw [smallTree_live] at hc'
      have hparent := hc.2.1
      have htarget := hc.2.2
      interval_cases c <;> cases htarget
      exact absurd rfl hparent
  · rw [vfsLink,hlookup]
    dsimp only
    rw [hparent]
    decide

end Hojicha.Fs
