import Hojicha.Fs.Found
import Mathlib.Data.List.Find

/-! # Symbolic links -/

namespace Hojicha.Fs

open Framework List

/-- `vfs_symlink`. The length of the target has 32 bits: the scan for the end of a longer one does
not end. -/
def vfsSymlink (s : Vfs) (target linkPath : Path) (new : Option Addr) : Option (Status × Vfs) :=
  if target = [] then some (.invalidArg, s)
  else if 2 ^ 32 ≤ target.length then none
  else
    match lookupParentEntry s linkPath with
    | .error e => some (e, s)
    | .ok (parent, name) => some (vfsSymlinkIn s parent name target new)

def vfsReadlink (s : Vfs) (path : Path) (len : Nat) : Except Status Path :=
  match lookupChildNoFollow s path with
  | .error e => .error e
  | .ok link =>
    if (s.node link).type ≠ .symlink then .error .invalidArg else .ok ((s.node link).target.take len)

variable {roots : Set Addr} {s : Vfs} {d n current next : Addr} {name c : Name} {cs : List Name}
  {node : Node} {left : Nat}

inductive MeetsLinks (s : Vfs) : Addr → List Name → Nat → Prop
  | go {current next : Addr} {c : Name} {cs : List Name} {k : Nat} :
      nextStep s current c = .go next → MeetsLinks s next cs k → MeetsLinks s current (c :: cs) k
  | one {current link : Addr} {c : Name} {cs : List Name} :
      nextStep s current c = .follow link → MeetsLinks s current (c :: cs) 1
  | follow {current link : Addr} {c : Name} {cs : List Name} {target : Path} {k : Nat} :
      nextStep s current c = .follow link → cloneSymlinkTarget s link = .ok target →
      MeetsLinks s (walkStart s (some current) target) (components target ++ cs) k →
      MeetsLinks s current (c :: cs) (k + 1)

private theorem resolve_succ (h : ¬MeetsLinks s current cs (left + 1)) :
    resolve s left current cs=resolve s (left + 1) current cs := by
  induction left generalizing current cs with
  | zero =>
    induction cs generalizing current with
    | nil => rfl
    | cons c cs ih =>
      rw [resolve_cons,resolve_cons]
      cases hstep : nextStep s current c with
      | fail e => rfl
      | go next => exact ih fun hmeets => h (MeetsLinks.go hstep hmeets)
      | follow link => exact absurd (MeetsLinks.one hstep) h
  | succ left ihleft =>
    induction cs generalizing current with
    | nil => rfl
    | cons c cs ih =>
      rw [resolve_cons,resolve_cons]
      cases hstep : nextStep s current c with
      | fail e => rfl
      | go next => exact ih fun hmeets => h (MeetsLinks.go hstep hmeets)
      | follow link =>
        dsimp only
        rw [followLink_succ,followLink_succ]
        cases htarget : cloneSymlinkTarget s link with
        | error e => rfl
        | ok target => exact ihleft fun hmeets => h (MeetsLinks.follow hstep htarget hmeets)

private theorem find?_old {e : Addr} (hshape : Shape roots s) (he : s.live e=true)
    (hd : s.live d=true) (hn : s.live n=false) (c : Name) :
    ((s.node e).children.find? fun k => ((createChild s d n node).node k).name=some c) =
      findChild s e c := by
  rw [findChild]
  apply find?_congr
  intro k hk
  have hlive := (hshape.child e k he hk).1
  rw [createChild_old (·.name) (fun _ => rfl) (ne_of_fresh hn hd).symm (ne_of_fresh hn hlive)]

private theorem findChild_attach {e : Addr} (hshape : Shape roots s) (he : s.live e=true)
    (hd : s.live d=true) (hn : s.live n=false) (hname : node.name=some name)
    (hfree : findChild s d name=none) :
    findChild (createChild s d n node) e c =
      if e=d ∧ c=name then some n else findChild s e c := by
  have hne : n≠d := (ne_of_fresh hn hd).symm
  have hnew : ((createChild s d n node).node n).name=some name := by
    rw [createChild_new hne]
    exact hname
  rw [findChild]
  by_cases hed : e=d
  · subst hed
    rw [createChild_dir hne,Node.addChild]
    cases hfs : (s.node e).fs with
    | initrd =>
      dsimp only
      rw [find?_append,find?_old hshape he hd hn,find?_singleton,hnew]
      by_cases hc : c=name
      · subst hc
        rw [hfree]
        simp
      · simp [hc,Ne.symm hc]
    | devfs =>
      dsimp only
      rw [find?_cons,hnew,find?_old hshape he hd hn]
      by_cases hc : c=name
      · simp [hc]
      · simp [hc,Ne.symm hc]
  · rw [createChild_other (ne_of_fresh hn he) hed,find?_old hshape he hd hn]
    simp [hed]

section Attached

variable (h : Walkable roots s) (hd : s.live d = true) (hn : s.live n = false)

include hd hn

private theorem attach_field {α : Type} (f : Node → α)
    (hf : ∀ node, f (Node.addChild node n)=f node)
    {k : Addr} (hk : s.live k=true) : f ((createChild s d n node).node k)=f (s.node k) :=
  createChild_old f hf (ne_of_fresh hn hd).symm (ne_of_fresh hn hk)

private theorem crossMount_attach {k : Addr} (hk : s.live k=true) :
    crossMount (createChild s d n node) k=crossMount s k := by
  rw [crossMount,crossMount,attach_field hd hn (·.mount) (fun _ => rfl) hk]
  rfl

private theorem opParent_attach {k : Addr} (hk : s.live k=true) :
    opParent (createChild s d n node) k=opParent s k := by
  rw [opParent,opParent,attach_field hd hn (·.parent) (fun _ => rfl) hk]

include h

private theorem componentParent_attach (hcurrent : s.live current=true) :
    componentParent (createChild s d n node) current=componentParent s current := by
  have hroot : (createChild s d n node).root=s.root := rfl
  have hmounts : (createChild s d n node).mount=s.mount := rfl
  have hrootMount : (createChild s d n node).rootMount=s.rootMount := rfl
  rw [componentParent,componentParent,attach_field hd hn (·.mount) (fun _ => rfl) hcurrent,
    opParent_attach hd hn hcurrent,hroot,hmounts,hrootMount]
  apply if_congr Iff.rfl rfl
  cases hmount : (s.node current).mount with
  | none => rfl
  | some m =>
    dsimp only
    apply if_congr Iff.rfl _ rfl
    cases hpoint : (s.mount m).point with
    | none => rfl
    | some point =>
      dsimp only
      rw [opParent_attach hd hn (h.point current m point hcurrent hmount hpoint).1]

section

variable (hname : node.name = some name) (hfree : findChild s d name = none)
    (hcurrent : s.live current = true)
include hname hfree hcurrent

private theorem opLookup_attach {child : Addr} (hchild : opLookup s current c = .ok child) :
    opLookup (createChild s d n node) current c = .ok child := by
  rw [opLookup] at hchild ⊢
  rw [attach_field hd hn (·.type) (fun _ => rfl) hcurrent]
  split_ifs at hchild ⊢ with hdir
  cases hfind : findChild s current c with
  | none =>
    rw [hfind] at hchild
    cases hchild
  | some x =>
    have hx := (h.child current x hcurrent (findChild_spec hfind)).1
    have hother : ¬(current=d ∧ c=name) := by
      intro heq
      rw [heq.1,heq.2,hfree] at hfind
      cases hfind
    rw [hfind] at hchild
    rw [findChild_attach h.toShape hcurrent hd hn hname hfree,if_neg hother,hfind]
    dsimp only
    rw [attach_field hd hn (·.hardTarget) (fun _ => rfl) hx]
    exact hchild

private theorem nextStep_attach (hstep : nextStep s current c = .go next) :
    nextStep (createChild s d n node) current c = .go next := by
  have hdir : (s.node current).type = .dir := dir_of_nextStep c (by simp [hstep])
  have hdir' : ((createChild s d n node).node current).type = .dir := by
    rw [attach_field hd hn (·.type) (fun _ => rfl) hcurrent]
    exact hdir
  rcases nextStep_go hstep with ⟨hc,heq⟩ | ⟨hc,hparent⟩ | ⟨hc,child,hchild,heq⟩
  · rw [hc,nextStep_dot hdir',heq]
  · rw [hc,nextStep_dotdot hdir',componentParent_attach h hd hn hcurrent,hparent]
  · have hlive := (h.found_opLookup hcurrent hchild).live
    have hcross := (h.found_crossMount (h.found_opLookup hcurrent hchild)).live
    rw [nextStep_plain hdir hc,hchild] at hstep
    rw [nextStep_plain hdir' hc,opLookup_attach h hd hn hname hfree hcurrent hchild]
    dsimp only at hstep ⊢
    rw [crossMount_attach hd hn hlive,attach_field hd hn (·.type) (fun _ => rfl) hcross]
    exact hstep

end

private theorem walkStart_attach (path : Path) :
    walkStart (createChild s d n node) none path=walkStart s none path := by
  have hroot : (createChild s d n node).root=s.root := rfl
  have hcwd' : (createChild s d n node).cwd=s.cwd := rfl
  rw [walkStart,walkStart,hroot,hcwd']
  apply crossMount_attach hd hn
  split_ifs
  · exact (h.found_root h.top).live
  · cases hcwd : s.cwd with
    | none => exact (h.found_root h.top).live
    | some e => exact (h.cwd e hcwd).1

private theorem resolve_attach (hname : node.name=some name) (hfree : findChild s d name=none)
    (hcurrent : Found s current) {e : Addr} (hlinks : meetsLink s current cs=false)
    (hend : resolve s left current cs = .ok e) :
    resolve (createChild s d n node) left current cs = .ok e ∧
      meetsLink (createChild s d n node) current cs=false := by
  induction cs generalizing current with
  | nil => exact ⟨hend,rfl⟩
  | cons c cs ih =>
    rw [resolve_cons] at hend
    rw [meetsLink] at hlinks
    cases hstep : nextStep s current c with
    | fail e =>
      rw [hstep] at hend
      cases hend
    | go next =>
      rw [hstep] at hend hlinks
      rw [resolve_cons,meetsLink,nextStep_attach h hd hn hname hfree hcurrent.live hstep]
      exact ih (h.found_go hcurrent hstep) hlinks hend
    | follow link =>
      rw [hstep] at hlinks
      cases hlinks

end Attached

def linkNode (fs : FileSystem) (name : Name) (d : Addr) (target : Path) : Node :=
  { newNode fs .symlink name d with target := target, len := target.length }

private theorem vfsSymlinkIn_ok {target : Path} {new : Option Addr} {s' : Vfs} (hd : s.live d=true)
    (hfresh : FreshAddr s new) (h : vfsSymlinkIn s d name target new=(.ok, s')) :
    ∃ n, new=some n ∧ findChild s d name=none ∧
      s'=createChild s d n (linkNode (s.node d).fs name d target) := by
  rw [vfsSymlinkIn] at h
  split_ifs at h with hallowed
  · exact absurd (Prod.mk.inj h).1 hallowed
  rw [opSymlink] at h
  split_ifs at h with hbad hfound
  · cases (Prod.mk.inj h).1
  · cases (Prod.mk.inj h).1
  cases new with
  | none => cases (Prod.mk.inj h).1
  | some n =>
    have hne : n≠d := (ne_of_fresh (hfresh n rfl) hd).symm
    have hlinked : 0<((createChild s d n (linkNode (s.node d).fs name d target)).node n).linkCount := by
      rw [createChild_new hne]
      exact Nat.one_pos
    refine ⟨n,rfl,not_not.mp hfound,?_⟩
    rw [← release_borrow (Or.inr hlinked)]
    exact (Prod.mk.inj h).2.symm

private theorem vfsSymlink_ok {target linkPath : Path} {new : Option Addr} {s' : Vfs}
    (h : Walkable roots s) (hfresh : FreshAddr s new)
    (hparent : lookupParentEntry s linkPath = .ok (d, name))
    (hok : vfsSymlink s target linkPath new=some (.ok, s')) :
    target≠[] ∧ ∃ n, new=some n ∧ findChild s d name=none ∧
      s'=createChild s d n (linkNode (s.node d).fs name d target) := by
  rw [vfsSymlink] at hok
  split_ifs at hok with hnil
  · cases (Prod.mk.inj (Option.some.inj hok)).1
  rw [hparent] at hok
  have hd := (h.found_parent hparent).live
  exact ⟨hnil,vfsSymlinkIn_ok hd hfresh (Option.some.inj hok)⟩

section NewLink

variable (target : Path) {p : EntryPath} (h : Walkable roots s) (hd : s.live d = true)
  (hn : s.live n = false) (hfree : findChild s d p.last = none)
  (hdir : lookupDir s p = .ok d)
  (hlinks : meetsLink s (walkStart s none p.path) (components p.dir) = false)

include h hd hn hfree hdir hlinks

private theorem lookupDir_newLink :
    lookupDir (createChild s d n (linkNode (s.node d).fs p.last d target)) p = .ok d ∧
      meetsLink (createChild s d n (linkNode (s.node d).fs p.last d target))
        (walkStart (createChild s d n (linkNode (s.node d).fs p.last d target)) none p.path)
        (components p.dir)=false := by
  rw [lookupDir_eq] at hdir ⊢
  rw [walkStart_attach h hd hn]
  apply resolve_attach h hd hn rfl hfree _ hlinks hdir
  apply h.found_walkStart
  intro e he
  cases he

omit hdir hlinks in
private theorem opLookup_newLink (htype : (s.node d).type = .dir) :
    opLookup (createChild s d n (linkNode (s.node d).fs p.last d target)) d p.last = .ok n := by
  rw [opLookup,attach_field hd hn (·.type) (fun _ => rfl) hd,if_neg (not_not.mpr htype),
    findChild_attach h.toShape hd hd hn rfl hfree,if_pos ⟨rfl,rfl⟩]
  dsimp only
  rw [createChild_new (ne_of_fresh hn hd).symm]
  rfl

private theorem vfsReadlink_newLink (htype : (s.node d).type = .dir) (len : Nat) :
    vfsReadlink (createChild s d n (linkNode (s.node d).fs p.last d target)) p.path len =
      .ok (target.take len) := by
  have hlookup := lookupDir_newLink target h hd hn hfree hdir hlinks
  rw [vfsReadlink,lookupChildNoFollow_entry,hlookup.2,hlookup.1,if_neg Bool.false_ne_true]
  simp only [Except.bind]
  rw [opLookup_newLink target h hd hn hfree htype]
  dsimp only
  rw [createChild_new (ne_of_fresh hn hd).symm]
  exact if_neg (not_not.mpr rfl)

private theorem vfsLookup_newLink :
    vfsLookup (createChild s d n (linkNode (s.node d).fs p.last d target)) p.path =
      resolve (createChild s d n (linkNode (s.node d).fs p.last d target)) VFS_SYMLINK_MAX_DEPTH d
        [p.last] := by
  have hlookup := lookupDir_newLink target h hd hn hfree hdir hlinks
  rw [vfsLookup_entry _ p hlookup.2,hlookup.1]
  rfl

omit hdir hlinks in
/-- The link leads where its target leads, if the target fits into the buffer for it. -/
private theorem resolve_newLink (htype : (s.node d).type = .dir) (hplain : Plain p.last)
    (htarget : target≠[]) :
    resolve (createChild s d n (linkNode (s.node d).fs p.last d target)) VFS_SYMLINK_MAX_DEPTH d
        [p.last] =
      if target.length<VFS_SYMLINK_TARGET_MAX then
        resolve (createChild s d n (linkNode (s.node d).fs p.last d target)) 39
          (walkStart (createChild s d n (linkNode (s.node d).fs p.last d target)) (some d) target)
          (components target)
      else .error .invalidArg := by
  have hnode : (createChild s d n (linkNode (s.node d).fs p.last d target)).node n =
      linkNode (s.node d).fs p.last d target := createChild_new (ne_of_fresh hn hd).symm
  have htype' : ((createChild s d n (linkNode (s.node d).fs p.last d target)).node d).type = .dir := by
    rw [attach_field hd hn (·.type) (fun _ => rfl) hd]
    exact htype
  have hcross : crossMount (createChild s d n (linkNode (s.node d).fs p.last d target)) n=n := by
    rw [crossMount,hnode]
    rfl
  have hlink : ((createChild s d n (linkNode (s.node d).fs p.last d target)).node n).type =
      .symlink := by
    rw [hnode]
    rfl
  have hstored : ((createChild s d n (linkNode (s.node d).fs p.last d target)).node n).target =
      target := by
    rw [hnode]
    rfl
  have hmax : VFS_SYMLINK_MAX_DEPTH=39+1 := rfl
  have hpos : target.length≠0 := by simpa using htarget
  rw [resolve_plain htype' hplain,opLookup_newLink target h hd hn hfree htype]
  simp only [Except.bind,hcross,hlink,if_true]
  rw [hmax,followLink_succ,cloneSymlinkTarget,hstored,length_take]
  by_cases hshort : target.length<VFS_SYMLINK_TARGET_MAX
  · rw [if_pos hshort,if_neg (by omega),take_of_length_le hshort.le]
    simp only [Except.bind,append_nil]
  · rw [if_neg hshort,if_pos (by omega)]
    rfl

end NewLink

/-- The link leads where its target leads: the target fits into the buffer of the lookup, and the
name is one that a walk looks up. -/
def FollowsTarget (s : Vfs) (d : Addr) (name : Name) (target : Path) : Prop :=
  if name = ['.'] then vfsLookupAt s (some d) target = .ok d
  else if name = ['.', '.'] then vfsLookupAt s (some d) target = componentParent s d
  else target.length < VFS_SYMLINK_TARGET_MAX ∨ vfsLookupAt s (some d) target = .error .invalidArg

/-- A new link is read back in full, and its lookup gives what the lookup of its target from the
directory of the link gives, if and only if the target is short enough, or the lookup of the target
gives the same by chance. -/
theorem symlink_resolves_iff (s : Vfs) (h : Walkable roots s) (target linkPath : Path)
    (new : Option Addr) (hfresh : FreshAddr s new) (d : Addr) (name : Name)
    (hparent : lookupParentEntry s linkPath = .ok (d, name)) (s' : Vfs)
    (hok : vfsSymlink s target linkPath new = some (.ok, s'))
    (hfew : ¬MeetsLinks s' (walkStart s' (some d) target) (components target)
      VFS_SYMLINK_MAX_DEPTH) :
    ((∀ len, vfsReadlink s' linkPath len = .ok (target.take len)) ∧
        vfsLookup s' linkPath = vfsLookupAt s' (some d) target) ↔
      FollowsTarget s' d name target := by
  obtain ⟨hne,n,rfl,hfree,heq⟩ := vfsSymlink_ok h hfresh hparent hok
  obtain ⟨p,rfl,rfl,hdir,htype,hlinks⟩ := lookupParentEntry_cases hparent
  have hd := (h.found_parent hparent).live
  have hn := hfresh n rfl
  have hread := vfsReadlink_newLink target h hd hn hfree hdir hlinks htype
  have hlookup := vfsLookup_newLink target h hd hn hfree hdir hlinks
  have hresolve := resolve_newLink target h hd hn hfree htype
  have htype' : ((createChild s d n (linkNode (s.node d).fs p.last d target)).node d).type = .dir := by
    rw [attach_field hd hn (·.type) (fun _ => rfl) hd]
    exact htype
  rw [← heq] at hread hlookup hresolve htype'
  have hat : vfsLookupAt s' (some d) target =
      resolve s' VFS_SYMLINK_MAX_DEPTH (walkStart s' (some d) target) (components target) := by
    rw [vfsLookupAt,walkPath_eq s' (some d) hne,resolve]
  rw [FollowsTarget,hlookup]
  simp only [hread,implies_true,true_and]
  split_ifs with hdot hdotdot
  · rw [hdot,resolve_dot htype']
    exact eq_comm
  · rw [hdotdot,resolve_dotdot htype']
    cases componentParent s' d with
    | error e => exact eq_comm
    | ok parent => exact eq_comm
  · rw [hresolve ⟨hdot,hdotdot⟩ hne]
    split_ifs with hshort
    · rw [hat]
      simp only [hshort,true_or,iff_true]
      exact resolve_succ hfew
    · simp only [hshort,false_or]
      exact eq_comm

def newEntryPath : EntryPath := ⟨['/'], ['k'], 0, by decide, by decide, by decide⟩

private theorem lookupParent_newEntryPath :
    lookupParentEntry smallTree newEntryPath.path = .ok (0, ['k']) := by
  rw [lookupParentEntry,vfsLookupParent,walkPath_eq _ _ (by decide)]
  decide

private theorem fresh_smallTree : FreshAddr smallTree (some 6) := by
  intro n hn
  cases hn
  rfl

private theorem vfsSymlink_smallTree {target : Path} (hne : target≠[])
    (hlen : target.length<2 ^ 32) : vfsSymlink smallTree target newEntryPath.path (some 6) =
      some (vfsSymlinkIn smallTree 0 ['k'] target (some 6)) := by
  rw [vfsSymlink,if_neg hne,if_neg (not_le.mpr hlen),lookupParent_newEntryPath]

/-- A link to `/f`. -/
theorem symlink_resolves_smallTree :
    vfsLookup (vfsSymlinkIn smallTree 0 ['k'] ['/', 'f'] (some 6)).2 newEntryPath.path =
      vfsLookupAt (vfsSymlinkIn smallTree 0 ['k'] ['/', 'f'] (some 6)).2 (some 0) ['/', 'f'] := by
  have hok : vfsSymlink smallTree ['/','f'] newEntryPath.path (some 6) =
      some (.ok, (vfsSymlinkIn smallTree 0 ['k'] ['/','f'] (some 6)).2) := by
    rw [vfsSymlink_smallTree (by decide) (by decide)]
    exact congrArg some (Prod.ext rfl rfl)
  have hstep : nextStep (vfsSymlinkIn smallTree 0 ['k'] ['/','f'] (some 6)).2
      (walkStart (vfsSymlinkIn smallTree 0 ['k'] ['/','f'] (some 6)).2 (some 0) ['/','f']) ['f'] =
      .go 4 := by
    decide
  apply ((symlink_resolves_iff smallTree walkable_smallTree ['/','f'] newEntryPath.path (some 6)
    fresh_smallTree 0 ['k'] lookupParent_newEntryPath _ hok ?_).mpr ?_).2
  · intro hmeets
    have hcomps : components ['/','f']=[['f']] := by decide
    rw [hcomps] at hmeets
    cases hmeets with
    | go _ hrest => cases hrest
    | follow hlink _ _ =>
      rw [hstep] at hlink
      cases hlink
  · rw [FollowsTarget,if_neg (by decide),if_neg (by decide)]
    exact Or.inl (by decide)

def longTarget : Path := List.replicate 1023 '/' ++ ['f']

private theorem components_slashes (k : Nat) (w : Path) :
    components (List.replicate k '/'++w)=components w := by
  induction k with
  | zero => rfl
  | succ k ih =>
    rw [replicate_succ,cons_append,components,fields_cons_sep]
    exact ih

/-- A link with a long target is created, and its lookup fails. -/
theorem long_symlink_fails :
    ∃ s', vfsSymlink smallTree longTarget newEntryPath.path (some 6) = some (.ok, s') ∧
      vfsLookup s' newEntryPath.path = .error .invalidArg ∧
      vfsLookupAt s' (some 0) longTarget = .ok 4 := by
  have hlen : longTarget.length=1024 := by
    rw [longTarget,length_append,length_replicate]
    rfl
  have hne : longTarget≠[] := append_ne_nil_of_right_ne_nil _ (cons_ne_nil _ _)
  have hstatus : (vfsSymlinkIn smallTree 0 ['k'] longTarget (some 6)).1 = .ok := by
    rw [vfsSymlinkIn,if_neg (by decide),opSymlink,hlen,if_neg (by decide),if_neg (by decide)]
    rfl
  have hpair : vfsSymlinkIn smallTree 0 ['k'] longTarget (some 6) =
      (.ok, (vfsSymlinkIn smallTree 0 ['k'] longTarget (some 6)).2) := by
    rw [← hstatus]
  obtain ⟨n,hn,_,hcreated⟩ := vfsSymlinkIn_ok rfl fresh_smallTree hpair
  cases hn
  have hdir : lookupDir smallTree newEntryPath = .ok 0 := by
    rw [lookupDir_eq]
    decide
  refine ⟨createChild smallTree 0 6 (linkNode .initrd ['k'] 0 longTarget),?_,?_,?_⟩
  · rw [vfsSymlink_smallTree hne (by rw [hlen]; decide)]
    rw [hpair,hcreated]
    rfl
  · have hlookup := vfsLookup_newLink longTarget walkable_smallTree (d := 0) (n := 6)
      (p := newEntryPath) rfl rfl rfl hdir (by decide)
    have hresolve := resolve_newLink longTarget walkable_smallTree (d := 0) (n := 6)
      (p := newEntryPath) rfl rfl rfl rfl (by decide) hne
    rw [if_neg (by rw [hlen]; decide)] at hresolve
    exact hlookup.trans hresolve
  · rw [vfsLookupAt,walkPath_eq _ _ hne,longTarget,components_slashes]
    decide

end Hojicha.Fs
