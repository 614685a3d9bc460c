import Hojicha.Fs.Walk

/-!
# The parent of an entry

`vfs_lookup_parent` stops in front of the last component. A link before it is resolved together
with everything behind it.
-/

namespace Hojicha.Fs

open Framework List

/-- A path with at least one component: what is in front of the last one, the last one, and the
slashes after it. -/
structure EntryPath where
  dir : Path
  last : Name
  slashes : Nat
  dir_ends : dir = [] ∨ dir.getLast? = some '/'
  last_ne : last ≠ []
  last_slash : '/' ∉ last

def EntryPath.path (p : EntryPath) : Path := p.dir ++ p.last ++ List.replicate p.slashes '/'

private theorem components_replicate (n : Nat) : components (List.replicate n '/')=[] := by
  induction n with
  | zero => rfl
  | succ n ih => rw [replicate_succ,components,fields_cons_sep,← components,ih]

private theorem components_trailing (w : Name) (n : Nat) :
    components (w++List.replicate n '/')=components w := by
  cases n with
  | zero => rw [replicate_zero,append_nil]
  | succ n =>
    rw [replicate_succ,components,fields_append,← components,← components,
      components_replicate,append_nil]

private theorem EntryPath.components_path (p : EntryPath) :
    components p.path=components p.dir++[p.last] := by
  have hlast : components p.last=[p.last] := fields_self p.last_ne p.last_slash
  rw [EntryPath.path,components_trailing]
  rcases p.dir_ends with hnil | hend
  · rw [hnil,nil_append,hlast]
    rfl
  · obtain ⟨q,hq⟩ := getLast?_eq_some_iff.mp hend
    have hdir : components p.dir=components q := by
      rw [hq,← replicate_one]
      exact components_trailing q 1
    rw [hdir,hq,append_assoc,singleton_append,components,fields_append,
      ← components,← components,hlast]

private theorem exists_entryPath {path : Path} (h : components path≠[]) :
    ∃ p : EntryPath, p.path=path := by
  induction path using List.reverseRecOn with
  | nil => exact absurd rfl h
  | append_singleton path c ih =>
    by_cases hc : c = '/'
    · subst hc
      obtain ⟨p,hp⟩ := ih (by rwa [← components_trailing path 1])
      refine ⟨{ p with slashes := p.slashes+1 },?_⟩
      rw [EntryPath.path,replicate_succ',← append_assoc,← hp]
      rfl
    · by_cases hend : path=[] ∨ path.getLast? = some '/'
      · refine ⟨⟨path,[c],0,hend,by simp,by simpa using Ne.symm hc⟩,?_⟩
        rw [EntryPath.path,replicate_zero,append_nil]
      rw [not_or] at hend
      obtain ⟨q,b,rfl⟩ := eq_nil_or_concat path |>.resolve_left hend.1
      rw [concat_eq_append] at hend ih ⊢
      have hb : b ≠ '/' := by simpa using hend.2
      have hcomp : components (q++[b])≠[] := by
        intro hnil
        exact hb (eq_sep_of_fields_eq_nil hnil b (by simp))
      obtain ⟨p,hp⟩ := ih hcomp
      have hslashes : p.slashes=0 := by
        cases hn : p.slashes with
        | zero => rfl
        | succ n =>
          rw [EntryPath.path,hn,replicate_succ',← append_assoc] at hp
          have hlast := congrArg List.getLast? hp
          rw [getLast?_concat,getLast?_concat,Option.some.injEq] at hlast
          exact absurd hlast.symm hb
      refine ⟨⟨p.dir,p.last++[c],0,p.dir_ends,by simp,?_⟩,?_⟩
      · simp [p.last_slash,Ne.symm hc]
      · rw [EntryPath.path,hslashes] at hp
        rw [EntryPath.path,← hp]
        simp

/-- The directory in front of the last component, which is where the walk starts if there is
nothing in front of it. -/
def lookupDir (s : Vfs) (p : EntryPath) : Except Status Addr :=
  if p.dir = [] then .ok (walkStart s none p.path) else vfsLookup s p.dir

theorem lookupDir_eq (s : Vfs) (p : EntryPath) :
    lookupDir s p =
      resolve s VFS_SYMLINK_MAX_DEPTH (walkStart s none p.path) (components p.dir) := by
  rw [lookupDir]
  split_ifs with h
  · rw [h]
    rfl
  · have hhead : p.path.head? = p.dir.head? := by
      rw [EntryPath.path,append_assoc]
      exact head?_append_of_ne_nil _ h
    rw [vfsLookup_eq s h,walkStart,walkStart,hhead]

def meetsLink (s : Vfs) : Addr → List Name → Bool
  | _, [] => false
  | current, c :: cs =>
    match nextStep s current c with
    | .fail _ => false
    | .go next => meetsLink s next cs
    | .follow _ => true

variable {s : Vfs} {left : Nat} {current : Addr}

/-- Without a link on the way, a walk is a walk over the first components and then over the rest. -/
private theorem resolve_append {init : List Name} (h : meetsLink s current init=false)
    (rest : List Name) :
    resolve s left current (init++rest) =
      (resolve s left current init).bind fun d => resolve s left d rest := by
  induction init generalizing current with
  | nil => rfl
  | cons c cs ih =>
    rw [cons_append,resolve_cons,resolve_cons]
    rw [meetsLink] at h
    cases hstep : nextStep s current c with
    | fail e => rfl
    | go next =>
      rw [hstep] at h
      exact ih h
    | follow link =>
      rw [hstep] at h
      exact absurd h (by simp)

private theorem walkNames_stop (init : List Name) (last : Name) :
    walkNames s (followLink s left) true current (init++[last]) =
      if meetsLink s current init then
        (resolve s left current (init++[last])).map (⟨·, none⟩)
      else (resolve s left current init).bind fun d =>
        if (s.node d).type ≠ .dir then .error .notdir else .ok ⟨d, some last⟩ := by
  induction init generalizing current with
  | nil =>
    rw [nil_append,walkNames,meetsLink,if_neg Bool.false_ne_true,resolve_nil]
    by_cases hdir : (s.node current).type = .dir
    · simp only [Except.bind,hdir,and_self,if_true,ne_eq,not_true,if_false]
    · simp only [Except.bind,ne_eq,hdir,not_false_eq_true,if_true]
  | cons c cs ih =>
    rw [cons_append,walkNames_cons (by simp),resolve_cons,resolve_cons,meetsLink]
    cases nextStep s current c with
    | fail e => rfl
    | go next => exact ih
    | follow link =>
      dsimp only
      cases followLink s left current link (cs++[last]) with
      | error e => rfl
      | ok resolved => rfl

private theorem EntryPath.path_ne_nil (p : EntryPath) : p.path≠[] := by
  rw [EntryPath.path]
  simp [p.last_ne]

private theorem vfsLookupParent_eq (s : Vfs) (p : EntryPath) :
    vfsLookupParent s p.path =
      if meetsLink s (walkStart s none p.path) (components p.dir) then
        (vfsLookup s p.path).map (⟨·, none⟩)
      else (lookupDir s p).bind fun d =>
        if (s.node d).type ≠ .dir then .error .notdir else .ok ⟨d, some p.last⟩ := by
  rw [vfsLookupParent,walkPath_eq s none p.path_ne_nil,p.components_path,walkNames_stop,
    lookupDir_eq,vfsLookup_eq s p.path_ne_nil,p.components_path]

theorem lookupParentEntry_cases {path : Path} {dir : Addr} {name : Name}
    (h : lookupParentEntry s path = .ok (dir, name)) :
    ∃ p : EntryPath, path=p.path ∧ name=p.last ∧ lookupDir s p = .ok dir ∧
      (s.node dir).type = .dir ∧
      meetsLink s (walkStart s none p.path) (components p.dir)=false := by
  rw [lookupParentEntry] at h
  by_cases hcomp : components path=[]
  · by_cases hnil : path=[]
    · subst hnil
      rw [vfsLookupParent,walkPath] at h
      simp at h
    · rw [vfsLookupParent,walkPath_eq s none hnil,hcomp,walkNames] at h
      simp at h
  obtain ⟨p,rfl⟩ := exists_entryPath hcomp
  rw [vfsLookupParent_eq] at h
  by_cases hlink : meetsLink s (walkStart s none p.path) (components p.dir)=true
  · rw [if_pos hlink] at h
    cases hv : vfsLookup s p.path with
    | error e => simp [hv,Except.map] at h
    | ok n => simp [hv,Except.map] at h
  rw [if_neg hlink] at h
  cases hd : lookupDir s p with
  | error e => simp [hd,Except.bind] at h
  | ok d =>
    by_cases hdir : (s.node d).type = .dir
    · have heq : d=dir ∧ p.last=name := by
        simpa [hd,Except.bind,hdir,p.last_ne] using h
      rw [← heq.1,← heq.2]
      exact ⟨p,rfl,rfl,hd,hdir,Bool.eq_false_iff.mpr hlink⟩
    · simp [hd,Except.bind,hdir] at h

/-- Without a link on the way, the whole path leads where its last component leads from the
directory. -/
theorem vfsLookup_entry (s : Vfs) (p : EntryPath)
    (h : meetsLink s (walkStart s none p.path) (components p.dir)=false) :
    vfsLookup s p.path =
      (lookupDir s p).bind fun d => resolve s VFS_SYMLINK_MAX_DEPTH d [p.last] := by
  rw [vfsLookup_eq s p.path_ne_nil,p.components_path,resolve_append h,lookupDir_eq]

def lookupEntry (s : Vfs) (dir : Addr) (name : Name) : Except Status Addr :=
  (opLookup s dir name).bind fun child =>
    if (s.node (crossMount s child)).type = .symlink then
      resolveSymlinkComponent s VFS_SYMLINK_MAX_DEPTH dir (crossMount s child) []
    else .ok (crossMount s child)

private theorem resolve_entry {dir : Addr} (hdir : (s.node dir).type = .dir) {name : Name}
    (hname : Plain name) :
    resolve s VFS_SYMLINK_MAX_DEPTH dir [name]=lookupEntry s dir name := by
  rw [resolve_plain hdir hname,lookupEntry]
  cases opLookup s dir name with
  | error e => rfl
  | ok child =>
    have hfollow := resolveSymlinkComponent_eq s VFS_SYMLINK_MAX_DEPTH dir (crossMount s child) []
      (by simp [AtComponent])
    simp only [Except.bind,hfollow]
    rfl

/-- If the path without its last component leads to a directory, then `vfs_lookup_parent` returns
the directory and the last component, and the lookup of the one in the other agrees with the lookup
of the path, if and only if there is no link in front of the last component. -/
theorem vfs_lookup_parent_iff (s : Vfs) (p : EntryPath) (d : Addr)
    (hd : lookupDir s p = .ok d) (hdir : (s.node d).type = .dir) :
    (vfsLookupParent s p.path = .ok ⟨d, some p.last⟩ ∧
      (Plain p.last → vfsLookup s p.path = lookupEntry s d p.last)) ↔
    meetsLink s (walkStart s none p.path) (components p.dir) = false := by
  constructor
  · intro h
    by_contra hlink
    rw [Bool.not_eq_false] at hlink
    rw [vfsLookupParent_eq,if_pos hlink] at h
    cases hlookup : vfsLookup s p.path with
    | error e => simp [hlookup,Except.map] at h
    | ok n => simp [hlookup,Except.map] at h
  · intro hlink
    constructor
    · rw [vfsLookupParent_eq,hlink,if_neg Bool.false_ne_true,hd]
      simp only [Except.bind,hdir,ne_eq,not_true,if_false]
    · intro hlast
      rw [vfsLookup_entry s p hlink,hd]
      exact resolve_entry hdir hlast

def entryInDir : EntryPath := ⟨['d', '/'], ['e'], 0, by decide, by decide, by decide⟩

def entryBehindLink : EntryPath := ⟨['l', '/'], ['e'], 0, by decide, by decide, by decide⟩

theorem lookup_parent_of_entryInDir :
    vfsLookupParent smallTree entryInDir.path = .ok ⟨1, some ['e']⟩ := by
  have hd : lookupDir smallTree entryInDir = .ok 1 := by
    rw [lookupDir_eq]
    decide
  exact ((vfs_lookup_parent_iff smallTree entryInDir 1 hd rfl).mpr (by decide)).1

theorem lookup_parent_of_entryBehindLink :
    lookupDir smallTree entryBehindLink = .ok 1 ∧
      vfsLookupParent smallTree entryBehindLink.path = .ok ⟨3, none⟩ := by
  rw [lookupDir_eq,vfsLookupParent,walkPath_eq _ _ entryBehindLink.path_ne_nil]
  decide

def FinalLink (s : Vfs) (p : EntryPath) : Prop :=
  ∃ d child, lookupDir s p = .ok d ∧ opLookup s d p.last = .ok child ∧
    (s.node (crossMount s child)).type = .symlink

/-- When the raw lookup of the last component gives what a full walk gives. -/
def LookupAgrees (s : Vfs) (p : EntryPath) : Prop :=
  if meetsLink s (walkStart s none p.path) (components p.dir) then
    ∃ e, vfsLookup s p.path = .error e
  else ∀ d, lookupDir s p = .ok d → (s.node d).type = .dir →
    if p.last = ['.'] then opLookup s d p.last = .ok d
    else if p.last = ['.', '.'] then opLookup s d p.last = componentParent s d
    else ∀ child, opLookup s d p.last = .ok child → crossMount s child = child

private theorem pathIsRoot_entry (p : EntryPath) : pathIsRoot p.path=false := by
  have hne : skipSlashes p.path≠[] := by
    intro h
    have hcomp := p.components_path
    rw [← components_skipSlashes,h] at hcomp
    exact absurd hcomp.symm (by simp [components,fields])
  simpa [pathIsRoot] using hne

theorem lookupChildNoFollow_entry (s : Vfs) (p : EntryPath) :
    lookupChildNoFollow s p.path =
      if meetsLink s (walkStart s none p.path) (components p.dir) then
        (vfsLookup s p.path).bind fun _ => .error .invalidArg
      else (lookupDir s p).bind fun d => opLookup s d p.last := by
  rw [lookupChildNoFollow,lookupParentEntry,vfsLookupParent_eq]
  split_ifs with hlink
  · cases vfsLookup s p.path with
    | error e => rfl
    | ok n => rfl
  · cases lookupDir s p with
    | error e => rfl
    | ok d =>
      have hlen : p.last.length≠0 := by simpa using p.last_ne
      by_cases hdir : (s.node d).type = .dir
      · simp [Except.bind,hdir,hlen]
      · simp [Except.bind,hdir,opLookup]

private theorem EntryPath.parts_eq {p q : EntryPath} (h : p.path=q.path) :
    components p.dir=components q.dir ∧ p.last=q.last := by
  have hcomp := p.components_path
  rw [h,q.components_path] at hcomp
  obtain ⟨hdir,hlast⟩ := append_inj' hcomp rfl
  exact ⟨hdir.symm,(List.cons.inj hlast).1.symm⟩

private theorem resolve_last_iff {d : Addr} (hdir : (s.node d).type = .dir) {last : Name}
    (hfinal : ∀ child, opLookup s d last = .ok child →
      (s.node (crossMount s child)).type ≠ .symlink) :
    resolve s left d [last]=opLookup s d last ↔
      if last=['.'] then opLookup s d last = .ok d
      else if last=['.', '.'] then opLookup s d last=componentParent s d
      else ∀ child, opLookup s d last = .ok child → crossMount s child=child := by
  by_cases hdot : last=['.']
  · subst hdot
    rw [if_pos rfl,resolve_dot hdir,resolve_nil]
    exact eq_comm
  rw [if_neg hdot]
  by_cases hdotdot : last=['.','.']
  · subst hdotdot
    have hparent : ((componentParent s d).bind fun parent => resolve s left parent []) =
        componentParent s d := by
      cases componentParent s d with
      | error e => rfl
      | ok parent => rfl
    rw [if_pos rfl,resolve_dotdot hdir,hparent]
    exact eq_comm
  rw [if_neg hdotdot,resolve_plain hdir ⟨hdot,hdotdot⟩]
  cases hchild : opLookup s d last with
  | error e => simp [Except.bind]
  | ok child => simp [Except.bind,hfinal child hchild]

private theorem stat_eq_lstat_entry (s : Vfs) (p : EntryPath) (hfinal : ¬FinalLink s p) :
    vfsStat s p.path=vfsLstat s p.path ↔ LookupAgrees s p := by
  rw [vfsStat,vfsLstat,pathIsRoot_entry,if_neg Bool.false_ne_true,lookupChildNoFollow_entry,
    LookupAgrees]
  by_cases hlink : meetsLink s (walkStart s none p.path) (components p.dir)=true
  · rw [if_pos hlink,if_pos hlink]
    cases vfsLookup s p.path with
    | error e => simp [Except.bind]
    | ok n => simp [Except.bind]
  rw [if_neg hlink,if_neg hlink,vfsLookup_entry s p (Bool.eq_false_iff.mpr hlink)]
  cases hd : lookupDir s p with
  | error e => simp [Except.bind]
  | ok d =>
    by_cases hdir : (s.node d).type = .dir
    swap
    · simp [Except.bind,resolve_notdir hdir,opLookup,hdir]
    simp only [Except.bind,Except.ok.injEq,forall_eq',hdir,true_implies]
    apply resolve_last_iff hdir
    intro child hchild hsymlink
    exact hfinal ⟨d,child,hd,hchild,hsymlink⟩

/-- `vfs_stat` and `vfs_lstat` describe the same node or fail alike, for a path whose last component
is not a link, if and only if the raw lookup of that component agrees. -/
theorem vfs_stat_eq_lstat_iff (s : Vfs) (path : Path)
    (hfinal : ∀ p : EntryPath, p.path = path → ¬FinalLink s p) :
    vfsStat s path = vfsLstat s path ↔ ∀ p : EntryPath, p.path = path → LookupAgrees s p := by
  by_cases hcomp : components path=[]
  · -- only slashes: both calls are `vfs_lookup`
    have hroot : pathIsRoot path=true := by
      rw [← components_skipSlashes,components_eq_nil (atComponent_skipSlashes path)] at hcomp
      simpa [pathIsRoot] using hcomp
    apply iff_of_true
    · rw [vfsStat,vfsLstat,if_pos hroot]
    · intro p hp
      rw [← hp,p.components_path] at hcomp
      exact absurd hcomp (by simp)
  · constructor
    · intro h p hp
      exact (stat_eq_lstat_entry s p (hfinal p hp)).mp (hp ▸ h)
    · intro h
      obtain ⟨p,hp⟩ := exists_entryPath hcomp
      rw [← hp]
      exact (stat_eq_lstat_entry s p (hfinal p hp)).mpr (h p hp)

theorem stat_eq_lstat_in_dir :
    vfsStat smallTree entryInDir.path = vfsLstat smallTree entryInDir.path := by
  have hdir : ∀ p : EntryPath, p.path=entryInDir.path → lookupDir smallTree p = .ok 1 := by
    intro p hp
    rw [lookupDir_eq,(EntryPath.parts_eq hp).1,hp]
    decide
  have hchild : opLookup smallTree 1 ['e'] = .ok 3 := by decide
  refine (vfs_stat_eq_lstat_iff smallTree entryInDir.path ?_).mpr ?_
  · intro p hp hfinal
    obtain ⟨d,child,hd,hlookup,hlink⟩ := hfinal
    rw [hdir p hp,Except.ok.injEq] at hd
    rw [← hd,(EntryPath.parts_eq hp).2] at hlookup
    rw [← Except.ok.inj (hchild.symm.trans hlookup)] at hlink
    exact absurd hlink (by decide)
  · intro p hp
    rw [LookupAgrees,(EntryPath.parts_eq hp).1,hp,(EntryPath.parts_eq hp).2,if_neg (by decide)]
    intro d hd _
    rw [hdir p hp,Except.ok.injEq] at hd
    subst hd
    rw [if_neg (by decide),if_neg (by decide)]
    intro child hlookup
    rw [← Except.ok.inj (hchild.symm.trans hlookup)]
    decide

def dotInDir : EntryPath := ⟨['d', '/'], ['.'], 0, by decide, by decide, by decide⟩

theorem stat_ne_lstat :
    vfsStat smallTree dotInDir.path = .ok 1 ∧
      vfsLstat smallTree dotInDir.path = .error .noent := by
  rw [vfsStat,vfsLstat,pathIsRoot_entry,if_neg Bool.false_ne_true,lookupChildNoFollow_entry,
    lookupDir_eq,vfsLookup_eq _ dotInDir.path_ne_nil]
  decide

end Hojicha.Fs
