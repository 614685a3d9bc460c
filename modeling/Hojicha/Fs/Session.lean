import Hojicha.Framework.Trace
import Hojicha.Fs.Tree

/-!
# Processes that change the tree

Processes hold references to nodes through open files and working directories.
-/

namespace Hojicha.Fs

open Framework List Or

variable {roots : Set Addr} {s : Vfs} {d c n t : Addr} {name : Name} {new : Option Addr}
  {node : Node} {α : Type} {op : TreeOp}

theorem release_borrow (h : 0<(s.node n).refcount ∨ 0<(s.node n).linkCount) :
    vfsVnodeRelease (vfsVnodeBorrow s n) n=s := by
  have hcount : ((vfsVnodeBorrow s n).node n).refcount=(s.node n).refcount+1 := by
    rw [vfsVnodeBorrow,modify_node,if_pos rfl]
    rfl
  have hlinks : ((vfsVnodeBorrow s n).node n).linkCount=(s.node n).linkCount := by
    rw [vfsVnodeBorrow,modify_node,if_pos rfl]
    rfl
  rw [vfsVnodeRelease_held n hcount (by rw [hlinks]; exact h)]
  apply Vfs.ext
  · funext k
    rw [modify_node]
    split_ifs with hk
    · rw [hk,vfsVnodeBorrow,modify_node,if_pos rfl]
      rfl
    · rw [vfsVnodeBorrow,modify_node,if_neg hk]
  all_goals rfl

def CreatesEntry (s : Vfs) (d : Addr) (name : Name) (new : Option Addr) (r : Created) : Prop :=
  (∃ status, r = (status, none, s)) ∨
    ∃ n node, new = some n ∧ (s.node d).type = .dir ∧ NewEntry s d name node ∧
      node.hardTarget = none ∧ node.refcount = 0 ∧
      r = (.ok, some n, vfsVnodeBorrow (createChild s d n node) n)

private theorem newEntry_newNode {type : NodeType} (hvalid : ¬(!vfsValidateName name)=true)
    (hfile : type = .file → (s.node d).fs = .initrd) :
    NewEntry s d name (newNode (s.node d).fs type name d) where
  valid := by simpa using hvalid
  name := rfl
  parent := rfl
  children := rfl
  len _ := rfl
  hard t ht := by cases ht
  linkCount := rfl
  fs := rfl
  file := hfile
  mount := rfl

private theorem createEntry_cases (hdir : (s.node d).type = .dir) (hnew : NewEntry s d name node)
    (hhard : node.hardTarget=none) (href : node.refcount=0) :
    CreatesEntry s d name new (createEntry s d new node) := by
  cases new with
  | none => exact inl ⟨_,rfl⟩
  | some n => exact inr ⟨n,node,rfl,hdir,hnew,hhard,href,rfl⟩

private theorem opCreateFile_cases : CreatesEntry s d name new (opCreateFile s d name new) := by
  rw [opCreateFile]
  cases hfs : (s.node d).fs with
  | devfs => exact inl ⟨_,rfl⟩
  | initrd =>
    dsimp only
    split_ifs with hbad
    · exact inl ⟨_,rfl⟩
    · rw [not_or,not_not] at hbad
      have hnew : NewEntry s d name (newNode (s.node d).fs .file name d) :=
        newEntry_newNode hbad.2 fun _ => hfs
      rw [hfs] at hnew
      exact createEntry_cases hbad.1 hnew rfl rfl

def dirName (name : Name) : Name := name.rdropWhile (· == '/')

private theorem opCreateDir_cases :
    CreatesEntry s d (dirName name) new (opCreateDir s d name new) := by
  rw [opCreateDir]
  split_ifs with hbad
  · exact inl ⟨_,rfl⟩
  · rw [not_or,not_not] at hbad
    exact createEntry_cases hbad.1 (newEntry_newNode hbad.2 NodeType.noConfusion) rfl rfl

private theorem opSymlink_cases (target : Path) :
    CreatesEntry s d name new (opSymlink s d name target new) := by
  rw [opSymlink]
  split_ifs with hbad hfound
  · exact inl ⟨_,rfl⟩
  · exact inl ⟨_,rfl⟩
  · rw [not_or,not_or,not_not] at hbad
    apply createEntry_cases hbad.1 _ rfl rfl
    exact ⟨by simpa using hbad.2.1,rfl,rfl,rfl,fun htype => NodeType.noConfusion htype,
      fun t ht => (by cases ht),rfl,rfl,fun htype => NodeType.noConfusion htype,rfl⟩

private theorem vfsCreate_cases : CreatesEntry s d name new (vfsCreate s d name new) := by
  rw [vfsCreate]
  split_ifs
  · exact inl ⟨_,rfl⟩
  · exact opCreateFile_cases

private theorem vfsMkdir_cases : CreatesEntry s d (dirName name) new (vfsMkdir s d name new) := by
  rw [vfsMkdir]
  split_ifs
  · exact inl ⟨_,rfl⟩
  · have hcases : CreatesEntry s d (dirName (dirName name)) new (opCreateDir s d (dirName name) new) :=
      opCreateDir_cases
    rw [dirName,dirName,rdropWhile_idempotent] at hcases
    exact hcases

/-- The new link is released at once, and its entry keeps it. -/
private theorem vfsSymlinkIn_cases (target : Path) (hd : s.live d=true)
    (hfresh : ∀ n, new=some n → s.live n=false) :
    (∃ status, vfsSymlinkIn s d name target new=(status, s)) ∨
      ∃ n node, new=some n ∧ (s.node d).type = .dir ∧ NewEntry s d name node ∧
        node.hardTarget=none ∧ node.refcount=0 ∧
        vfsSymlinkIn s d name target new=(.ok, createChild s d n node) := by
  rw [vfsSymlinkIn]
  split_ifs
  · exact inl ⟨_,rfl⟩
  rcases opSymlink_cases target with ⟨status,hr⟩ | ⟨n,node,hn,hdir,hnew,hhard,href,hr⟩
  · rw [hr]
    exact inl ⟨status,rfl⟩
  · have hne : n≠d := (ne_of_fresh (hfresh n hn) hd).symm
    have hlinked : 0<((createChild s d n node).node n).linkCount := by
      rw [createChild_new hne,hnew.linkCount]
      exact Nat.one_pos
    rw [hr]
    dsimp only
    rw [release_borrow (inr hlinked)]
    exact inr ⟨n,node,hn,hdir,hnew,hhard,href,rfl⟩

private theorem opLink_cases (d : Addr) (name : Name) (new : Option Addr) (ht : s.live t=true)
    (hhard : (s.node t).hardTarget=none) (hfs : (s.node d).fs = .initrd) :
    (∃ status, status ≠ .ok ∧ opLink s d name t new=(status, s)) ∨
      ∃ n node, new=some n ∧ (s.node d).type = .dir ∧ NewEntry s d name node ∧
        node.hardTarget=some t ∧ node.refcount=0 ∧
        findChild s d name=none ∧ opLink s d name t new=(.ok, createChild s d n node) := by
  rw [opLink.eq_def]
  split_ifs with hbad hfound
  · exact inl ⟨_,Status.noConfusion,rfl⟩
  · exact inl ⟨_,Status.noConfusion,rfl⟩
  cases new with
  | none => exact inl ⟨_,Status.noConfusion,rfl⟩
  | some n =>
    rw [not_or,not_or,not_not,not_not] at hbad
    refine inr ⟨n,_,rfl,hbad.1,?_,rfl,rfl,not_not.mp hfound,rfl⟩
    refine ⟨by simpa using hbad.2.2,rfl,rfl,rfl,fun _ => rfl,?_,rfl,hfs.symm,fun _ => rfl,rfl⟩
    intro u hu
    have heq : t=u := Option.some.inj hu
    rw [← heq]
    exact ⟨rfl,ht,hbad.2.1,hhard⟩

theorem vfsLinkIn_cases (ht : s.live t=true) (hhard : (s.node t).hardTarget=none) :
    (∃ status, vfsLinkIn s d name t new=(status, s)) ∨
      ∃ n node, new=some n ∧ (s.node d).type = .dir ∧ NewEntry s d name node ∧
        node.hardTarget=some t ∧ node.refcount=0 ∧
        findChild s d name=none ∧
        vfsLinkIn s d name t new=(.ok, (createChild s d n node).modify t
          fun node => node.withLinkCount (node.linkCount + 1)) := by
  rw [vfsLinkIn]
  split_ifs with hdev
  · exact inl ⟨_,rfl⟩
  have hfs : (s.node d).fs = .initrd := by
    cases hfs : (s.node d).fs with
    | initrd => rfl
    | devfs => exact absurd hfs hdev
  rcases opLink_cases d name new ht hhard hfs with
    ⟨status,hne,hr⟩ | ⟨n,node,hn,hdir,hnew,hsome,href,hfree,hr⟩
  · refine inl ⟨status,?_⟩
    rw [hr]
    cases status with
    | ok => exact absurd rfl hne
    | _ => rfl
  · refine inr ⟨n,node,hn,hdir,hnew,hsome,href,hfree,?_⟩
    rw [hr]

theorem findChild_spec (hfind : findChild s d name=some c) : c∈(s.node d).children :=
  mem_of_find?_eq_some hfind

theorem borrow_field (f : Node → α) (hf : ∀ node r, f (Node.withRefcount node r)=f node)
    (n k : Addr) : f ((vfsVnodeBorrow s n).node k)=f (s.node k) := by
  rw [vfsVnodeBorrow,modify_node]
  split_ifs with hk
  · rw [hk,hf]
  · rfl

private theorem findChild_borrow (n : Addr) :
    findChild (vfsVnodeBorrow s n) d name=findChild s d name := by
  rw [findChild,findChild,borrow_field (·.children) (fun _ _ => rfl)]
  congr 1
  funext c
  rw [borrow_field (·.name) (fun _ _ => rfl)]

structure Removes (s : Vfs) (d c t : Addr) : Prop where
  dir : (s.node d).type = .dir
  mem : c ∈ (s.node d).children
  ne : c ≠ d
  target : (s.node c).hardTarget.getD c = t
  live : s.live t = true
  hard : (s.node t).hardTarget = none
  children : (s.node t).children = []

def afterRemoval (s : Vfs) (d c t : Addr) : Vfs :=
  vfsVnodeRelease ((withoutEntry (vfsVnodeBorrow s t) d c).modify t
    fun node => node.withLinkCount (node.linkCount - 1)) t

theorem target_spec (h : Shape roots s) (hc : s.live c=true)
    (ht : (s.node c).hardTarget.getD c=t) :
    s.live t=true ∧ (s.node t).hardTarget=none ∧ (s.node t).type=(s.node c).type := by
  cases hhard : (s.node c).hardTarget with
  | none =>
    rw [hhard] at ht
    have heq : c=t := ht
    rw [← heq]
    exact ⟨hc,hhard,rfl⟩
  | some u =>
    rw [hhard] at ht
    have heq : u=t := ht
    have htarget := h.hard c u hc hhard
    rw [← heq,htarget.1]
    exact ⟨htarget.2.1,htarget.2.2.2,htarget.2.2.1⟩

private theorem detach_borrow (h : Shape roots s) (hd : s.live d=true)
    (hc : c∈(s.node d).children) :
    detachChild (vfsVnodeBorrow s t) c=some (detached (vfsVnodeBorrow s t) d c) := by
  apply detachChild_eq
  · rw [borrow_field (·.parent) (fun _ _ => rfl)]
    exact (h.child d c hd hc).2
  · rw [borrow_field (·.children) (fun _ _ => rfl)]
    exact hc

private theorem opUnlink_cases (h : Shape roots s) (hd : s.live d=true)
    (hdir : (s.node d).type = .dir) (hfind : findChild s d name=some c)
    (hfile : (s.node c).type ≠ .dir) :
    (∃ status, status ≠ .ok ∧
      opUnlink (vfsVnodeBorrow s t) d name=(status, vfsVnodeBorrow s t)) ∨
    opUnlink (vfsVnodeBorrow s t) d name=(.ok, withoutEntry (vfsVnodeBorrow s t) d c) := by
  have hc := findChild_spec hfind
  have hne : c≠d := by
    intro heq
    exact hfile (heq ▸ hdir)
  rw [opUnlink,findChild_borrow,hfind]
  simp only [borrow_field (·.type) (fun _ _ => rfl),borrow_field (·.fs) (fun _ _ => rfl),
    detach_borrow h hd hc,hfile,if_false]
  split_ifs with hbad hdev hhard
  · exact inl ⟨_,Status.noConfusion,rfl⟩
  · exact inl ⟨_,Status.noConfusion,rfl⟩
  · rw [detached_field (·.hardTarget) (fun _ => rfl) (fun _ => rfl) hne] at hhard
    rw [withoutEntry,if_pos hhard]
    exact inr rfl
  · rw [detached_field (·.hardTarget) (fun _ => rfl) (fun _ => rfl) hne] at hhard
    rw [withoutEntry,if_neg hhard]
    exact inr rfl

private theorem opRmdir_cases (h : Shape roots s) (hd : s.live d=true)
    (hfind : findChild s d name=some c) (hisdir : (s.node c).type = .dir) :
    (∃ status, status ≠ .ok ∧
      opRmdir (vfsVnodeBorrow s t) d name=(status, vfsVnodeBorrow s t)) ∨
    (s.node c).children=[] ∧
      opRmdir (vfsVnodeBorrow s t) d name=(.ok, withoutEntry (vfsVnodeBorrow s t) d c) := by
  have hc := findChild_spec hfind
  have hnone : (s.node c).hardTarget=none := by
    by_contra hsome
    obtain ⟨u,hu⟩ := Option.ne_none_iff_exists'.mp hsome
    have hfile := (h.hard c u (h.child d c hd hc).1 hu).1
    rw [hisdir] at hfile
    cases hfile
  rw [opRmdir,findChild_borrow,hfind]
  simp only [borrow_field (·.type) (fun _ _ => rfl),borrow_field (·.children) (fun _ _ => rfl),
    detach_borrow h hd hc,hisdir,ne_eq,not_true,if_false]
  split_ifs with hbad hempty
  · exact inl ⟨_,Status.noConfusion,rfl⟩
  · refine inr ⟨hempty,?_⟩
    rw [withoutEntry,borrow_field (·.hardTarget) (fun _ _ => rfl),hnone]
    rfl
  · exact inl ⟨_,Status.noConfusion,rfl⟩

theorem removeChild_cases (h : TreeOk roots s) (hd : s.live d=true) (expectDir : Bool) :
    (∃ status, removeChild s d name expectDir=(status, s)) ∨
      ∃ c t, Removes s d c t ∧ removeChild s d name expectDir=(.ok, afterRemoval s d c t) := by
  rw [removeChild]
  by_cases hdir : (s.node d).type = .dir
  swap
  · rw [if_pos hdir]
    exact inl ⟨_,rfl⟩
  rw [if_neg (not_not.mpr hdir),opLookup,if_neg (not_not.mpr hdir)]
  cases hfind : findChild s d name with
  | none => exact inl ⟨_,rfl⟩
  | some c =>
    have hc := findChild_spec hfind
    have hlive := (h.child d c hd hc).1
    dsimp only
    generalize ht : (s.node c).hardTarget.getD c=t
    have htarget := target_spec h.toShape hlive ht
    -- the caller's reference goes back, and someone else still keeps the target
    have hback : vfsVnodeRelease (vfsVnodeBorrow s t) t=s := by
      apply release_borrow
      by_contra hnot
      rw [not_or] at hnot
      exact hnot.1 (h.removed t htarget.1 (Nat.eq_zero_of_not_pos hnot.2)).2
    have hremoves : c≠d → (s.node t).children=[] → Removes s d c t := fun hne hnil =>
      ⟨hdir,hc,hne,ht,htarget.1,htarget.2.1,hnil⟩
    rw [borrow_field (·.type) (fun _ _ => rfl),htarget.2.2,hback]
    cases expectDir with
    | false =>
      by_cases hisdir : (s.node c).type = .dir
      · simp only [hisdir,Bool.false_eq_true,false_and,if_false,Bool.not_false,and_self,if_true]
        exact inl ⟨_,rfl⟩
      have hne : c≠d := by
        intro heq
        exact hisdir (heq ▸ hdir)
      have hnil : (s.node t).children=[] := by
        apply h.leaf t htarget.1
        rw [htarget.2.2]
        exact hisdir
      simp only [hisdir,Bool.false_eq_true,false_and,and_false,if_false]
      rcases opUnlink_cases h.toShape hd hdir hfind hisdir (t := t) with ⟨status,hno,hr⟩ | hr
      · refine inl ⟨status,?_⟩
        rw [hr]
        cases status with
        | ok => exact absurd rfl hno
        | _ => simp only [hback]
      · refine inr ⟨c,t,hremoves hne hnil,?_⟩
        rw [hr]
        rfl
    | true =>
      by_cases hisdir : (s.node c).type = .dir
      swap
      · simp only [hisdir,ne_eq,not_false_eq_true,and_self,if_true]
        exact inl ⟨_,rfl⟩
      have heq : c=t := by
        cases hhard : (s.node c).hardTarget with
        | none =>
          rw [hhard] at ht
          exact ht
        | some u =>
          have hfile := (h.hard c u hlive hhard).1
          rw [hisdir] at hfile
          cases hfile
      simp only [hisdir,ne_eq,not_true,and_false,if_false,Bool.not_true,Bool.false_eq_true,
        false_and,if_true]
      rcases opRmdir_cases h.toShape hd hfind hisdir (t := t) with ⟨status,hno,hr⟩ | ⟨hnil,hr⟩
      · refine inl ⟨status,?_⟩
        rw [hr]
        cases status with
        | ok => exact absurd rfl hno
        | _ => simp only [hback]
      · have hne : c≠d := by
          intro hcd
          rw [← hcd,hnil] at hc
          exact not_mem_nil hc
        refine inr ⟨c,t,hremoves hne (heq ▸ hnil),?_⟩
        rw [hr]
        rfl

private theorem TreeOk.afterRemoval (h : TreeOk roots s) (hd : s.live d=true)
    (hr : Removes s d c t) : TreeOk roots (afterRemoval s d c t) := by
  have hheld : 0<((vfsVnodeBorrow s t).node t).refcount := by
    rw [vfsVnodeBorrow,modify_node,if_pos rfl]
    exact Nat.succ_pos _
  have hborrow : TreeOk roots (vfsVnodeBorrow s t) := h.borrow t
  have hwithout := hborrow.withoutEntry (d := d) (c := c) (t := t) hr.ne hd
    (by rw [borrow_field (·.type) (fun _ _ => rfl)]; exact hr.dir)
    (by rw [borrow_field (·.children) (fun _ _ => rfl)]; exact hr.mem)
    (by rw [borrow_field (·.hardTarget) (fun _ _ => rfl)]; exact hr.target)
    (by rw [borrow_field (·.children) (fun _ _ => rfl)]; exact hr.children) hheld
  apply hwithout.release
  · apply (withoutEntry_live t).mpr
    refine ⟨hr.live,?_⟩
    intro heq
    rw [borrow_field (·.hardTarget) (fun _ _ => rfl),← heq]
    exact hr.hard
  · rw [(samePointers_modify (samePointers_linkCount (· - 1)) t t).hardTarget,withoutEntry_node,
      detached_field (·.hardTarget) (fun _ => rfl) (fun _ => rfl) hr.ne,
      borrow_field (·.hardTarget) (fun _ _ => rfl)]
    exact hr.hard

theorem release_eq (hpos : (s.node n).refcount≠0) : vfsVnodeRelease s n =
    if (s.node n).refcount=1 ∧ (s.node n).linkCount=0 then
      opFree (s.modify n fun node => node.withRefcount (node.refcount - 1)) n
    else s.modify n fun node => node.withRefcount (node.refcount - 1) := by
  have hnode : (s.modify n fun node => node.withRefcount (node.refcount-1)).node n =
      (s.node n).withRefcount ((s.node n).refcount-1) := by
    rw [modify_node,if_pos rfl]
  rw [vfsVnodeRelease,if_neg hpos]
  apply if_congr _ rfl rfl
  rw [hnode]
  change (s.node n).refcount-1=0 ∧ (s.node n).linkCount=0 ↔ _
  omega

private theorem release_node (n k : Addr) : (vfsVnodeRelease s n).node k =
    (s.modify n fun node => node.withRefcount (node.refcount - 1)).node k := by
  by_cases hzero : (s.node n).refcount=0
  · rw [vfsVnodeRelease,if_pos hzero,modify_node]
    split_ifs with hk
    · rw [hk]
      apply Node.ext
      all_goals first | rfl | exact hzero.trans (by rw [hzero]; rfl)
    · rfl
  · rw [release_eq hzero]
    split_ifs with hlast
    · rfl
    · rfl

theorem release_field (f : Node → α)
    (hf : ∀ node r, f (Node.withRefcount node r)=f node) (n k : Addr) :
    f ((vfsVnodeRelease s n).node k)=f (s.node k) := by
  rw [release_node,modify_node]
  split_ifs with hk
  · rw [hk,hf]
  · rfl

private theorem release_refcount (n k : Addr) : ((vfsVnodeRelease s n).node k).refcount =
    if k=n then (s.node n).refcount - 1 else (s.node k).refcount := by
  rw [release_node,modify_node]
  split_ifs with hk
  · rfl
  · rfl

theorem release_live (n k : Addr) : (vfsVnodeRelease s n).live k=true ↔
    s.live k=true ∧ ¬(k=n ∧ (s.node n).refcount=1 ∧ (s.node n).linkCount=0) := by
  by_cases hzero : (s.node n).refcount=0
  · rw [vfsVnodeRelease,if_pos hzero]
    simp [hzero]
  rw [release_eq hzero]
  split_ifs with hlast
  · rw [opFree_live]
    constructor
    · intro hk
      exact ⟨hk.2,fun hfreed => hk.1 hfreed.1⟩
    · intro hk
      exact ⟨fun heq => hk.2 ⟨heq,hlast⟩,hk.1⟩
  · constructor
    · intro hk
      exact ⟨hk,fun hfreed => hlast hfreed.2⟩
    · intro hk
      exact hk.1

private theorem afterRemoval_field (f : Node → α) (hdrop : ∀ node, f (Node.dropChild node c)=f node)
    (hparent : ∀ node, f (Node.withParent node none)=f node)
    (hlinks : ∀ node r, f (Node.withLinkCount node r)=f node)
    (hrefs : ∀ node r, f (Node.withRefcount node r)=f node) (hne : c≠d) (k : Addr) :
    f ((afterRemoval s d c t).node k)=f (s.node k) := by
  have hwithout : ∀ k, f ((withoutEntry (vfsVnodeBorrow s t) d c).node k)=f (s.node k) := by
    intro k
    rw [withoutEntry_node,detached_field f hdrop hparent hne,borrow_field f hrefs]
  rw [afterRemoval,release_field f hrefs,modify_node]
  split_ifs with hk
  · rw [hk,hlinks,hwithout]
  · exact hwithout k

section

variable (hne : c≠d) (k : Addr)
include hne k

private theorem afterRemoval_children : ((afterRemoval s d c t).node k).children =
      if k=d then (s.node d).children.erase c else (s.node k).children := by
  rw [afterRemoval,release_field (·.children) (fun _ _ => rfl),
    (samePointers_modify (samePointers_linkCount (· - 1)) t k).children,withoutEntry_node,
    detached_children hne,borrow_field (·.children) (fun _ _ => rfl),
    borrow_field (·.children) (fun _ _ => rfl)]

private theorem withoutEntry_borrow_refcount :
    ((withoutEntry (vfsVnodeBorrow s t) d c).node k).refcount =
      if k=t then (s.node t).refcount + 1 else (s.node k).refcount := by
  rw [withoutEntry_node,detached_field (·.refcount) (fun _ => rfl) (fun _ => rfl) hne,
    vfsVnodeBorrow,modify_node]
  split_ifs with hk
  · rfl
  · rfl

private theorem afterRemoval_refcount :
    ((afterRemoval s d c t).node k).refcount=(s.node k).refcount := by
  have hmodify : ∀ k, (((withoutEntry (vfsVnodeBorrow s t) d c).modify t
      fun node => node.withLinkCount (node.linkCount-1)).node k).refcount =
      ((withoutEntry (vfsVnodeBorrow s t) d c).node k).refcount := by
    intro k
    rw [modify_node]
    split_ifs with hk
    · rw [hk]
      rfl
    · rfl
  rw [afterRemoval,release_refcount,hmodify,hmodify,withoutEntry_borrow_refcount hne,
    withoutEntry_borrow_refcount hne,if_pos rfl]
  split_ifs with hk
  · rw [hk]
    rfl
  · rfl

theorem afterRemoval_live : (afterRemoval s d c t).live k=true ↔
    s.live k=true ∧ (k=c → (s.node c).hardTarget=none) ∧
      ¬(k=t ∧ (s.node t).refcount=0 ∧ (s.node t).linkCount - 1=0) := by
  have hrefs : (((withoutEntry (vfsVnodeBorrow s t) d c).modify t
      fun node => node.withLinkCount (node.linkCount-1)).node t).refcount =
      (s.node t).refcount+1 := by
    rw [modify_node,if_pos rfl]
    change ((withoutEntry (vfsVnodeBorrow s t) d c).node t).refcount=_
    rw [withoutEntry_borrow_refcount hne,if_pos rfl]
  have hlinks : (((withoutEntry (vfsVnodeBorrow s t) d c).modify t
      fun node => node.withLinkCount (node.linkCount-1)).node t).linkCount =
      (s.node t).linkCount-1 := by
    rw [modify_node,if_pos rfl]
    change ((withoutEntry (vfsVnodeBorrow s t) d c).node t).linkCount-1=_
    rw [withoutEntry_node,detached_field (·.linkCount) (fun _ => rfl) (fun _ => rfl) hne,
      borrow_field (·.linkCount) (fun _ _ => rfl)]
  have hlive : ((withoutEntry (vfsVnodeBorrow s t) d c).modify t
      fun node => node.withLinkCount (node.linkCount-1)).live k=true ↔
      s.live k=true ∧ (k=c → (s.node c).hardTarget=none) := by
    have hbefore := withoutEntry_live (s := vfsVnodeBorrow s t) (d := d) (c := c) k
    rw [borrow_field (·.hardTarget) (fun _ _ => rfl)] at hbefore
    exact hbefore
  rw [afterRemoval,release_live,hrefs,hlinks,hlive,and_assoc]
  simp only [Nat.add_eq_right]

end

structure Session where
  vfs : Vfs
  /-- One for each open file and working directory. -/
  held : List Addr

/-- The references after a call: a new file is open, a new directory is returned. -/
def TreeOp.heldAfter (s : Session) : TreeOp → List Addr
  | .create d name new => (vfsCreate s.vfs d name new).2.1.toList ++ s.held
  | .mkdir d name new => (vfsMkdir s.vfs d name new).2.1.toList ++ s.held
  | .borrow n => n :: s.held
  | .release n => s.held.erase n
  | _ => s.held

def Session.perform (s : Session) (op : TreeOp) : Status × Session :=
  ((s.vfs.perform op).1, ⟨(s.vfs.perform op).2, op.heldAfter s⟩)

def FreshAddr (s : Vfs) (new : Option Addr) : Prop := ∀ n, new = some n → s.live n = false

/-- What a caller has: nodes that lookups have found, and references of its own to release. -/
def TreeOp.Valid (s : Session) : TreeOp → Prop
  | .create d _ new | .mkdir d _ new | .symlink d _ _ new =>
    s.vfs.live d = true ∧ FreshAddr s.vfs new
  | .link d _ t new =>
    s.vfs.live d = true ∧ s.vfs.live t = true ∧ (s.vfs.node t).hardTarget = none ∧ FreshAddr s.vfs new
  | .unlink d _ | .rmdir d _ => s.vfs.live d = true
  | .borrow n => s.vfs.live n = true ∧ (s.vfs.node n).hardTarget = none
  | .release n => n ∈ s.held

/-- The call creates no entry in a directory that has been removed. -/
def TreeOp.InLinkedDir (s : Session) : TreeOp → Prop
  | .create d _ _ | .mkdir d _ _ | .symlink d _ _ _ | .link d _ _ _ =>
    0 < (s.vfs.node d).linkCount
  | _ => True

/-- The references are those of the processes and those of the mounts. -/
structure SessionOk (roots : Set Addr) (mounts : Addr → Nat) (s : Session) : Prop where
  tree : TreeOk roots s.vfs
  refs : ∀ n, s.vfs.live n = true → (s.vfs.node n).refcount = s.held.count n + mounts n
  held : ∀ n ∈ s.held, s.vfs.live n = true ∧ (s.vfs.node n).hardTarget = none
  mounts : ∀ n, 0 < mounts n → s.vfs.live n = true ∧ (s.vfs.node n).hardTarget = none

variable {mounts : Addr → Nat} {σ : Session}

section

variable (h : SessionOk roots mounts σ)
include h

private theorem SessionOk.unused (hn : σ.vfs.live n=false) : σ.held.count n=0 ∧ mounts n=0 := by
  constructor
  · apply count_eq_zero.mpr
    intro hmem
    exact ne_of_fresh hn (h.held n hmem).1 rfl
  · by_contra hpos
    exact ne_of_fresh hn (h.mounts n (Nat.pos_of_ne_zero hpos)).1 rfl

private theorem SessionOk.attach {s' : Vfs}
    (hd : σ.vfs.live d=true) (hn : σ.vfs.live n=false) (href : node.refcount=0)
    (htree : TreeOk roots s') (hlive : s'.live=(createChild σ.vfs d n node).live)
    (hrefs : ∀ k, (s'.node k).refcount=((createChild σ.vfs d n node).node k).refcount)
    (hhard : ∀ k, (s'.node k).hardTarget=((createChild σ.vfs d n node).node k).hardTarget) :
    SessionOk roots mounts ⟨s', σ.held⟩ := by
  have hne : n≠d := (ne_of_fresh hn hd).symm
  have hkeep : ∀ k, σ.vfs.live k=true ∧ (σ.vfs.node k).hardTarget=none →
      s'.live k=true ∧ (s'.node k).hardTarget=none := by
    intro k hk
    rw [hlive,hhard,createChild_old (·.hardTarget) (fun _ => rfl) hne (ne_of_fresh hn hk.1)]
    exact ⟨(createChild_live k).mpr (inr hk.1),hk.2⟩
  refine ⟨htree,?_,fun k hk => hkeep k (h.held k hk),fun k hk => hkeep k (h.mounts k hk)⟩
  intro k hk
  rw [hrefs]
  rw [hlive] at hk
  rcases (createChild_live k).mp hk with heq | hold
  · have hunused := h.unused hn
    rw [heq,createChild_new hne,href,hunused.1,hunused.2]
  · rw [createChild_old (·.refcount) (fun _ => rfl) hne (ne_of_fresh hn hold)]
    exact h.refs k hold

private theorem SessionOk.borrow (hn : σ.vfs.live n=true) (hhard : (σ.vfs.node n).hardTarget=none) :
    SessionOk roots mounts ⟨vfsVnodeBorrow σ.vfs n, n::σ.held⟩ := by
  refine ⟨h.tree.borrow n,?_,?_,?_⟩
  · intro k hk
    have hbefore := h.refs k hk
    change ((vfsVnodeBorrow σ.vfs n).node k).refcount=(n::σ.held).count k+mounts k
    rw [vfsVnodeBorrow,modify_node,count_cons]
    by_cases hkn : k=n
    · subst hkn
      simp only [if_true,beq_self_eq_true,Node.withRefcount]
      omega
    · have hnk : (n == k)=false := beq_false_of_ne (Ne.symm hkn)
      simp only [hkn,if_false,hnk,Bool.false_eq_true]
      omega
  · intro k hk
    change _ ∧ ((vfsVnodeBorrow σ.vfs n).node k).hardTarget=none
    rw [borrow_field (·.hardTarget) (fun _ _ => rfl)]
    rcases mem_cons.mp hk with heq | hk
    · rw [heq]
      exact ⟨hn,hhard⟩
    · exact h.held k hk
  · intro k hk
    change _ ∧ ((vfsVnodeBorrow σ.vfs n).node k).hardTarget=none
    rw [borrow_field (·.hardTarget) (fun _ _ => rfl)]
    exact h.mounts k hk

private theorem SessionOk.release (hn : n∈σ.held) :
    SessionOk roots mounts ⟨vfsVnodeRelease σ.vfs n, σ.held.erase n⟩ := by
  have hown := h.held n hn
  have hcount := h.refs n hown.1
  have hpos : 0<σ.held.count n := count_pos_iff.mpr hn
  -- a node that is still referenced is not the one that was freed
  have hkeep : ∀ k, σ.vfs.live k=true ∧ (σ.vfs.node k).hardTarget=none →
      0<(σ.held.erase n).count k+mounts k →
      (vfsVnodeRelease σ.vfs n).live k=true ∧
        ((vfsVnodeRelease σ.vfs n).node k).hardTarget=none := by
    intro k hk hused
    rw [release_live,release_field (·.hardTarget) (fun _ _ => rfl)]
    refine ⟨⟨hk.1,?_⟩,hk.2⟩
    intro hfreed
    rw [hfreed.1,count_erase_self] at hused
    omega
  refine ⟨h.tree.release hown.1 hown.2,?_,?_,?_⟩
  · intro k hk
    have hbefore := h.refs k ((release_live n k).mp hk).1
    change ((vfsVnodeRelease σ.vfs n).node k).refcount=(σ.held.erase n).count k+mounts k
    rw [release_refcount]
    by_cases hkn : k=n
    · subst hkn
      rw [if_pos rfl,count_erase_self]
      omega
    · rw [if_neg hkn,count_erase_of_ne hkn]
      exact hbefore
  · intro k hk
    have hpos' : 0<(σ.held.erase n).count k := count_pos_iff.mpr hk
    apply hkeep k (h.held k (mem_of_mem_erase hk))
    omega
  · intro k hk
    apply hkeep k (h.mounts k hk)
    omega

section

variable (hd : σ.vfs.live d = true)
include hd

private theorem SessionOk.remove
    (hr : Removes σ.vfs d c t) : SessionOk roots mounts ⟨afterRemoval σ.vfs d c t, σ.held⟩ := by
  have hkeep : ∀ k, σ.vfs.live k=true ∧ (σ.vfs.node k).hardTarget=none →
      0<σ.held.count k+mounts k →
      (afterRemoval σ.vfs d c t).live k=true ∧
        ((afterRemoval σ.vfs d c t).node k).hardTarget=none := by
    intro k hk hused
    rw [afterRemoval_live hr.ne,afterRemoval_field (·.hardTarget) (fun _ => rfl) (fun _ => rfl)
      (fun _ _ => rfl) (fun _ _ => rfl) hr.ne]
    refine ⟨⟨hk.1,fun heq => heq ▸ hk.2,?_⟩,hk.2⟩
    intro hfreed
    have hcount := h.refs k hk.1
    rw [hfreed.1,hfreed.2.1] at hcount
    rw [hfreed.1] at hused
    omega
  refine ⟨h.tree.afterRemoval hd hr,?_,?_,?_⟩
  · intro k hk
    change ((afterRemoval σ.vfs d c t).node k).refcount=_
    rw [afterRemoval_refcount hr.ne]
    exact h.refs k ((afterRemoval_live hr.ne k).mp hk).1
  · intro k hk
    have hpos : 0<σ.held.count k := count_pos_iff.mpr hk
    apply hkeep k (h.held k hk)
    omega
  · intro k hk
    apply hkeep k (h.mounts k hk)
    omega

private theorem SessionOk.create (hn : σ.vfs.live n=false) (hlinked : 0<(σ.vfs.node d).linkCount)
    (hdir : (σ.vfs.node d).type = .dir) (hnew : NewEntry σ.vfs d name node)
    (hhard : node.hardTarget=none) (href : node.refcount=0) :
    SessionOk roots mounts ⟨createChild σ.vfs d n node, σ.held⟩ :=
  h.attach hd hn href (h.tree.attach hd hdir hn hnew hhard hlinked) rfl (fun _ => rfl)
    (fun _ => rfl)

private theorem SessionOk.created {r : Created}
    (hfresh : FreshAddr σ.vfs new) (hlinked : 0<(σ.vfs.node d).linkCount)
    (hr : CreatesEntry σ.vfs d name new r) :
    SessionOk roots mounts ⟨r.2.2, r.2.1.toList++σ.held⟩ := by
  rcases hr with ⟨status,rfl⟩ | ⟨n,node,hn,hdir,hnew,hhard,href,rfl⟩
  · exact h
  · have hnlive := hfresh n hn
    have hne : n≠d := (ne_of_fresh hnlive hd).symm
    have hattached := h.create hd hnlive hlinked hdir hnew hhard href
    apply hattached.borrow
    · exact (createChild_live n).mpr (inl rfl)
    · change ((createChild σ.vfs d n node).node n).hardTarget=none
      rw [createChild_new hne]
      exact hhard

private theorem SessionOk.link (ht : σ.vfs.live t=true) (hthard : (σ.vfs.node t).hardTarget=none)
    (hfresh : FreshAddr σ.vfs new) (hlinked : 0<(σ.vfs.node d).linkCount) :
    SessionOk roots mounts ⟨(vfsLinkIn σ.vfs d name t new).2, σ.held⟩ := by
  rcases vfsLinkIn_cases (d := d) ht hthard with
    ⟨status,hr⟩ | ⟨n,node,hn,hdir,hnew,hsome,href,_,hr⟩
  · rw [hr]
    exact h
  · rw [hr]
    apply h.attach hd (hfresh n hn) href
      (h.tree.attachAlias hd hdir (hfresh n hn) hnew hsome hlinked) rfl
    · intro k
      rw [modify_node]
      split_ifs with hk
      · rw [hk]
        rfl
      · rfl
    · intro k
      exact (samePointers_modify (samePointers_linkCount (· + 1)) t k).hardTarget

private theorem SessionOk.removeChild (expectDir : Bool) :
    SessionOk roots mounts ⟨(removeChild σ.vfs d name expectDir).2, σ.held⟩ := by
  rcases removeChild_cases h.tree hd expectDir with ⟨status,hr⟩ | ⟨c,t,hremoves,hr⟩
  · rw [hr]
    exact h
  · rw [hr]
    exact h.remove hd hremoves

end

theorem SessionOk.perform (hvalid : op.Valid σ)
    (hlinked : op.InLinkedDir σ) : SessionOk roots mounts (σ.perform op).2 := by
  cases op with
  | create d name new => exact h.created hvalid.1 hvalid.2 hlinked vfsCreate_cases
  | mkdir d name new => exact h.created hvalid.1 hvalid.2 hlinked vfsMkdir_cases
  | symlink d name target new =>
    change SessionOk roots mounts ⟨(vfsSymlinkIn σ.vfs d name target new).2,σ.held⟩
    rcases vfsSymlinkIn_cases target hvalid.1 hvalid.2 with
      ⟨status,hr⟩ | ⟨n,node,hn,hdir,hnew,hhard,href,hr⟩
    · rw [hr]
      exact h
    · rw [hr]
      exact h.create hvalid.1 (hvalid.2 n hn) hlinked hdir hnew hhard href
  | link d name t new => exact h.link hvalid.1 hvalid.2.1 hvalid.2.2.1 hvalid.2.2.2 hlinked
  | unlink d name =>
    change SessionOk roots mounts ⟨(vfsUnlink σ.vfs d name).2,σ.held⟩
    rw [vfsUnlink]
    split_ifs
    · exact h
    · exact h.removeChild hvalid false
  | rmdir d name =>
    change SessionOk roots mounts ⟨(vfsRmdir σ.vfs d name).2,σ.held⟩
    rw [vfsRmdir]
    split_ifs
    · exact h
    · exact h.removeChild hvalid true
  | borrow n => exact h.borrow hvalid.1 hvalid.2
  | release n => exact h.release hvalid

theorem SessionOk.run {ops : List TreeOp}
    (hall : Always Session.perform (fun σ op => op.Valid σ ∧ op.InLinkedDir σ) σ ops) :
    SessionOk roots mounts (trace Session.perform σ ops).2 := by
  apply trace_invariant (SessionOk roots mounts) _ h hall
  intro σ op hσ hop
  exact hσ.perform hop.1 hop.2

end

/-- A call adds an entry or takes one out, and counts. -/
theorem perform_rule {I : Vfs → Prop} (htree : TreeOk roots σ.vfs)
    (hvalid : op.Valid σ) (h : I σ.vfs)
    (hattach : ∀ d n name node, σ.vfs.live d=true → σ.vfs.live n=false →
      NewEntry σ.vfs d name node → I (createChild σ.vfs d n node))
    (hremove : ∀ d c t, σ.vfs.live d=true → Removes σ.vfs d c t → I (afterRemoval σ.vfs d c t))
    (hborrow : ∀ s n, I s → I (vfsVnodeBorrow s n))
    (hrelease : ∀ s n, I s → I (vfsVnodeRelease s n))
    (hlink : ∀ s n, I s → I (s.modify n fun node => node.withLinkCount (node.linkCount + 1))) :
    I (σ.perform op).2.vfs := by
  have hcreated : ∀ {d name new} {r : Created}, σ.vfs.live d=true → FreshAddr σ.vfs new →
      CreatesEntry σ.vfs d name new r → I r.2.2 := by
    intro d name new r hd hfresh hr
    rcases hr with ⟨status,rfl⟩ | ⟨n,node,hn,_,hnew,_,_,rfl⟩
    · exact h
    · exact hborrow _ n (hattach d n name node hd (hfresh n hn) hnew)
  have hremoved : ∀ {d name expectDir}, σ.vfs.live d=true →
      I (removeChild σ.vfs d name expectDir).2 := by
    intro d name expectDir hd
    rcases removeChild_cases htree hd expectDir with ⟨status,hr⟩ | ⟨c,t,hremoves,hr⟩
    · rw [hr]
      exact h
    · rw [hr]
      exact hremove d c t hd hremoves
  cases op with
  | create d name new => exact hcreated hvalid.1 hvalid.2 vfsCreate_cases
  | mkdir d name new => exact hcreated hvalid.1 hvalid.2 vfsMkdir_cases
  | symlink d name target new =>
    change I (vfsSymlinkIn σ.vfs d name target new).2
    rcases vfsSymlinkIn_cases target hvalid.1 hvalid.2 with
      ⟨_,hr⟩ | ⟨n,node,hn,_,hnew,_,_,hr⟩
    · rw [hr]
      exact h
    · rw [hr]
      exact hattach d n name node hvalid.1 (hvalid.2 n hn) hnew
  | link d name t new =>
    change I (vfsLinkIn σ.vfs d name t new).2
    rcases vfsLinkIn_cases (d := d) hvalid.2.1 hvalid.2.2.1 with
      ⟨_,hr⟩ | ⟨n,node,hn,_,hnew,_,_,_,hr⟩
    · rw [hr]
      exact h
    · rw [hr]
      exact hlink _ t (hattach d n name node hvalid.1 (hvalid.2.2.2 n hn) hnew)
  | unlink d name =>
    change I (vfsUnlink σ.vfs d name).2
    rw [vfsUnlink]
    split_ifs
    · exact h
    · exact hremoved hvalid
  | rmdir d name =>
    change I (vfsRmdir σ.vfs d name).2
    rw [vfsRmdir]
    split_ifs
    · exact h
    · exact hremoved hvalid
  | borrow n => exact hborrow _ n h
  | release n => exact hrelease _ n h

theorem linkCount_field (f : Node → α)
    (hf : ∀ node r, f (Node.withLinkCount node r)=f node) (r : Nat → Nat) (n k : Addr) :
    f ((s.modify n fun node => node.withLinkCount (r node.linkCount)).node k)=f (s.node k) := by
  rw [modify_node]
  split_ifs with hk
  · rw [hk,hf]
  · rfl

theorem perform_field (f : Node → α) (hadd : ∀ node n, f (Node.addChild node n)=f node)
    (hdrop : ∀ node n, f (Node.dropChild node n)=f node)
    (hparent : ∀ node p, f (Node.withParent node p)=f node)
    (hlinks : ∀ node r, f (Node.withLinkCount node r)=f node)
    (hrefs : ∀ node r, f (Node.withRefcount node r)=f node)
    (h : TreeOk roots σ.vfs) (hvalid : op.Valid σ) {k : Addr} (hk : σ.vfs.live k=true) :
    f ((σ.perform op).2.vfs.node k)=f (σ.vfs.node k) := by
  apply perform_rule (I := fun s => f (s.node k)=f (σ.vfs.node k)) h hvalid rfl
  · intro d n name node hd hn _
    exact createChild_old f (fun node => hadd node _) (ne_of_fresh hn hd).symm (ne_of_fresh hn hk)
  · intro d c t _ hr
    exact afterRemoval_field f (fun node => hdrop node _) (fun node => hparent node _) hlinks
      hrefs hr.ne k
  · intro s n hs
    exact (borrow_field f hrefs n k).trans hs
  · intro s n hs
    exact (release_field f hrefs n k).trans hs
  · intro s n hs
    exact (linkCount_field f hlinks (· + 1) n k).trans hs

inductive ChainChange (s : Vfs) (d : Addr) : List Addr → Prop
  | same : ChainChange s d (s.node d).children
  | added (n : Addr) : s.live n = false → ChainChange s d ((s.node d).addChild n).children
  | removed (c : Addr) : c ∈ (s.node d).children → ChainChange s d ((s.node d).children.erase c)

private theorem chainChange_create {e : Addr} (hd : s.live d=true) (hn : s.live n=false) :
    ChainChange s d ((createChild s e n node).node d).children := by
  by_cases hde : d=e
  · subst hde
    rw [createChild_dir (ne_of_fresh hn hd).symm]
    exact ChainChange.added n hn
  · rw [createChild_other (ne_of_fresh hn hd) hde]
    exact ChainChange.same

private theorem chainChange_remove {e : Addr} (hr : Removes s e c t) :
    ChainChange s d ((afterRemoval s e c t).node d).children := by
  rw [afterRemoval_children hr.ne]
  split_ifs with hde
  · subst hde
    exact ChainChange.removed c hr.mem
  · exact ChainChange.same

theorem chainChange_perform (h : TreeOk roots σ.vfs) (hvalid : op.Valid σ)
    (hd : σ.vfs.live d=true) : ChainChange σ.vfs d ((σ.perform op).2.vfs.node d).children := by
  apply perform_rule (I := fun s => ChainChange σ.vfs d (s.node d).children) h hvalid
  · exact ChainChange.same
  · intro e n name node _ hn _
    exact chainChange_create hd hn
  · intro e c t _ hr
    exact chainChange_remove hr
  · intro s n hs
    rw [borrow_field (·.children) (fun _ _ => rfl)]
    exact hs
  · intro s n hs
    rw [release_field (·.children) (fun _ _ => rfl)]
    exact hs
  · intro s n hs
    rw [linkCount_field (·.children) (fun _ _ => rfl) (· + 1)]
    exact hs

end Hojicha.Fs
