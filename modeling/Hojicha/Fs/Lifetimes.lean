import Hojicha.Fs.Session
import Mathlib.Tactic.IntervalCases

/-! # Lifetimes of nodes -/

namespace Hojicha.Fs

open Framework

variable {roots : Set Addr} {mounts : Addr → Nat} {s : Vfs} {σ : Session} {n t d c : Addr}
  {name : Name}

inductive Reachable (roots : Set Addr) (s : Vfs) : Addr → Prop
  | root {t : Addr} : t ∈ roots → Reachable roots s t
  | child {d c : Addr} : Reachable roots s d → c ∈ (s.node d).children → Reachable roots s c
  | hard {a t : Addr} : Reachable roots s a → (s.node a).hardTarget = some t → Reachable roots s t

/-- Neither the node nor what it points to is freed, and its length is that of its chain. -/
structure PointersOk (s : Vfs) (n : Addr) : Prop where
  self : s.live n = true
  parent : ∀ d, (s.node n).parent = some d → s.live d = true
  children : ∀ c ∈ (s.node n).children, s.live c = true
  siblings : ∀ d, (s.node n).parent = some d → ∀ c ∈ (s.node d).children, s.live c = true
  hard : ∀ t, (s.node n).hardTarget = some t → s.live t = true
  len : (s.node n).type = .dir → (s.node n).len = (s.node n).children.length

private theorem Shape.pointersOk (h : Shape roots s) (hn : s.live n=true) : PointersOk s n where
  self := hn
  parent d hd := (h.parent n d hn hd).1
  children c hc := (h.child n c hn hc).1
  siblings d hd c hc := (h.child d c (h.parent n d hn hd).1 hc).1
  hard t ht := (h.hard n t hn ht).2.1
  len := h.len n hn

private theorem Shape.live_of_reachable (h : Shape roots s) (hn : Reachable roots s n) :
    s.live n=true := by
  induction hn with
  | root ht => exact (h.root _ ht).1
  | child _ hc ih => exact (h.child _ _ ih hc).1
  | hard _ ht ih => exact (h.hard _ _ ih ht).2.1

/-- As long as no entry is created in a removed directory, no node that can be reached or that a
process holds points to a freed one, and the length of each directory is that of its chain. -/
theorem no_pointer_to_freed_node (start : Session) (hstart : SessionOk roots mounts start)
    (ops : List TreeOp)
    (hall : Always Session.perform (fun σ op => op.Valid σ ∧ op.InLinkedDir σ) start ops) :
    ∀ n, Reachable roots (trace Session.perform start ops).2.vfs n ∨
        n ∈ (trace Session.perform start ops).2.held →
      PointersOk (trace Session.perform start ops).2.vfs n := by
  have hend := hstart.run hall
  intro n hn
  apply hend.tree.toShape.pointersOk
  rcases hn with hreach | hheld
  · exact hend.tree.toShape.live_of_reachable hreach
  · exact (hend.held n hheld).1

theorem smallTree_live : smallTree.live n=true ↔ n<6 := decide_eq_true_iff

theorem shape_smallTree : Shape {0, 5} smallTree where
  child d c hd hc := by
    rw [smallTree_live] at hd ⊢
    interval_cases d <;> simp [smallTree,emptyNode] at hc
    · rcases hc with rfl | rfl | rfl <;> exact ⟨by decide,rfl⟩
    · subst hc
      exact ⟨by decide,rfl⟩
  parent c d hc hp := by
    rw [smallTree_live] at hc ⊢
    interval_cases c <;> simp [smallTree,emptyNode] at hp <;> subst hp <;> decide
  nodup d hd := by
    rw [smallTree_live] at hd
    interval_cases d <;> decide
  leaf k hk ht := by
    rw [smallTree_live] at hk
    interval_cases k <;> first | rfl | exact absurd rfl ht
  hard a t ha ht := by
    rw [smallTree_live] at ha
    interval_cases a <;> cases ht
  len d hd _ := by
    rw [smallTree_live] at hd
    interval_cases d <;> rfl
  root t ht := by
    rcases ht with rfl | rfl <;> decide

theorem entries_smallTree (hn : n<6) (hroot : n∉({0, 5} : Set Addr)) :
    entries smallTree n = {n} := by
  ext c
  constructor
  · intro hc
    have hlive := smallTree_live.mp hc.1
    have htarget := hc.2.2
    interval_cases c <;> exact htarget
  · intro hc
    have heq : c=n := hc
    rw [heq]
    refine ⟨smallTree_live.mpr hn,?_,?_⟩
    · interval_cases n <;> first | exact Option.some_ne_none _ | simp at hroot
    · interval_cases n <;> rfl

private theorem treeOk_smallTree : TreeOk {0, 5} smallTree where
  toShape := shape_smallTree
  attached a ha ht := by
    rw [smallTree_live] at ha
    interval_cases a <;> exact absurd rfl ht
  rootCount t ht := by
    rcases ht with rfl | rfl <;> rfl
  count t ht hroot _ := by
    rw [smallTree_live] at ht
    rw [entries_smallTree ht hroot,Set.encard_singleton]
    interval_cases t <;> rfl
  removed k hk hzero := by
    rw [smallTree_live] at hk
    interval_cases k <;> cases hzero

theorem sessionOk_smallTree : SessionOk {0, 5} (fun n => if n=0 then 1 else 0) ⟨smallTree, []⟩ where
  tree := treeOk_smallTree
  refs k hk := by
    have hlive : k<6 := smallTree_live.mp hk
    interval_cases k <;> rfl
  held k hk := absurd hk List.not_mem_nil
  mounts k hk := by
    have heq : k=0 := by
      by_contra hne
      rw [if_neg hne] at hk
      exact Nat.lt_irrefl 0 hk
    rw [heq]
    exact ⟨rfl,rfl⟩

/-- A directory that is open while a file is created and its directory is removed. -/
theorem no_pointer_to_freed_node_smallTree :
    PointersOk (trace Session.perform ⟨smallTree, []⟩
      [.create 3 ['x'] (some 6), .unlink 3 ['x'], .borrow 3, .rmdir 1 ['e']]).2.vfs 6 := by
  apply no_pointer_to_freed_node ⟨smallTree,[]⟩ sessionOk_smallTree
  · refine ⟨⟨⟨rfl,?_⟩,?_⟩,⟨rfl,trivial⟩,⟨⟨rfl,rfl⟩,trivial⟩,⟨rfl,trivial⟩,trivial⟩
    · intro n hn
      cases hn
      rfl
    · exact Nat.one_pos
  · exact Or.inr (by decide)

/-- A file that was created in a removed working directory outlives it. -/
theorem parent_points_to_freed_node :
    ∃ ops, Always Session.perform (fun σ op => op.Valid σ) ⟨smallTree, []⟩ ops ∧
      6 ∈ (trace Session.perform ⟨smallTree, []⟩ ops).2.held ∧
      ((trace Session.perform ⟨smallTree, []⟩ ops).2.vfs.node 6).parent = some 3 ∧
      (trace Session.perform ⟨smallTree, []⟩ ops).2.vfs.live 3 = false := by
  refine ⟨[.borrow 3,.rmdir 1 ['e'],.create 3 ['x'] (some 6),.release 3],?_,?_⟩
  · refine ⟨⟨rfl,rfl⟩,rfl,⟨rfl,?_⟩,?_,trivial⟩
    · intro n hn
      cases hn
      rfl
    · change 3∈[6,3]
      decide
  · decide

/-- The directory entries that resolve to `t`, each beside the directory whose chain it is in. -/
def entriesFor (s : Vfs) (t : Addr) : Set (Addr × Addr) :=
  {e | s.live e.1 = true ∧ e.2 ∈ (s.node e.1).children ∧ (s.node e.2).hardTarget.getD e.2 = t}

private theorem encard_entriesFor (h : Shape roots s) (t : Addr) :
    (entriesFor s t).encard=(entries s t).encard := by
  have himage : Prod.snd '' entriesFor s t=entries s t := by
    ext c
    constructor
    · rintro ⟨⟨d,c'⟩,⟨hd,hc,ht⟩,rfl⟩
      obtain ⟨hlive,hparent⟩ := h.child d c' hd hc
      refine ⟨hlive,?_,ht⟩
      rw [hparent]
      exact Option.some_ne_none d
    · rintro ⟨hlive,hparent,ht⟩
      obtain ⟨d,hd⟩ := Option.ne_none_iff_exists'.mp hparent
      obtain ⟨hdir,hc⟩ := h.parent c d hlive hd
      exact ⟨(d, c),⟨hdir,hc,ht⟩,rfl⟩
  rw [← himage]
  -- an entry is in the chain of its parent only
  refine (Set.InjOn.encard_image ?_).symm
  rintro ⟨d,c⟩ ⟨hd,hc,-⟩ ⟨d',c'⟩ ⟨hd',hc',-⟩ heq
  have hcc : c=c' := heq
  subst hcc
  have hparents := (h.child d c hd hc).2.symm.trans (h.child d' c hd' hc').2
  rw [Option.some.inj hparents]

private theorem findChild_name (hfind : findChild s d name=some c) :
    (s.node c).name=some name := by
  have hpred := List.find?_some hfind
  exact of_decide_eq_true hpred

private theorem entry_of_opLookup (hd : s.live d=true) (hlookup : opLookup s d name = .ok t) :
    ∃ c, (d, c)∈entriesFor s t ∧ (s.node c).name=some name := by
  rw [opLookup] at hlookup
  split_ifs at hlookup
  cases hfind : findChild s d name with
  | none =>
    rw [hfind] at hlookup
    cases hlookup
  | some c =>
    rw [hfind] at hlookup
    exact ⟨c,⟨hd,findChild_spec hfind,Except.ok.inj hlookup⟩,findChild_name hfind⟩

structure IsFile (t : Addr) (data : List Byte) (len : Nat) (s : Vfs) : Prop where
  type : (s.node t).type = .file
  hard : (s.node t).hardTarget = none
  data : (s.node t).data = data
  len : (s.node t).len = len

variable {data : List Byte} {len : Nat}

section

variable (h : IsFile t data len s)
include h

private theorem IsFile.congr {s' : Vfs} (htype : (s'.node t).type=(s.node t).type)
    (hhard : (s'.node t).hardTarget=(s.node t).hardTarget)
    (hdata : (s'.node t).data=(s.node t).data) (hlen : (s'.node t).len=(s.node t).len) :
    IsFile t data len s' :=
  ⟨htype.trans h.type,hhard.trans h.hard,hdata.trans h.data,hlen.trans h.len⟩

private theorem IsFile.ne_dir (hdir : (s.node d).type = .dir) : t≠d := by
  intro heq
  rw [← heq,h.type] at hdir
  cases hdir

private theorem IsFile.modify {f : Node → Node} (n : Addr) (htype : ∀ node, (f node).type=node.type)
    (hhard : ∀ node, (f node).hardTarget=node.hardTarget)
    (hdata : ∀ node, (f node).data=node.data) (hlen : ∀ node, (f node).len=node.len) :
    IsFile t data len (s.modify n f) := by
  by_cases ht : t=n
  · subst ht
    apply h.congr
    all_goals rw [modify_node,if_pos rfl]
    · exact htype _
    · exact hhard _
    · exact hdata _
    · exact hlen _
  · apply h.congr
    all_goals rw [modify_node,if_neg ht]

private theorem IsFile.createChild {node : Node} (hn : t≠n)
    (hdir : (s.node d).type = .dir) : IsFile t data len (createChild s d n node) := by
  have hnode : (Fs.createChild s d n node).node t=s.node t :=
    createChild_other hn (h.ne_dir hdir)
  apply h.congr
  all_goals rw [hnode]

private theorem IsFile.release (n : Addr) : IsFile t data len (vfsVnodeRelease s n) :=
  h.congr (release_field (·.type) (fun _ _ => rfl) n t)
    (release_field (·.hardTarget) (fun _ _ => rfl) n t)
    (release_field (·.data) (fun _ _ => rfl) n t) (release_field (·.len) (fun _ _ => rfl) n t)

private theorem IsFile.borrow (n : Addr) : IsFile t data len (vfsVnodeBorrow s n) :=
  h.modify n (fun _ => rfl) (fun _ => rfl) (fun _ => rfl) (fun _ => rfl)

private theorem IsFile.remove {u : Addr} (hr : Removes s d c u) :
    IsFile t data len (afterRemoval s d c u) := by
  have hdir : ((vfsVnodeBorrow s u).node d).type = .dir := by
    rw [borrow_field (·.type) (fun _ _ => rfl)]
    exact hr.dir
  have hborrow := h.borrow u
  have htd := hborrow.ne_dir hdir
  have hdetached : IsFile t data len (detached (vfsVnodeBorrow s u) d c) := by
    by_cases htc : t=c
    · subst htc
      apply hborrow.congr
      all_goals rw [detached_child hr.ne]; rfl
    · apply hborrow.congr
      all_goals rw [detached_other htc htd]
  have hwithout : IsFile t data len (withoutEntry (vfsVnodeBorrow s u) d c) := by
    apply hdetached.congr
    all_goals rw [withoutEntry_node]
  apply IsFile.release
  exact hwithout.modify u (fun _ => rfl) (fun _ => rfl) (fun _ => rfl) (fun _ => rfl)

end

/-- Links, removals of names, opens and closes. The address of the file is not used again. -/
def TreeOp.OnNames (t : Addr) : TreeOp → Prop
  | .link _ _ _ new => new ≠ some t
  | .unlink _ _ | .borrow _ | .release _ => True
  | _ => False

structure FileOk (roots : Set Addr) (mounts : Addr → Nat) (t : Addr) (data : List Byte) (len : Nat)
    (σ : Session) : Prop where
  session : SessionOk roots mounts σ
  file : IsFile t data len σ.vfs

private theorem FileOk.link {u : Addr} {new : Option Addr}
    (h : FileOk roots mounts t data len σ) (hvalid : (TreeOp.link d name u new).Valid σ)
    (hnew : new≠some t) : IsFile t data len (vfsLinkIn σ.vfs d name u new).2 := by
  rcases vfsLinkIn_cases (d := d) hvalid.2.1 hvalid.2.2.1 with
    ⟨status,hr⟩ | ⟨n,node,hn,hdir,_,_,_,_,hr⟩
  · rw [hr]
    exact h.file
  · rw [hr]
    have htn : t≠n := by
      intro heq
      exact hnew (heq ▸ hn)
    have hcreated : IsFile t data len (createChild σ.vfs d n node) := h.file.createChild htn hdir
    dsimp only
    apply hcreated.modify u
    all_goals
      intro _
      rfl

private theorem FileOk.unlink (h : FileOk roots mounts t data len σ)
    (hd : σ.vfs.live d=true) : IsFile t data len (vfsUnlink σ.vfs d name).2 := by
  rw [vfsUnlink]
  split_ifs
  · exact h.file
  rcases removeChild_cases h.session.tree hd false with ⟨_,hr⟩ | ⟨c,u,hremoves,hr⟩
  · rw [hr]
    exact h.file
  · rw [hr]
    exact h.file.remove hremoves

private theorem FileOk.perform {op : TreeOp} (h : FileOk roots mounts t data len σ)
    (hvalid : op.Valid σ) (hlinked : op.InLinkedDir σ) (hop : op.OnNames t) :
    FileOk roots mounts t data len (σ.perform op).2 := by
  have hsession := h.session.perform hvalid hlinked
  cases op with
  | create | mkdir | symlink | rmdir => exact hop.elim
  | link d name u new => exact ⟨hsession,h.link hvalid hop⟩
  | unlink d name => exact ⟨hsession,h.unlink hvalid⟩
  | borrow n => exact ⟨hsession,h.file.borrow n⟩
  | release n => exact ⟨hsession,h.file.release n⟩

/-- What holds of a file at any time: its link count is the number of entries that resolve to it,
each entry and each handle leads to the contents, and it is freed once there is neither an entry nor
a handle. -/
structure FileKept (t : Addr) (data : List Byte) (len : Nat) (σ : Session) : Prop where
  linkCount : σ.vfs.live t = true → ((σ.vfs.node t).linkCount : ℕ∞) = (entriesFor σ.vfs t).encard
  named : ∀ d name, σ.vfs.live d = true → opLookup σ.vfs d name = .ok t →
    ∃ c, (d, c) ∈ entriesFor σ.vfs t ∧ (σ.vfs.node c).name = some name
  readable : (entriesFor σ.vfs t).Nonempty ∨ t ∈ σ.held →
    σ.vfs.live t = true ∧ IsFile t data len σ.vfs
  freed : σ.vfs.live t = false ↔ entriesFor σ.vfs t = ∅ ∧ t ∉ σ.held

private theorem FileOk.kept (h : FileOk roots mounts t data len σ) (hmount : mounts t=0) :
    FileKept t data len σ := by
  have htree := h.session.tree
  have hcard := encard_entriesFor htree.toShape t
  have hroot : t∉roots := by
    intro hmem
    exact h.file.ne_dir (htree.root t hmem).2.1 rfl
  have hused : (entriesFor σ.vfs t).Nonempty ∨ t∈σ.held → σ.vfs.live t=true := by
    rintro (⟨⟨d,c⟩,hd,hc,htarget⟩ | hheld)
    · exact (target_spec htree.toShape (htree.child d c hd hc).1 htarget).1
    · exact (h.session.held t hheld).1
  refine ⟨?_,fun d name hd => entry_of_opLookup hd,fun hor => ⟨hused hor,h.file⟩,?_⟩
  · intro hlive
    rw [hcard]
    exact htree.count t hlive hroot h.file.hard
  constructor
  · intro hfreed
    constructor
    · by_contra hne
      have hlive := hused (Or.inl (Set.nonempty_iff_ne_empty.mpr hne))
      exact ne_of_fresh hfreed hlive rfl
    · intro hheld
      exact ne_of_fresh hfreed (hused (Or.inr hheld)) rfl
  · intro hnone
    by_contra hlive
    rw [Bool.not_eq_false] at hlive
    have hzero : (σ.vfs.node t).linkCount=0 := by
      have hcount := htree.count t hlive hroot h.file.hard
      rw [← hcard,hnone.1,Set.encard_empty] at hcount
      exact_mod_cast hcount
    have hpos := (htree.removed t hlive hzero).2
    rw [h.session.refs t hlive,hmount,List.count_eq_zero.mpr hnone.2] at hpos
    exact Nat.lt_irrefl 0 hpos

end Hojicha.Fs
