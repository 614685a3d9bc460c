import Hojicha.Fs.Mutation
import Mathlib.Data.Set.Card

/-!
# The invariant of the tree

`Shape` says how nodes point to each other. `TreeOk` adds the link counts, and that a reference
keeps a removed node.
-/

namespace Hojicha.Fs

def entries (s : Vfs) (t : Addr) : Set Addr :=
  {c | s.live c = true ∧ (s.node c).parent ≠ none ∧ (s.node c).hardTarget.getD c = t}

structure Shape (roots : Set Addr) (s : Vfs) : Prop where
  child : ∀ d c, s.live d = true → c ∈ (s.node d).children →
    s.live c = true ∧ (s.node c).parent = some d
  parent : ∀ c d, s.live c = true → (s.node c).parent = some d →
    s.live d = true ∧ c ∈ (s.node d).children
  nodup : ∀ d, s.live d = true → (s.node d).children.Nodup
  leaf : ∀ n, s.live n = true → (s.node n).type ≠ .dir → (s.node n).children = []
  hard : ∀ a t, s.live a = true → (s.node a).hardTarget = some t →
    (s.node a).type = .file ∧ s.live t = true ∧ (s.node t).type = .file ∧
      (s.node t).hardTarget = none
  len : ∀ d, s.live d = true → (s.node d).type = .dir →
    (s.node d).len = (s.node d).children.length
  root : ∀ t ∈ roots, s.live t = true ∧ (s.node t).type = .dir ∧ (s.node t).parent = none

structure TreeOk (roots : Set Addr) (s : Vfs) : Prop extends Shape roots s where
  attached : ∀ a, s.live a = true → (s.node a).hardTarget ≠ none → (s.node a).parent ≠ none
  rootCount : ∀ t ∈ roots, (s.node t).linkCount = 1
  count : ∀ t, s.live t = true → t ∉ roots → (s.node t).hardTarget = none →
    ((s.node t).linkCount : ℕ∞) = (entries s t).encard
  removed : ∀ n, s.live n = true → (s.node n).linkCount = 0 →
    (s.node n).children = [] ∧ 0 < (s.node n).refcount

variable {roots : Set Addr} {s s' : Vfs} {d c n t x : Addr} {name : Name} {node : Node}

/-- Two nodes that differ in their counters and their mount only. -/
structure SamePointers (a b : Node) : Prop where
  type : b.type = a.type
  parent : b.parent = a.parent
  hardTarget : b.hardTarget = a.hardTarget
  children : b.children = a.children
  len : b.len = a.len

theorem Shape.congr (h : Shape roots s) (hlive : s'.live=s.live)
    (hnode : ∀ n, SamePointers (s.node n) (s'.node n)) : Shape roots s' where
  child d c hd hc := by
    rw [hlive] at hd ⊢
    rw [(hnode d).children] at hc
    rw [(hnode c).parent]
    exact h.child d c hd hc
  parent c d hc hp := by
    rw [hlive] at hc ⊢
    rw [(hnode c).parent] at hp
    rw [(hnode d).children]
    exact h.parent c d hc hp
  nodup d hd := by
    rw [hlive] at hd
    rw [(hnode d).children]
    exact h.nodup d hd
  leaf n hn ht := by
    rw [hlive] at hn
    rw [(hnode n).type] at ht
    rw [(hnode n).children]
    exact h.leaf n hn ht
  hard a t ha ht := by
    rw [hlive] at ha ⊢
    rw [(hnode a).hardTarget] at ht
    rw [(hnode a).type,(hnode t).type,(hnode t).hardTarget]
    exact h.hard a t ha ht
  len d hd ht := by
    rw [hlive] at hd
    rw [(hnode d).type] at ht
    rw [(hnode d).len,(hnode d).children]
    exact h.len d hd ht
  root t ht := by
    rw [hlive,(hnode t).type,(hnode t).parent]
    exact h.root t ht

private theorem entries_congr (hlive : s'.live=s.live)
    (hnode : ∀ n, SamePointers (s.node n) (s'.node n)) (t : Addr) :
    entries s' t=entries s t := by
  ext c
  simp only [entries,Set.mem_ofPred_eq,hlive,(hnode c).parent,(hnode c).hardTarget]

theorem samePointers_modify {f : Node → Node} (hf : ∀ node, SamePointers node (f node))
    (n k : Addr) : SamePointers (s.node k) ((s.modify n f).node k) := by
  rw [modify_node]
  split_ifs with hk
  · rw [hk]
    exact hf _
  · exact ⟨rfl,rfl,rfl,rfl,rfl⟩

private theorem samePointers_refcount (r : Nat → Nat) (node : Node) :
    SamePointers node (node.withRefcount (r node.refcount)) := ⟨rfl,rfl,rfl,rfl,rfl⟩

theorem samePointers_linkCount (r : Nat → Nat) (node : Node) :
    SamePointers node (node.withLinkCount (r node.linkCount)) := ⟨rfl,rfl,rfl,rfl,rfl⟩

private theorem TreeOk.refcount (h : TreeOk roots s) (n : Addr) (r : Nat → Nat)
    (hr : s.live n=true → (s.node n).linkCount=0 → 0<r (s.node n).refcount) :
    TreeOk roots (s.modify n fun node => node.withRefcount (r node.refcount)) := by
  have hsame := samePointers_modify (s := s) (samePointers_refcount r) n
  have hcount : ∀ k, ((s.modify n fun node => node.withRefcount (r node.refcount)).node k).linkCount
      = (s.node k).linkCount := by
    intro k
    rw [modify_node]
    split_ifs with hk
    · rw [hk]
      rfl
    · rfl
  have hshape : Shape roots (s.modify n fun node => node.withRefcount (r node.refcount)) :=
    h.toShape.congr rfl hsame
  refine { hshape with attached := ?_, rootCount := ?_, count := ?_, removed := ?_ }
  · intro a ha ht
    rw [(hsame a).hardTarget] at ht
    rw [(hsame a).parent]
    exact h.attached a ha ht
  · intro t ht
    rw [hcount]
    exact h.rootCount t ht
  · intro t hl hroot ht
    rw [(hsame t).hardTarget] at ht
    rw [hcount,entries_congr (by rfl) hsame]
    exact h.count t hl hroot ht
  · intro k hl hzero
    rw [hcount] at hzero
    rw [(hsame k).children]
    apply And.intro (h.removed k hl hzero).1
    rw [modify_node]
    split_ifs with hk
    · subst hk
      exact hr hl hzero
    · exact (h.removed k hl hzero).2

theorem opFree_live (n k : Addr) : (opFree s n).live k=true ↔ k≠n ∧ s.live k=true := by
  by_cases hk : k=n
  · subst hk
    simp [opFree]
  · simp [opFree,hk]

private theorem Shape.free (h : Shape roots s) (hroot : n∉roots) (hparent : (s.node n).parent=none)
    (hchildren : (s.node n).children=[])
    (halias : ∀ a, s.live a=true → (s.node a).hardTarget≠some n) :
    Shape roots (opFree s n) where
  child d c hd hc := by
    have hlive := (opFree_live n d).mp hd
    have hold := h.child d c hlive.2 hc
    apply And.intro ((opFree_live n c).mpr ⟨?_,hold.1⟩) hold.2
    intro heq
    have hsome : (s.node n).parent=some d := heq ▸ hold.2
    rw [hparent] at hsome
    cases hsome
  parent c d hc hp := by
    have hold := h.parent c d ((opFree_live n c).mp hc).2 hp
    apply And.intro ((opFree_live n d).mpr ⟨?_,hold.1⟩) hold.2
    intro heq
    have hmem := hold.2
    rw [heq,hchildren] at hmem
    exact List.not_mem_nil hmem
  nodup d hd := h.nodup d ((opFree_live n d).mp hd).2
  leaf k hk := h.leaf k ((opFree_live n k).mp hk).2
  hard a t ha ht := by
    have hlive := ((opFree_live n a).mp ha).2
    have hold := h.hard a t hlive ht
    apply And.intro hold.1
    apply And.intro ((opFree_live n t).mpr ⟨?_,hold.2.1⟩) hold.2.2
    intro heq
    exact halias a hlive (heq ▸ ht)
  len d hd := h.len d ((opFree_live n d).mp hd).2
  root t ht := by
    have hold := h.root t ht
    apply And.intro ((opFree_live n t).mpr ⟨?_,hold.1⟩) hold.2
    intro heq
    exact hroot (heq ▸ ht)

private theorem entries_opFree (hn : n∉entries s t) : entries (opFree s n) t=entries s t := by
  ext c
  simp only [entries,Set.mem_ofPred_eq,opFree_live]
  constructor
  · intro hc
    exact ⟨hc.1.2,hc.2⟩
  · intro hc
    refine ⟨⟨?_,hc.1⟩,hc.2⟩
    intro heq
    exact hn (heq ▸ hc)

private theorem TreeOk.free (h : TreeOk roots s) (hn : s.live n=true)
    (hhard : (s.node n).hardTarget=none) (hzero : (s.node n).linkCount=0) :
    TreeOk roots (opFree s n) := by
  have hroot : n∉roots := by
    intro hmem
    have hone := h.rootCount n hmem
    omega
  have hempty : entries s n = ∅ := by
    have hcount := h.count n hn hroot hhard
    rw [hzero] at hcount
    exact Set.encard_eq_zero.mp hcount.symm
  have hparent : (s.node n).parent=none := by
    by_contra hsome
    have hmem : n∈entries s n := ⟨hn,hsome,by rw [hhard]; rfl⟩
    rw [hempty] at hmem
    exact hmem
  have halias : ∀ a, s.live a=true → (s.node a).hardTarget≠some n := by
    intro a ha ht
    have hsome := h.attached a ha (by rw [ht]; exact Option.some_ne_none n)
    have hmem : a∈entries s n := ⟨ha,hsome,by rw [ht]; rfl⟩
    rw [hempty] at hmem
    exact hmem
  refine { h.toShape.free hroot hparent (h.removed n hn hzero).1 halias with
    attached := ?_, rootCount := h.rootCount, count := ?_, removed := ?_ }
  · intro a ha
    exact h.attached a ((opFree_live n a).mp ha).2
  · intro t ht hnot hard
    have hother : n∉entries s t := by
      intro hmem
      exact hmem.2.1 hparent
    rw [entries_opFree hother]
    exact h.count t ((opFree_live n t).mp ht).2 hnot hard
  · intro k hk
    exact h.removed k ((opFree_live n k).mp hk).2

theorem TreeOk.borrow (h : TreeOk roots s) (n : Addr) : TreeOk roots (vfsVnodeBorrow s n) :=
  h.refcount n (· + 1) fun _ _ => Nat.succ_pos _

theorem TreeOk.release (h : TreeOk roots s) (hn : s.live n=true)
    (hhard : (s.node n).hardTarget=none) : TreeOk roots (vfsVnodeRelease s n) := by
  rw [vfsVnodeRelease]
  split_ifs with hzero
  · exact h
  by_cases hlast : (s.node n).refcount-1=0 ∧ (s.node n).linkCount=0
  · simp only [modify_node,if_true,Node.withRefcount,hlast,and_self]
    have hfree := (h.free hn hhard hlast.2).refcount n (· - 1)
      (fun hl => absurd rfl ((opFree_live n n).mp hl).1)
    exact hfree
  · simp only [modify_node,if_true,Node.withRefcount,hlast,if_false]
    apply h.refcount n (· - 1)
    intro _ hcount
    by_contra hnot
    exact hlast ⟨Nat.eq_zero_of_not_pos hnot,hcount⟩

private theorem mem_addChild :
    x∈(node.addChild n).children ↔ x=n ∨ x∈node.children := by
  cases hfs : node.fs with
  | initrd => simp [Node.addChild,hfs,or_comm]
  | devfs => simp [Node.addChild,hfs]

private theorem nodup_addChild (hnodup : node.children.Nodup) (hn : n∉node.children) :
    (node.addChild n).children.Nodup := by
  cases hfs : node.fs with
  | initrd =>
    simp only [Node.addChild,hfs]
    exact hnodup.append (List.nodup_singleton n) (List.disjoint_singleton.mpr hn)
  | devfs =>
    simp only [Node.addChild,hfs]
    exact List.nodup_cons.mpr ⟨hn,hnodup⟩

private theorem length_addChild (node : Node) (n : Addr) :
    (node.addChild n).children.length=node.children.length + 1 := by
  cases hfs : node.fs with
  | initrd => simp [Node.addChild,hfs]
  | devfs => simp [Node.addChild,hfs]

theorem createChild_live (k : Addr) :
    (createChild s d n node).live k=true ↔ k=n ∨ s.live k=true := by
  by_cases hk : k=n
  · subst hk
    simp [createChild,allocNode,Vfs.modify]
  · simp [createChild,allocNode,Vfs.modify,hk]

theorem createChild_new (hne : n≠d) : (createChild s d n node).node n=node := by
  rw [createChild,modify_node,if_neg hne]
  simp [allocNode]

theorem createChild_dir (hne : n≠d) :
    (createChild s d n node).node d=(s.node d).addChild n := by
  rw [createChild,modify_node,if_pos rfl]
  simp [allocNode,hne.symm]

theorem createChild_other {k : Addr} (hn : k≠n) (hd : k≠d) :
    (createChild s d n node).node k=s.node k := by
  rw [createChild,modify_node,if_neg hd]
  simp [allocNode,hn]

theorem createChild_old {α : Type} (f : Node → α) (hf : ∀ node, f (node.addChild n)=f node)
    {k : Addr} (hne : n≠d) (hk : k≠n) : f ((createChild s d n node).node k)=f (s.node k) := by
  by_cases hd : k=d
  · rw [hd,createChild_dir hne,hf]
  · rw [createChild_other hk hd]

structure NewEntry (s : Vfs) (d : Addr) (name : Name) (node : Node) : Prop where
  valid : vfsValidateName name = true
  name : node.name = some name
  parent : node.parent = some d
  children : node.children = []
  len : node.type = .dir → node.len = 0
  hard : ∀ t, node.hardTarget = some t → node.type = .file ∧ s.live t = true ∧
    (s.node t).type = .file ∧ (s.node t).hardTarget = none
  linkCount : node.linkCount = 1
  fs : node.fs = (s.node d).fs
  file : node.type = .file → node.fs = .initrd
  mount : node.mount = none

theorem ne_of_fresh (hn : s.live n=false) {k : Addr} (hk : s.live k=true) : k≠n := by
  intro heq
  rw [heq,hn] at hk
  cases hk

private theorem Shape.attach (h : Shape roots s) (hd : s.live d=true)
    (hdir : (s.node d).type = .dir) (hn : s.live n=false) (hnew : NewEntry s d name node) :
    Shape roots (createChild s d n node) := by
  have hne : n≠d := (ne_of_fresh hn hd).symm
  have hold : ∀ {k}, s.live k=true → k≠n := ne_of_fresh hn
  have htype : ∀ {k}, s.live k=true →
      ((createChild s d n node).node k).type=(s.node k).type := fun hk =>
    createChild_old (·.type) (fun _ => rfl) hne (hold hk)
  have hparent : ∀ {k}, s.live k=true →
      ((createChild s d n node).node k).parent=(s.node k).parent := fun hk =>
    createChild_old (·.parent) (fun _ => rfl) hne (hold hk)
  have hhard : ∀ {k}, s.live k=true →
      ((createChild s d n node).node k).hardTarget=(s.node k).hardTarget := fun hk =>
    createChild_old (·.hardTarget) (fun _ => rfl) hne (hold hk)
  have hmem : ∀ {k x}, s.live k=true → (x∈((createChild s d n node).node k).children ↔
      (k=d ∧ x=n) ∨ x∈(s.node k).children) := by
    intro k x hk
    by_cases hkd : k=d
    · rw [hkd,createChild_dir hne,mem_addChild]
      simp
    · rw [createChild_other (hold hk) hkd]
      simp [hkd]
  constructor
  · intro e c he hc
    rcases (createChild_live e).mp he with heq | hlive
    · rw [heq,createChild_new hne,hnew.children] at hc
      exact absurd hc List.not_mem_nil
    rcases (hmem hlive).mp hc with hpair | hc
    · rw [hpair.1,hpair.2,createChild_new hne,hnew.parent]
      exact ⟨(createChild_live n).mpr (Or.inl rfl),rfl⟩
    · have hprev := h.child e c hlive hc
      rw [hparent hprev.1]
      exact ⟨(createChild_live c).mpr (Or.inr hprev.1),hprev.2⟩
  · intro c e hc hp
    rcases (createChild_live c).mp hc with heq | hlive
    · rw [heq,createChild_new hne,hnew.parent,Option.some.injEq] at hp
      rw [heq,← hp]
      exact ⟨(createChild_live d).mpr (Or.inr hd),(hmem hd).mpr (Or.inl ⟨rfl,rfl⟩)⟩
    · rw [hparent hlive] at hp
      have hprev := h.parent c e hlive hp
      exact ⟨(createChild_live e).mpr (Or.inr hprev.1),(hmem hprev.1).mpr (Or.inr hprev.2)⟩
  · intro e he
    rcases (createChild_live e).mp he with heq | hlive
    · rw [heq,createChild_new hne,hnew.children]
      exact List.nodup_nil
    by_cases hed : e=d
    · rw [hed,createChild_dir hne]
      apply nodup_addChild (h.nodup d hd)
      intro hc
      exact hold (h.child d n hd hc).1 rfl
    · rw [createChild_other (hold hlive) hed]
      exact h.nodup e hlive
  · intro k hk ht
    rcases (createChild_live k).mp hk with heq | hlive
    · rw [heq,createChild_new hne,hnew.children]
    rw [htype hlive] at ht
    have hkd : k≠d := by
      intro heq
      exact ht (heq ▸ hdir)
    rw [createChild_other (hold hlive) hkd]
    exact h.leaf k hlive ht
  · intro a t ha ht
    rcases (createChild_live a).mp ha with heq | hlive
    · rw [heq,createChild_new hne] at ht ⊢
      have htarget := hnew.hard t ht
      rw [htype htarget.2.1,hhard htarget.2.1]
      exact ⟨htarget.1,(createChild_live t).mpr (Or.inr htarget.2.1),htarget.2.2⟩
    · rw [hhard hlive] at ht
      have hprev := h.hard a t hlive ht
      rw [htype hlive,htype hprev.2.1,hhard hprev.2.1]
      exact ⟨hprev.1,(createChild_live t).mpr (Or.inr hprev.2.1),hprev.2.2⟩
  · intro e he ht
    rcases (createChild_live e).mp he with heq | hlive
    · rw [heq,createChild_new hne] at ht ⊢
      rw [hnew.children,hnew.len ht]
      rfl
    rw [htype hlive] at ht
    by_cases hed : e=d
    · rw [hed,createChild_dir hne,length_addChild,← h.len d hd hdir]
      rfl
    · rw [createChild_other (hold hlive) hed]
      exact h.len e hlive ht
  · intro t ht
    have hprev := h.root t ht
    rw [htype hprev.1,hparent hprev.1]
    exact ⟨(createChild_live t).mpr (Or.inr hprev.1),hprev.2⟩

private theorem mem_entries_attach (hd : s.live d=true) (hn : s.live n=false)
    (hparent : node.parent=some d) :
    x∈entries (createChild s d n node) t ↔
      (x=n ∧ node.hardTarget.getD n=t) ∨ x∈entries s t := by
  have hne : n≠d := (ne_of_fresh hn hd).symm
  by_cases hx : x=n
  · subst hx
    constructor
    · intro hmem
      have htarget := hmem.2.2
      rw [createChild_new hne] at htarget
      exact Or.inl ⟨rfl,htarget⟩
    · intro hor
      rcases hor with hnew | hold
      · refine ⟨(createChild_live x).mpr (Or.inl rfl),?_,?_⟩
        · rw [createChild_new hne,hparent]
          exact Option.some_ne_none d
        · rw [createChild_new hne]
          exact hnew.2
      · exact absurd rfl (ne_of_fresh hn hold.1)
  · have hp : ((createChild s d n node).node x).parent=(s.node x).parent :=
      createChild_old (·.parent) (fun _ => rfl) hne hx
    have hh : ((createChild s d n node).node x).hardTarget=(s.node x).hardTarget :=
      createChild_old (·.hardTarget) (fun _ => rfl) hne hx
    simp [entries,createChild_live,hp,hh,hx]

private theorem linkCount_attach (hne : n≠d) {k : Addr} (hk : k≠n) :
    ((createChild s d n node).node k).linkCount=(s.node k).linkCount :=
  createChild_old (·.linkCount) (fun _ => rfl) hne hk

private theorem attached_attach (h : TreeOk roots s) (hd : s.live d=true)
    (hn : s.live n=false) (hparent : node.parent=some d) :
    ∀ a, (createChild s d n node).live a=true →
      ((createChild s d n node).node a).hardTarget≠none →
      ((createChild s d n node).node a).parent≠none := by
  have hne : n≠d := (ne_of_fresh hn hd).symm
  intro a ha ht
  rcases (createChild_live a).mp ha with heq | hlive
  · rw [heq,createChild_new hne,hparent]
    exact Option.some_ne_none d
  · have han := ne_of_fresh hn hlive
    rw [createChild_old (·.hardTarget) (fun _ => rfl) hne han] at ht
    rw [createChild_old (·.parent) (fun _ => rfl) hne han]
    exact h.attached a hlive ht

private theorem removed_attach (h : TreeOk roots s) (hd : s.live d=true)
    (hn : s.live n=false) (hnew : NewEntry s d name node) (hlinked : 0<(s.node d).linkCount)
    {k : Addr} (hk : (createChild s d n node).live k=true)
    (hzero : ((createChild s d n node).node k).linkCount=0) :
    ((createChild s d n node).node k).children=[] ∧
      0<((createChild s d n node).node k).refcount := by
  have hne : n≠d := (ne_of_fresh hn hd).symm
  rcases (createChild_live k).mp hk with heq | hlive
  · rw [heq,createChild_new hne,hnew.linkCount] at hzero
    cases hzero
  have hkn := ne_of_fresh hn hlive
  rw [linkCount_attach hne hkn] at hzero
  have hkd : k≠d := by
    intro heq
    rw [heq] at hzero
    omega
  rw [createChild_other hkn hkd]
  exact h.removed k hlive hzero

private theorem entries_fresh (h : Shape roots s) (hn : s.live n=false) : entries s n = ∅ := by
  apply Set.eq_empty_of_forall_notMem
  intro c hc
  cases ht : (s.node c).hardTarget with
  | none =>
    have heq := hc.2.2
    rw [ht] at heq
    exact ne_of_fresh hn hc.1 heq
  | some t =>
    have heq := hc.2.2
    rw [ht] at heq
    exact ne_of_fresh hn (h.hard c t hc.1 ht).2.1 heq

section

variable (h : TreeOk roots s) (hd : s.live d = true) (hdir : (s.node d).type = .dir)
    (hn : s.live n = false) (hnew : NewEntry s d name node)
include h hd hdir hn hnew

theorem TreeOk.attach (hnone : node.hardTarget=none) (hlinked : 0<(s.node d).linkCount) :
    TreeOk roots (createChild s d n node) := by
  have hne : n≠d := (ne_of_fresh hn hd).symm
  have hmem : ∀ t x, x∈entries (createChild s d n node) t ↔
      (x=n ∧ n=t) ∨ x∈entries s t := by
    intro t x
    rw [mem_entries_attach hd hn hnew.parent,hnone]
    rfl
  refine { h.toShape.attach hd hdir hn hnew with
    attached := attached_attach h hd hn hnew.parent, rootCount := ?_, count := ?_,
    removed := fun k => removed_attach h hd hn hnew hlinked }
  · intro t ht
    rw [linkCount_attach hne (ne_of_fresh hn (h.root t ht).1)]
    exact h.rootCount t ht
  · intro t ht hroot hard
    rcases (createChild_live t).mp ht with heq | hlive
    · have hset : entries (createChild s d n node) t = {n} := by
        ext x
        rw [hmem,heq,entries_fresh h.toShape hn]
        simp
      rw [hset,heq,createChild_new hne,hnew.linkCount,Set.encard_singleton]
      rfl
    · have htn := ne_of_fresh hn hlive
      have hset : entries (createChild s d n node) t=entries s t := by
        ext x
        rw [hmem]
        simp [htn.symm]
      rw [createChild_old (·.hardTarget) (fun _ => rfl) hne htn] at hard
      rw [hset,linkCount_attach hne htn]
      exact h.count t hlive hroot hard

theorem TreeOk.attachAlias (hsome : node.hardTarget=some t) (hlinked : 0<(s.node d).linkCount) :
    TreeOk roots ((createChild s d n node).modify t
      fun node => node.withLinkCount (node.linkCount + 1)) := by
  have hne : n≠d := (ne_of_fresh hn hd).symm
  have htarget := hnew.hard t hsome
  have htn : t≠n := ne_of_fresh hn htarget.2.1
  generalize hs : createChild s d n node=s₁
  have hsame := samePointers_modify (s := s₁) (samePointers_linkCount (· + 1)) t
  have hshape : Shape roots s₁ := hs ▸ h.toShape.attach hd hdir hn hnew
  have hshape' : Shape roots (s₁.modify t fun node => node.withLinkCount (node.linkCount+1)) :=
    hshape.congr rfl hsame
  have hcount : ∀ k, ((s₁.modify t fun node => node.withLinkCount (node.linkCount+1)).node k
      ).linkCount=if k=t then (s₁.node t).linkCount+1 else (s₁.node k).linkCount := by
    intro k
    rw [modify_node]
    split_ifs with hk
    · rfl
    · rfl
  have hmem : ∀ u x, x∈entries s₁ u ↔ (x=n ∧ t=u) ∨ x∈entries s u := by
    intro u x
    rw [← hs,mem_entries_attach hd hn hnew.parent,hsome]
    rfl
  have hold : ∀ k, k≠n → (s₁.node k).linkCount=(s.node k).linkCount := by
    intro k hk
    rw [← hs]
    exact linkCount_attach hne hk
  have htroot : t∉roots := by
    intro hroot
    have hfile := (h.root t hroot).2.1
    rw [htarget.2.2.1] at hfile
    cases hfile
  refine { hshape' with attached := ?_, rootCount := ?_, count := ?_, removed := ?_ }
  · intro a ha hard
    rw [(hsame a).hardTarget] at hard
    rw [(hsame a).parent]
    subst hs
    exact attached_attach h hd hn hnew.parent a ha hard
  · intro u hu
    have hut : u≠t := fun heq => htroot (heq ▸ hu)
    rw [hcount,if_neg hut,hold u (ne_of_fresh hn (h.root u hu).1)]
    exact h.rootCount u hu
  · intro u hu hroot hard
    rw [(hsame u).hardTarget] at hard
    rw [hcount,entries_congr (by rfl) hsame]
    have hun : u≠n := by
      intro heq
      rw [heq,← hs,createChild_new hne,hsome] at hard
      cases hard
    have hlive : s.live u=true := by
      have hlive' : (createChild s d n node).live u=true := hs ▸ hu
      exact ((createChild_live u).mp hlive').resolve_left hun
    rw [← hs,createChild_old (·.hardTarget) (fun _ => rfl) hne hun] at hard
    have hbefore := h.count u hlive hroot hard
    split_ifs with hut
    · have hset : entries s₁ u=insert n (entries s u) := by
        ext x
        rw [hmem]
        simp [hut]
      have hfresh : n∉entries s u := fun hin => ne_of_fresh hn hin.1 rfl
      rw [hset,Set.encard_insert_of_notMem hfresh,← hbefore,← hut,hold u hun]
      push_cast
      rfl
    · have hset : entries s₁ u=entries s u := by
        ext x
        rw [hmem]
        simp [Ne.symm hut]
      rw [hset,hold u hun]
      exact hbefore
  · intro k hk hzero
    rw [hcount] at hzero
    split_ifs at hzero with hkt
    rw [modify_node,if_neg hkt]
    subst hs
    exact removed_attach h hd hn hnew hlinked hk hzero

end

def detached (s : Vfs) (d c : Addr) : Vfs :=
  (s.modify d (·.dropChild c)).modify c (·.withParent none)

theorem detachChild_eq (hp : (s.node c).parent=some d) (hc : c∈(s.node d).children) :
    detachChild s c=some (detached s d c) := by
  rw [detachChild,hp]
  exact if_pos hc

private theorem detached_dir (hne : c≠d) : (detached s d c).node d=(s.node d).dropChild c := by
  rw [detached,modify_node,if_neg hne.symm,modify_node,if_pos rfl]

theorem detached_child (hne : c≠d) : (detached s d c).node c=(s.node c).withParent none := by
  rw [detached,modify_node,if_pos rfl,modify_node,if_neg hne]

theorem detached_other {k : Addr} (hc : k≠c) (hd : k≠d) :
    (detached s d c).node k=s.node k := by
  rw [detached,modify_node,if_neg hc,modify_node,if_neg hd]

theorem detached_field {α : Type} (f : Node → α) (hdrop : ∀ node, f (node.dropChild c)=f node)
    (hparent : ∀ node, f (node.withParent none)=f node) (hne : c≠d) (k : Addr) :
    f ((detached s d c).node k)=f (s.node k) := by
  by_cases hc : k=c
  · rw [hc,detached_child hne,hparent]
  by_cases hd : k=d
  · rw [hd,detached_dir hne,hdrop]
  · rw [detached_other hc hd]

theorem detached_parent (hne : c≠d) (k : Addr) :
    ((detached s d c).node k).parent=if k=c then none else (s.node k).parent := by
  by_cases hc : k=c
  · rw [if_pos hc,hc,detached_child hne]
    rfl
  rw [if_neg hc]
  by_cases hd : k=d
  · rw [hd,detached_dir hne]
    rfl
  · rw [detached_other hc hd]

theorem detached_children (hne : c≠d) (k : Addr) :
    ((detached s d c).node k).children =
      if k=d then (s.node d).children.erase c else (s.node k).children := by
  by_cases hd : k=d
  · rw [if_pos hd,hd,detached_dir hne]
    rfl
  rw [if_neg hd]
  by_cases hc : k=c
  · rw [hc,detached_child hne]
    rfl
  · rw [detached_other hc hd]

private theorem Shape.detach (h : Shape roots s) (hne : c≠d) (hd : s.live d=true)
    (hdir : (s.node d).type = .dir) (hc : c∈(s.node d).children) :
    Shape roots (detached s d c) := by
  have htype : ∀ k, ((detached s d c).node k).type=(s.node k).type :=
    detached_field (·.type) (fun _ => rfl) (fun _ => rfl) hne
  have hhard : ∀ k, ((detached s d c).node k).hardTarget=(s.node k).hardTarget :=
    detached_field (·.hardTarget) (fun _ => rfl) (fun _ => rfl) hne
  have hmem : ∀ {k x}, s.live k=true → (x∈((detached s d c).node k).children ↔
      x∈(s.node k).children ∧ x≠c) := by
    intro k x hk
    rw [detached_children hne]
    split_ifs with hkd
    · rw [hkd,(h.nodup d hd).mem_erase_iff]
      exact and_comm
    · constructor
      · intro hx
        refine ⟨hx,?_⟩
        intro hxc
        -- a second parent of `c`
        have hp := (h.child k x hk hx).2
        rw [hxc,(h.child d c hd hc).2,Option.some.injEq] at hp
        exact hkd hp.symm
      · intro hx
        exact hx.1
  constructor
  · intro e x he hx
    have hx' := (hmem he).mp hx
    rw [detached_parent hne,if_neg hx'.2]
    exact h.child e x he hx'.1
  · intro x e hx hp
    rw [detached_parent hne] at hp
    split_ifs at hp with hxc
    have hprev := h.parent x e hx hp
    exact ⟨hprev.1,(hmem hprev.1).mpr ⟨hprev.2,hxc⟩⟩
  · intro e he
    rw [detached_children hne]
    split_ifs with hed
    · exact (h.nodup d hd).erase c
    · exact h.nodup e he
  · intro k hk ht
    rw [htype] at ht
    have hkd : k≠d := by
      intro heq
      exact ht (heq ▸ hdir)
    rw [detached_children hne,if_neg hkd]
    exact h.leaf k hk ht
  · intro a t ha ht
    rw [hhard] at ht
    rw [htype,htype,hhard]
    exact h.hard a t ha ht
  · intro e he ht
    rw [htype] at ht
    by_cases hed : e=d
    · have hlen := h.len d hd hdir
      rw [hed,detached_dir hne]
      simp only [Node.dropChild]
      rw [List.length_erase_of_mem hc,hlen]
    · rw [detached_children hne,if_neg hed,← h.len e he ht]
      by_cases hec : e=c
      · rw [hec,detached_child hne]
        rfl
      · rw [detached_other hec hed]
  · intro t ht
    have hprev := h.root t ht
    rw [htype,detached_parent hne,hprev.2.2,ite_self]
    exact ⟨hprev.1,hprev.2.1,rfl⟩

private theorem mem_entries_detached (hne : c≠d) :
    x∈entries (detached s d c) t ↔ x∈entries s t ∧ x≠c := by
  have hhard : ∀ k, ((detached s d c).node k).hardTarget=(s.node k).hardTarget :=
    detached_field (·.hardTarget) (fun _ => rfl) (fun _ => rfl) hne
  simp only [entries,Set.mem_ofPred_eq,hhard,detached_parent hne]
  by_cases hx : x=c
  · simp [hx]
  · simp only [ne_eq,hx,not_false_eq_true,and_true]
    rfl

/-- The tree without the entry. An alias is freed at once, a node when its last reference goes. -/
def withoutEntry (s : Vfs) (d c : Addr) : Vfs :=
  if (s.node c).hardTarget ≠ none then opFree (detached s d c) c else detached s d c

theorem withoutEntry_node (k : Addr) : (withoutEntry s d c).node k=(detached s d c).node k := by
  rw [withoutEntry]
  split_ifs with hhard
  · rfl
  · rfl

theorem withoutEntry_live (k : Addr) : (withoutEntry s d c).live k=true ↔
    s.live k=true ∧ (k=c → (s.node c).hardTarget=none) := by
  rw [withoutEntry]
  split_ifs with hhard
  · rw [opFree_live]
    constructor
    · intro hk
      exact ⟨hk.2,fun heq => absurd heq hk.1⟩
    · intro hk
      exact ⟨fun heq => hhard (hk.2 heq),hk.1⟩
  · constructor
    · intro hk
      exact ⟨hk,fun _ => not_not.mp hhard⟩
    · intro hk
      exact hk.1

private theorem mem_entries_withoutEntry (hne : c≠d) :
    x∈entries (withoutEntry s d c) t ↔ x∈entries s t ∧ x≠c := by
  rw [← mem_entries_detached hne,withoutEntry]
  split_ifs with hhard
  · rw [entries_opFree]
    intro hmem
    exact ((mem_entries_detached hne).mp hmem).2 rfl
  · rfl

private theorem Shape.withoutEntry (h : Shape roots s) (hne : c≠d) (hd : s.live d=true)
    (hdir : (s.node d).type = .dir) (hc : c∈(s.node d).children) :
    Shape roots (withoutEntry s d c) := by
  have hchild := h.child d c hd hc
  have hdetached := h.detach hne hd hdir hc
  rw [Fs.withoutEntry]
  split_ifs with hhard
  · obtain ⟨t,ht⟩ := Option.ne_none_iff_exists'.mp hhard
    have hfile : (s.node c).type = .file := (h.hard c t hchild.1 ht).1
    apply hdetached.free
    · intro hroot
      have hnone := (h.root c hroot).2.2
      rw [hchild.2] at hnone
      cases hnone
    · rw [detached_parent hne,if_pos rfl]
    · rw [detached_children hne,if_neg hne]
      apply h.leaf c hchild.1
      rw [hfile]
      exact NodeType.noConfusion
    · intro a ha htarget
      rw [detached_field (·.hardTarget) (fun _ => rfl) (fun _ => rfl) hne] at htarget
      exact hhard (h.hard a c ha htarget).2.2.2
  · exact hdetached

private theorem encard_pred {k : Nat} {E : Set Addr} (hk : (k : ℕ∞)=E.encard) (hc : c∈E) :
    ((k - 1 : Nat) : ℕ∞)=(E \ {c}).encard := by
  rw [Set.encard_sdiff_singleton_of_mem hc,← hk]
  rfl

private theorem withoutEntry_field {α : Type} (g : Node → α)
    (hdrop : ∀ node, g (node.dropChild c)=g node) (hparent : ∀ node, g (node.withParent none)=g node)
    (hne : c≠d) (k : Addr) : g ((withoutEntry s d c).node k)=g (s.node k) := by
  rw [withoutEntry_node]
  exact detached_field g hdrop hparent hne k

private theorem unlinked_linkCount (hne : c≠d) (k : Addr) :
    (((withoutEntry s d c).modify t fun node => node.withLinkCount (node.linkCount - 1)).node k
      ).linkCount=if k=t then (s.node t).linkCount-1 else (s.node k).linkCount := by
  have hlinks := withoutEntry_field (s := s) (·.linkCount) (fun _ => rfl) (fun _ => rfl) hne
  rw [modify_node]
  split_ifs with hk
  · simp only [Node.withLinkCount,hlinks]
  · exact hlinks k

private theorem unlinked_refcount (hne : c≠d) (k : Addr) :
    (((withoutEntry s d c).modify t fun node => node.withLinkCount (node.linkCount - 1)).node k
      ).refcount=(s.node k).refcount := by
  have hrefs := withoutEntry_field (s := s) (·.refcount) (fun _ => rfl) (fun _ => rfl) hne
  rw [modify_node]
  split_ifs with hk
  · rw [hk]
    exact hrefs t
  · exact hrefs k

/-- What an entry stands for is neither an alias nor the root of a file system. -/
private theorem Shape.entry_target (h : Shape roots s) (hd : s.live d=true)
    (hc : c∈(s.node d).children) (ht : (s.node c).hardTarget.getD c=t) :
    (s.node t).hardTarget=none ∧ t∉roots := by
  have hchild := h.child d c hd hc
  cases hhard : (s.node c).hardTarget with
  | none =>
    rw [hhard] at ht
    have heq : c=t := ht
    rw [← heq]
    refine ⟨hhard,?_⟩
    intro hroot
    have hnone := (h.root c hroot).2.2
    rw [hchild.2] at hnone
    cases hnone
  | some u =>
    rw [hhard] at ht
    have heq : u=t := ht
    have htarget := h.hard c u hchild.1 hhard
    rw [← heq]
    refine ⟨htarget.2.2.2,?_⟩
    intro hroot
    have hdir := (h.root u hroot).2.1
    rw [htarget.2.2.1] at hdir
    cases hdir

private theorem TreeOk.withoutEntry_attached (h : TreeOk roots s) (hne : c≠d)
    (ha : (withoutEntry s d c).live a=true)
    (hard : ((withoutEntry s d c).node a).hardTarget≠none) :
    ((withoutEntry s d c).node a).parent≠none := by
  rw [withoutEntry_field (·.hardTarget) (fun _ => rfl) (fun _ => rfl) hne] at hard
  have hlive := (withoutEntry_live a).mp ha
  have hac : a≠c := fun heq => hard (heq ▸ hlive.2 heq)
  rw [withoutEntry_node,detached_parent hne,if_neg hac]
  exact h.attached a hlive.1 hard

/-- The entries of the target are one less, those of any other node are the same. -/
private theorem TreeOk.withoutEntry_count (h : TreeOk roots s) (hne : c≠d) (hd : s.live d=true)
    (hc : c∈(s.node d).children) (ht : (s.node c).hardTarget.getD c=t) (hu : s.live u=true)
    (hroot : u∉roots) (hard : (s.node u).hardTarget=none) :
    ((if u=t then (s.node t).linkCount-1 else (s.node u).linkCount : Nat) : ℕ∞) =
      (entries (withoutEntry s d c) u).encard := by
  have hchild := h.child d c hd hc
  have hentry : c∈entries s t := by
    refine ⟨hchild.1,?_,ht⟩
    rw [hchild.2]
    exact Option.some_ne_none d
  have hset : entries (withoutEntry s d c) u=entries s u \ {c} := by
    ext x
    rw [mem_entries_withoutEntry hne]
    rfl
  have hbefore := h.count u hu hroot hard
  rw [hset]
  split_ifs with hut
  · rw [hut] at hbefore ⊢
    exact encard_pred hbefore hentry
  · have hother : c∉entries s u := by
      intro hmem
      exact hut (hmem.2.2.symm.trans ht)
    rw [Set.sdiff_singleton_eq_self hother]
    exact hbefore

/-- A node that no entry leads to has no children and is held by someone. -/
private theorem TreeOk.withoutEntry_removed (h : TreeOk roots s) (hne : c≠d)
    (hc : c∈(s.node d).children) (hchildren : (s.node t).children=[])
    (hheld : 0<(s.node t).refcount) (hk : s.live k=true)
    (hzero : (if k=t then (s.node t).linkCount-1 else (s.node k).linkCount)=0) :
    ((withoutEntry s d c).node k).children=[] ∧ 0<(s.node k).refcount := by
  have hbefore : (s.node k).children=[] ∧ 0<(s.node k).refcount := by
    by_cases hkt : k=t
    · rw [hkt]
      exact ⟨hchildren,hheld⟩
    · rw [if_neg hkt] at hzero
      exact h.removed k hk hzero
  have hkd : k≠d := by
    intro heq
    rw [heq] at hbefore
    rw [hbefore.1] at hc
    exact List.not_mem_nil hc
  rw [withoutEntry_node,detached_children hne,if_neg hkd]
  exact hbefore

/-- Taking out an entry takes one from the link count of its target, which someone must hold. -/
theorem TreeOk.withoutEntry (h : TreeOk roots s) (hne : c≠d) (hd : s.live d=true)
    (hdir : (s.node d).type = .dir) (hc : c∈(s.node d).children)
    (ht : (s.node c).hardTarget.getD c=t) (hchildren : (s.node t).children=[])
    (hheld : 0<(s.node t).refcount) :
    TreeOk roots ((withoutEntry s d c).modify t
      fun node => node.withLinkCount (node.linkCount - 1)) := by
  have hsame := samePointers_modify (s := Fs.withoutEntry s d c) (samePointers_linkCount (· - 1)) t
  have hshape : Shape roots ((Fs.withoutEntry s d c).modify t
      fun node => node.withLinkCount (node.linkCount-1)) :=
    (h.toShape.withoutEntry hne hd hdir hc).congr rfl hsame
  refine { hshape with attached := ?_, rootCount := ?_, count := ?_, removed := ?_ }
  · intro a ha hard
    rw [(hsame a).hardTarget] at hard
    rw [(hsame a).parent]
    exact h.withoutEntry_attached hne ha hard
  · intro u hu
    have hut : u≠t := fun heq => (h.entry_target hd hc ht).2 (heq ▸ hu)
    rw [unlinked_linkCount hne,if_neg hut]
    exact h.rootCount u hu
  · intro u hu hroot hard
    rw [(hsame u).hardTarget,
      withoutEntry_field (·.hardTarget) (fun _ => rfl) (fun _ => rfl) hne] at hard
    rw [unlinked_linkCount hne,entries_congr (by rfl) hsame]
    exact h.withoutEntry_count hne hd hc ht ((withoutEntry_live u).mp hu).1 hroot hard
  · intro k hk hzero
    rw [unlinked_linkCount hne] at hzero
    rw [(hsame k).children,unlinked_refcount hne]
    exact h.withoutEntry_removed hne hc hchildren hheld ((withoutEntry_live k).mp hk).1 hzero

end Hojicha.Fs
