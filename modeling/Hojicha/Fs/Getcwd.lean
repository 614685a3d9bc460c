import Hojicha.Fs.Mounts

/-!
# The path of the working directory

`vfs_getcwd` climbs from a directory to the root and writes the names in front of each other.
-/

namespace Hojicha.Fs

open Framework List

def EntryName (c : Name) : Prop := c ≠ [] ∧ '/' ∉ c ∧ Plain c

inductive Linked (s : Vfs) : Addr → List Name → Prop
  | root : Linked s s.root []
  | child {d n : Addr} {cs : List Name} {c : Name} (hd : Linked s d cs)
      (hdir : (s.node d).type = .dir) (hc : EntryName c) (hlookup : opLookup s d c = .ok n)
      (hn : (s.node n).type = .dir) : Linked s (crossMount s n) (cs ++ [c])

variable {s : Vfs} {d n current : Addr} {cs : List Name} {c : Name} {left : Nat}

section

variable (hs : MountsOk s)
include hs

private theorem Linked.crossMount (h : Linked s d cs) : crossMount s d=d := by
  cases h with
  | root => exact crossMount_of_active hs.root_active
  | child _ _ _ _ _ => exact crossMount_crossMount hs _

private theorem Linked.parent (hshape : TreeShape s) (h : Linked s d cs) {p : Addr}
    (hp : componentParent s d = .ok p) : ∃ ps, Linked s p ps := by
  cases h with
  | root =>
    rw [componentParent,if_pos rfl] at hp
    exact absurd hp (by simp)
  | child hd _ _ hlookup hn =>
    obtain ⟨hmem,hparent,_⟩ := opLookup_dir hshape hlookup hn
    rw [componentParent_crossMount hs hmem hparent,Except.ok.injEq] at hp
    rw [← hp]
    exact ⟨_,hd⟩

private theorem Linked.resolve (h : Linked s d cs) (left : Nat) :
    resolve s left s.root cs = .ok d := by
  induction h generalizing left with
  | root => rfl
  | @child d n cs c hd hdir hc hlookup hn ih =>
    apply resolve_append_of_ok (ih left)
    intro l
    have hcross := crossMount_dir hs hn
    rw [resolve_plain hdir hc.2.2,hlookup]
    simp only [Except.bind,hcross]
    rfl

private theorem dir_of_crossMount (h : (s.node (crossMount s n)).type = .dir) :
    (s.node n).type = .dir := by
  cases hmount : (s.node n).mount with
  | none =>
    rw [crossMount,hmount] at h
    exact h
  | some m => exact hs.covered_dir n m hmount

private theorem linked_of_go (hshape : TreeShape s) {next : Addr}
    (hlinked : Linked s current cs) (hc : c≠[] ∧ '/'∉c)
    (hstep : nextStep s current c = .go next) (hnext : (s.node next).type = .dir) :
    ∃ ds, Linked s next ds := by
  rcases nextStep_go hstep with ⟨_,heq⟩ | ⟨_,hparent⟩ | ⟨hplain,child,hchild,heq⟩
  · rw [heq]
    exact ⟨cs,hlinked⟩
  · exact hlinked.parent hs hshape hparent
  · rw [heq] at hnext ⊢
    exact ⟨_,Linked.child hlinked (dir_of_nextStep c (by simp [hstep])) ⟨hc.1,hc.2,hplain⟩ hchild
      (dir_of_crossMount hs hnext)⟩

private theorem linked_walkStart {base : Option Addr} {path : Path} (hbase : path.head? = some '/' ∨
      ∃ bs, Linked s (crossMount s (base.getD (s.cwd.getD s.root))) bs) :
    ∃ bs, Linked s (walkStart s base path) bs := by
  rw [walkStart]
  split_ifs with habs
  · rw [Vfs.root,crossMount_of_active hs.root_active]
    exact ⟨[],Linked.root⟩
  · exact hbase.resolve_left habs

private theorem linked_of_lookup (hshape : TreeShape s) {p : Path}
    (hstart : ∃ bs, Linked s (walkStart s none p) bs) (h : vfsLookup s p = .ok d)
    (hdir : (s.node d).type = .dir) : ∃ ds, Linked s d ds := by
  rw [vfsLookup_eq s (path_ne_nil h)] at h
  revert hdir
  apply resolve_invariant (P := fun n => (s.node n).type = .dir → ∃ ns, Linked s n ns) _ _ _ _ h
  · intro n c next hc hslash hn hstep hnext
    obtain ⟨ns,hlinked⟩ := hn (dir_of_nextStep c (by simp [hstep]))
    exact linked_of_go hs hshape hlinked ⟨hc,hslash⟩ hstep hnext
  · intro base target hbase hbasedir _
    apply linked_walkStart hs
    apply Or.inr
    obtain ⟨bs,hb⟩ := hbase hbasedir
    rw [Option.getD_some,hb.crossMount hs]
    exact ⟨bs,hb⟩
  · intro c hc
    exact mem_fields hc
  · intro _
    exact hstart

private theorem Linked.not_self (hshape : TreeShape s) (h : Linked s d cs) :
    d∉(s.node d).children := by
  induction h with
  | root => exact hs.roots_unlisted _ hs.root_active _
  | @child d n cs c hd hdir hc hlookup hn ih =>
    obtain ⟨hmem,hparent,_⟩ := opLookup_dir hshape hlookup hn
    intro hself
    obtain ⟨_,⟨_,hcross⟩ | ⟨k,_,hactive,_,_,_,hcross⟩⟩ := listed_cases hs hmem
    · rw [hcross] at hself
      have hsame := hshape.parent n n hself hn
      rw [hparent,Option.some.injEq] at hsame
      rw [hsame] at ih
      exact ih hself
    · rw [hcross] at hself
      exact hs.roots_unlisted k hactive _ hself

private theorem crossMount_ne_root (hmem : n∈(s.node d).children) : crossMount s n≠s.root := by
  obtain ⟨hroot,⟨_,hcross⟩ | ⟨k,_,_,_,hne,_,hcross⟩⟩ := listed_cases hs hmem
  · rw [hcross]
    exact hroot
  · rw [hcross]
    exact hne

/-- One step of the loop writes the name of the directory and leads to its parent. -/
private theorem getcwdStepToParent_linked (hshape : TreeShape s) (hd : Linked s d cs)
    (hc : EntryName c) (hlookup : opLookup s d c = .ok n) (hn : (s.node n).type = .dir) (pos : Nat)
    (tail : Path) :
    getcwdStepToParent s (crossMount s n) pos tail =
      if pos<c.length + 1 then .error .range
      else .ok (d, pos - c.length - 1, '/'::c++tail) := by
  obtain ⟨hmem,hparent,hnodeName⟩ := opLookup_dir hshape hlookup hn
  have hop : opParent s n=d := by rw [opParent,hparent,Option.getD_some]
  have hne : d≠n := by
    intro heq
    rw [← heq] at hmem
    exact hd.not_self hs hshape hmem
  have hname : opName s n = .ok c := by rw [opName,hnodeName]
  have hstrip : c.rdropWhile (· == '/')=c := by
    rw [rdropWhile_eq_self_iff]
    intro hnil hlast
    have hslash : c.getLast hnil = '/' := by simpa using hlast
    exact hc.2.1 (hslash ▸ getLast_mem hnil)
  have hprepend : getcwdPrependComponent pos tail c =
      if pos<c.length+1 then .error .range
      else .ok (pos-c.length-1, '/'::c++tail) := by
    rw [getcwdPrependComponent,hstrip]
  obtain ⟨_,⟨hmount,hcross⟩ | ⟨k,hpoint,hactive,hother,_,hlisted,hcross⟩⟩ :=
    listed_cases hs hmem
  · rw [hcross,getcwdStepToParent,getcwdIsMountRoot,hmount]
    simp only [hop,if_neg hne,hname,hprepend]
    split_ifs
    · rfl
    · rfl
  · rw [hcross,getcwdStepToParent,getcwdIsMountRoot,hactive]
    simp only [hother,ne_eq,not_false_eq_true,and_self,if_true,hpoint,if_neg hlisted,hop,
      if_neg hne,hname,hprepend]
    split_ifs
    · rfl
    · rfl

end

def pathTail (depth : Nat) (cs : List Name) : Path :=
  (cs.drop (cs.length - depth)).flatMap ('/' :: ·)

def pathOf (cs : List Name) : Path := if cs = [] then ['/'] else cs.flatMap ('/' :: ·)

private theorem pathTail_concat (depth : Nat) (cs : List Name) (c : Name) :
    pathTail (depth + 1) (cs++[c])=pathTail depth cs ++ '/'::c := by
  have hlen : (cs++[c]).length-(depth+1)=cs.length-depth := by
    rw [length_append,length_singleton]
    omega
  rw [pathTail,hlen,drop_append_of_le_length (by omega),flatMap_append,pathTail]
  simp

private theorem pathTail_of_le {depth : Nat} (h : cs.length≤depth) :
    pathTail depth cs=cs.flatMap ('/' :: ·) := by
  rw [pathTail,Nat.sub_eq_zero_of_le h,drop_zero]

private theorem getcwdLoop_linked (hs : MountsOk s) (hshape : TreeShape s) (h : Linked s d cs)
    {depth len pos : Nat} {tail : Path} (hroom : pos + tail.length + 1=len)
    (hmore : tail≠[] ∨ cs≠[]) :
    getcwdLoop s len depth d pos tail =
      if pos<(pathTail depth cs).length then .error .range
      else .ok (pathTail depth cs++tail) := by
  induction depth generalizing d cs pos tail with
  | zero =>
    have hnil : pathTail 0 cs=[] := by
      rw [pathTail,Nat.sub_zero,drop_length,flatMap_nil]
    rw [getcwdLoop,hnil,if_neg (by simp),nil_append]
  | succ depth ih =>
    cases h with
    | root =>
      have htail : 0<tail.length := length_pos_of_ne_nil (hmore.resolve_right (by simp))
      have hnil : pathTail (depth+1) []=[] := by rw [pathTail,drop_nil,flatMap_nil]
      rw [getcwdLoop,if_pos rfl,if_neg (by omega),hnil,if_neg (by simp),nil_append]
    | @child d n cs c hd hdir hc hlookup hn =>
      have hmem := (opLookup_dir hshape hlookup hn).1
      rw [getcwdLoop,if_neg (crossMount_ne_root hs hmem),
        getcwdStepToParent_linked hs hshape hd hc hlookup hn,pathTail_concat,length_append,
        length_cons]
      by_cases hfits : pos<c.length+1
      · rw [if_pos hfits,if_pos (by omega)]
      · rw [if_neg hfits]
        dsimp only
        rw [ih hd (by simp; omega) (Or.inl (by simp))]
        by_cases hrest : pos-c.length-1<(pathTail depth cs).length
        · rw [if_pos hrest,if_pos (by omega)]
        · rw [if_neg hrest,if_neg (by omega),append_assoc]

private theorem vfsGetcwd_linked (hs : MountsOk s) (hshape : TreeShape s) (h : Linked s d cs)
    (len : Nat) : vfsGetcwd s (some d) len =
      if len<(if cs=[] then ['/'] else pathTail VFS_SYMLINK_TARGET_MAX cs).length + 1 then
        .error .range
      else .ok (if cs=[] then ['/'] else pathTail VFS_SYMLINK_TARGET_MAX cs) := by
  rw [vfsGetcwd]
  by_cases hlen : len=0
  · rw [if_pos hlen,if_pos (by omega)]
  rw [if_neg hlen,Option.getD_some]
  by_cases hcs : cs=[]
  · have hroot : d=s.root := by
      cases h with
      | root => rfl
      | child _ _ _ _ _ => exact absurd hcs (by simp)
    have hmax : VFS_SYMLINK_TARGET_MAX=1023+1 := rfl
    rw [if_pos hcs,hmax,hroot,getcwdLoop,if_pos rfl,if_pos rfl,getcwdPrependComponent]
    by_cases hfits : len-1<1
    · simp only [rdropWhile_nil,length_nil,Nat.zero_add,if_pos hfits]
      rw [if_pos (by simp; omega)]
      rfl
    · simp only [rdropWhile_nil,length_nil,Nat.zero_add,if_neg hfits]
      rw [if_neg (by simp; omega)]
      rfl
  · rw [getcwdLoop_linked hs hshape h (by simp; omega) (Or.inr hcs),if_neg hcs,append_nil]
    by_cases hfits : len-1<(pathTail VFS_SYMLINK_TARGET_MAX cs).length
    · rw [if_pos hfits,if_pos (by omega)]
    · rw [if_neg hfits,if_neg (by omega)]

private theorem Linked.entryName (h : Linked s d cs) : ∀ c∈cs, EntryName c := by
  induction h with
  | root => simp
  | child _ _ hc _ _ ih =>
    intro v hv
    rcases mem_append.mp hv with hmem | hmem
    · exact ih v hmem
    · rw [mem_singleton.mp hmem]
      exact hc

private theorem components_pathOf (h : ∀ c∈cs, EntryName c) : components (pathOf cs)=cs := by
  rw [pathOf]
  split_ifs with hcs
  · rw [hcs]
    rfl
  · exact fields_flatMap fun c hc => ⟨(h c hc).1,(h c hc).2.1⟩

private theorem head_pathOf (cs : List Name) : (pathOf cs).head? = some '/' := by
  rw [pathOf]
  split_ifs with hcs
  · rfl
  · obtain ⟨c,rest,hcons⟩ := exists_cons_of_ne_nil hcs
    rw [hcons]
    rfl

private theorem vfsLookup_pathOf (hs : MountsOk s) (h : Linked s d cs) :
    vfsLookup s (pathOf cs) = .ok d := by
  have hne : pathOf cs≠[] := by
    intro hnil
    have hhead := head_pathOf cs
    rw [hnil] at hhead
    exact absurd hhead (by simp)
  rw [vfsLookup_eq s hne,walkStart,if_pos (head_pathOf cs),Vfs.root,
    crossMount_of_active hs.root_active,components_pathOf h.entryName]
  exact h.resolve hs VFS_SYMLINK_MAX_DEPTH

/-- For every buffer: a path that `vfs_getcwd` returns leads back to the directory, and if the path
of the directory does not fit the status is `VFS_STATUS_RANGE`. -/
def GetcwdOk (s : Vfs) (d : Addr) : Prop :=
  ∀ len, (∀ path, vfsGetcwd s (some d) len = .ok path →
      path.head? = some '/' ∧ path.length + 1 ≤ len ∧ vfsLookup s path = .ok d) ∧
    ∀ cs, Linked s d cs → len < (pathOf cs).length + 1 → vfsGetcwd s (some d) len = .error .range

section

variable (hs : MountsOk s) (hshape : TreeShape s)
include hs hshape

/-- Only one path without links leads to a directory: the step of the loop finds its last name and
the directory above. -/
private theorem Linked.unique {ds : List Name} (h : Linked s d cs) (h' : Linked s d ds) :
    cs=ds := by
  induction h generalizing ds with
  | root =>
    generalize hroot : s.root=r at h'
    cases h' with
    | root => rfl
    | child hd _ _ hlookup hn =>
      exact absurd hroot.symm (crossMount_ne_root hs (opLookup_dir hshape hlookup hn).1)
  | @child d n cs c hd hdir hc hlookup hn ih =>
    generalize hcross : Fs.crossMount s n=e at h'
    cases h' with
    | root => exact absurd hcross (crossMount_ne_root hs (opLookup_dir hshape hlookup hn).1)
    | @child d' n' cs' c' hd' hdir' hc' hlookup' hn' =>
      have hstep := getcwdStepToParent_linked hs hshape hd hc hlookup hn (c.length+c'.length+1) []
      have hstep' := getcwdStepToParent_linked hs hshape hd' hc' hlookup' hn'
        (c.length+c'.length+1) []
      rw [hcross,if_neg (by omega)] at hstep
      rw [hstep,if_neg (by omega)] at hstep'
      simp only [Except.ok.injEq,Prod.mk.injEq,append_nil,cons.injEq,true_and] at hstep'
      obtain ⟨rfl,-,rfl⟩ := hstep'
      rw [ih hd']

private theorem getcwdOk_of_le (h : Linked s d cs) (hdepth : cs.length≤VFS_SYMLINK_TARGET_MAX) :
    GetcwdOk s d := by
  intro len
  have htext : (if cs=[] then ['/'] else pathTail VFS_SYMLINK_TARGET_MAX cs)=pathOf cs := by
    rw [pathTail_of_le hdepth,pathOf]
  have hresult := vfsGetcwd_linked hs hshape h len
  rw [htext] at hresult
  constructor
  · intro path hpath
    rw [hresult] at hpath
    split_ifs at hpath with hfits
    rw [← Except.ok.inj hpath]
    exact ⟨head_pathOf cs,by omega,vfsLookup_pathOf hs h⟩
  · intro ds hds hlen
    rw [h.unique hs hshape hds,if_pos hlen] at hresult
    exact hresult

/-- With more names than the loop has steps, the names that it writes fit into a buffer that is too
short for the path. -/
private theorem not_getcwdOk_of_gt (h : Linked s d cs) (hdepth : VFS_SYMLINK_TARGET_MAX<cs.length) :
    ¬ GetcwdOk s d := by
  intro hok
  have hcs : cs≠[] := by
    rintro rfl
    exact absurd hdepth (Nat.not_lt_zero _)
  have hshort : (pathTail VFS_SYMLINK_TARGET_MAX cs).length<(pathOf cs).length := by
    have hfront : cs.take (cs.length-VFS_SYMLINK_TARGET_MAX)≠[] := by
      rw [Ne,take_eq_nil_iff]
      exact fun hnil => hnil.elim (by omega) hcs
    obtain ⟨c,front,hcons⟩ := exists_cons_of_ne_nil hfront
    rw [pathOf,if_neg hcs]
    conv_rhs => rw [← take_append_drop (cs.length-VFS_SYMLINK_TARGET_MAX) cs]
    rw [flatMap_append,length_append,hcons,pathTail,flatMap_cons,length_append,length_cons]
    omega
  have herror := (hok ((pathTail VFS_SYMLINK_TARGET_MAX cs).length+1)).2 cs h (by omega)
  rw [vfsGetcwd_linked hs hshape h,if_neg hcs,if_neg (Nat.lt_irrefl _)] at herror
  cases herror

end

def deepTree : Vfs where
  node n := { emptyNode with
    name := some (if n = 0 then [] else ['a'])
    parent := if n = 0 then none else some (n - 1)
    children := if n < 1025 then [n + 1] else []
    len := if n < 1025 then 1 else 0
    mount := if n = 0 then some 0 else none }
  live n := n ≤ 1025
  mount _ := ⟨0, none, none⟩
  rootMount := 0
  cwd := none

private theorem deepTree_children {d c : Addr} (h : c∈(deepTree.node d).children) :
    c=d + 1 ∧ d<1025 := by
  simp only [deepTree] at h
  split_ifs at h with hd
  · exact ⟨mem_singleton.mp h,hd⟩
  · exact absurd h (by simp)

private theorem mountTree_deepTree : MountTree deepTree := by
  apply MountTree.boot
  refine ⟨rfl,rfl,?_,?_,rfl⟩
  · intro n hn
    exact if_neg hn
  · intro d hmem
    exact absurd (deepTree_children hmem).1 (Nat.succ_ne_zero d).symm

private theorem treeShape_deepTree : TreeShape deepTree := by
  constructor
  · intro d c hc _
    rw [(deepTree_children hc).1]
    rfl
  · intro d c t _ htarget
    exact absurd htarget (by simp [deepTree,emptyNode])

private theorem linked_deepTree {n : Nat} (h : n≤1025) :
    Linked deepTree n (List.replicate n ['a']) := by
  induction n with
  | zero => exact Linked.root
  | succ n ih =>
    have hlookup : opLookup deepTree n ['a'] = .ok (n+1) := by
      have hlt : n<1025 := by omega
      simp [opLookup,findChild,deepTree,emptyNode,hlt]
    have hcross : crossMount deepTree (n+1)=n+1 := rfl
    rw [replicate_succ',← hcross]
    exact Linked.child (ih (by omega)) rfl (by simp [EntryName,Plain]) hlookup rfl

end Hojicha.Fs
