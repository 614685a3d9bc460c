import Hojicha.Framework.Cursor
import Hojicha.Fs.Lifetimes

/-!
# Reading directories

An open directory keeps a pointer to the entry that the next call returns. `granted` says whether
there is memory for the answer.
-/

namespace Hojicha.Fs

open Framework

structure OpenDir where
  vnode : Addr
  current : Option Addr
  offset : Nat

structure Dirent where
  entry : Addr
  name : Name
deriving DecidableEq

def openDir (s : Vfs) (dir : Addr) : OpenDir := ⟨dir, (s.node dir).children.head?, 0⟩

/-- `next_sibling`, which `detach_child` clears. -/
def nextSibling (s : Vfs) (c : Addr) : Option Addr :=
  match (s.node c).parent with
  | none => none
  | some parent => nextOf (s.node parent).children c

/-- `vfs_clone_name` with a slash behind directories. -/
def direntName (node : Node) : Name := node.name.getD [] ++ if node.type = .dir then ['/'] else []

def vfsReaddir (granted : Bool) (s : Vfs) (file : OpenDir) : Status × Option Dirent × OpenDir :=
  if (s.node file.vnode).type ≠ .dir then (.notdir, none, file)
  else
    match file.current with
    | none => (.ok, none, file)
    | some c =>
      let file := { file with current := nextSibling s c, offset := file.offset + 1 }
      if granted then (.ok, some ⟨c, direntName (s.node c)⟩, file) else (.nomem, none, file)

structure Reader where
  session : Session
  file : OpenDir

inductive ReaderCall
  | readdir (granted : Bool)
  | change (op : TreeOp)

abbrev ReaderReply := Status × Option Dirent

def Reader.perform (r : Reader) : ReaderCall → ReaderReply × Reader
  | .readdir granted =>
    let (status, dirent, file) := vfsReaddir granted r.session.vfs r.file
    ((status, dirent), { r with file := file })
  | .change op =>
    (((r.session.perform op).1, none), { r with session := (r.session.perform op).2 })

def Reader.chain (r : Reader) : List Addr := (r.session.vfs.node r.file.vnode).children

def ReaderCall.Valid (r : Reader) : ReaderCall → Prop
  | .readdir _ => True
  | .change op => op.Valid r.session ∧ r.file.vnode ∈ op.heldAfter r.session

/-- There is memory for the answers, nothing is created in a removed directory, and the entry at
the pointer is not taken out. -/
def ReaderCall.KeepsPointer (r : Reader) : ReaderCall → Prop
  | .readdir granted => granted = true
  | .change op => op.InLinkedDir r.session ∧
      ∀ x, r.file.current = some x → x ∈ (r.perform (.change op)).2.chain

def returned (replies : List ReaderReply) : List Addr :=
  replies.filterMap fun reply => reply.2.map (·.entry)

variable {roots : Set Addr} {mounts : Addr → Nat} {r : Reader} {c : Addr}

structure ReaderOk (roots : Set Addr) (mounts : Addr → Nat) (r : Reader) : Prop where
  session : SessionOk roots mounts r.session
  held : r.file.vnode ∈ r.session.held
  dir : (r.session.vfs.node r.file.vnode).type = .dir
  fs : (r.session.vfs.node r.file.vnode).fs = .initrd
  pointer : ∀ x, r.file.current = some x → x ∈ r.chain

section

variable (h : ReaderOk roots mounts r)
include h

private theorem ReaderOk.live : r.session.vfs.live r.file.vnode=true :=
  (h.session.held _ h.held).1

private theorem ReaderOk.nodup : r.chain.Nodup :=
  h.session.tree.nodup _ h.live

private theorem ReaderOk.next {x : Addr} (hx : r.file.current=some x) :
    nextSibling r.session.vfs x=nextOf r.chain x := by
  rw [nextSibling,(h.session.tree.child _ x h.live (h.pointer x hx)).2]
  rfl

private theorem ReaderOk.perform_end (hend : r.file.current=none)
    (granted : Bool) : r.perform (.readdir granted)=((.ok, none), r) := by
  simp only [Reader.perform,vfsReaddir,h.dir,hend,ne_eq,not_true,if_false]

private theorem ReaderOk.perform_entry {x : Addr} (hx : r.file.current=some x) :
    r.perform (.readdir true) =
      ((.ok, some ⟨x, direntName (r.session.vfs.node x)⟩),
        { r with file := ⟨r.file.vnode, nextOf r.chain x, r.file.offset + 1⟩ }) := by
  simp only [Reader.perform,vfsReaddir,h.dir,hx,ne_eq,not_true,if_false,if_true,h.next hx]

private theorem ReaderOk.perform {call : ReaderCall}
    (hvalid : call.Valid r) (hkeeps : call.KeepsPointer r) :
    ReaderOk roots mounts (r.perform call).2 := by
  cases call with
  | readdir granted =>
    have hgranted : granted=true := hkeeps
    subst hgranted
    cases hcurrent : r.file.current with
    | none =>
      rw [h.perform_end hcurrent]
      exact h
    | some x =>
      rw [h.perform_entry hcurrent]
      refine ⟨h.session,h.held,h.dir,h.fs,?_⟩
      intro y hy
      exact nextOf_mem hy
  | change op =>
    refine ⟨h.session.perform hvalid.1 hkeeps.1,hvalid.2,?_,?_,hkeeps.2⟩
    · exact (perform_field (·.type) (fun _ _ => rfl) (fun _ _ => rfl) (fun _ _ => rfl)
        (fun _ _ => rfl) (fun _ _ => rfl) h.session.tree hvalid.1 h.live).trans h.dir
    · exact (perform_field (·.fs) (fun _ _ => rfl) (fun _ _ => rfl) (fun _ _ => rfl)
        (fun _ _ => rfl) (fun _ _ => rfl) h.session.tree hvalid.1 h.live).trans h.fs

/-- A change keeps in front of the pointer what it keeps in the chain. -/
private theorem ReaderOk.mem_restFrom_change {op : TreeOp}
    (hvalid : (ReaderCall.change op).Valid r) (hkeeps : (ReaderCall.change op).KeepsPointer r)
    (hc : c∈r.chain) (hc' : c∈(r.perform (.change op)).2.chain) :
    c∈restFrom (r.perform (.change op)).2.chain r.file.current ↔
      c∈restFrom r.chain r.file.current := by
  have hlive := (h.session.tree.child _ c h.live hc).1
  have hpointer := hkeeps.2
  have hchange := chainChange_perform h.session.tree hvalid.1 h.live
  change ChainChange _ _ (r.perform (.change op)).2.chain at hchange
  generalize (r.perform (.change op)).2.chain=chain at hchange hpointer hc' ⊢
  cases hchange with
  | same => rfl
  | added n hn =>
    have happend : ((r.session.vfs.node r.file.vnode).addChild n).children=r.chain++[n] := by
      simp [Node.addChild,h.fs,Reader.chain]
    rw [happend]
    exact mem_restFrom_append h.pointer (ne_of_fresh hn hlive)
  | removed x hx =>
    have hne : ∀ {y}, y∈r.chain.erase x → y≠x := fun hy =>
      ((h.nodup.mem_erase_iff).mp hy).1
    apply mem_restFrom_erase _ (hne hc')
    intro y hy
    exact ⟨h.pointer y hy,hne (hpointer y hy)⟩

/-- From any point on, the reads return each lasting entry that is in front of the pointer once,
and no other. -/
private theorem ReaderOk.count_returned {calls : List ReaderCall}
    (hall : Always Reader.perform (fun r call => call.Valid r ∧ call.KeepsPointer r) r calls)
    (hc : c∈r.chain) (hlasts : Always Reader.perform
      (fun r call => c∈(r.perform call).2.chain) r calls)
    (hend : (trace Reader.perform r calls).2.file.current=none) :
    (returned (trace Reader.perform r calls).1).count c =
      if c∈restFrom r.chain r.file.current then 1 else 0 := by
  induction calls generalizing r with
  | nil =>
    have hnone : r.file.current=none := hend
    rw [hnone]
    rfl
  | cons call calls ih =>
    rw [trace_cons] at hend ⊢
    have hnext := ih (h.perform hall.1.1 hall.1.2) hall.2 hlasts.1 hlasts.2 hend
    cases call with
    | change op =>
      have hsame := h.mem_restFrom_change hall.1.1 hall.1.2 hc hlasts.1
      have hreply : returned ((r.perform (.change op)).1 ::
          (trace Reader.perform (r.perform (.change op)).2 calls).1) =
          returned (trace Reader.perform (r.perform (.change op)).2 calls).1 := rfl
      rw [hreply,hnext]
      exact if_congr hsame rfl rfl
    | readdir granted =>
      have hgranted : granted=true := hall.1.2
      subst hgranted
      cases hcurrent : r.file.current with
      | none =>
        rw [h.perform_end hcurrent] at hnext ⊢
        rw [hcurrent] at hnext
        exact hnext
      | some x =>
        have hx := h.pointer x hcurrent
        have hmoved := h.perform_entry hcurrent
        rw [hmoved] at hnext ⊢
        have hchain : (Reader.chain
            { r with file := ⟨r.file.vnode,nextOf r.chain x,r.file.offset+1⟩ })=r.chain := rfl
        rw [hchain] at hnext
        rw [restFrom_next h.nodup hx]
        change ((x::returned _).count c)=_
        rw [List.count_cons,hnext]
        by_cases hxc : x=c
        · subst hxc
          simp [nextOf_ne_self h.nodup hx]
        · simp [hxc,Ne.symm hxc]

end

/-- As long as there is memory and the entry at the pointer is not taken out, the pointer leads to
an entry of the directory that is not freed, and every entry that is there from the opening until
`vfs_readdir` says that there are no more is returned exactly once. -/
theorem readdir_returns_lasting_entries_once (start : Session)
    (hstart : SessionOk roots mounts start) (dir : Addr) (hheld : dir ∈ start.held)
    (hdir : (start.vfs.node dir).type = .dir) (hfs : (start.vfs.node dir).fs = .initrd)
    (calls : List ReaderCall)
    (hall : Always Reader.perform (fun r call => call.Valid r ∧ call.KeepsPointer r)
      ⟨start, openDir start.vfs dir⟩ calls) :
    (∀ x, (trace Reader.perform ⟨start, openDir start.vfs dir⟩ calls).2.file.current = some x →
      (trace Reader.perform ⟨start, openDir start.vfs dir⟩ calls).2.session.vfs.live x = true ∧
      x ∈ (trace Reader.perform ⟨start, openDir start.vfs dir⟩ calls).2.chain) ∧
    ∀ c ∈ (start.vfs.node dir).children,
      Always Reader.perform (fun r call => c ∈ (r.perform call).2.chain)
        ⟨start, openDir start.vfs dir⟩ calls →
      ((trace Reader.perform ⟨start, openDir start.vfs dir⟩ calls).2.perform (.readdir true)).1 =
        (.ok, none) →
      (returned (trace Reader.perform ⟨start, openDir start.vfs dir⟩ calls).1).count c = 1 := by
  have hopen : ReaderOk roots mounts ⟨start,openDir start.vfs dir⟩ := by
    refine ⟨hstart,hheld,hdir,hfs,?_⟩
    intro x hx
    exact List.mem_of_mem_head? hx
  have hlast := trace_invariant (ReaderOk roots mounts)
    (fun r call hr hcall => hr.perform hcall.1 hcall.2) hopen hall
  constructor
  · intro x hx
    have hmem := hlast.pointer x hx
    exact ⟨(hlast.session.tree.child _ x hlast.live hmem).1,hmem⟩
  · intro c hc hlasts hreply
    have hend : (trace Reader.perform ⟨start,openDir start.vfs dir⟩ calls).2.file.current=none := by
      rw [Option.eq_none_iff_forall_ne_some]
      intro x hx
      rw [hlast.perform_entry hx] at hreply
      cases hreply
    rw [hopen.count_returned hall hc hlasts hend]
    have hrest : restFrom (start.vfs.node dir).children (openDir start.vfs dir).current =
        (start.vfs.node dir).children := restFrom_head _
    exact if_pos (hrest.symm ▸ hc)

def readingRoot : Session := (Session.perform ⟨smallTree, []⟩ (.borrow 0)).2

private theorem sessionOk_readingRoot :
    SessionOk {0, 5} (fun n => if n=0 then 1 else 0) readingRoot :=
  sessionOk_smallTree.perform ⟨rfl,rfl⟩ trivial

/-- The file `f` goes while the pointer is at the link `l`; the directory `d` is returned once. -/
theorem readdir_returns_dir_once :
    (returned (trace Reader.perform ⟨readingRoot, openDir readingRoot.vfs 0⟩
      [.readdir true, .change (.unlink 0 ['f']), .readdir true, .readdir true]).1).count 1 = 1 := by
  refine (readdir_returns_lasting_entries_once readingRoot sessionOk_readingRoot 0 (by decide) rfl
    rfl _ ?_).2 1 (by decide) ?_ rfl
  · refine ⟨⟨trivial,rfl⟩,⟨⟨rfl,by decide⟩,trivial,?_⟩,⟨trivial,rfl⟩,⟨trivial,rfl⟩,trivial⟩
    intro x hx
    cases hx
    decide
  · exact ⟨by decide,by decide,by decide,by decide,trivial⟩

/-- The link `l` goes while the pointer is at it: the pointer leads to a freed node, and the reader
ends without the file `f`. -/
theorem readdir_follows_freed_entry :
    ∃ calls, Always Reader.perform (fun r call => call.Valid r)
        ⟨readingRoot, openDir readingRoot.vfs 0⟩ calls ∧
      (trace Reader.perform ⟨readingRoot, openDir readingRoot.vfs 0⟩ calls).2.file.current = some 2 ∧
      (trace Reader.perform ⟨readingRoot, openDir readingRoot.vfs 0⟩ calls).2.session.vfs.live 2
        = false ∧
      (trace Reader.perform ⟨readingRoot, openDir readingRoot.vfs 0⟩
        (calls ++ [.readdir true])).2.file.current = none ∧
      (returned (trace Reader.perform ⟨readingRoot, openDir readingRoot.vfs 0⟩
        (calls ++ [.readdir true])).1).count 4 = 0 := by
  refine ⟨[.readdir true,.change (.unlink 0 ['l'])],?_,?_⟩
  · exact ⟨trivial,⟨rfl,by decide⟩,trivial⟩
  · decide

end Hojicha.Fs
