import Mathlib.Data.List.DropRight
import Hojicha.Fs.File

/-!
# Vnodes, mounts and paths

The path functions of `kernel/fs/vfs.c` over `initrd.c` and `devfs.c`. A node is an inode with its
vnode, and `children` is the chain of its entries. Every allocation succeeds.
-/

namespace Hojicha.Fs

abbrev Addr := Nat
abbrev Name := List Char
abbrev Path := List Char

inductive NodeType
  | file
  | dir
  | symlink
  | device
deriving DecidableEq

inductive FileSystem
  | initrd
  | devfs
deriving DecidableEq

/-- The root of `devfs` has no name. -/
@[ext]
structure Node where
  fs : FileSystem
  type : NodeType
  name : Option Name
  parent : Option Addr
  hardTarget : Option Addr
  children : List Addr
  len : Nat
  target : Path
  data : List Byte
  mount : Option Addr
  refcount : Nat
  linkCount : Nat
deriving DecidableEq

@[ext]
structure Mount where
  root : Addr
  point : Option Addr
  parent : Option Addr
deriving DecidableEq

/-- `live` says that the node is allocated. -/
@[ext]
structure Vfs where
  node : Addr → Node
  live : Addr → Bool
  mount : Addr → Mount
  rootMount : Addr
  cwd : Option Addr

def VFS_SYMLINK_MAX_DEPTH : Nat := 40
def VFS_SYMLINK_TARGET_MAX : Nat := 1024

def Vfs.root (s : Vfs) : Addr := (s.mount s.rootMount).root

def findChild (s : Vfs) (dir : Addr) (name : Name) : Option Addr :=
  (s.node dir).children.find? fun c => (s.node c).name = some name

/-- `initrd_lookup` and `devfs_lookup`; only `initrd` has hard links. -/
def opLookup (s : Vfs) (dir : Addr) (name : Name) : Except Status Addr :=
  if (s.node dir).type ≠ .dir then .error .notdir
  else
    match findChild s dir name with
    | none => .error .noent
    | some child => .ok ((s.node child).hardTarget.getD child)

def opParent (s : Vfs) (node : Addr) : Addr := (s.node node).parent.getD node

def opName (s : Vfs) (node : Addr) : Except Status Name :=
  match (s.node node).name with
  | none => .error .noent
  | some name => .ok name

def crossMount (s : Vfs) (current : Addr) : Addr :=
  match (s.node current).mount with
  | none => current
  | some m => if current = (s.mount m).root then current else (s.mount m).root

def componentParent (s : Vfs) (current : Addr) : Except Status Addr :=
  if current = s.root then .error .noent
  else
    match (s.node current).mount with
    | none => .ok (opParent s current)
    | some m =>
      if m ≠ s.rootMount ∧ current = (s.mount m).root then
        match (s.mount m).point with
        | none => .error .invalidArg
        | some point =>
          if point = (s.mount ((s.mount m).parent.getD s.rootMount)).root then .ok point
          else .ok (opParent s point)
      else .ok (opParent s current)

/-- `clone_symlink_target`, where `readlink` copies at most `VFS_SYMLINK_TARGET_MAX` bytes. -/
def cloneSymlinkTarget (s : Vfs) (link : Addr) : Except Status Path :=
  let target := (s.node link).target.take VFS_SYMLINK_TARGET_MAX
  if target.length = 0 ∨ target.length ≥ VFS_SYMLINK_TARGET_MAX then .error .invalidArg
  else .ok target

def joinSymlinkPath (target remaining : Path) : Path :=
  if remaining.length > 0 then target ++ '/' :: remaining else target

def skipSlashes (cursor : Path) : Path := cursor.dropWhile (· == '/')

def firstComponent (cursor : Path) : Name := cursor.takeWhile (· != '/')

def afterComponent (cursor : Path) : Path := skipSlashes (cursor.dropWhile (· != '/'))

theorem length_afterComponent {cursor : Path} (h : cursor≠[]) :
    (afterComponent cursor).length<cursor.length := by
  have hslash : ∀ p : Path, (skipSlashes p).length≤p.length :=
    fun p => (List.dropWhile_suffix _).length_le
  cases cursor with
  | nil => exact absurd rfl h
  | cons c cursor =>
    by_cases hc : c = '/'
    · subst hc
      exact Nat.lt_succ_of_le (hslash cursor)
    · have hle : (cursor.dropWhile (· != '/')).length≤cursor.length :=
        (List.dropWhile_suffix _).length_le
      rw [afterComponent,List.dropWhile_cons_of_pos (by simpa using hc),List.length_cons]
      have := hslash (cursor.dropWhile (· != '/'))
      omega

structure LookupResult where
  vnode : Addr
  finalName : Option Name
deriving DecidableEq

/-- The loop of `walk_path`. The function `follow` is `resolve_symlink_component`. -/
def walkLoop (s : Vfs) (follow : Addr → Addr → Path → Except Status Addr) (stopAtParent : Bool)
    (current : Addr) (cursor : Path) : Except Status LookupResult :=
  if h : cursor = [] then .ok ⟨current, none⟩
  else if (s.node current).type ≠ .dir then .error .notdir
  else
    have := length_afterComponent h
    if stopAtParent ∧ afterComponent cursor = [] then
      .ok ⟨current, some (firstComponent cursor)⟩
    else if firstComponent cursor = ['.'] then
      walkLoop s follow stopAtParent current (afterComponent cursor)
    else if firstComponent cursor = ['.', '.'] then
      match componentParent s current with
      | .error e => .error e
      | .ok parent => walkLoop s follow stopAtParent parent (afterComponent cursor)
    else
      match opLookup s current (firstComponent cursor) with
      | .error e => .error e
      | .ok child =>
        let next := crossMount s child
        if (s.node next).type = .symlink then
          match follow current next (afterComponent cursor) with
          | .error e => .error e
          | .ok resolved => .ok ⟨resolved, none⟩
        else walkLoop s follow stopAtParent next (afterComponent cursor)
termination_by cursor.length

def walkStart (s : Vfs) (base : Option Addr) (path : Path) : Addr :=
  crossMount s (if path.head? = some '/' then s.root else base.getD (s.cwd.getD s.root))

/-- `resolve_symlink_component` and `walk_path` call each other. The first argument is what is left
of `VFS_SYMLINK_MAX_DEPTH`. -/
def resolveSymlinkComponent (s : Vfs) : Nat → Addr → Addr → Path → Except Status Addr
  | 0, _, _, _ => .error .loop
  | left + 1, base, link, remaining =>
    match cloneSymlinkTarget s link with
    | .error e => .error e
    | .ok target =>
      let linkedPath := joinSymlinkPath target remaining
      if linkedPath = [] then .error .noent
      else
        match walkLoop s (resolveSymlinkComponent s left) false
            (walkStart s (some base) linkedPath) (skipSlashes linkedPath) with
        | .error e => .error e
        | .ok result => .ok result.vnode

def walkPath (s : Vfs) (base : Option Addr) (path : Path) (stopAtParent : Bool) :
    Except Status LookupResult :=
  if path = [] then .error .noent
  else walkLoop s (resolveSymlinkComponent s VFS_SYMLINK_MAX_DEPTH) stopAtParent
    (walkStart s base path) (skipSlashes path)

def vfsLookupAt (s : Vfs) (base : Option Addr) (path : Path) : Except Status Addr :=
  (walkPath s base path false).map (·.vnode)

def vfsLookup (s : Vfs) (path : Path) : Except Status Addr := vfsLookupAt s none path

def vfsLookupParent (s : Vfs) (path : Path) : Except Status LookupResult :=
  walkPath s none path true

def lookupParentEntry (s : Vfs) (path : Path) : Except Status (Addr × Name) :=
  match vfsLookupParent s path with
  | .error e => .error e
  | .ok ⟨_, none⟩ => .error .invalidArg
  | .ok ⟨parent, some name⟩ => if name.length = 0 then .error .invalidArg else .ok (parent, name)

def lookupChildNoFollow (s : Vfs) (path : Path) : Except Status Addr :=
  match lookupParentEntry s path with
  | .error e => .error e
  | .ok (parent, name) => opLookup s parent name

def pathIsRoot (path : Path) : Bool := skipSlashes path = []

def vfsStat (s : Vfs) (path : Path) : Except Status Addr := vfsLookup s path

def vfsLstat (s : Vfs) (path : Path) : Except Status Addr :=
  if pathIsRoot path then vfsLookup s path else lookupChildNoFollow s path

def getcwdIsMountRoot (s : Vfs) (node : Addr) : Option Addr :=
  match (s.node node).mount with
  | none => none
  | some m => if m ≠ s.rootMount ∧ node = (s.mount m).root then some m else none

/-- The buffer is written from its end: `pos` bytes are free in front of `tail`. -/
def getcwdPrependComponent (pos : Nat) (tail : Path) (name : Name) : Except Status (Nat × Path) :=
  let name := name.rdropWhile (· == '/')
  if pos < name.length + 1 then .error .range
  else .ok (pos - name.length - 1, '/' :: name ++ tail)

def getcwdStepToParent (s : Vfs) (current : Addr) (pos : Nat) (tail : Path) :
    Except Status (Addr × Nat × Path) :=
  let climb (visible : Addr) : Except Status (Addr × Nat × Path) :=
    let parent := opParent s visible
    if parent = visible then .error .noent
    else
      match opName s visible with
      | .error e => .error e
      | .ok name =>
        match getcwdPrependComponent pos tail name with
        | .error e => .error e
        | .ok (pos, tail) => .ok (parent, pos, tail)
  match getcwdIsMountRoot s current with
  | none => climb current
  | some m =>
    match (s.mount m).point with
    | none => .error .invalidArg
    | some point =>
      let parentRoot := (s.mount ((s.mount m).parent.getD s.rootMount)).root
      if point = parentRoot then .ok (parentRoot, pos, tail) else climb point

/-- The loop of `vfs_getcwd`. When it runs out the status is the one of the last step. -/
def getcwdLoop (s : Vfs) (len : Nat) : Nat → Addr → Nat → Path → Except Status Path
  | 0, _, _, tail => .ok tail
  | depth + 1, current, pos, tail =>
    if current = s.root then
      if pos = len - 1 then (getcwdPrependComponent pos tail []).map (·.2) else .ok tail
    else
      match getcwdStepToParent s current pos tail with
      | .error e => .error e
      | .ok (parent, pos, tail) => getcwdLoop s len depth parent pos tail

/-- The text in the buffer in front of its `NUL`. -/
def vfsGetcwd (s : Vfs) (cwd : Option Addr) (len : Nat) : Except Status Path :=
  if len = 0 then .error .range
  else getcwdLoop s len VFS_SYMLINK_TARGET_MAX (cwd.getD s.root) (len - 1) []

def Vfs.modify (s : Vfs) (n : Addr) (f : Node → Node) : Vfs :=
  { s with node := Function.update s.node n (f (s.node n)) }

def Vfs.setMount (s : Vfs) (m : Addr) (mount : Mount) : Vfs :=
  { s with mount := Function.update s.mount m mount }

def Node.withMount (node : Node) (m : Option Addr) : Node := { node with mount := m }

def Node.withRefcount (node : Node) (count : Nat) : Node := { node with refcount := count }

def vfsVnodeBorrow (s : Vfs) (n : Addr) : Vfs :=
  s.modify n fun node => node.withRefcount (node.refcount + 1)

def opFree (s : Vfs) (n : Addr) : Vfs := { s with live := Function.update s.live n false }

def vfsVnodeRelease (s : Vfs) (n : Addr) : Vfs :=
  if (s.node n).refcount = 0 then s
  else
    let s := s.modify n fun node => node.withRefcount (node.refcount - 1)
    if (s.node n).refcount = 0 ∧ (s.node n).linkCount = 0 then opFree s n else s

def validateRootMount (s : Vfs) (m : Addr) : Status :=
  if (s.node (s.mount m).root).type ≠ .dir then .notdir else .ok

def vfsMount (s : Vfs) (mountpoint m : Addr) (parent : Option Addr) : Status × Vfs :=
  if validateRootMount s m ≠ .ok then (validateRootMount s m, s)
  else if (s.node mountpoint).type ≠ .dir then (.notdir, s)
  else if (s.node mountpoint).mount ≠ none then (.invalidArg, s)
  else
    let s := s.setMount m { s.mount m with point := some mountpoint, parent := parent }
    let s := s.modify mountpoint (·.withMount (some m))
    let root := (s.mount m).root
    let s := s.modify root (·.withMount (some m))
    (.ok, vfsVnodeBorrow (vfsVnodeBorrow s mountpoint) root)

def vfsUnmount (s : Vfs) (m : Addr) : Status × Vfs :=
  if m = s.rootMount then (.invalidArg, s)
  else
    match (s.mount m).point with
    | none => (.invalidArg, s)
    | some point =>
      if (s.node point).mount ≠ some m then (.invalidArg, s)
      else
        let root := (s.mount m).root
        let s := s.modify point (·.withMount none)
        let s := s.modify root (·.withMount none)
        let s := vfsVnodeRelease (vfsVnodeRelease s root) point
        (.ok, s.setMount m { s.mount m with point := none, parent := none })

def emptyNode : Node :=
  { fs := .initrd, type := .dir, name := none, parent := none, hardTarget := none, children := [],
    len := 0, target := [], data := [], mount := none, refcount := 0, linkCount := 1 }

/-- The root with the directory `d`, the link `l` to it and the file `f`; in `d` the directory `e`.
The mount 1, with the root 5, is not in use. -/
def smallTree : Vfs where
  node n :=
    match n with
    | 0 => { emptyNode with
        name := some [], children := [1, 2, 4], len := 3, mount := some 0, refcount := 1 }
    | 1 => { emptyNode with name := some ['d'], parent := some 0, children := [3], len := 1 }
    | 2 => { emptyNode with type := .symlink, name := some ['l'], parent := some 0, target := ['d'] }
    | 3 => { emptyNode with name := some ['e'], parent := some 1 }
    | 4 => { emptyNode with type := .file, name := some ['f'], parent := some 0 }
    | 5 => { emptyNode with fs := .devfs }
    | _ => emptyNode
  live n := n < 6
  mount m :=
    match m with
    | 0 => ⟨0, none, none⟩
    | _ => ⟨5, none, none⟩
  rootMount := 0
  cwd := none

end Hojicha.Fs
