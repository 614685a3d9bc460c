import Hojicha.Fs.LookupParent
import Hojicha.Fs.Mounts

/-!
# Changes of the tree

Creating, linking and removing entries. `new` is the address that the allocator returns, or `none`.
Times are left out.
-/

namespace Hojicha.Fs

def vfsValidateName (name : Name) : Bool :=
  name != [] && !name.contains '/' && !name.dropLast.contains (Char.ofNat 0)

def dirMutationAllowed (s : Vfs) (dir : Addr) (name : Name) : Status :=
  if (s.node dir).type ≠ .dir then .notdir
  else if !vfsValidateName name then .invalidArg
  else .ok

private theorem vfsValidateName_of_component {name : Name} (hne : name≠[]) (hslash : '/'∉name)
    (hnul : Char.ofNat 0∉name) : vfsValidateName name=true := by
  have hinit : Char.ofNat 0∉name.dropLast := by
    intro h
    exact hnul (List.dropLast_subset name h)
  simp [vfsValidateName,hne,hslash,hinit]

theorem dirMutationAllowed_of_lookup {s : Vfs} {path : Path} {dir : Addr} {name : Name}
    (hpath : Char.ofNat 0∉path) (h : lookupParentEntry s path = .ok (dir, name)) :
    dirMutationAllowed s dir name = .ok := by
  obtain ⟨p,hp,hname,_,hdir,_⟩ := lookupParentEntry_cases h
  have hnul : Char.ofNat 0∉p.last := by
    intro hmem
    apply hpath
    simp [hp,EntryPath.path,hmem]
  have hvalid := vfsValidateName_of_component p.last_ne p.last_slash hnul
  rw [hname,dirMutationAllowed]
  simp [hdir,hvalid]

def newNode (fs : FileSystem) (type : NodeType) (name : Name) (dir : Addr) : Node :=
  { fs := fs, type := type, name := some name, parent := some dir, hardTarget := none,
    children := [], len := 0, target := [], data := [], mount := none, refcount := 0,
    linkCount := 1 }

def allocNode (s : Vfs) (n : Addr) (node : Node) : Vfs :=
  { s with node := Function.update s.node n node, live := Function.update s.live n true }

/-- `initrd` adds at the end of the chain, `devfs` in front. -/
def Node.addChild (node : Node) (child : Addr) : Node :=
  { node with
    children :=
      match node.fs with
      | .initrd => node.children ++ [child]
      | .devfs => child :: node.children
    len := node.len + 1 }

def createChild (s : Vfs) (dir n : Addr) (node : Node) : Vfs :=
  (allocNode s n node).modify dir (·.addChild n)

def Node.dropChild (node : Node) (child : Addr) : Node :=
  { node with children := node.children.erase child, len := node.len - 1 }

def Node.withParent (node : Node) (parent : Option Addr) : Node := { node with parent := parent }

def Node.withLinkCount (node : Node) (count : Nat) : Node := { node with linkCount := count }

def detachChild (s : Vfs) (target : Addr) : Option Vfs :=
  match (s.node target).parent with
  | none => none
  | some parent =>
    if target ∈ (s.node parent).children then
      some ((s.modify parent (·.dropChild target)).modify target (·.withParent none))
    else none

abbrev Created := Status × Option Addr × Vfs

def createEntry (s : Vfs) (dir : Addr) (new : Option Addr) (node : Node) : Created :=
  match new with
  | none => (.nomem, none, s)
  | some n => (.ok, some n, vfsVnodeBorrow (createChild s dir n node) n)

def opCreateFile (s : Vfs) (dir : Addr) (name : Name) (new : Option Addr) : Created :=
  match (s.node dir).fs with
  | .devfs => (.notImplemented, none, s)
  | .initrd =>
    if (s.node dir).type ≠ .dir ∨ !vfsValidateName name then (.invalidArg, none, s)
    else createEntry s dir new (newNode .initrd .file name dir)

def opCreateDir (s : Vfs) (dir : Addr) (name : Name) (new : Option Addr) : Created :=
  let name := name.rdropWhile (· == '/')
  if (s.node dir).type ≠ .dir ∨ !vfsValidateName name then (.invalidArg, none, s)
  else createEntry s dir new (newNode (s.node dir).fs .dir name dir)

def opSymlink (s : Vfs) (dir : Addr) (name : Name) (target : Path) (new : Option Addr) : Created :=
  if (s.node dir).type ≠ .dir ∨ !vfsValidateName name ∨ target.length = 0 then
    (.invalidArg, none, s)
  else if findChild s dir name ≠ none then (.exists_, none, s)
  else createEntry s dir new
    { newNode (s.node dir).fs .symlink name dir with target := target, len := target.length }

/-- `initrd_link`. The alias is not a node that a lookup returns. -/
def opLink (s : Vfs) (dir : Addr) (name : Name) (target : Addr) (new : Option Addr) :
    Status × Vfs :=
  if (s.node dir).type ≠ .dir ∨ (s.node target).type ≠ .file ∨ !vfsValidateName name then
    (.invalidArg, s)
  else if findChild s dir name ≠ none then (.exists_, s)
  else
    match new with
    | none => (.nomem, s)
    | some n =>
      (.ok, createChild s dir n
        { newNode .initrd .file name dir with hardTarget := some target })

def opUnlink (s : Vfs) (dir : Addr) (name : Name) : Status × Vfs :=
  if (s.node dir).type ≠ .dir ∨ name.length = 0 then (.invalidArg, s)
  else
    match findChild s dir name with
    | none => (.noent, s)
    | some child =>
      if (s.node child).type = .dir then (.isdir, s)
      else if (s.node dir).fs = .devfs ∧ (s.node child).type ≠ .symlink then (.notImplemented, s)
      else
        match detachChild s child with
        | none => (.noent, s)
        | some s => (.ok, if (s.node child).hardTarget ≠ none then opFree s child else s)

def opRmdir (s : Vfs) (dir : Addr) (name : Name) : Status × Vfs :=
  if (s.node dir).type ≠ .dir ∨ name.length = 0 then (.invalidArg, s)
  else
    match findChild s dir name with
    | none => (.noent, s)
    | some child =>
      if (s.node child).type ≠ .dir then (.notdir, s)
      else if (s.node child).children ≠ [] then (.notEmpty, s)
      else
        match detachChild s child with
        | none => (.noent, s)
        | some s => (.ok, s)

def vfsCreate (s : Vfs) (dir : Addr) (name : Name) (new : Option Addr) : Created :=
  if dirMutationAllowed s dir name ≠ .ok then (dirMutationAllowed s dir name, none, s)
  else opCreateFile s dir name new

def vfsMkdir (s : Vfs) (dir : Addr) (name : Name) (new : Option Addr) : Created :=
  let name := name.rdropWhile (· == '/')
  if dirMutationAllowed s dir name ≠ .ok then (dirMutationAllowed s dir name, none, s)
  else opCreateDir s dir name new

/-- `vfs_symlink` behind the lookup of the parent. A refused name makes the source release `created`
before it has a value; a lookup never returns such a parent and name
(`dirMutationAllowed_of_lookup`). -/
def vfsSymlinkIn (s : Vfs) (dir : Addr) (name : Name) (target : Path) (new : Option Addr) :
    Status × Vfs :=
  if dirMutationAllowed s dir name ≠ .ok then (dirMutationAllowed s dir name, s)
  else
    match opSymlink s dir name target new with
    | (status, none, s) => (status, s)
    | (status, some created, s) => (status, vfsVnodeRelease s created)

/-- `vfs_link` behind the lookups and the comparison of the mounts; `devfs` has no links. -/
def vfsLinkIn (s : Vfs) (dir : Addr) (name : Name) (target : Addr) (new : Option Addr) :
    Status × Vfs :=
  if (s.node dir).fs = .devfs then (.notImplemented, s)
  else
    match opLink s dir name target new with
    | (.ok, s) => (.ok, s.modify target fun node => node.withLinkCount (node.linkCount + 1))
    | (status, s) => (status, s)

def removeChild (s : Vfs) (dir : Addr) (name : Name) (expectDir : Bool) : Status × Vfs :=
  if (s.node dir).type ≠ .dir then (.notdir, s)
  else
    match opLookup s dir name with
    | .error e => (e, s)
    | .ok target =>
      let s := vfsVnodeBorrow s target
      if expectDir ∧ (s.node target).type ≠ .dir then (.notdir, vfsVnodeRelease s target)
      else if !expectDir ∧ (s.node target).type = .dir then (.isdir, vfsVnodeRelease s target)
      else
        match if expectDir then opRmdir s dir name else opUnlink s dir name with
        | (.ok, s) =>
          let s := s.modify target fun node => node.withLinkCount (node.linkCount - 1)
          (.ok, vfsVnodeRelease s target)
        | (status, s) => (status, vfsVnodeRelease s target)

def vfsUnlink (s : Vfs) (dir : Addr) (name : Name) : Status × Vfs :=
  if dirMutationAllowed s dir name ≠ .ok then (dirMutationAllowed s dir name, s)
  else removeChild s dir name false

def vfsRmdir (s : Vfs) (dir : Addr) (name : Name) : Status × Vfs :=
  if dirMutationAllowed s dir name ≠ .ok then (dirMutationAllowed s dir name, s)
  else removeChild s dir name true

/-- What processes do with the tree. Opening a file and changing the working directory borrow the
node that a lookup has found, and closing and leaving release it. -/
inductive TreeOp
  | create (dir : Addr) (name : Name) (new : Option Addr)
  | mkdir (dir : Addr) (name : Name) (new : Option Addr)
  | symlink (dir : Addr) (name : Name) (target : Path) (new : Option Addr)
  | link (dir : Addr) (name : Name) (target : Addr) (new : Option Addr)
  | unlink (dir : Addr) (name : Name)
  | rmdir (dir : Addr) (name : Name)
  | borrow (n : Addr)
  | release (n : Addr)

def Vfs.perform (s : Vfs) : TreeOp → Status × Vfs
  | .create dir name new => ((vfsCreate s dir name new).1, (vfsCreate s dir name new).2.2)
  | .mkdir dir name new => ((vfsMkdir s dir name new).1, (vfsMkdir s dir name new).2.2)
  | .symlink dir name target new => vfsSymlinkIn s dir name target new
  | .link dir name target new => vfsLinkIn s dir name target new
  | .unlink dir name => vfsUnlink s dir name
  | .rmdir dir name => vfsRmdir s dir name
  | .borrow n => (.ok, vfsVnodeBorrow s n)
  | .release n => (.ok, vfsVnodeRelease s n)

end Hojicha.Fs
