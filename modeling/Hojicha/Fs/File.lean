import Mathlib.Tactic

/-!
# Open files of `initrd`

`initrd_open`, `initrd_read`, `initrd_write` and `initrd_seek`, below `vfs.c`. The buffer of an
inode may be longer than the file, and both the inode and its vnode have timestamps.
-/

namespace Hojicha.Fs

abbrev Byte := BitVec 8

inductive Status
  | ok
  | noent
  | notdir
  | isdir
  | nomem
  | invalidArg
  | tooManyOpen
  | badFd
  | notImplemented
  | notEmpty
  | exists_
  | xdev
  | loop
  | range
  | again
deriving DecidableEq, Repr

def VFS_OPEN_READ : BitVec 32 := 1
def VFS_OPEN_WRITE : BitVec 32 := 2
def VFS_OPEN_DIRECTORY : BitVec 32 := 4
def VFS_OPEN_TRUNC : BitVec 32 := 32
def VFS_OPEN_APPEND : BitVec 32 := 64

def hasFlag (flags flag : BitVec 32) : Bool := flags &&& flag != 0

/-- A value of `vfs_seek_whence_t`, or another number. -/
inductive Whence
  | set
  | cur
  | end_
  | other
deriving DecidableEq

structure Times where
  accessed : Int
  modified : Int
  changedMdt : Int
deriving DecidableEq

/-- An inode of type `VFS_NODE_FILE`. The list is the whole buffer; it is empty if there is none. -/
structure Inode where
  buf : List Byte
  len : Nat
  times : Times
  vnode : Times
deriving DecidableEq

structure File where
  flags : BitVec 32
  offset : Nat
deriving DecidableEq

/-- What a call returns: its status, the bytes in the buffer of the caller, and the number in the
last argument. -/
structure Reply where
  status : Status
  bytes : List Byte
  count : Nat
deriving DecidableEq

def Reply.fail (status : Status) : Reply := ⟨status, [], 0⟩

def syncVnodeTimestamps (node : Inode) : Inode := { node with vnode := node.times }

/-- `inode->accessed_timestamp = vnode->accessed_timestamp`, before `sync_vnode_timestamps`. -/
def Inode.cacheAccessed (node : Inode) : Inode :=
  { node with times := { node.times with accessed := node.vnode.accessed } }

/-- The same for the times of the last change. -/
def Inode.cacheModified (node : Inode) : Inode :=
  { node with
    times := { node.times with
      modified := node.vnode.modified
      changedMdt := node.vnode.changedMdt } }

def Inode.touchAccessed (node : Inode) (now : Int) : Inode :=
  { node with vnode := { node.vnode with accessed := now } }

def Inode.touchModified (node : Inode) (now : Int) : Inode :=
  { node with vnode := { node.vnode with modified := now, changedMdt := now } }

/-- `granted` is the answer of the allocator. -/
def initrdOpen (granted : Bool) (flags : BitVec 32) (now : Int) (node : Inode) :
    Reply × Option File × Inode :=
  if hasFlag flags VFS_OPEN_DIRECTORY then (.fail .notdir, none, node)
  else if !granted then (.fail .nomem, none, node)
  else
    let node :=
      if hasFlag flags VFS_OPEN_TRUNC && hasFlag flags VFS_OPEN_WRITE then
        syncVnodeTimestamps { node with
          len := 0
          vnode := { node.vnode with modified := now, changedMdt := now }
          times := { node.times with modified := now, changedMdt := now } }
      else node
    let offset := if hasFlag flags VFS_OPEN_APPEND then node.len else 0
    (⟨.ok, [], 0⟩, some ⟨flags, offset⟩, node)

/-- `buffer` says that the buffer is not `NULL`. -/
def initrdRead (buffer : Bool) (len : Nat) (file : File) (node : Inode) : Reply × File × Inode :=
  if !buffer then (.fail .invalidArg, file, node)
  else if len = 0 then (⟨.ok, [], 0⟩, file, syncVnodeTimestamps node.cacheAccessed)
  else if node.len ≤ file.offset then (⟨.ok, [], 0⟩, file, node)
  else
    let remaining := node.len - file.offset
    let sizeToCopy := if remaining < len then remaining else len
    let bytes := (node.buf.drop file.offset).take sizeToCopy
    (⟨.ok, bytes, sizeToCopy⟩, { file with offset := file.offset + sizeToCopy },
      if sizeToCopy > 0 then syncVnodeTimestamps node.cacheAccessed else node)

def memcpy (buf : List Byte) (offset : Nat) (data : List Byte) : List Byte :=
  buf.take offset ++ data ++ buf.drop (offset + data.length)

def calloc (size : Nat) : List Byte := List.replicate size 0

def grownSize (file : File) (data : List Byte) (node : Inode) : Nat :=
  let contentSize := file.offset + data.length
  let contentSize := if contentSize < node.len then node.len else contentSize
  contentSize + contentSize / 2

def finishWrite (file : File) (data : List Byte) (node : Inode) : Reply × File × Inode :=
  let file := { file with offset := file.offset + data.length }
  let node := { node with len := if file.offset > node.len then file.offset else node.len }
  (⟨.ok, [], data.length⟩, file, syncVnodeTimestamps node.cacheModified)

/-- `granted` is the answer of the one `calloc` that a call may need. -/
def initrdWrite (granted : Bool) (data : List Byte) (file : File) (node : Inode) :
    Reply × File × Inode :=
  if data.length = 0 then (⟨.ok, [], 0⟩, file, syncVnodeTimestamps node.cacheModified)
  else
    let newSize := grownSize file data node
    if node.buf = [] then
      if granted then
        let node := { node with buf := calloc newSize }
        finishWrite file data { node with buf := memcpy node.buf file.offset data }
      else (.fail .nomem, file, node)
    else if file.offset + data.length ≤ node.buf.length then
      finishWrite file data { node with buf := memcpy node.buf file.offset data }
    else if granted then
      let newBuf := memcpy (calloc newSize) 0 (node.buf.take node.len)
      finishWrite file data { node with buf := memcpy newBuf file.offset data }
    else (.fail .nomem, file, node)

/-- Signed 64-bit arithmetic. -/
def toInt64 (x : Int) : Int := x.bmod (2 ^ 64)

def seekPosition (len : Nat) (offset : Int) (whence : Whence) (file : File) : Nat :=
  let origin := match whence with
    | .set => 0
    | .cur => toInt64 file.offset
    | _ => toInt64 len
  if toInt64 (offset + origin) < 0 then 0
  else if toInt64 (offset + origin) > toInt64 len then len
  else (toInt64 (offset + origin)).toNat

def initrdSeek (offset : Int) (whence : Whence) (file : File) (node : Inode) : Reply × File :=
  let pos := seekPosition node.len offset whence file
  (⟨.ok, [], pos⟩, { file with offset := pos })

def vfsRead (buffer : Bool) (len : Nat) (now : Int) (file : File) (node : Inode) :
    Reply × File × Inode :=
  if !hasFlag file.flags VFS_OPEN_READ then (.fail .badFd, file, node)
  else
    let r := initrdRead buffer len file node
    if r.1.status = .ok ∧ r.1.count > 0 then (r.1, r.2.1, r.2.2.touchAccessed now) else r

def vfsSeek (offset : Int) (whence : Whence) (file : File) (node : Inode) : Reply × File :=
  if whence = .other then (.fail .invalidArg, file) else initrdSeek offset whence file node

/-- With `VFS_OPEN_APPEND` a write begins at the end. -/
def startWrite (file : File) (node : Inode) : File :=
  if hasFlag file.flags VFS_OPEN_APPEND then (vfsSeek 0 .end_ file node).2 else file

def vfsWrite (granted : Bool) (buffer : Option (List Byte)) (now : Int) (file : File)
    (node : Inode) : Reply × File × Inode :=
  if !hasFlag file.flags VFS_OPEN_WRITE then (.fail .badFd, file, node)
  else
    match buffer with
    | none => (.fail .invalidArg, file, node)
    | some data =>
      let r := initrdWrite granted data (startWrite file node) node
      if r.1.status = .ok ∧ r.1.count > 0 then (r.1, r.2.1, r.2.2.touchModified now) else r

/-- The calls on one file. Every call but an open names an open file. -/
inductive Call
  | open_ (flags : BitVec 32)
  | read (id : Nat) (buffer : Bool) (len : Nat)
  | write (id : Nat) (buffer : Option (List Byte))
  | seek (id : Nat) (offset : Int) (whence : Whence)
  | stat

structure OpenFiles where
  inode : Inode
  files : Nat → Option File
  next : Nat

def OpenFiles.setFile (s : OpenFiles) (id : Nat) (file : File) (node : Inode) : OpenFiles :=
  { s with inode := node, files := Function.update s.files id (some file) }

def OpenFiles.call (s : OpenFiles) (granted : Bool) (now : Int) : Call → Reply × OpenFiles
  | .open_ flags =>
    match initrdOpen granted flags now s.inode with
    | (reply, some file, node) =>
      (reply, ⟨node, Function.update s.files s.next (some file), s.next + 1⟩)
    | (reply, none, node) => (reply, { s with inode := node })
  | .read id buffer len =>
    match s.files id with
    | none => (.fail .badFd, s)
    | some file =>
      let (reply, file, node) := vfsRead buffer len now file s.inode
      (reply, s.setFile id file node)
  | .write id buffer =>
    match s.files id with
    | none => (.fail .badFd, s)
    | some file =>
      let (reply, file, node) := vfsWrite granted buffer now file s.inode
      (reply, s.setFile id file node)
  | .seek id offset whence =>
    match s.files id with
    | none => (.fail .badFd, s)
    | some file =>
      let (reply, file) := vfsSeek offset whence file s.inode
      (reply, s.setFile id file s.inode)
  | .stat => (⟨.ok, [], s.inode.len⟩, s)

end Hojicha.Fs
