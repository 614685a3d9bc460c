import Hojicha.Fs.Mutation
import Mathlib.Data.List.DropRight

/-!
# Loading the boot archive

`load_ustar` takes names and sizes from the headers as they are. The scans for the ends of a name
do not stop at the ends of the buffer.
-/

namespace Hojicha.Fs

open Framework

/-- The mapped memory around the buffer. Addresses are relative to the start of the buffer. -/
structure Memory where
  /-- What lies below the buffer, the nearest byte first. -/
  before : List Byte
  after : List Byte

/-- The mapped bytes from an address up. -/
def Memory.up (m : Memory) : Int → List Byte
  | .ofNat k => m.after.drop k
  | .negSucc k => if k < m.before.length then (m.before.take (k + 1)).reverse ++ m.after else []

/-- The mapped bytes from an address down. -/
def Memory.down (m : Memory) : Int → List Byte
  | .ofNat k => if k < m.after.length then (m.after.take (k + 1)).reverse ++ m.before else []
  | .negSucc k => m.before.drop k

def addressOf (pos : Nat) : Int := if pos < 2 ^ 63 then pos else (pos : Int) - 2 ^ 64

def slash : Byte := 0x2F
def dot : Byte := 0x2E

def toName (bytes : List Byte) : Name := bytes.map fun b => Char.ofNat b.toNat

def HOJICHA_USTAR_HEADER_LEN_BYTES : Nat := 512

def USTAR_TYPE_REGULAR_FILE : Byte := 0x30
def USTAR_TYPE_REGULAR_FILE_ALT : Byte := 0
def USTAR_TYPE_SYMBOLIC_LINK : Byte := 0x32
def USTAR_TYPE_DIRECTORY : Byte := 0x35

def filesizeBytesOct (header : List Byte) : List Byte := (header.drop 124).take 12

def headerType (header : List Byte) : Byte := header.getD 156 0

def linkedFilename (header : Int) : Int := header + 157

/-- `ustar_oct2dec`, where `char` is signed. -/
def ustarOct2dec (str : List Byte) : Nat :=
  (str.rdropWhile (· == 0)).foldl (fun n c => (((n : Int) * 8 + (c.toInt - 48)) % 2 ^ 64).toNat) 0

def getHeaderSize (header : List Byte) : Nat :=
  (((ustarOct2dec (filesizeBytesOct header) + 511) % 2 ^ 64 / 512 + 1) * 512) % 2 ^ 64

/-- The scan ends in a fault if there is no end of string. -/
def getEntryLen (m : Memory) (filename : Int) : Option Nat := (m.up filename).findIdx? (· == 0)

/-- The scan for the slash in front of the last name may leave the field, and faults below the
mapped memory. -/
def getNameStartIdx (m : Memory) (filename : Int) (len : Nat) : Option Int :=
  let len := (((m.up filename).take len).rdropWhile (· == slash)).length
  ((m.down (filename + len - 1)).findIdx? (· == slash)).map fun steps => (len : Int) - steps

def isZeroBlock (header : List Byte) : Bool := header.all (· == 0)

structure FileExtent where
  inode : Addr
  buf : Int
  len : Nat
  name : Int
  nameSize : Int
deriving DecidableEq

/-- `next` is the memory for the next inode, and `room` the number of allocations that succeed. -/
structure Loader where
  vfs : Vfs
  next : Addr
  room : Nat
  files : List FileExtent
  pos : Nat

def Loader.alloc (st : Loader) : Option (Addr × Loader) :=
  if st.room = 0 then none else some (st.next, { st with next := st.next + 1, room := st.room - 1 })

def rootInode : Addr := 0

def Loader.addChild (st : Loader) (dir n : Addr) (node : Node) : Loader :=
  { st with vfs := createChild st.vfs dir n node }

structure PrefixPath where
  comps : List Name
  ends : Bool

def dropDotSlash (path : Path) : Path := if path.take 2 = ['.', '/'] then path.drop 2 else path

/-- A negative offset is a length beyond all memory. -/
def prefixPath (m : Memory) (filename nameOffset : Int) : PrefixPath :=
  match nameOffset with
  | .ofNat k => ⟨components (dropDotSlash (toName ((m.up filename).take k))), true⟩
  | .negSucc _ =>
    ⟨components (dropDotSlash (toName ((m.up filename).rdropWhile (· != slash)))), false⟩

def dirLookup (s : Vfs) : Addr → List Name → Option Addr
  | dir, [] => some dir
  | dir, c :: cs =>
    match findChild s dir c with
    | none => none
    | some next => if (s.node next).type ≠ .dir then none else dirLookup s next cs

/-- The loop of `get_or_create_prefix`. It faults when there is no memory for a directory, and
returns `NULL` at an entry that is no directory. -/
def createPrefix : Loader → Addr → List Name → Option (Option Addr × Loader)
  | st, dir, [] => some (some dir, st)
  | st, dir, c :: cs =>
    match findChild st.vfs dir c with
    | none =>
      match st.alloc with
      | none => none
      | some (n, st) => createPrefix (st.addChild dir n (newNode .initrd .dir c dir)) n cs
    | some next =>
      if (st.vfs.node next).type ≠ .dir then some (none, st) else createPrefix st next cs

def getOrCreatePrefix (st : Loader) (path : PrefixPath) : Option (Option Addr × Loader) :=
  match dirLookup st.vfs rootInode path.comps with
  | some dir => if path.ends then some (some dir, st) else none
  | none =>
    match createPrefix st rootInode path.comps with
    | some (some dir, st) => if path.ends then some (some dir, st) else none
    | r => r

def entryParent (m : Memory) (filename nameOffset : Int) (st : Loader) :
    Option (Option Addr × Loader) :=
  if nameOffset = 2 then some (some rootInode, st)
  else getOrCreatePrefix st (prefixPath m filename nameOffset)

abbrev Loaded := Option (Status × Loader)

def loadFile (m : Memory) (filename : Int) (header : List Byte) (entryLen : Nat) (st : Loader) :
    Loaded :=
  match getNameStartIdx m filename entryLen with
  | none => none
  | some nameOffset =>
    match st.alloc with
    | none => some (.nomem, st)
    | some (n, st) =>
      match entryParent m filename nameOffset st with
      | none => none
      | some (none, st) => some (.notdir, st)
      | some (some parent, st) =>
        let len := ustarOct2dec (filesizeBytesOct header)
        let buf := filename + HOJICHA_USTAR_HEADER_LEN_BYTES
        let name := filename + nameOffset
        let nameSize := (entryLen : Int) - nameOffset
        let st := st.addChild parent n
          { newNode .initrd .file (toName ((m.up name).take nameSize.toNat)) parent with
            len := len, data := (m.up buf).take len }
        some (.ok, { st with files := st.files ++ [⟨n, buf, len, name, nameSize⟩] })

/-- `initrd_symlink` takes lengths of 32 bits. -/
def loadSymlink (m : Memory) (filename : Int) (entryLen : Nat) (st : Loader) : Loaded :=
  match getNameStartIdx m filename entryLen, getEntryLen m (linkedFilename filename) with
  | some nameOffset, some targetLen =>
    match entryParent m filename nameOffset st with
    | none => none
    | some (none, st) => some (.notdir, st)
    | some (some parent, st) =>
      let name := (m.up (filename + nameOffset)).take
        (((entryLen : Int) - nameOffset).toNat % 2 ^ 32)
      let target := (m.up (linkedFilename filename)).take (targetLen % 2 ^ 32)
      match opSymlink st.vfs parent (toName name) (toName target) (st.alloc.map (·.1)) with
      | (.ok, some created, vfs) =>
        some (.ok, { st with
          vfs := vfsVnodeRelease vfs created, next := st.next + 1, room := st.room - 1 })
      | (status, _, vfs) => some (status, { st with vfs := vfs })
  | _, _ => none

def loadDir (m : Memory) (filename : Int) (entryLen : Nat) (st : Loader) : Loaded :=
  let entryLen := if ((m.up filename).take entryLen).getLast? = some slash then entryLen - 1
    else entryLen
  if entryLen ≤ 2 then some (.ok, st)
  else
    match getNameStartIdx m filename entryLen with
    | none => none
    | some nameOffset =>
      match entryParent m filename nameOffset st with
      | none => none
      | some (none, st) => some (.notdir, st)
      | some (some parent, st) =>
        let name := toName ((m.up (filename + nameOffset)).take
          ((entryLen : Int) - nameOffset).toNat)
        if findChild st.vfs parent name ≠ none then some (.ok, st)
        else
          match st.alloc with
          | none => some (.nomem, st)
          | some (n, st) => some (.ok, st.addChild parent n (newNode .initrd .dir name parent))

def loadEntry (m : Memory) (filename : Int) (header : List Byte) (entryLen : Nat) (st : Loader) :
    Loaded :=
  if entryLen = 2 ∧ (m.up filename).take 2 = [dot, slash] then some (.ok, st)
  else if headerType header = USTAR_TYPE_REGULAR_FILE ∨
      headerType header = USTAR_TYPE_REGULAR_FILE_ALT then
    loadFile m filename header entryLen st
  else if headerType header = USTAR_TYPE_SYMBOLIC_LINK then loadSymlink m filename entryLen st
  else if headerType header = USTAR_TYPE_DIRECTORY then loadDir m filename entryLen st
  else some (.ok, st)

inductive LoadStep
  | fault
  | done (status : Status) (st : Loader)
  | next (st : Loader)

def finishLoad (st : Loader) : LoadStep :=
  match st.alloc with
  | none => .done .nomem st
  | some (_, st) => .done .ok st

def headerAt (m : Memory) (pos : Nat) : List Byte :=
  (m.up (addressOf pos)).take HOJICHA_USTAR_HEADER_LEN_BYTES

def ustarStep (m : Memory) (size : Nat) (st : Loader) : LoadStep :=
  if size < (st.pos + HOJICHA_USTAR_HEADER_LEN_BYTES) % 2 ^ 64 then finishLoad st
  else
    let header := headerAt m st.pos
    if header.length < HOJICHA_USTAR_HEADER_LEN_BYTES then .fault
    else if isZeroBlock header then finishLoad st
    else
      match getEntryLen m (addressOf st.pos) with
      | none => .fault
      | some entryLen =>
        match loadEntry m (addressOf st.pos) header entryLen st with
        | none => .fault
        | some (.ok, next) => .next { next with pos := (st.pos + getHeaderSize header) % 2 ^ 64 }
        | some (status, st) => .done status st

def emptyInitrd : Vfs where
  node _ := { emptyNode with name := some [] }
  live n := n = rootInode
  mount _ := ⟨rootInode, none, none⟩
  rootMount := 0
  cwd := none

def loadStart (room : Nat) : Loader := ⟨emptyInitrd, rootInode + 1, room - 1, [], 0⟩

inductive LoadResult
  | fault
  | returned (status : Status) (st : Loader)

def runRounds (step : Loader → LoadStep) : Nat → Loader → Option LoadResult
  | 0, _ => none
  | rounds + 1, st =>
    match step st with
    | .fault => some .fault
    | .done status st => some (.returned status st)
    | .next st => runRounds step rounds st

/-- `load_ustar`. It returns nothing if the loop has not ended after the rounds. -/
def loadUstar (m : Memory) (size room rounds : Nat) : Option LoadResult :=
  if room = 0 then some (.returned .nomem (loadStart room))
  else runRounds (ustarStep m size) rounds (loadStart room)

end Hojicha.Fs
