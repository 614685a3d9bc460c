import Hojicha.Framework.Trace
import Hojicha.Fs.File

/-!
# The bytes of a file

An array of bytes, and an offset for every open file. Behind the end of the file the buffer of the
inode keeps old bytes, and a write beyond the end shows them.
-/

namespace Hojicha.Fs

open Framework List

def writeAt (content : List Byte) (offset : Nat) (data : List Byte) : List Byte :=
  (content ++ calloc (offset - content.length)).take offset ++ data ++
    content.drop (offset + data.length)

structure ByteFile where
  content : List Byte
  files : Nat → Option File
  next : Nat

def ByteFile.setFile (a : ByteFile) (id : Nat) (file : File) (content : List Byte) : ByteFile :=
  { a with content := content, files := Function.update a.files id (some file) }

def writeOffset (content : List Byte) (file : File) : Nat :=
  if hasFlag file.flags VFS_OPEN_APPEND then content.length else file.offset

def seekOrigin (len pos : Nat) : Whence → Nat
  | .set => 0
  | .cur => pos
  | _ => len

def clampedPosition (len pos : Nat) (offset : Int) (whence : Whence) : Nat :=
  (max 0 (min (seekOrigin len pos whence + offset) len)).toNat

def ByteFile.openFile (a : ByteFile) (flags : BitVec 32) : Reply × ByteFile :=
  if hasFlag flags VFS_OPEN_DIRECTORY then (.fail .notdir, a)
  else
    let content :=
      if hasFlag flags VFS_OPEN_TRUNC && hasFlag flags VFS_OPEN_WRITE then [] else a.content
    let offset := if hasFlag flags VFS_OPEN_APPEND then content.length else 0
    (⟨.ok, [], 0⟩,
      ⟨content, Function.update a.files a.next (some ⟨flags, offset⟩), a.next + 1⟩)

def ByteFile.readFile (a : ByteFile) (id : Nat) (buffer : Bool) (len : Nat) (file : File) :
    Reply × ByteFile :=
  if !hasFlag file.flags VFS_OPEN_READ then (.fail .badFd, a)
  else if !buffer then (.fail .invalidArg, a)
  else
    let bytes := (a.content.drop file.offset).take len
    (⟨.ok, bytes, bytes.length⟩,
      a.setFile id { file with offset := file.offset + bytes.length } a.content)

def ByteFile.writeFile (a : ByteFile) (id : Nat) (buffer : Option (List Byte)) (file : File) :
    Reply × ByteFile :=
  if !hasFlag file.flags VFS_OPEN_WRITE then (.fail .badFd, a)
  else
    match buffer with
    | none => (.fail .invalidArg, a)
    | some data =>
      let offset := writeOffset a.content file
      (⟨.ok, [], data.length⟩,
        a.setFile id { file with offset := offset + data.length }
          (if data = [] then a.content else writeAt a.content offset data))

def ByteFile.seekFile (a : ByteFile) (id : Nat) (offset : Int) (whence : Whence) (file : File) :
    Reply × ByteFile :=
  if whence = .other then (.fail .invalidArg, a)
  else
    let pos := clampedPosition a.content.length file.offset offset whence
    (⟨.ok, [], pos⟩, a.setFile id { file with offset := pos } a.content)

def ByteFile.call (a : ByteFile) : Call → Reply × ByteFile
  | .open_ flags => a.openFile flags
  | .read id buffer len => (a.files id).elim (.fail .badFd, a) (a.readFile id buffer len)
  | .write id buffer => (a.files id).elim (.fail .badFd, a) (a.writeFile id buffer)
  | .seek id offset whence => (a.files id).elim (.fail .badFd, a) (a.seekFile id offset whence)
  | .stat => (⟨.ok, [], a.content.length⟩, a)

structure Holds (node : Inode) (content : List Byte) : Prop where
  len : node.len = content.length
  bytes : node.buf.take node.len = content

/-- A write into the present buffer finds zeros between the end of the file and its offset. -/
def GapClear (node : Inode) (file : File) (data : List Byte) : Prop :=
  data ≠ [] → file.offset + data.length ≤ node.buf.length →
    (node.buf.take file.offset).drop node.len = calloc (file.offset - node.len)

variable {node : Inode} {content data buf : List Byte} {file : File} {offset id len : Nat}
  {delta : Int} {whence : Whence}

private theorem toInt64_of_fits {x : Int} (hfrom : -2 ^ 63≤x) (hto : x<2 ^ 63) : toInt64 x=x := by
  rw [toInt64,Int.bmod_eq_of_le] <;> omega

private theorem toInt64_natCast {n : Nat} (hn : n<2 ^ 63) : toInt64 n=n :=
  toInt64_of_fits (by omega) (by omega)

def clampSum (len : Nat) (sum : Int) : Nat :=
  if toInt64 sum < 0 then 0 else if toInt64 sum > toInt64 len then len else (toInt64 sum).toNat

private theorem seekPosition_eq (hlen : len<2 ^ 63) (hpos : file.offset<2 ^ 63) :
    seekPosition len delta whence file =
      clampSum len (delta + seekOrigin len file.offset whence) := by
  cases whence with
  | set => rfl
  | cur => exact congrArg (fun n => clampSum len (delta+n)) (toInt64_natCast hpos)
  | end_ => exact congrArg (fun n => clampSum len (delta+n)) (toInt64_natCast hlen)
  | other => exact congrArg (fun n => clampSum len (delta+n)) (toInt64_natCast hlen)

/-- A sum that wraps around is negative, and leads to the start instead of the end. -/
theorem seekPosition_clamps_iff (hfrom : -2 ^ 63≤delta) (hto : delta<2 ^ 63)
    (hlen : len<2 ^ 63) (hpos : file.offset<2 ^ 63) :
    seekPosition len delta whence file=clampedPosition len file.offset delta whence ↔
      seekOrigin len file.offset whence + delta<2 ^ 63 ∨ len=0 := by
  have horigin : seekOrigin len file.offset whence<2 ^ 63 := by
    cases whence <;> first | exact hlen | exact hpos | exact Nat.two_pow_pos 63
  rw [seekPosition_eq hlen hpos,clampedPosition,clampSum,toInt64_natCast hlen]
  generalize seekOrigin len file.offset whence=origin at *
  by_cases hfits : (origin : Int)+delta<2 ^ 63
  · have hsum : toInt64 (delta+origin)=delta+origin := toInt64_of_fits (by omega) (by omega)
    simp only [hsum,hfits,true_or,iff_true]
    grind
  · have hwraps : toInt64 (delta+origin)<0 := by
      rw [toInt64,Int.bmod_def]
      omega
    simp only [hwraps,if_true,hfits,false_or]
    omega

private theorem Holds.le (h : Holds node content) : node.len≤node.buf.length := by
  have hlen : (node.buf.take node.len).length=node.len := by rw [h.bytes,h.len]
  rw [length_take] at hlen
  omega

private theorem length_calloc (n : Nat) : (calloc n).length=n := length_replicate

private theorem take_calloc {m n : Nat} (h : m≤n) : (calloc n).take m=calloc m := by
  rw [calloc,calloc,take_replicate,Nat.min_eq_left h]

/-- After the bytes are copied, the front of the buffer is what `writeAt` says if it was so in front
of the offset. -/
private theorem take_memcpy (hroom : offset + data.length≤buf.length)
    (hrest : (buf.drop (offset + data.length)).take (content.length - (offset + data.length)) =
      content.drop (offset + data.length)) :
    (memcpy buf offset data).take (max (offset + data.length) content.length) =
        writeAt content offset data ↔
      buf.take offset=(content++calloc (offset - content.length)).take offset := by
  have hfront : (buf.take offset).length=offset := by
    rw [length_take]
    omega
  have hsplit : max (offset+data.length) content.length =
      (buf.take offset++data).length+(content.length-(offset+data.length)) := by
    rw [length_append,hfront]
    omega
  rw [memcpy,hsplit,take_length_add_append,hrest,writeAt,append_left_inj,append_left_inj]

private theorem take_offset_iff (h : Holds node content) (hroom : offset≤node.buf.length) :
    node.buf.take offset=(content++calloc (offset - content.length)).take offset ↔
      (node.buf.take offset).drop node.len=calloc (offset - node.len) := by
  rw [h.len]
  rcases Nat.le_total offset content.length with hle | hle
  · have hfront : node.buf.take offset=content.take offset := by
      rw [← h.bytes,h.len,take_take,Nat.min_eq_left hle]
    have hend : (node.buf.take offset).drop content.length=[] := by
      apply drop_eq_nil_of_le
      rw [length_take]
      omega
    rw [hend,hfront,take_append_of_le_length hle,Nat.sub_eq_zero_of_le hle]
    exact iff_of_true rfl rfl
  · have hfront : (node.buf.take offset).take content.length=content := by
      rw [take_take,Nat.min_eq_left hle,← h.len,h.bytes]
    have hall : (content++calloc (offset-content.length)).take offset =
        content++calloc (offset-content.length) := by
      apply take_of_length_le
      rw [length_append,length_calloc]
      omega
    rw [hall]
    conv_lhs => lhs; rw [← take_append_drop content.length (node.buf.take offset),hfront]
    rw [append_right_inj]

private theorem take_fresh {n : Nat} (hroom : offset≤n) (hcontent : content.length≤n) :
    (memcpy (calloc n) 0 content).take offset =
      (content++calloc (offset - content.length)).take offset := by
  have hbuf : memcpy (calloc n) 0 content=content++calloc (n-content.length) := by
    rw [memcpy,take_zero,nil_append,Nat.zero_add,calloc,calloc,drop_replicate]
  rw [hbuf,take_append,take_append,take_calloc (by omega),take_calloc (Nat.le_refl _)]

private theorem finishWrite_snd (file : File) (data : List Byte) (node : Inode) :
    (finishWrite file data node).2.1 = { file with offset := file.offset + data.length } ∧
      (finishWrite file data node).2.2.buf=node.buf ∧
      (finishWrite file data node).2.2.len=max (file.offset + data.length) node.len := by
  refine ⟨rfl,rfl,?_⟩
  show (if file.offset+data.length > node.len then _ else _)=_
  split_ifs with hgt
  · exact (Nat.max_eq_left (Nat.le_of_lt hgt)).symm
  · exact (Nat.max_eq_right (Nat.le_of_not_lt hgt)).symm

private theorem holds_finishWrite (hlen : node.len=content.length)
    (hroom : file.offset + data.length≤buf.length)
    (hrest : (buf.drop (file.offset + data.length)).take
      (content.length - (file.offset + data.length))=content.drop (file.offset + data.length)) :
    Holds (finishWrite file data { node with buf := memcpy buf file.offset data }).2.2
        (writeAt content file.offset data) ↔
      buf.take file.offset =
        (content++calloc (file.offset - content.length)).take file.offset := by
  obtain ⟨-,hbuf,hend⟩ := finishWrite_snd file data
    { node with buf := memcpy buf file.offset data }
  rw [← take_memcpy hroom hrest]
  dsimp only at hbuf hend
  replace hend := hend.trans (congrArg (max _) hlen)
  constructor
  · intro h
    rw [← h.bytes,hbuf,hend]
  · intro heq
    have hlength : (writeAt content file.offset data).length =
        max (file.offset+data.length) content.length := by
      rw [writeAt,length_append,length_append,length_take,length_append,length_calloc,length_drop]
      omega
    exact ⟨by rw [hend,hlength],by rw [hbuf,hend,heq]⟩

private theorem initrdWrite_spec (h : Holds node content) (data : List Byte) (file : File) :
    (initrdWrite true data file node).1=⟨.ok, [], data.length⟩ ∧
    (initrdWrite true data file node).2.1 = { file with offset := file.offset + data.length } ∧
    (Holds (initrdWrite true data file node).2.2
        (if data=[] then content else writeAt content file.offset data) ↔
      GapClear node file data) := by
  rw [initrdWrite]
  by_cases hdata : data=[]
  · subst hdata
    exact ⟨rfl,rfl,iff_of_true ⟨h.len,h.bytes⟩ fun hne => absurd rfl hne⟩
  have hpos : 0<data.length := length_pos_iff.mpr hdata
  rw [if_neg (by omega),if_neg hdata]
  have hsize : file.offset+data.length≤grownSize file data node ∧
      node.len≤grownSize file data node := by
    rw [grownSize]
    split_ifs <;> omega
  by_cases hbuf : node.buf=[]
  · have hempty : content=[] := by
      rw [← h.bytes,hbuf,take_nil]
    rw [if_pos hbuf,if_pos rfl]
    refine ⟨rfl,(finishWrite_snd ..).1,?_⟩
    dsimp only
    rw [holds_finishWrite h.len]
    · refine iff_of_true ?_ fun _ hle => ?_
      · rw [hempty,nil_append,length_nil,Nat.sub_zero,take_calloc (by omega),
          take_calloc (Nat.le_refl _)]
      · rw [hbuf,length_nil] at hle
        omega
    · rw [length_calloc]
      exact hsize.1
    · rw [hempty]
      simp
  rw [if_neg hbuf]
  by_cases hfits : file.offset+data.length≤node.buf.length
  · rw [if_pos hfits]
    refine ⟨rfl,(finishWrite_snd ..).1,?_⟩
    rw [holds_finishWrite h.len hfits,take_offset_iff h (by omega)]
    · exact ⟨fun hgap _ _ => hgap,fun hgap => hgap hdata hfits⟩
    · rw [← h.len,← drop_take,h.bytes]
  · rw [if_neg hfits,if_pos rfl]
    refine ⟨rfl,(finishWrite_snd ..).1,?_⟩
    have hle := h.le
    have hlen := h.len
    dsimp only
    rw [h.bytes,holds_finishWrite h.len]
    · refine iff_of_true (take_fresh (by omega) (by omega)) fun _ hroom => absurd hroom hfits
    · rw [memcpy,take_zero,nil_append,length_append,length_drop,length_calloc]
      omega
    · rw [drop_eq_nil_of_le (show content.length≤file.offset+data.length by omega),
        Nat.sub_eq_zero_of_le (by omega),take_zero]

structure Related (s : OpenFiles) (a : ByteFile) : Prop where
  holds : Holds s.inode a.content
  files : s.files = a.files
  next : s.next = a.next

/-- The length and the position that a call computes with, and the distance of a seek, are values
of `int64_t`. -/
def InRange (s : OpenFiles) : Int × Call → Prop
  | (_, .write ..) => s.inode.len < 2 ^ 63
  | (_, .seek id offset _) => s.inode.len < 2 ^ 63 ∧ -2 ^ 63 ≤ offset ∧ offset < 2 ^ 63 ∧
    ∀ file ∈ s.files id, file.offset < 2 ^ 63
  | _ => True

/-- A write through a file that is open for writing finds its gap clear, and the sum that a seek
computes fits into `int64_t`, or the file is empty. -/
def Clean (s : OpenFiles) : Int × Call → Prop
  | (_, .write id (some data)) => ∀ file ∈ s.files id,
    hasFlag file.flags VFS_OPEN_WRITE = true →
    GapClear s.inode (startWrite file s.inode) data
  | (_, .seek id offset whence) => ∀ file ∈ s.files id, whence ≠ .other →
    seekOrigin s.inode.len file.offset whence + offset < 2 ^ 63 ∨ s.inode.len = 0
  | _ => True

instance (node : Inode) (file : File) (data : List Byte) : Decidable (GapClear node file data) :=
  inferInstanceAs (Decidable (_ → _ → _))

instance (s : OpenFiles) : (r : Int × Call) → Decidable (InRange s r)
  | (_, .write ..) => inferInstanceAs (Decidable (s.inode.len < 2 ^ 63))
  | (_, .seek id _ _) => inferInstanceAs (Decidable (_ ∧ _ ∧ _ ∧ ∀ file ∈ s.files id, _))
  | (_, .open_ _) | (_, .read ..) | (_, .stat) => inferInstanceAs (Decidable True)

instance (s : OpenFiles) : (r : Int × Call) → Decidable (Clean s r)
  | (_, .write id (some _)) => inferInstanceAs (Decidable (∀ file ∈ s.files id, _ → _))
  | (_, .seek id _ _) => inferInstanceAs (Decidable (∀ file ∈ s.files id, _ → _))
  | (_, .open_ _) | (_, .read ..) | (_, .stat) | (_, .write _ none) =>
    inferInstanceAs (Decidable True)

variable {s : OpenFiles} {a : ByteFile}

private theorem clean_of_not_writable (now : Int) (buffer : Option (List Byte))
    (h : ∀ file, s.files id=some file → hasFlag file.flags VFS_OPEN_WRITE≠true) :
    Clean s (now, .write id buffer) := by
  cases buffer with
  | none => trivial
  | some data =>
    intro file hid hflag
    exact absurd hflag (h file hid)

private theorem startWrite_eq (h : Holds node content) (hlen : node.len<2 ^ 63) (file : File) :
    startWrite file node = { file with offset := writeOffset content file } := by
  rw [startWrite,writeOffset]
  split_ifs
  · have hend : seekPosition node.len 0 .end_ file=node.len := by
      change clampSum node.len (0+toInt64 node.len)=_
      rw [toInt64_natCast hlen,Int.zero_add,clampSum,toInt64_natCast hlen,if_neg (by omega),
        if_neg (by omega)]
      rfl
    rw [vfsSeek,if_neg (by simp),initrdSeek,hend,h.len]
  · rfl

private theorem Holds.times (h : Holds node content) {node' : Inode} (hbuf : node'.buf=node.buf)
    (hlen : node'.len=node.len) : Holds node' content :=
  ⟨hlen.trans h.len,by rw [hbuf,hlen,h.bytes]⟩

private theorem Related.keep (h : Related s a) {file : File} (hid : s.files id=some file)
    (hholds : Holds node a.content) : Related (s.setFile id file node) a :=
  ⟨hholds,by rw [← h.files,OpenFiles.setFile,← hid,Function.update_eq_self],h.next⟩

private theorem Related.setFile (h : Related s a) (id : Nat) (file : File)
    (hholds : Holds node content) : Related (s.setFile id file node) (a.setFile id file content) :=
  ⟨hholds,by rw [OpenFiles.setFile,ByteFile.setFile,h.files],h.next⟩

private theorem initrdRead_spec (h : Holds node content) (len : Nat) (file : File) :
    (initrdRead true len file node).1=⟨.ok, (content.drop file.offset).take len,
      ((content.drop file.offset).take len).length⟩ ∧
    (initrdRead true len file node).2.1 = { file with
      offset := file.offset + ((content.drop file.offset).take len).length } ∧
    Holds (initrdRead true len file node).2.2 content := by
  rw [initrdRead,if_neg (by simp)]
  by_cases hzero : len=0
  · subst hzero
    exact ⟨by simp,by simp,h.times rfl rfl⟩
  rw [if_neg hzero]
  by_cases hend : node.len≤file.offset
  · have hnil : content.drop file.offset=[] := by
      apply drop_eq_nil_of_le
      rw [← h.len]
      exact hend
    rw [if_pos hend,hnil]
    exact ⟨by simp,by simp,h⟩
  · rw [if_neg hend]
    have hcount : (if node.len-file.offset<len then node.len-file.offset else len) =
        ((content.drop file.offset).take len).length := by
      rw [length_take,length_drop,h.len]
      split_ifs <;> omega
    have hbytes : (node.buf.drop file.offset).take ((content.drop file.offset).take len).length =
        (content.drop file.offset).take len := by
      have hle : ((content.drop file.offset).take len).length≤node.len-file.offset := by
        rw [length_take,length_drop,h.len]
        omega
      rw [← Nat.min_eq_left hle,← take_take,← drop_take,h.bytes,length_take]
      exact take_eq_take_min.symm
    simp only [hcount,hbytes]
    refine ⟨trivial,trivial,?_⟩
    split_ifs
    · exact h.times rfl rfl
    · exact h

private theorem vfsRead_related (h : Related s a) (buffer : Bool) (len : Nat) (now : Int)
    {file : File} (hid : s.files id=some file) :
    (vfsRead buffer len now file s.inode).1=(a.readFile id buffer len file).1 ∧
    Related (s.setFile id (vfsRead buffer len now file s.inode).2.1
      (vfsRead buffer len now file s.inode).2.2) (a.readFile id buffer len file).2 := by
  by_cases hflag : hasFlag file.flags VFS_OPEN_READ=true
  swap
  · rw [vfsRead,ByteFile.readFile,if_pos (by simp [hflag]),if_pos (by simp [hflag])]
    exact ⟨rfl,h.keep hid h.holds⟩
  simp only [vfsRead,ByteFile.readFile,hflag,Bool.not_true,Bool.false_eq_true,if_false]
  cases buffer with
  | false => exact ⟨rfl,h.keep hid h.holds⟩
  | true =>
    obtain ⟨hreply,hfile,hholds⟩ := initrdRead_spec h.holds len file
    simp only [Bool.not_true,Bool.false_eq_true,if_false]
    rw [← hfile]
    split_ifs
    · exact ⟨hreply,h.setFile id _ (hholds.times rfl rfl)⟩
    · exact ⟨hreply,h.setFile id _ hholds⟩

private theorem vfsWrite_related (h : Related s a) (hlen : s.inode.len<2 ^ 63)
    (buffer : Option (List Byte)) (now : Int) {file : File} (hid : s.files id=some file) :
    (vfsWrite true buffer now file s.inode).1=(a.writeFile id buffer file).1 ∧
    (Related (s.setFile id (vfsWrite true buffer now file s.inode).2.1
      (vfsWrite true buffer now file s.inode).2.2) (a.writeFile id buffer file).2 ↔
      Clean s (now, .write id buffer)) := by
  by_cases hflag : hasFlag file.flags VFS_OPEN_WRITE=true
  swap
  · have hclean : Clean s (now, .write id buffer) := by
      apply clean_of_not_writable
      intro file' hid'
      rw [hid,Option.some.injEq] at hid'
      rw [← hid']
      exact hflag
    rw [vfsWrite.eq_def,ByteFile.writeFile.eq_def,if_pos (by simp [hflag]),if_pos (by simp [hflag])]
    exact ⟨rfl,iff_of_true (h.keep hid h.holds) hclean⟩
  cases buffer with
  | none =>
    simp only [vfsWrite,ByteFile.writeFile,hflag,Bool.not_true,Bool.false_eq_true,if_false]
    exact ⟨trivial,iff_of_true (h.keep hid h.holds) trivial⟩
  | some data =>
    obtain ⟨hreply,hfile,hiff⟩ := initrdWrite_spec h.holds data (startWrite file s.inode)
    have hstart : (startWrite file s.inode).offset=writeOffset a.content file := by
      rw [startWrite_eq h.holds hlen]
    have hflags : (startWrite file s.inode).flags=file.flags := by rw [startWrite_eq h.holds hlen]
    rw [hstart] at hfile hiff
    rw [hflags] at hfile
    have hclean : Clean s (now, .write id (some data)) ↔
        GapClear s.inode (startWrite file s.inode) data := by
      simp [Clean,hid,hflag]
    rw [hclean,← hiff]
    simp only [vfsWrite,ByteFile.writeFile,hflag,Bool.not_true,Bool.false_eq_true,if_false]
    rw [← hfile]
    generalize (if data=[] then a.content else _)=content'
    split_ifs
    · exact ⟨hreply,fun hrel => hrel.holds.times rfl rfl,
        fun hholds => h.setFile id _ (hholds.times rfl rfl)⟩
    · exact ⟨hreply,fun hrel => hrel.holds,fun hholds => h.setFile id _ hholds⟩

private theorem vfsSeek_related (h : Related s a) {offset : Int} (now : Int)
    (hrange : InRange s (now, .seek id offset whence)) {file : File} (hid : s.files id=some file) :
    ((vfsSeek offset whence file s.inode).1=(a.seekFile id offset whence file).1 ∧
      Related (s.setFile id (vfsSeek offset whence file s.inode).2 s.inode)
        (a.seekFile id offset whence file).2) ↔ Clean s (now, .seek id offset whence) := by
  obtain ⟨hlen,hfrom,hto,hpos⟩ := hrange
  have hclean : Clean s (now, .seek id offset whence) ↔ (whence ≠ .other →
      seekOrigin s.inode.len file.offset whence+offset<2 ^ 63 ∨ s.inode.len=0) := by
    simp [Clean,hid]
  rw [hclean,vfsSeek,ByteFile.seekFile]
  by_cases hother : whence = .other
  · rw [if_pos hother,if_pos hother]
    exact iff_of_true ⟨rfl,h.keep hid h.holds⟩ fun hne => absurd hother hne
  · rw [if_neg hother,if_neg hother,initrdSeek,← h.holds.len]
    dsimp only
    have hiff : seekPosition _ offset whence file=_ ↔ _ :=
      seekPosition_clamps_iff hfrom hto hlen (hpos file hid)
    constructor
    · intro hsame _
      exact hiff.mp (congrArg Reply.count hsame.1)
    · intro hfits
      rw [hiff.mpr (hfits hother)]
      exact ⟨rfl,h.setFile id _ h.holds⟩

/-- One call: the reply is that of the array and the file still holds it exactly if it is clean. -/
private theorem call_related (h : Related s a) (r : Int × Call) (hrange : InRange s r) :
    ((s.call true r.1 r.2).1=(a.call r.2).1 ∧ Related (s.call true r.1 r.2).2 (a.call r.2).2) ↔
      Clean s r := by
  obtain ⟨now,c⟩ := r
  cases c with
  | open_ flags =>
    simp only [OpenFiles.call,ByteFile.call,initrdOpen,ByteFile.openFile]
    by_cases hdir : hasFlag flags VFS_OPEN_DIRECTORY=true
    · rw [if_pos hdir,if_pos hdir]
      exact iff_of_true ⟨rfl,h⟩ trivial
    rw [if_neg hdir,if_neg hdir,if_neg (by simp)]
    by_cases htrunc : (hasFlag flags VFS_OPEN_TRUNC && hasFlag flags VFS_OPEN_WRITE)=true
    · rw [if_pos htrunc,if_pos htrunc,← h.files,← h.next]
      exact iff_of_true ⟨rfl,⟨⟨rfl,rfl⟩,rfl,rfl⟩⟩ trivial
    · rw [if_neg htrunc,if_neg htrunc,← h.files,← h.next,← h.holds.len]
      exact iff_of_true ⟨rfl,⟨h.holds,rfl,rfl⟩⟩ trivial
  | read id buffer len =>
    simp only [OpenFiles.call,ByteFile.call,← h.files]
    cases hid : s.files id with
    | none => exact iff_of_true ⟨rfl,h⟩ trivial
    | some file => exact iff_of_true (vfsRead_related h buffer len now hid) trivial
  | write id buffer =>
    simp only [OpenFiles.call,ByteFile.call,← h.files]
    cases hid : s.files id with
    | none =>
      have hclean : Clean s (now, .write id buffer) :=
        clean_of_not_writable now buffer fun file hfile => by simp [hid] at hfile
      exact iff_of_true ⟨rfl,h⟩ hclean
    | some file =>
      obtain ⟨hreply,hiff⟩ := vfsWrite_related h hrange buffer now hid
      exact ⟨fun hsame => hiff.mp hsame.2,fun hclean => ⟨hreply,hiff.mpr hclean⟩⟩
  | seek id offset whence =>
    simp only [OpenFiles.call,ByteFile.call,← h.files]
    cases hid : s.files id with
    | none =>
      have hclean : Clean s (now, .seek id offset whence) := by simp [Clean,hid]
      exact iff_of_true ⟨rfl,h⟩ hclean
    | some file => exact vfsSeek_related h now hrange hid
  | stat => exact iff_of_true ⟨congrArg _ h.holds.len,h⟩ trivial

/-- A call with the time at which it is made. All allocations succeed. -/
def OpenFiles.step (s : OpenFiles) (r : Int × Call) : Reply × OpenFiles := s.call true r.1 r.2

def ByteFile.step (a : ByteFile) (r : Int × Call) : Reply × ByteFile := a.call r.2

def OpenFiles.byteFile (s : OpenFiles) : ByteFile :=
  ⟨s.inode.buf.take s.inode.len, s.files, s.next⟩

private theorem related_byteFile (h : s.inode.len ≤ s.inode.buf.length) : Related s s.byteFile := by
  have hlen : (s.inode.buf.take s.inode.len).length=s.inode.len := by
    rw [length_take,Nat.min_eq_left h]
  exact ⟨⟨hlen.symm,rfl⟩,rfl,rfl⟩

/-- Through any number of open files the calls see one array of bytes, as long as no write finds
old bytes between the end of the file and its offset, and no seek computes a sum that wraps around.
The first call that does breaks it. -/
theorem calls_see_byteFile (s : OpenFiles) (h : s.inode.len ≤ s.inode.buf.length)
    (cs : List (Int × Call)) :
    (Always OpenFiles.step (fun s r => InRange s r ∧ Clean s r) s cs →
      (trace OpenFiles.step s cs).1 = (trace ByteFile.step s.byteFile cs).1 ∧
      Related (trace OpenFiles.step s cs).2 (trace ByteFile.step s.byteFile cs).2) ∧
    ∀ a r, Related s a → InRange s r →
      ((s.step r).1 = (a.step r).1 ∧ Related (s.step r).2 (a.step r).2 ↔ Clean s r) := by
  constructor
  · intro hclean
    apply trace_simulates Related _ (related_byteFile h) hclean
    intro s a r hrel hr
    exact (call_related hrel r hr.1).mpr hr.2
  · intro a r hrel hrange
    exact call_related hrel r hrange

def newFile : OpenFiles := ⟨⟨[], 0, ⟨0, 0, 0⟩, ⟨0, 0, 0⟩⟩, fun _ => none, 0⟩

/-- Three bytes are written, a second open truncates the file, and the first writes on. -/
def writeAcrossTruncation : List (Int × Call) :=
  let both := VFS_OPEN_READ ||| VFS_OPEN_WRITE
  [(1, .open_ both), (2, .write 0 (some [1, 2, 3])), (3, .open_ (both ||| VFS_OPEN_TRUNC)),
    (4, .write 0 (some [4])), (5, .read 1 true 4)]

/-- Two handles write, seek back and read, one of them at the end. -/
def writeAndSeek : List (Int × Call) :=
  let both := VFS_OPEN_READ ||| VFS_OPEN_WRITE
  [(1, .open_ both), (2, .write 0 (some [1, 2, 3])), (3, .open_ (both ||| VFS_OPEN_APPEND)),
    (4, .seek 0 (-1) .cur), (5, .write 1 (some [4])), (6, .read 0 true 9)]

theorem calls_see_byteFile_newFile :
    (trace OpenFiles.step newFile writeAndSeek).1 =
        (trace ByteFile.step newFile.byteFile writeAndSeek).1 ∧
      (trace OpenFiles.step newFile writeAndSeek).1.getLast? = some ⟨.ok, [3, 4], 2⟩ :=
  ⟨((calls_see_byteFile newFile (by decide) writeAndSeek).1 (by decide +kernel)).1,
    by decide +kernel⟩

theorem old_bytes_after_truncation :
    (trace OpenFiles.step newFile writeAcrossTruncation).1.getLast? =
      some ⟨.ok, [1, 2, 3, 4], 4⟩ ∧
    (trace ByteFile.step newFile.byteFile writeAcrossTruncation).1.getLast? =
      some ⟨.ok, [0, 0, 0, 4], 4⟩ := by
  decide +kernel

end Hojicha.Fs
