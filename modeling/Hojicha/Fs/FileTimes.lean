import Hojicha.Framework.Trace
import Hojicha.Fs.FileContents

/-!
# The time of the last change

`vfs_write` writes the clock into the vnode after the file system has copied the older time into the
inode, and a read copies the times of the inode back.
-/

namespace Hojicha.Fs

open Framework OpenFiles

/-- A call, the clock, and the answer of the allocator. -/
structure Request where
  granted : Bool
  now : Int
  call : Call

def OpenFiles.answer (s : OpenFiles) (r : Request) : Reply × OpenFiles :=
  s.call r.granted r.now r.call

def OpenFiles.statModified (s : OpenFiles) : Int := s.inode.vnode.modified

def changed : Call → Reply → Bool
  | .open_ flags, reply =>
    reply.status = .ok && hasFlag flags VFS_OPEN_TRUNC && hasFlag flags VFS_OPEN_WRITE
  | .write _ _, reply => reply.status = .ok && 0 < reply.count
  | _, _ => false

def lastChange (t : Int) : List (Request × Reply) → Int
  | [] => t
  | (r, reply) :: rest => lastChange (if changed r.call reply then r.now else t) rest

/-- A read copies the times of the inode into the vnode, unless it finds nothing to read. -/
def readSyncs (buffer : Bool) (len : Nat) (file : File) (node : Inode) : Bool :=
  hasFlag file.flags VFS_OPEN_READ && buffer && (len = 0 || file.offset < node.len)

/-- The read finds no time in the inode that is older than the one in the vnode. -/
def Fresh (s : OpenFiles) (r : Request) : Prop :=
  match r.call with
  | .read id buffer len => ∀ file, s.files id = some file →
    readSyncs buffer len file s.inode = true → s.inode.times.modified = s.inode.vnode.modified
  | _ => True

private theorem vfsRead_modified (buffer : Bool) (len : Nat) (now : Int) (file : File)
    (node : Inode) : (vfsRead buffer len now file node).2.2.vnode.modified =
      if readSyncs buffer len file node then node.times.modified else node.vnode.modified := by
  by_cases hflag : hasFlag file.flags VFS_OPEN_READ=true
  swap
  · rw [vfsRead,if_pos (by simp [hflag]),if_neg (by simp [readSyncs,hflag])]
  have hread : (initrdRead buffer len file node).2.2.vnode.modified =
      if readSyncs buffer len file node then node.times.modified else node.vnode.modified := by
    rw [initrdRead,readSyncs,hflag]
    cases buffer with
    | false => rfl
    | true =>
      by_cases hzero : len=0
      · rw [if_neg (by simp),if_pos hzero,if_pos (by simp [hzero])]
        rfl
      rw [if_neg (by simp),if_neg hzero]
      by_cases hend : node.len≤file.offset
      · rw [if_pos hend,if_neg (by simp [hzero,hend])]
      · have hcopied : 0<(if node.len-file.offset<len then node.len-file.offset
            else len) := by
          split_ifs <;> omega
        rw [if_neg hend,if_pos (by simp; omega)]
        simp only [hcopied,if_true]
        rfl
  rw [← hread,vfsRead,if_neg (by simp [hflag])]
  dsimp only
  split_ifs
  · rfl
  · rfl

/-- A write of some bytes goes through with some buffer, or fails and leaves everything. -/
private theorem initrdWrite_cases (granted : Bool) {data : List Byte} (h : data.length≠0)
    (file : File) (node : Inode) :
    (∃ buf, initrdWrite granted data file node=finishWrite file data { node with buf := buf }) ∨
      initrdWrite granted data file node=(.fail .nomem, file, node) := by
  rw [initrdWrite,if_neg h]
  dsimp only
  split_ifs
  · exact Or.inl ⟨_,rfl⟩
  · exact Or.inr rfl
  · exact Or.inl ⟨_,rfl⟩
  · exact Or.inl ⟨_,rfl⟩
  · exact Or.inr rfl

private theorem initrdWrite_modified (granted : Bool) (data : List Byte) (file : File)
    (node : Inode) (h : ¬((initrdWrite granted data file node).1.status = .ok ∧
      (initrdWrite granted data file node).1.count > 0)) :
    (initrdWrite granted data file node).2.2.vnode.modified=node.vnode.modified := by
  by_cases hzero : data.length=0
  · rw [initrdWrite,if_pos hzero]
    rfl
  rcases initrdWrite_cases granted hzero file node with ⟨buf,hgo⟩ | hfail
  · rw [hgo] at h
    exact absurd ⟨rfl,Nat.pos_of_ne_zero hzero⟩ h
  · rw [hfail]

private theorem vfsWrite_modified (granted : Bool) (buffer : Option (List Byte)) (now : Int)
    (file : File) (node : Inode) :
    (vfsWrite granted buffer now file node).2.2.vnode.modified =
      if (vfsWrite granted buffer now file node).1.status = .ok ∧
        0<(vfsWrite granted buffer now file node).1.count then now else node.vnode.modified := by
  rw [vfsWrite.eq_def]
  by_cases hflag : hasFlag file.flags VFS_OPEN_WRITE=true
  swap
  · rw [if_pos (by simp [hflag])]
    rfl
  rw [if_neg (by simp [hflag])]
  cases buffer with
  | none => rfl
  | some data =>
    dsimp only
    by_cases hwritten : (initrdWrite granted data (startWrite file node) node).1.status = .ok ∧
        (initrdWrite granted data (startWrite file node) node).1.count > 0
    · simp only [if_pos hwritten]
      rfl
    · simp only [if_neg hwritten]
      exact initrdWrite_modified granted data _ node hwritten

private theorem statModified_answer (s : OpenFiles) (r : Request) :
    (s.answer r).2.statModified =
        (if changed r.call (s.answer r).1 then r.now else s.statModified) ↔ Fresh s r := by
  obtain ⟨granted,now,c⟩ := r
  cases c with
  | open_ flags =>
    apply iff_of_true _ trivial
    simp only [answer,call,statModified,changed,initrdOpen]
    by_cases hdir : hasFlag flags VFS_OPEN_DIRECTORY=true
    · rw [if_pos hdir]
      rfl
    rw [if_neg hdir]
    cases granted with
    | false => rfl
    | true =>
      by_cases htrunc : (hasFlag flags VFS_OPEN_TRUNC && hasFlag flags VFS_OPEN_WRITE)=true
      · simp only [htrunc]
        rw [Bool.and_assoc,htrunc]
        rfl
      · simp only [htrunc]
        rw [Bool.and_assoc,Bool.eq_false_iff.mpr htrunc]
        rfl
  | read id buffer len =>
    simp only [Fresh,answer,call,statModified,changed,
      Bool.false_eq_true,if_false]
    cases hid : s.files id with
    | none => simp
    | some file =>
      simp only [setFile,vfsRead_modified,Option.some.injEq,forall_eq']
      split_ifs with hsync
      · simp [hsync]
      · simp [hsync]
  | write id buffer =>
    apply iff_of_true _ trivial
    cases hid : s.files id with
    | none =>
      simp only [answer,call,hid]
      rfl
    | some file =>
      simp only [answer,call,statModified,changed,hid,
        setFile,vfsWrite_modified,Bool.and_eq_true,decide_eq_true_eq]
  | seek id offset whence =>
    apply iff_of_true _ trivial
    simp only [answer,call,statModified,changed]
    cases hid : s.files id with
    | none => rfl
    | some file => rfl
  | stat => exact iff_of_true rfl trivial

/-- The time that is reported after any requests is the clock of the last change, as long as every
read finds the times of the inode and of the vnode equal. The first that does not changes it. -/
theorem reported_time_is_lastChange (s : OpenFiles) (rs : List Request) :
    (Always OpenFiles.answer Fresh s rs →
      (trace OpenFiles.answer s rs).2.statModified =
        lastChange s.statModified (rs.zip (trace OpenFiles.answer s rs).1)) ∧
    ∀ r, (s.answer r).2.statModified =
        (if changed r.call (s.answer r).1 then r.now else s.statModified) ↔ Fresh s r := by
  refine ⟨?_,statModified_answer s⟩
  induction rs generalizing s with
  | nil =>
    intro _
    rfl
  | cons r rs ih =>
    intro hfresh
    rw [trace_cons,List.zip_cons_cons,lastChange,← (statModified_answer s r).mpr hfresh.1]
    exact ih _ hfresh.2

def writeThenRead : List Request :=
  [⟨true, 5, .open_ (VFS_OPEN_READ ||| VFS_OPEN_WRITE)⟩, ⟨true, 10, .write 0 (some [1])⟩,
    ⟨true, 15, .seek 0 0 .set⟩, ⟨true, 20, .read 0 true 1⟩]

theorem reported_time_after_write :
    (trace OpenFiles.answer newFile (writeThenRead.take 2)).2.statModified =
      lastChange newFile.statModified
        ((writeThenRead.take 2).zip (trace OpenFiles.answer newFile (writeThenRead.take 2)).1) :=
  (reported_time_is_lastChange newFile (writeThenRead.take 2)).1 ⟨trivial,trivial,trivial⟩

/-- The read puts back the time that the file had before the write. -/
theorem read_changes_reported_time :
    (trace OpenFiles.answer newFile writeThenRead).2.statModified = 0 ∧
    lastChange newFile.statModified
      (writeThenRead.zip (trace OpenFiles.answer newFile writeThenRead).1) = 10 := by
  decide +kernel

end Hojicha.Fs
