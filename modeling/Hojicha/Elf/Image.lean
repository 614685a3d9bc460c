import Hojicha.Syscalls.UserMemory

/-!
# Reading an ELF image

`elf_read` and the copy loop of `elf_launch`. A byte that is copied to where nothing is mapped is a
page fault, which ends the process.
-/

namespace Hojicha.Elf

open Framework Syscalls Traced

def PAGE_SIZE : Haddr := 4096
def ELF_MAGIC : Nat := 0x464C457F
def ELF_HEADER_BITS_64 : Nat := 2
def ELF_HEADER_ABI_SYSV : Nat := 0
def ELF_HEADER_ISA_X86_64 : Nat := 0x3E
def ELF_HEADER_TYPE_EXECUTABLE : Nat := 2
def ELF_PROG_HEADER_TYPE_LOAD : Nat := 1
def USER_SPACE_MIN_VADDR : Haddr := 0x100000
def USER_SPACE_MAX_VADDR : Haddr := 0x00007FFFFFFFF000

/-- The fields of `struct elf_header` that the kernel uses. -/
structure ElfHeader where
  magic : Nat
  bits : Nat
  abi : Nat
  type : Nat
  isa : Nat
  offsetEntry : Haddr
  offsetProgHeaderTable : Haddr
  countProgHeaderTableEntry : Nat
deriving DecidableEq

/-- The fields of `struct elf_program_header` that the kernel uses. -/
structure ElfProgramHeader where
  type : Nat
  bufferOffset : Haddr
  loadVaddr : Haddr
  bufferSize : Haddr
  mappedSize : Haddr
deriving DecidableEq

/-- `sizeof(elf_header_t)`, which is packed. -/
def elfHeaderSize : Nat := 64

/-- `sizeof(elf_program_header_t)`, which is packed. -/
def elfProgramHeaderSize : Nat := 56

/-- The little-endian field of `n` bytes at an offset of a copied structure. -/
def field (bytes : List UInt8) (offset n : Nat) : Nat :=
  loadBytes (fun i => bytes.getD i 0) offset n

def field64 (bytes : List UInt8) (offset : Nat) : Haddr := BitVec.ofNat 64 (field bytes offset 8)

def ElfHeader.ofBytes (bytes : List UInt8) : ElfHeader where
  magic := field bytes 0 4
  bits := field bytes 4 1
  abi := field bytes 7 1
  type := field bytes 16 2
  isa := field bytes 18 2
  offsetEntry := field64 bytes 24
  offsetProgHeaderTable := field64 bytes 32
  countProgHeaderTableEntry := field bytes 56 2

def ElfProgramHeader.ofBytes (bytes : List UInt8) : ElfProgramHeader where
  type := field bytes 0 4
  bufferOffset := field64 bytes 8
  loadVaddr := field64 bytes 16
  bufferSize := field64 bytes 32
  mappedSize := field64 bytes 40

def programHeadersOf (bytes : List UInt8) (count : Nat) : List ElfProgramHeader :=
  (List.range count).map fun i =>
    ElfProgramHeader.ofBytes ((bytes.drop (elfProgramHeaderSize * i)).take elfProgramHeaderSize)

def isValidHeader (header : ElfHeader) : Bool :=
  if header.magic ≠ ELF_MAGIC then false
  else if header.type ≠ ELF_HEADER_TYPE_EXECUTABLE then false
  else if header.abi ≠ ELF_HEADER_ABI_SYSV then false
  else if header.bits ≠ ELF_HEADER_BITS_64 then false
  else if header.isa ≠ ELF_HEADER_ISA_X86_64 then false
  else true

structure ElfFile where
  header : ElfHeader
  programHeaders : List ElfProgramHeader
  buffer : Haddr
deriving DecidableEq

/-- Why kernel code does not go on. -/
inductive Stop
  | abort
  | fault
deriving DecidableEq

structure ReadAllocs where
  header : Bool
  programHeaders : Bool
  elf : Bool

def elfRead (allocs : ReadAllocs) (buffer : Haddr) (_size : Haddr) : Kernel Stop (Option ElfFile) :=
  -- A size below `sizeof(elf_header_t)` is logged, and the function goes on.
  if !allocs.header then return none
  else do
    let header := ElfHeader.ofBytes (← readBytes buffer elfHeaderSize)
    if !isValidHeader header then return none
    if !allocs.programHeaders then return none
    let count := header.countProgHeaderTableEntry
    let table ← readBytes (buffer + header.offsetProgHeaderTable) (elfProgramHeaderSize * count)
    if !allocs.elf then return none
    return some { header, programHeaders := programHeadersOf table count, buffer }

def writeByte (mapped : Haddr → Bool) (a : Haddr) (b : UInt8) : Kernel Stop Unit :=
  if mapped a then Traced.change fun m => storeByte m a.toNat b else Traced.stop .fault

/-- `memcpy` within one memory, a byte at a time. -/
def copyBytes (mapped : Haddr → Bool) (dst src : Haddr) : Nat → Kernel Stop Unit
  | 0 => return ()
  | n + 1 => do
    writeByte mapped dst (← readByte src)
    copyBytes mapped (dst + 1) (src + 1) n

def clearBytes (mapped : Haddr → Bool) (dst : Haddr) : Nat → Kernel Stop Unit
  | 0 => return ()
  | n + 1 => do
    writeByte mapped dst 0
    clearBytes mapped (dst + 1) n

def clearTail (mapped : Haddr → Bool) (progHeader : ElfProgramHeader) : Kernel Stop Unit :=
  if progHeader.bufferSize < progHeader.mappedSize then
    clearBytes mapped (progHeader.loadVaddr + progHeader.bufferSize)
      (progHeader.mappedSize - progHeader.bufferSize).toNat
  else return ()

/-- One iteration of the copy loop of `elf_launch`. -/
def loadSegment (mapped : Haddr → Bool) (buffer : Haddr) (highestLoadedAddr : Haddr)
    (progHeader : ElfProgramHeader) : Kernel Stop Haddr :=
  if progHeader.type = ELF_PROG_HEADER_TYPE_LOAD then do
    let segmentEnd := progHeader.loadVaddr + progHeader.mappedSize
    copyBytes mapped progHeader.loadVaddr (buffer + progHeader.bufferOffset)
      progHeader.bufferSize.toNat
    clearTail mapped progHeader
    return if highestLoadedAddr < segmentEnd then segmentEnd else highestLoadedAddr
  else return highestLoadedAddr

def loadSegments (mapped : Haddr → Bool) (buffer : Haddr) :
    Haddr → List ElfProgramHeader → Kernel Stop Haddr
  | highestLoadedAddr, [] => return highestLoadedAddr
  | highestLoadedAddr, progHeader :: progHeaders => do
    let highestLoadedAddr ← loadSegment mapped buffer highestLoadedAddr progHeader
    loadSegments mapped buffer highestLoadedAddr progHeaders

/-- `elf_read` of a file, and the copies of the later launch. -/
def readAndLoad (allocs : ReadAllocs) (mapped : Haddr → Bool) (buffer size : Haddr) :
    Kernel Stop Unit := do
  match ← elfRead allocs buffer size with
  | none => return ()
  | some elf =>
    let _ ← loadSegments mapped elf.buffer USER_SPACE_MIN_VADDR elf.programHeaders
    return ()

section

variable {mapped : Haddr → Bool} {p : Haddr → Prop} {m m' : ByteMemory}

@[simp] theorem within_writeByte (a : Haddr) (b : UInt8) : (writeByte mapped a b).Within p m := by
  unfold writeByte
  split <;> simp

theorem runs_writeByte {a : Haddr} {b : UInt8} {u : Unit} :
    (writeByte mapped a b).Runs m u m' ↔ mapped a=true ∧ m'=storeByte m a.toNat b := by
  unfold writeByte
  split <;> simp_all

def tried (mapped : Haddr → Bool) (dst : Haddr) : Nat → Nat
  | 0 => 0
  | n + 1 => if mapped dst then tried mapped (dst + 1) n + 1 else 1

private theorem within_copyBytes (dst src : Haddr) (n : Nat) :
    (copyBytes mapped dst src n).Within p m ↔
      ∀ i<tried mapped dst n, p (src + BitVec.ofNat 64 i) := by
  induction n generalizing dst src m with
  | zero => simp [copyBytes,tried]
  | succ n ih =>
    have hstep : (copyBytes mapped dst src (n+1)).Within p m ↔
        p src ∧ (mapped dst=true → ∀ i<tried mapped (dst+1) n,
          p (src+1+BitVec.ofNat 64 i)) := by
      simp only [copyBytes,within_bind,within_readByte,runs_readByte,runs_writeByte,
        within_writeByte,true_and,ih]
      simp
    rw [hstep,tried]
    split_ifs with hdst
    · rw [forall_add_succ]
      simp [hdst]
    · rw [forall_add_succ]
      simp [hdst]

@[simp] theorem within_clearBytes (dst : Haddr) (n : Nat) :
    (clearBytes mapped dst n).Within p m := by
  induction n generalizing dst m with
  | zero => simp [clearBytes]
  | succ n ih => simp [clearBytes,within_bind,ih]

private theorem exists_runs_copyBytes (dst src : Haddr) (n : Nat) :
    (∃ u m', (copyBytes mapped dst src n).Runs m u m') ↔
      ∀ i<n, mapped (dst + BitVec.ofNat 64 i)=true := by
  induction n generalizing dst src m with
  | zero => simp [copyBytes]
  | succ n ih =>
    rw [forall_add_succ (p := fun a => mapped a=true),copyBytes]
    simp only [runs_bind,runs_readByte,runs_writeByte]
    constructor
    · rintro ⟨u,m',b,t,-,-,t',⟨hdst,-⟩,hrest⟩
      exact ⟨hdst,(ih _ _).mp ⟨u,m',hrest⟩⟩
    · rintro ⟨hdst,hrest⟩
      obtain ⟨u,m',hruns⟩ := (ih (m := storeByte m dst.toNat (m src.toNat)) _ (src+1)).mpr hrest
      exact ⟨u,m',_,m,⟨rfl,rfl⟩,(),_,⟨hdst,rfl⟩,hruns⟩

private theorem exists_runs_clearBytes (dst : Haddr) (n : Nat) :
    (∃ u m', (clearBytes mapped dst n).Runs m u m') ↔
      ∀ i<n, mapped (dst + BitVec.ofNat 64 i)=true := by
  induction n generalizing dst m with
  | zero => simp [clearBytes]
  | succ n ih =>
    rw [forall_add_succ (p := fun a => mapped a=true),clearBytes]
    simp only [runs_bind,runs_writeByte]
    constructor
    · rintro ⟨u,m',-,t,⟨hdst,-⟩,hrest⟩
      exact ⟨hdst,(ih _).mp ⟨u,m',hrest⟩⟩
    · rintro ⟨hdst,hrest⟩
      obtain ⟨u,m',hruns⟩ := (ih (m := storeByte m dst.toNat 0) _).mpr hrest
      exact ⟨u,m',(),_,⟨hdst,rfl⟩,hruns⟩

/-- Every byte of the segment has a page. -/
structure Writable (mapped : Haddr → Bool) (progHeader : ElfProgramHeader) : Prop where
  copied : ∀ i < progHeader.bufferSize.toNat,
    mapped (progHeader.loadVaddr + BitVec.ofNat 64 i) = true
  cleared : progHeader.bufferSize < progHeader.mappedSize →
    ∀ i < (progHeader.mappedSize - progHeader.bufferSize).toNat,
      mapped (progHeader.loadVaddr + progHeader.bufferSize + BitVec.ofNat 64 i) = true

/-- What the copies of the segments read, up to the first page fault, satisfies `p`. -/
def SegmentsWithin (mapped : Haddr → Bool) (buffer : Haddr) (p : Haddr → Prop) :
    List ElfProgramHeader → Prop
  | [] => True
  | progHeader :: progHeaders =>
    if progHeader.type = ELF_PROG_HEADER_TYPE_LOAD then
      (∀ i < tried mapped progHeader.loadVaddr progHeader.bufferSize.toNat,
          p (buffer + progHeader.bufferOffset + BitVec.ofNat 64 i)) ∧
        (Writable mapped progHeader → SegmentsWithin mapped buffer p progHeaders)
    else SegmentsWithin mapped buffer p progHeaders

variable {buffer highest : Haddr} {progHeader : ElfProgramHeader}

private theorem within_clearTail : (clearTail mapped progHeader).Within p m := by
  unfold clearTail
  split
  · exact within_clearBytes _ _
  · exact within_pure

private theorem within_loadSegment (hload : progHeader.type=ELF_PROG_HEADER_TYPE_LOAD) :
    (loadSegment mapped buffer highest progHeader).Within p m ↔
      ∀ i<tried mapped progHeader.loadVaddr progHeader.bufferSize.toNat,
        p (buffer + progHeader.bufferOffset + BitVec.ofNat 64 i) := by
  rw [loadSegment,if_pos hload,within_bind,within_copyBytes]
  apply and_iff_left
  intro _ t _
  rw [within_bind]
  exact ⟨within_clearTail,fun _ _ _ => within_pure⟩

private theorem exists_runs_clearTail :
    (∃ u m', (clearTail mapped progHeader).Runs m u m') ↔
      (progHeader.bufferSize<progHeader.mappedSize →
        ∀ i<(progHeader.mappedSize - progHeader.bufferSize).toNat,
          mapped (progHeader.loadVaddr + progHeader.bufferSize + BitVec.ofNat 64 i)=true) := by
  unfold clearTail
  by_cases hlt : progHeader.bufferSize<progHeader.mappedSize
  · rw [if_pos hlt,exists_runs_clearBytes]
    simp [hlt]
  · simp [hlt]

private theorem exists_runs_loadSegment (m : ByteMemory) (buffer highest : Haddr)
    (hload : progHeader.type=ELF_PROG_HEADER_TYPE_LOAD) :
    (∃ h m', (loadSegment mapped buffer highest progHeader).Runs m h m') ↔
      Writable mapped progHeader := by
  simp only [loadSegment,if_pos hload,runs_bind]
  constructor
  · rintro ⟨h,m',u,t,hcopy,u',t',hclear,-⟩
    exact ⟨(exists_runs_copyBytes _ _ _).mp ⟨u,t,hcopy⟩,exists_runs_clearTail.mp ⟨u',t',hclear⟩⟩
  · rintro ⟨hcopied,hcleared⟩
    obtain ⟨u,t,hcopy⟩ :=
      (exists_runs_copyBytes (m := m) _ (buffer+progHeader.bufferOffset) _).mpr hcopied
    obtain ⟨u',t',hclear⟩ := (exists_runs_clearTail (m := t)).mpr hcleared
    exact ⟨_,t',u,t,hcopy,u',t',hclear,runs_pure.mpr ⟨rfl,rfl⟩⟩

private theorem within_loadSegments (progHeaders : List ElfProgramHeader) :
    (loadSegments mapped buffer highest progHeaders).Within p m ↔
      SegmentsWithin mapped buffer p progHeaders := by
  induction progHeaders generalizing highest m with
  | nil => simp [loadSegments,SegmentsWithin]
  | cons progHeader progHeaders ih =>
    rw [loadSegments,within_bind,SegmentsWithin]
    by_cases hload : progHeader.type=ELF_PROG_HEADER_TYPE_LOAD
    · rw [if_pos hload,within_loadSegment hload,← exists_runs_loadSegment m buffer highest hload]
      simp only [ih]
      simp only [forall_exists_index]
    · rw [if_neg hload,loadSegment,if_neg hload]
      simp [ih]

def SegmentsWritable (mapped : Haddr → Bool) (progHeaders : List ElfProgramHeader) : Prop :=
  ∀ progHeader ∈ progHeaders, progHeader.type = ELF_PROG_HEADER_TYPE_LOAD →
    Writable mapped progHeader

theorem exists_runs_loadSegments {mapped : Haddr → Bool} (m : ByteMemory) (buffer highest : Haddr)
    (progHeaders : List ElfProgramHeader) :
    (∃ h t, (loadSegments mapped buffer highest progHeaders).Runs m h t) ↔
      SegmentsWritable mapped progHeaders := by
  induction progHeaders generalizing highest m with
  | nil => simp [loadSegments,SegmentsWritable]
  | cons progHeader progHeaders ih =>
    rw [SegmentsWritable,List.forall_mem_cons]
    simp only [loadSegments,runs_bind]
    constructor
    · rintro ⟨h,t,h',t',hsegment,hrest⟩
      exact ⟨fun hload => (exists_runs_loadSegment m buffer highest hload).mp ⟨h',t',hsegment⟩,
        (ih _ _).mp ⟨h,t,hrest⟩⟩
    · rintro ⟨hfirst,hrest⟩
      obtain ⟨h',t',hsegment⟩ : ∃ h' t',
          (loadSegment mapped buffer highest progHeader).Runs m h' t' := by
        by_cases hload : progHeader.type=ELF_PROG_HEADER_TYPE_LOAD
        · exact (exists_runs_loadSegment m buffer highest hload).mpr (hfirst hload)
        · exact ⟨highest,m,by rw [loadSegment,if_neg hload]; exact runs_pure.mpr ⟨rfl,rfl⟩⟩
      obtain ⟨h,t,hloop⟩ := (ih t' h').mpr hrest
      exact ⟨h,t,h',t',hsegment,hloop⟩

end

/-- A file in memory. The memory is one object, so it does not wrap around. -/
structure ImageBuffer where
  buffer : Haddr
  size : Haddr
  fits : buffer.toNat + size.toNat ≤ 2 ^ 64

def ImageBuffer.Holds (image : ImageBuffer) (a : Haddr) : Prop :=
  InRange image.buffer.toNat image.size.toNat a.toNat

instance (image : ImageBuffer) (a : Haddr) : Decidable (image.Holds a) :=
  inferInstanceAs (Decidable (InRange _ _ _))

/-- `n` bytes from an offset on are in the file: with no bytes, wherever the offset is. -/
def ImageBuffer.Fits (image : ImageBuffer) (offset n : Nat) : Prop :=
  n = 0 ∨ offset + n ≤ image.size.toNat

private theorem ImageBuffer.forall_holds (image : ImageBuffer) (offset : Haddr) (n : Nat) :
    (∀ i<n, image.Holds (image.buffer + offset + BitVec.ofNat 64 i)) ↔
      image.Fits offset.toNat n := by
  have hfits := image.fits
  have hbuffer := image.buffer.isLt
  have hsize := image.size.isLt
  have hoffset := offset.isLt
  have htoNat (i : Nat) : (image.buffer+offset+BitVec.ofNat 64 i).toNat =
      (image.buffer.toNat+offset.toNat+i) % 2 ^ 64 := by
    simp [BitVec.toNat_add]
  simp only [Holds,Fits,InRange,htoNat]
  constructor
  · intro h
    by_contra hnot
    rw [not_or,not_le] at hnot
    obtain ⟨hpos,hlong⟩ := hnot
    -- The first byte behind the file, or the first byte of all if even that is behind it.
    have hfirst := h (image.size.toNat-offset.toNat) (by omega)
    omega
  · rintro (rfl | hle) i hi
    · omega
    · rw [Nat.mod_eq_of_lt (by omega)]
      omega

def headerAt (m : ByteMemory) (buffer : Haddr) : ElfHeader :=
  ElfHeader.ofBytes (bytesAt m buffer elfHeaderSize)

def programHeadersAt (m : ByteMemory) (buffer : Haddr) : List ElfProgramHeader :=
  let header := headerAt m buffer
  let count := header.countProgHeaderTableEntry
  programHeadersOf (bytesAt m (buffer + header.offsetProgHeaderTable) (elfProgramHeaderSize * count))
    count

/-- The segments that are copied, up to the first page fault, are in the file. -/
def SegmentsFit (mapped : Haddr → Bool) (image : ImageBuffer) : List ElfProgramHeader → Prop
  | [] => True
  | progHeader :: progHeaders =>
    if progHeader.type = ELF_PROG_HEADER_TYPE_LOAD then
      image.Fits progHeader.bufferOffset.toNat
          (tried mapped progHeader.loadVaddr progHeader.bufferSize.toNat) ∧
        (Writable mapped progHeader → SegmentsFit mapped image progHeaders)
    else SegmentsFit mapped image progHeaders

private theorem segmentsWithin_iff (mapped : Haddr → Bool) (image : ImageBuffer)
    (progHeaders : List ElfProgramHeader) :
    SegmentsWithin mapped image.buffer image.Holds progHeaders ↔
      SegmentsFit mapped image progHeaders := by
  induction progHeaders with
  | nil => rfl
  | cons progHeader progHeaders ih =>
    simp only [SegmentsWithin,SegmentsFit,ImageBuffer.forall_holds,ih]

/-- What has to be in the file, as far as the code gets: the header, then the program header table
if the header is accepted, then the segments. -/
def ImageFits (allocs : ReadAllocs) (mapped : Haddr → Bool) (image : ImageBuffer)
    (m : ByteMemory) : Prop :=
  allocs.header = true →
    elfHeaderSize ≤ image.size.toNat ∧
    (isValidHeader (headerAt m image.buffer) = true → allocs.programHeaders = true →
      image.Fits (headerAt m image.buffer).offsetProgHeaderTable.toNat
          (elfProgramHeaderSize * (headerAt m image.buffer).countProgHeaderTableEntry) ∧
      (allocs.elf = true → SegmentsFit mapped image (programHeadersAt m image.buffer)))

/-- Every byte that `elf_read` and the later launch read from the image is in the file. -/
def ImageReadsInside (allocs : ReadAllocs) (mapped : Haddr → Bool) (image : ImageBuffer)
    (m : ByteMemory) : Prop :=
  (readAndLoad allocs mapped image.buffer image.size).Within image.Holds m

section

variable {allocs : ReadAllocs} {buffer size : Haddr} {p : Haddr → Prop} {m m' : ByteMemory}

private theorem within_elfRead : (elfRead allocs buffer size).Within p m ↔
    (allocs.header=true → (∀ i<elfHeaderSize, p (buffer + BitVec.ofNat 64 i)) ∧
      (isValidHeader (headerAt m buffer)=true → allocs.programHeaders=true →
        ∀ i<elfProgramHeaderSize * (headerAt m buffer).countProgHeaderTableEntry,
          p (buffer + (headerAt m buffer).offsetProgHeaderTable + BitVec.ofNat 64 i))) := by
  unfold elfRead
  cases allocs.header with
  | false => simp
  | true =>
    simp only [Bool.not_true,Bool.false_eq_true,if_false,true_imp_iff]
    rw [(readBytes_runs m buffer elfHeaderSize).within_bind_iff,within_readBytes]
    apply and_congr_right
    intro _
    rw [show ElfHeader.ofBytes _=headerAt m buffer from rfl]
    cases isValidHeader (headerAt m buffer) with
    | false => simp
    | true =>
      cases allocs.programHeaders with
      | false => simp
      | true =>
        simp only [Bool.not_true,Bool.false_eq_true,if_false,true_imp_iff]
        rw [within_bind,within_readBytes]
        apply and_iff_left
        intro _ t _
        split <;> exact within_pure

private theorem runs_elfRead_some {elf : ElfFile} :
    (elfRead allocs buffer size).Runs m (some elf) m' ↔
      allocs.header=true ∧ isValidHeader (headerAt m buffer)=true ∧
      allocs.programHeaders=true ∧ allocs.elf=true ∧
      elf=⟨headerAt m buffer, programHeadersAt m buffer, buffer⟩ ∧ m'=m := by
  unfold elfRead
  cases allocs.header with
  | false => simp
  | true =>
    simp only [Bool.not_true,Bool.false_eq_true,if_false,true_and]
    rw [(readBytes_runs m buffer elfHeaderSize).bind_iff,
      show ElfHeader.ofBytes _=headerAt m buffer from rfl]
    cases isValidHeader (headerAt m buffer) with
    | false => simp
    | true =>
      cases allocs.programHeaders with
      | false => simp
      | true =>
        simp only [Bool.not_true,Bool.false_eq_true,if_false,true_and]
        rw [(readBytes_runs m _ _).bind_iff]
        cases allocs.elf with
        | false => simp
        | true =>
          simp only [Bool.not_true,Bool.false_eq_true,if_false,runs_pure,
            Option.some.injEq,true_and]
          rfl

private theorem within_readAndLoad {mapped : Haddr → Bool} :
    (readAndLoad allocs mapped buffer size).Within p m ↔
      (elfRead allocs buffer size).Within p m ∧
      (allocs.header=true → isValidHeader (headerAt m buffer)=true →
        allocs.programHeaders=true → allocs.elf=true →
          SegmentsWithin mapped buffer p (programHeadersAt m buffer)) := by
  rw [readAndLoad,within_bind]
  apply and_congr_right
  intro _
  constructor
  · intro h hheader hvalid htable helf
    have hload := h (some ⟨headerAt m buffer,programHeadersAt m buffer,buffer⟩) m
      (runs_elfRead_some.mpr ⟨hheader,hvalid,htable,helf,rfl,rfl⟩)
    exact (within_loadSegments _).mp (within_bind.mp hload).1
  · intro h result t hresult
    cases result with
    | none => exact within_pure
    | some elf =>
      obtain ⟨hheader,hvalid,htable,helf,rfl,rfl⟩ := runs_elfRead_some.mp hresult
      dsimp only
      rw [within_bind,within_loadSegments]
      exact ⟨h hheader hvalid htable helf,fun _ _ _ => within_pure⟩

end

/-- A file of 64 bytes: a header that announces one program header behind itself. -/
def bareHeader : List UInt8 :=
  [0x7F, 0x45, 0x4C, 0x46, 2, 1, 1, 0, 0, 0, 0, 0, 0, 0, 0, 0, 2, 0, 0x3E, 0, 1, 0, 0, 0] ++
    List.replicate 8 0 ++ [64, 0, 0, 0, 0, 0, 0, 0] ++ List.replicate 12 0 ++
    [64, 0, 56, 0, 1, 0, 0, 0, 0, 0, 0, 0]

def imageMemory (file : List UInt8) : ByteMemory := fun a => file.getD (a - 4096) 0

end Hojicha.Elf
