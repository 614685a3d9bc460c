import Hojicha.Fs.Ustar

/-! # Progress and bounds of the archive loader -/

namespace Hojicha.Fs

open Framework List

variable {m : Memory} {size room pos entryLen rounds : Nat} {st st' : Loader} {filename : Int}
  {status : Status}

inductive Reaches (m : Memory) (size room : Nat) : Loader → Prop
  | start : room ≠ 0 → Reaches m size room (loadStart room)
  | next {st st' : Loader} : Reaches m size room st → ustarStep m size st = .next st' →
      Reaches m size room st'

def announced (m : Memory) (pos : Nat) : Nat := ustarOct2dec (filesizeBytesOct (headerAt m pos))

private theorem ustarStep_next (h : ustarStep m size st = .next st') :
    ∃ entryLen loaded, getEntryLen m (addressOf st.pos)=some entryLen ∧
      isZeroBlock (headerAt m st.pos)=false ∧
      loadEntry m (addressOf st.pos) (headerAt m st.pos) entryLen st=some (.ok, loaded) ∧
      st' = { loaded with pos := (st.pos + getHeaderSize (headerAt m st.pos)) % 2 ^ 64 } := by
  have hfinish : ∀ st, finishLoad st ≠ .next st' := by
    intro st
    rw [finishLoad]
    cases st.alloc with
    | none => exact LoadStep.noConfusion
    | some r => exact LoadStep.noConfusion
  rw [ustarStep] at h
  dsimp only at h
  split_ifs at h with hend hshort hzero
  · exact absurd h (hfinish st)
  · exact absurd h (hfinish st)
  · cases hlen : getEntryLen m (addressOf st.pos) with
    | none =>
      rw [hlen] at h
      cases h
    | some entryLen =>
      rw [hlen] at h
      dsimp only at h
      cases hload : loadEntry m (addressOf st.pos) (headerAt m st.pos) entryLen st with
      | none =>
        rw [hload] at h
        cases h
      | some r =>
        obtain ⟨status,loaded⟩ := r
        rw [hload] at h
        cases status with
        | ok => exact ⟨entryLen,loaded,rfl,by simpa using hzero,hload,(LoadStep.next.inj h).symm⟩
        | _ => cases h

private theorem next_pos (h : ustarStep m size st = .next st') :
    st'.pos=(st.pos + getHeaderSize (headerAt m st.pos)) % 2 ^ 64 := by
  obtain ⟨entryLen,loaded,_,_,_,heq⟩ := ustarStep_next h
  rw [heq]

private theorem Reaches.pos_lt (h : Reaches m size room st) : st.pos<2 ^ 64 := by
  cases h with
  | start _ => exact Nat.two_pow_pos 64
  | next _ hstep =>
    rw [next_pos hstep]
    exact Nat.mod_lt _ (Nat.two_pow_pos 64)

/-- The size is no value for which the step of the loop wraps to nothing, and the step does not wrap
around the address space. -/
def StepsOn (n pos : Nat) : Prop :=
  ¬(2 ^ 64 - 1023 ≤ n ∧ n ≤ 2 ^ 64 - 512) ∧ pos + ((n + 511) % 2 ^ 64 / 512 + 1) * 512 < 2 ^ 64

private theorem advances_iff {n : Nat} (hn : n<2 ^ 64) (hpos : pos<2 ^ 64) :
    pos<(pos + (((n + 511) % 2 ^ 64 / 512 + 1) * 512) % 2 ^ 64) % 2 ^ 64 ↔ StepsOn n pos := by
  rw [StepsOn]
  omega

private theorem ustarOct2dec_lt (str : List Byte) : ustarOct2dec str<2 ^ 64 := by
  rw [ustarOct2dec]
  induction str.rdropWhile (· == 0) using reverseRecOn with
  | nil => exact Nat.two_pow_pos 64
  | append_singleton l c _ =>
    rw [foldl_append,foldl_cons,foldl_nil]
    omega

private theorem next_advances_iff (h : Reaches m size room st)
    (hstep : ustarStep m size st = .next st') :
    st.pos<st'.pos ↔ StepsOn (announced m st.pos) st.pos := by
  rw [next_pos hstep,getHeaderSize]
  exact advances_iff (ustarOct2dec_lt _) h.pos_lt

/-- A loop that advances ends: the positions are bounded. -/
private theorem runRounds_ends (h : Reaches m size room st)
    (hadvance : ∀ st st', Reaches m size room st → ustarStep m size st = .next st' →
      st.pos<st'.pos) : ∃ rounds, runRounds (ustarStep m size) rounds st≠none := by
  induction hleft : 2 ^ 64-st.pos using Nat.strongRecOn generalizing st with
  | ind left ih =>
    cases hstep : ustarStep m size st with
    | fault =>
      refine ⟨0+1,?_⟩
      rw [runRounds,hstep]
      exact Option.some_ne_none _
    | done status r =>
      refine ⟨0+1,?_⟩
      rw [runRounds,hstep]
      exact Option.some_ne_none _
    | next st' =>
      have hlt := hadvance st st' h hstep
      have hbound := h.pos_lt
      have hsmaller : 2 ^ 64-st'.pos<left := by omega
      obtain ⟨rounds,hrounds⟩ := ih _ hsmaller (Reaches.next h hstep) rfl
      refine ⟨rounds+1,?_⟩
      rw [runRounds,hstep]
      exact hrounds

/-- `load_ustar` ends, and every round advances, if and only if every header that it gets past
announces a size for which the position steps on. -/
theorem load_ustar_advances_iff (m : Memory) (size room : Nat) :
    ((∃ rounds, loadUstar m size room rounds ≠ none) ∧
        ∀ st st', Reaches m size room st → ustarStep m size st = .next st' → st.pos < st'.pos) ↔
      ∀ st st', Reaches m size room st → ustarStep m size st = .next st' →
        StepsOn (announced m st.pos) st.pos := by
  constructor
  · intro h st st' hreach hstep
    exact (next_advances_iff hreach hstep).mp (h.2 st st' hreach hstep)
  · intro h
    have hadvance : ∀ st st', Reaches m size room st → ustarStep m size st = .next st' →
        st.pos<st'.pos := fun st st' hreach hstep =>
      (next_advances_iff hreach hstep).mpr (h st st' hreach hstep)
    refine ⟨?_,hadvance⟩
    by_cases hroom : room=0
    · refine ⟨0,?_⟩
      rw [loadUstar,if_pos hroom]
      exact Option.some_ne_none _
    · obtain ⟨rounds,hrounds⟩ := runRounds_ends (Reaches.start hroom) hadvance
      refine ⟨rounds,?_⟩
      rw [loadUstar,if_neg hroom]
      exact hrounds

def sampleHeader (sizeField : List Byte) (type : Byte) : List Byte :=
  [dot, slash, 0x61] ++ List.replicate 121 0 ++ sizeField ++
    List.replicate (32 - sizeField.length) 0 ++ [type] ++ List.replicate 355 0

def stuckArchive : Memory := ⟨[], sampleHeader [0xE0, 0x30] 0x78⟩

def NeverEnds (m : Memory) (size room : Nat) : Prop := ∀ rounds, loadUstar m size room rounds = none

theorem load_ustar_stuck : NeverEnds stuckArchive 512 2 := by
  intro rounds
  have hlen : getEntryLen stuckArchive (addressOf 0)=some 3 := by decide +kernel
  have hlong : ¬(headerAt stuckArchive 0).length<HOJICHA_USTAR_HEADER_LEN_BYTES := by
    decide +kernel
  have hzero : ¬isZeroBlock (headerAt stuckArchive 0)=true := by decide +kernel
  have hentry : loadEntry stuckArchive (addressOf 0) (headerAt stuckArchive 0) 3 (loadStart 2) =
      some (.ok, loadStart 2) := by
    rw [loadEntry,if_neg (by decide +kernel),if_neg (by decide +kernel),
      if_neg (by decide +kernel),if_neg (by decide +kernel)]
  have hstay : (0+getHeaderSize (headerAt stuckArchive 0)) % 2 ^ 64=0 := by decide +kernel
  have hpos : (loadStart 2).pos=0 := rfl
  have hstep : ustarStep stuckArchive 512 (loadStart 2) = .next (loadStart 2) := by
    rw [ustarStep,hpos,if_neg (by decide)]
    simp only [if_neg hlong,if_neg hzero,hlen,hentry,hstay]
    rfl
  rw [loadUstar,if_neg (by decide)]
  induction rounds with
  | zero => rfl
  | succ rounds ih =>
    rw [runRounds,hstep]
    exact ih

private theorem alloc_files {n : Addr} (h : st.alloc=some (n, st')) : st'.files=st.files := by
  rw [Loader.alloc] at h
  split_ifs at h
  cases h
  rfl

private theorem createPrefix_files {dir : Addr} {cs : List Name} {r : Option Addr}
    (h : createPrefix st dir cs=some (r, st')) : st'.files=st.files := by
  induction cs generalizing st dir with
  | nil =>
    cases h
    rfl
  | cons c cs ih =>
    rw [createPrefix] at h
    cases hfind : findChild st.vfs dir c with
    | none =>
      rw [hfind] at h
      dsimp only at h
      cases halloc : st.alloc with
      | none =>
        rw [halloc] at h
        cases h
      | some a =>
        obtain ⟨n,st₁⟩ := a
        rw [halloc] at h
        have hfiles : st₁.files=st.files := alloc_files halloc
        exact (ih h).trans hfiles
    | some next =>
      rw [hfind] at h
      dsimp only at h
      split_ifs at h
      · cases h
        rfl
      · exact ih h

private theorem entryParent_files {nameOffset : Int} {r : Option Addr}
    (h : entryParent m filename nameOffset st=some (r, st')) : st'.files=st.files := by
  rw [entryParent] at h
  split_ifs at h
  · cases h
    rfl
  · rw [getOrCreatePrefix] at h
    cases hlookup : dirLookup st.vfs rootInode (prefixPath m filename nameOffset).comps with
    | some dir =>
      rw [hlookup] at h
      dsimp only at h
      split_ifs at h
      cases h
      rfl
    | none =>
      rw [hlookup] at h
      dsimp only at h
      cases hcreate : createPrefix st rootInode (prefixPath m filename nameOffset).comps with
      | none =>
        rw [hcreate] at h
        cases h
      | some created =>
        obtain ⟨found,st₁⟩ := created
        rw [hcreate] at h
        cases found with
        | none =>
          cases h
          exact createPrefix_files hcreate
        | some dir =>
          dsimp only at h
          split_ifs at h
          cases h
          exact createPrefix_files hcreate

private theorem loadFile_files {header : List Byte}
    (h : loadFile m filename header entryLen st=some (.ok, st')) :
    ∃ nameOffset n, getNameStartIdx m filename entryLen=some nameOffset ∧
      st'.files=st.files++[⟨n, filename + HOJICHA_USTAR_HEADER_LEN_BYTES,
        ustarOct2dec (filesizeBytesOct header), filename + nameOffset, entryLen - nameOffset⟩] := by
  rw [loadFile] at h
  cases hname : getNameStartIdx m filename entryLen with
  | none =>
    rw [hname] at h
    cases h
  | some nameOffset =>
    rw [hname] at h
    dsimp only at h
    cases halloc : st.alloc with
    | none =>
      rw [halloc] at h
      cases h
    | some a =>
      obtain ⟨n,st₁⟩ := a
      rw [halloc] at h
      dsimp only at h
      cases hparent : entryParent m filename nameOffset st₁ with
      | none =>
        rw [hparent] at h
        cases h
      | some found =>
        obtain ⟨parent,st₂⟩ := found
        rw [hparent] at h
        cases parent with
        | none => cases h
        | some parent =>
          have heq : st'=_ := ((Prod.mk.inj (Option.some.inj h)).2).symm
          refine ⟨nameOffset,n,rfl,?_⟩
          rw [heq]
          change st₂.files++_=_
          rw [entryParent_files hparent,alloc_files halloc]

private theorem loadSymlink_files
    (h : loadSymlink m filename entryLen st=some (status, st')) : st'.files=st.files := by
  rw [loadSymlink.eq_def] at h
  cases hname : getNameStartIdx m filename entryLen with
  | none =>
    rw [hname] at h
    cases h
  | some nameOffset =>
    cases htarget : getEntryLen m (linkedFilename filename) with
    | none =>
      rw [hname,htarget] at h
      cases h
    | some targetLen =>
      rw [hname,htarget] at h
      dsimp only at h
      cases hparent : entryParent m filename nameOffset st with
      | none =>
        rw [hparent] at h
        cases h
      | some found =>
        obtain ⟨parent,st₁⟩ := found
        rw [hparent] at h
        have hfiles := entryParent_files hparent
        cases parent with
        | none =>
          cases h
          exact hfiles
        | some parent =>
          dsimp only at h
          split at h
          · cases h
            exact hfiles
          · cases h
            exact hfiles

private theorem loadDir_files
    (h : loadDir m filename entryLen st=some (status, st')) : st'.files=st.files := by
  rw [loadDir] at h
  dsimp only at h
  generalize (if ((m.up filename).take entryLen).getLast? = some slash then entryLen-1
    else entryLen)=len at h
  split_ifs at h
  · cases h
    rfl
  cases hname : getNameStartIdx m filename len with
  | none =>
    rw [hname] at h
    cases h
  | some nameOffset =>
    rw [hname] at h
    dsimp only at h
    cases hparent : entryParent m filename nameOffset st with
    | none =>
      rw [hparent] at h
      cases h
    | some found =>
      obtain ⟨parent,st₁⟩ := found
      rw [hparent] at h
      have hfiles := entryParent_files hparent
      cases parent with
      | none =>
        cases h
        exact hfiles
      | some parent =>
        dsimp only at h
        split_ifs at h
        · cases h
          exact hfiles
        · cases halloc : st₁.alloc with
          | none =>
            rw [halloc] at h
            cases h
            exact hfiles
          | some a =>
            obtain ⟨n,st₂⟩ := a
            rw [halloc] at h
            cases h
            exact (alloc_files halloc).trans hfiles

def IsFileEntry (m : Memory) (pos entryLen : Nat) : Prop :=
  ¬(entryLen = 2 ∧ (m.up (addressOf pos)).take 2 = [dot, slash]) ∧
    (headerType (headerAt m pos) = USTAR_TYPE_REGULAR_FILE ∨
      headerType (headerAt m pos) = USTAR_TYPE_REGULAR_FILE_ALT)

/-- The size that a file announces fits behind its header, and its name, from behind the last slash
to the end of the string, is in the buffer. -/
def FileFits (m : Memory) (size pos : Nat) : Prop :=
  ∀ entryLen nameOffset, getEntryLen m (addressOf pos) = some entryLen →
    IsFileEntry m pos entryLen → getNameStartIdx m (addressOf pos) entryLen = some nameOffset →
    0 ≤ addressOf pos + HOJICHA_USTAR_HEADER_LEN_BYTES ∧
      addressOf pos + HOJICHA_USTAR_HEADER_LEN_BYTES + announced m pos ≤ size ∧
      0 ≤ addressOf pos + nameOffset ∧ addressOf pos + entryLen ≤ size

/-- Every file that the loop gets past fits. -/
def ArchiveFits (m : Memory) (size room : Nat) : Prop :=
  ∀ st st', Reaches m size room st → ustarStep m size st = .next st' → FileFits m size st.pos

def FileExtent.Inside (size : Nat) (f : FileExtent) : Prop :=
  0 ≤ f.buf ∧ f.buf + f.len ≤ size ∧ 0 ≤ f.name ∧ f.name + f.nameSize ≤ size

instance (size : Nat) (f : FileExtent) : Decidable (f.Inside size) :=
  inferInstanceAs (Decidable (_ ∧ _))

private theorem next_files (h : ustarStep m size st = .next st') :
    ∃ added, st'.files=st.files++added ∧
      ((∀ f∈added, f.Inside size) ↔ FileFits m size st.pos) := by
  obtain ⟨entryLen,loaded,hlen,_,hload,heq⟩ := ustarStep_next h
  have hfiles : st'.files=loaded.files := by rw [heq]
  rw [hfiles]
  by_cases hfile : IsFileEntry m st.pos entryLen
  · rw [loadEntry,if_neg hfile.1,if_pos hfile.2] at hload
    obtain ⟨nameOffset,n,hname,hadded⟩ := loadFile_files hload
    refine ⟨_,hadded,?_⟩
    constructor
    · intro hinside e off he _ hoff
      have hf := hinside _ (mem_singleton_self _)
      rw [hlen] at he
      rw [Option.some.inj he] at hname hf
      rw [hoff] at hname
      rw [Option.some.inj hname]
      have hend := hf.2.2.2
      dsimp only at hend
      refine ⟨hf.1,hf.2.1,hf.2.2.1,?_⟩
      omega
    · intro hfits f hf
      have hbounds := hfits entryLen nameOffset hlen hfile hname
      rw [mem_singleton.mp hf]
      refine ⟨hbounds.1,hbounds.2.1,hbounds.2.2.1,?_⟩
      dsimp only
      omega
  · refine ⟨[],?_,?_⟩
    · rw [append_nil]
      rw [loadEntry] at hload
      split_ifs at hload with hroot htype hlink hdir
      · cases hload
        rfl
      · exact absurd ⟨hroot,htype⟩ hfile
      · exact loadSymlink_files hload
      · exact loadDir_files hload
      · cases hload
        rfl
    · constructor
      · intro _ e off he hentry _
        rw [hlen] at he
        rw [Option.some.inj he] at hfile
        exact absurd hentry hfile
      · intro _ f hf
        cases hf

private theorem finishLoad_files (h : finishLoad st = .done status st') :
    st'.files=st.files := by
  rw [finishLoad] at h
  cases halloc : st.alloc with
  | none =>
    rw [halloc] at h
    cases h
    rfl
  | some a =>
    obtain ⟨n,st₁⟩ := a
    rw [halloc] at h
    cases h
    exact alloc_files halloc

private theorem done_files (h : ustarStep m size st = .done .ok st') : st'.files=st.files := by
  rw [ustarStep] at h
  dsimp only at h
  split_ifs at h
  · exact finishLoad_files h
  · exact finishLoad_files h
  · cases hlen : getEntryLen m (addressOf st.pos) with
    | none =>
      rw [hlen] at h
      cases h
    | some entryLen =>
      rw [hlen] at h
      dsimp only at h
      split at h
      · cases h
      · cases h
      · rename_i hne _
        cases h
        exact (hne rfl).elim

/-- From every round of a loop that returns, the rest of the loop returns the same. -/
private theorem Reaches.rest {r : LoadResult} (h : Reaches m size room st)
    (hrun : runRounds (ustarStep m size) rounds (loadStart room)=some r) :
    ∃ k, runRounds (ustarStep m size) k st=some r := by
  induction h with
  | start _ => exact ⟨rounds,hrun⟩
  | next _ hstep ih =>
    obtain ⟨k,hk⟩ := ih
    cases k with
    | zero => cases hk
    | succ k =>
      rw [runRounds,hstep] at hk
      exact ⟨k,hk⟩

private theorem runRounds_files {fin : Loader}
    (h : runRounds (ustarStep m size) rounds st=some (.returned .ok fin)) :
    ∀ f∈st.files, f∈fin.files := by
  induction rounds generalizing st with
  | zero => cases h
  | succ rounds ih =>
    rw [runRounds] at h
    cases hstep : ustarStep m size st with
    | fault =>
      rw [hstep] at h
      cases h
    | done status r =>
      rw [hstep] at h
      cases h
      rw [done_files hstep]
      exact fun f hf => hf
    | next st' =>
      rw [hstep] at h
      intro f hf
      obtain ⟨added,hadded,_⟩ := next_files hstep
      apply ih h
      rw [hadded]
      exact mem_append_left _ hf

private theorem runRounds_inside {fin : Loader} (hreach : Reaches m size room st)
    (hfits : ArchiveFits m size room) (hst : ∀ f∈st.files, f.Inside size)
    (h : runRounds (ustarStep m size) rounds st=some (.returned .ok fin)) :
    ∀ f∈fin.files, f.Inside size := by
  induction rounds generalizing st with
  | zero => cases h
  | succ rounds ih =>
    rw [runRounds] at h
    cases hstep : ustarStep m size st with
    | fault =>
      rw [hstep] at h
      cases h
    | done status r =>
      rw [hstep] at h
      cases h
      rw [done_files hstep]
      exact hst
    | next st' =>
      rw [hstep] at h
      obtain ⟨added,hadded,hinside⟩ := next_files hstep
      apply ih (Reaches.next hreach hstep) _ h
      rw [hadded]
      intro f hf
      rcases mem_append.mp hf with hold | hnew
      · exact hst f hold
      · exact hinside.mpr (hfits st st' hreach hstep) f hnew

/-- After a successful load, the contents and the names of all files lie in the buffer if and only
if every file of the archive fits. -/
theorem load_ustar_inside_iff (m : Memory) (size room rounds : Nat) (fin : Loader)
    (h : loadUstar m size room rounds = some (.returned .ok fin)) :
    (∀ f ∈ fin.files, f.Inside size) ↔ ArchiveFits m size room := by
  rw [loadUstar] at h
  split_ifs at h with hroom
  · cases h
  constructor
  · intro hinside st st' hreach hstep
    obtain ⟨k,hk⟩ := hreach.rest h
    cases k with
    | zero => cases hk
    | succ k =>
      rw [runRounds,hstep] at hk
      obtain ⟨added,hadded,hiff⟩ := next_files hstep
      apply hiff.mp
      intro f hf
      apply hinside f
      apply runRounds_files hk
      rw [hadded]
      exact mem_append_right _ hf
  · intro hfits
    exact runRounds_inside (Reaches.start hroom) hfits (fun f hf => by cases hf) h

def loadedFiles : Option LoadResult → Option (Status × List FileExtent)
  | some (.returned status st) => some (status, st.files)
  | _ => none

private theorem loadedFiles_some {r : Option LoadResult} {files : List FileExtent}
    (h : loadedFiles r=some (status, files)) :
    ∃ st, r=some (.returned status st) ∧ st.files=files := by
  cases r with
  | none => cases h
  | some r =>
    cases r with
    | fault => cases h
    | returned status' st =>
      cases h
      exact ⟨st,rfl,rfl⟩

def fileArchive : Memory := ⟨[], sampleHeader [0x31] 0x30 ++ List.replicate 512 0x61⟩

theorem load_ustar_inside_fileArchive : ArchiveFits fileArchive 1024 3 := by
  have hload : loadedFiles (loadUstar fileArchive 1024 3 2)=some (.ok, [⟨1,512,1,2,1⟩]) := by
    decide +kernel
  obtain ⟨fin,hfin,hfiles⟩ := loadedFiles_some hload
  apply (load_ustar_inside_iff fileArchive 1024 3 2 fin hfin).mp
  rw [hfiles]
  decide

def cutArchive : Memory := ⟨[], sampleHeader [0x37] 0x30⟩

theorem load_ustar_outside :
    ∃ fin f, loadUstar cutArchive 512 3 2 = some (.returned .ok fin) ∧ f ∈ fin.files ∧
      ¬f.Inside 512 := by
  have hload : loadedFiles (loadUstar cutArchive 512 3 2)=some (.ok, [⟨1,512,7,2,1⟩]) := by
    decide +kernel
  obtain ⟨fin,hfin,hfiles⟩ := loadedFiles_some hload
  refine ⟨fin,⟨1,512,7,2,1⟩,hfin,?_,by decide⟩
  rw [hfiles]
  exact mem_singleton_self _

end Hojicha.Fs
