import Hojicha.Elf.Stack
import Hojicha.Pmm.Model

/-!
# Starting a program

`syscall_execve`, with `copy_string_array`, up to the entry of the new program in `elf_launch`.
Whether the strings fit on the stack is checked when the old address space is gone.
-/

namespace Hojicha.Elf

open Framework Syscalls List Traced

def STACK_SIZE : Haddr := 16384
def EXECVE_ARG_MAX : Nat := 256

/-- What `elf_launch` finds: whether the process has an address space, the pages that are mapped
after `elf_map` and after the stack is mapped, and the allocations. -/
structure LaunchEnv where
  hasVmm : Bool
  segments : Haddr → Bool
  pages : Haddr → Bool
  allocs : StackAllocs

structure Launched where
  brkStart : Haddr
  stackStart : Haddr
  rsp : Haddr
  rip : Haddr

def userStackSize : Haddr := (STACK_SIZE + PAGE_SIZE - 1) / PAGE_SIZE

def userStackLocation : Haddr := USER_SPACE_MAX_VADDR - Pmm.pmmPageToAddrBase userStackSize

def userStackTop : Haddr := userStackLocation + Pmm.pmmPageToAddrBase userStackSize

def initialBrk (highestLoadedAddr : Haddr) : Haddr := alignUp highestLoadedAddr PAGE_SIZE + PAGE_SIZE

def elfLaunch (env : LaunchEnv) (elf : ElfFile) (argc : Haddr)
    (argv : Option (Nat → Option CString)) (envp : StringArray) : Kernel Stop Launched :=
  if !env.hasVmm then Traced.stop .abort
  else do
    let highestLoadedAddr ←
      loadSegments env.segments elf.buffer USER_SPACE_MIN_VADDR elf.programHeaders
    if userStackLocation ≤ initialBrk highestLoadedAddr then Traced.stop .abort
    else do
      let rsp ← prepareUserStack env.allocs env.pages userStackLocation userStackTop argc argv envp
      return ⟨initialBrk highestLoadedAddr, userStackLocation, rsp, elf.header.offsetEntry⟩

/-- Why `execve` refuses. Each is returned while the caller still has its old image. -/
inductive Refusal
  | einval
  | enomem
  /-- The file cannot be opened or read. -/
  | file
deriving DecidableEq

structure CopyAllocs where
  array : Bool
  strings : Nat → Bool

def CString.ofBuffer (buffer : List UInt8) : CString where
  bytes := buffer.takeWhile fun b => b != 0
  nul_free := by
    intro h
    have hne := all_eq_true.mp (all_takeWhile (p := fun b => b != 0)) 0 h
    simp at hne

def readWord {ε : Type} (a : Haddr) : Kernel ε Haddr := do
  let bytes ← readBytes a 8
  return field64 bytes 0

def userSlot (userStrings : Haddr) (i : Nat) : Haddr := userStrings + BitVec.ofNat 64 (8 * i)

/-- The loop that counts the strings from the `i`-th on; `none` is `-EINVAL`. -/
def countStrings (userStrings : Haddr) : Nat → Nat → Kernel Stop (Option Nat)
  | 0, _ => return none
  | left + 1, i =>
    if !syscallIsUaddr (userSlot userStrings i) 8 then return none
    else do
      if (← readWord (userSlot userStrings i)) = NULL then return some i
      countStrings userStrings left (i + 1)

/-- The loop that copies the strings from the `i`-th on. -/
def copyStrings (calloc : Nat → Bool) (userStrings : Haddr) :
    Nat → Nat → Kernel Stop (Except Refusal (List CString))
  | 0, _ => return .ok []
  | left + 1, i => do
    let src ← readWord (userSlot userStrings i)
    if !syscallIsUaddr src SYSCALL_USER_STRING_MAX then return .error .einval
    match ← syscallUtokStrcpy (calloc i) src SYSCALL_USER_STRING_MAX with
    | none => return .error .enomem
    | some buffer =>
      match ← copyStrings calloc userStrings left (i + 1) with
      | .error e => return .error e
      | .ok strings => return .ok (CString.ofBuffer buffer :: strings)

def copyStringArray (allocs : CopyAllocs) (userStrings : Haddr) :
    Kernel Stop (Except Refusal (List CString)) :=
  if userStrings = NULL then return if allocs.array then .ok [] else .error .enomem
  else do
    match ← countStrings userStrings EXECVE_ARG_MAX 0 with
    | none => return .error .einval
    | some count =>
      if !allocs.array then return .error .enomem
      copyStrings allocs.strings userStrings count 0

/-- What `syscall_execve` meets besides its arguments: the allocations, and the buffer with the
contents of the file. -/
structure ExecveEnv where
  path : Bool
  argv : CopyAllocs
  envp : CopyAllocs
  file : Option (Haddr × Haddr)
  read : ReadAllocs
  /-- `execve_proc` finds the descriptors and the memory of the process. -/
  process : Bool
  /-- The logger, the address space and the name of the new program. -/
  fresh : Bool
  launch : LaunchEnv

/-- What is read of the file and checked before the old image is given up. -/
def readProgram (env : ExecveEnv) : Kernel Stop (Except Refusal ElfFile) :=
  match env.file with
  | none => return .error .file
  | some (buffer, size) => do
    match ← elfRead env.read buffer size with
    | none => return .error .einval
    | some elf =>
      if !env.process then return .error .einval
      if !env.fresh then return .error .enomem
      return .ok elf

def execvePrelude (env : ExecveEnv) (pathname argv envp : Haddr) :
    Kernel Stop (Except Refusal (ElfFile × List CString × List CString)) :=
  if pathname = NULL then return .error .einval
  else if !syscallIsUaddr pathname SYSCALL_USER_STRING_MAX then return .error .einval
  else do
    match ← syscallUtokStrcpy env.path pathname SYSCALL_USER_STRING_MAX with
    | none => return .error .enomem
    | some _ =>
      match ← copyStringArray env.argv argv with
      | .error e => return .error e
      | .ok args =>
        match ← copyStringArray env.envp envp with
        | .error e => return .error e
        | .ok envs =>
          match ← readProgram env with
          | .error e => return .error e
          | .ok elf => return .ok (elf, args, envs)

def syscallExecve (env : ExecveEnv) (pathname argv envp : Haddr) :
    Kernel Stop (Except Refusal Launched) := do
  match ← execvePrelude env pathname argv envp with
  | .error e => return .error e
  | .ok (elf, args, envs) =>
    let launched ← elfLaunch env.launch elf (BitVec.ofNat 64 args.length)
      (some fun i => args[i]?) (some envs)
    return .ok launched

section

variable {mapped : Haddr → Bool} {m m' : ByteMemory} {bottom top : Haddr}

private theorem writeByte_not_aborts (a : Haddr) (b : UInt8) :
    ¬ (writeByte mapped a b).Stops m .abort := by
  unfold writeByte
  split <;> simp

private theorem writeBytes_not_aborts (dst : Haddr) (bytes : List UInt8) :
    ¬ (writeBytes mapped dst bytes).Stops m .abort := by
  induction bytes generalizing dst m with
  | nil => simp [writeBytes]
  | cons b bytes ih => simp [writeBytes,stops_bind,writeByte_not_aborts,ih]

private theorem copyBytes_not_aborts (dst src : Haddr) (n : Nat) :
    ¬ (copyBytes mapped dst src n).Stops m .abort := by
  induction n generalizing dst src m with
  | zero => simp [copyBytes]
  | succ n ih => simp [copyBytes,stops_bind,writeByte_not_aborts,ih]

private theorem clearBytes_not_aborts (dst : Haddr) (n : Nat) :
    ¬ (clearBytes mapped dst n).Stops m .abort := by
  induction n generalizing dst m with
  | zero => simp [clearBytes]
  | succ n ih => simp [clearBytes,stops_bind,writeByte_not_aborts,ih]

private theorem writeSlots_not_aborts (stack : Haddr) (slots : List Haddr) :
    ¬ (writeSlots mapped stack slots).Stops m .abort := by
  have hword (a v : Haddr) (m : ByteMemory) : ¬ (writeWord mapped a v).Stops m .abort := by
    unfold writeWord
    split <;> simp
  induction slots generalizing stack m with
  | nil => simp [writeSlots]
  | cons v slots ih => simp [writeSlots,stops_bind,hword,ih]

def StackMapped (mapped : Haddr → Bool) (low high : Nat) : Prop :=
  ∀ a : Haddr, low ≤ a.toNat → a.toNat < high → mapped a = true

private theorem StackMapped.mono {low low' high : Nat} (h : StackMapped mapped low high)
    (hle : low≤low') : StackMapped mapped low' high :=
  fun a hlow hhigh => h a (by omega) hhigh

private theorem StackMapped.join {low mid high : Nat} (h : StackMapped mapped low mid)
    (h' : StackMapped mapped mid high) : StackMapped mapped low high := by
  intro a hlow hhigh
  by_cases hmid : a.toNat < mid
  · exact h a hlow hmid
  · exact h' a (by omega) hhigh

private theorem exists_runs_writeBytes (dst : Haddr) (bytes : List UInt8)
    (hfit : dst.toNat + bytes.length<2 ^ 64) :
    (∃ u m', (writeBytes mapped dst bytes).Runs m u m') ↔
      StackMapped mapped dst.toNat (dst.toNat + bytes.length) := by
  induction bytes generalizing dst m with
  | nil =>
    simp only [writeBytes,runs_pure,length_nil]
    refine ⟨fun _ a hlow hhigh => by omega,fun _ => ⟨(),m,trivial,rfl⟩⟩
  | cons b bytes ih =>
    rw [length_cons] at hfit ⊢
    have hnext : (dst+1).toNat=dst.toNat+1 := toNat_add_one (by omega)
    simp only [writeBytes,runs_bind,runs_writeByte]
    constructor
    · rintro ⟨u,m',-,t,⟨hdst,-⟩,hrest⟩
      have htail := (ih (dst+1) (by omega)).mp ⟨u,m',hrest⟩
      intro a hlow hhigh
      by_cases heq : a=dst
      · rwa [heq]
      · exact htail a (by bv_omega) (by omega)
    · intro h
      have htail : StackMapped mapped (dst+1).toNat ((dst+1).toNat+bytes.length) :=
        fun a hlow hhigh => h a (by omega) (by omega)
      obtain ⟨u,m',hrest⟩ := (ih (m := storeByte m dst.toNat b) (dst+1) (by omega)).mpr htail
      exact ⟨u,m',(),_,⟨h dst le_rfl (by omega),rfl⟩,hrest⟩

private theorem pushString_aborts (s : CString) :
    (pushString mapped bottom top s).Stops m .abort ↔ (top - bottom).toNat<s.size := by
  unfold pushString
  dsimp only
  split
  · rename_i hshort
    exact iff_of_true (stops_stop.mpr rfl) hshort
  · rename_i hroom
    apply iff_of_false _ hroom
    simp [stops_bind,writeBytes_not_aborts]

private theorem exists_runs_stored (s : CString) (hle : bottom≤top)
    (hroom : s.size≤(top - bottom).toNat) :
    (∃ u t, (writeBytes mapped (top - BitVec.ofNat 64 s.size) s.stored).Runs m u t) ↔
      StackMapped mapped (top.toNat - s.size) top.toNat := by
  have hlt := (top-bottom).isLt
  have hsize : (BitVec.ofNat 64 s.size).toNat=s.size := by
    rw [BitVec.toNat_ofNat]
    omega
  have hdst : (top-BitVec.ofNat 64 s.size).toNat=top.toNat-s.size := by bv_omega
  have hsum : top.toNat-s.size+s.size=top.toNat := by bv_omega
  rw [exists_runs_writeBytes,s.stored_length,hdst,hsum]
  rw [s.stored_length,hdst,hsum]
  exact top.isLt

private theorem exists_runs_pushString (s : CString) (m : ByteMemory) (hle : bottom≤top)
    (hroom : s.size≤(top - bottom).toNat)
    (hmapped : StackMapped mapped (top.toNat - s.size) top.toNat) :
    ∃ a t, (pushString mapped bottom top s).Runs m a t := by
  obtain ⟨u,t,hbytes⟩ := (exists_runs_stored (m := m) s hle hroom).mpr hmapped
  refine ⟨top-BitVec.ofNat 64 s.size,t,?_⟩
  unfold pushString
  dsimp only
  rw [if_neg (by omega)]
  exact runs_bind.mpr ⟨u,t,hbytes,runs_pure.mpr ⟨rfl,rfl⟩⟩

private theorem pushString_pushed {s : CString} {a : Haddr} (hle : bottom≤top)
    (h : (pushString mapped bottom top s).Runs m a m') :
    bottom≤a ∧ a.toNat + s.size=top.toNat ∧
      (a - bottom).toNat + s.size=(top - bottom).toNat ∧
      StackMapped mapped a.toNat top.toNat := by
  obtain ⟨hbottom,hend,-,-⟩ := pushString_spec hle h
  have hleft : (a-bottom).toNat+s.size=(top-bottom).toNat := by bv_omega
  refine ⟨hbottom,hend,hleft,?_⟩
  unfold pushString at h
  dsimp only at h
  rw [if_neg (by omega)] at h
  obtain ⟨u,t,hbytes,-⟩ := runs_bind.mp h
  have hmapped := (exists_runs_stored s hle (by omega)).mp ⟨u,t,hbytes⟩
  exact hmapped.mono (by omega)

def totalSize (strings : List CString) : Nat := (strings.map CString.size).sum

@[simp] theorem totalSize_nil : totalSize []=0 := rfl

@[simp] theorem totalSize_cons (s : CString) (strings : List CString) :
    totalSize (s::strings)=s.size + totalSize strings := by
  simp [totalSize]

private theorem Placed.totalSize {top last : Nat} {strings : List CString} {ptrs : List Haddr}
    (h : Placed m top strings ptrs last) : last + totalSize strings=top := by
  induction h with
  | nil => simp
  | cons hend _ _ ih =>
    rw [totalSize_cons]
    omega

private theorem pushStrings_aborts (strings : List CString) (hle : bottom≤top) :
    (pushStrings mapped bottom top (strings.map some)).Stops m .abort ↔
      ∃ k<strings.length, StackMapped mapped (top.toNat - totalSize (strings.take k)) top.toNat ∧
        (top - bottom).toNat<totalSize (strings.take (k + 1)) := by
  induction strings generalizing top m with
  | nil => simp [pushStrings]
  | cons s strings ih =>
    rw [map_cons,pushStrings,stops_bind,pushString_aborts]
    constructor
    · rintro (hshort | ⟨a,t,hpush,hrest⟩)
      · refine ⟨0,by simp,fun a hlow hhigh => ?_,?_⟩
        · rw [take_zero,totalSize_nil] at hlow
          omega
        · rw [take_succ_cons,totalSize_cons]
          omega
      · obtain ⟨hbottom,hend,hleft,hmapped⟩ := pushString_pushed hle hpush
        rw [stops_bind] at hrest
        obtain ⟨k,hk,hwritten,hlong⟩ := (ih hbottom).mp (hrest.resolve_right (by simp))
        refine ⟨k+1,by simpa using hk,?_,?_⟩
        · rw [take_succ_cons,totalSize_cons,show top.toNat-(s.size+totalSize (strings.take k)) =
              a.toNat-totalSize (strings.take k) by omega]
          exact hwritten.join hmapped
        · rw [take_succ_cons,totalSize_cons]
          omega
    · rintro ⟨k,hk,hwritten,hlong⟩
      by_cases hshort : (top-bottom).toNat<s.size
      · exact .inl hshort
      · cases k with
        | zero =>
          rw [take_succ_cons,totalSize_cons,take_zero,totalSize_nil] at hlong
          omega
        | succ k =>
          rw [take_succ_cons,totalSize_cons] at hwritten hlong
          obtain ⟨a,t,hpush⟩ :=
            exists_runs_pushString s m hle (not_lt.mp hshort) (hwritten.mono (by omega))
          obtain ⟨hbottom,hend,hleft,-⟩ := pushString_pushed hle hpush
          refine .inr ⟨a,t,hpush,stops_bind.mpr (.inl ((ih hbottom).mpr ?_))⟩
          refine ⟨k,by simpa using hk,?_,by omega⟩
          intro x hlow hhigh
          exact hwritten x (by omega) (by omega)

private theorem exists_runs_pushStrings (strings : List CString) (hle : bottom≤top) :
    (∃ r t, (pushStrings mapped bottom top (strings.map some)).Runs m r t) ↔
      totalSize strings≤(top - bottom).toNat ∧
        StackMapped mapped (top.toNat - totalSize strings) top.toNat := by
  induction strings generalizing top m with
  | nil =>
    simp only [map_nil,pushStrings,runs_pure,totalSize_nil]
    exact ⟨fun _ => ⟨by omega,fun a hlow hhigh => by omega⟩,fun _ => ⟨_,m,rfl,rfl⟩⟩
  | cons s strings ih =>
    rw [map_cons,pushStrings,totalSize_cons]
    simp only [runs_bind]
    constructor
    · rintro ⟨r,t,a,t₁,hpush,rest,t₂,hrest,-⟩
      obtain ⟨hbottom,hend,hleft,hfirst⟩ := pushString_pushed hle hpush
      obtain ⟨hfit,hmapped⟩ := (ih hbottom).mp ⟨rest,t₂,hrest⟩
      refine ⟨by omega,?_⟩
      rw [show top.toNat-(s.size+totalSize strings)=a.toNat-totalSize strings by omega]
      exact hmapped.join hfirst
    · rintro ⟨hfit,hmapped⟩
      obtain ⟨a,t,hpush⟩ := exists_runs_pushString s m hle (by omega) (hmapped.mono (by omega))
      obtain ⟨hbottom,hend,hleft,-⟩ := pushString_pushed hle hpush
      obtain ⟨r,t',hrest⟩ := (ih (m := t) hbottom).mpr
        ⟨by omega,fun x hlow hhigh => hmapped x (by omega) (by omega)⟩
      exact ⟨_,t',a,t,hpush,r,t',hrest,runs_pure.mpr ⟨rfl,rfl⟩⟩

/-- The two loops are one loop over the strings of both arrays. -/
private theorem stops_pushStrings_append (xs ys : List (Option CString)) (e : Stop) :
    (pushStrings mapped bottom top (xs++ys)).Stops m e ↔
      (pushStrings mapped bottom top xs).Stops m e ∨
      ∃ r t, (pushStrings mapped bottom top xs).Runs m r t ∧
        (pushStrings mapped bottom r.1 ys).Stops t e := by
  induction xs generalizing top m with
  | nil => simp [pushStrings]
  | cons x xs ih =>
    cases x with
    | none => simp [pushStrings]
    | some s =>
      simp only [cons_append,pushStrings,stops_bind,runs_bind,
        not_stops_pure,and_false,exists_false,or_false,ih]
      constructor
      · rintro (hfirst | ⟨a,t,hpush,hxs | ⟨r,t',hxs,hys⟩⟩)
        · exact .inl (.inl hfirst)
        · exact .inl (.inr ⟨a,t,hpush,hxs⟩)
        · exact .inr ⟨_,t',⟨a,t,hpush,r,t',hxs,runs_pure.mpr ⟨rfl,rfl⟩⟩,hys⟩
      · rintro ((hfirst | ⟨a,t,hpush,hxs⟩) | ⟨r,t,⟨a,t₁,hpush,r',t₂,hxs,hpure⟩,hys⟩)
        · exact .inl hfirst
        · exact .inr ⟨a,t,hpush,.inl hxs⟩
        · obtain ⟨rfl,rfl⟩ := runs_pure.mp hpure
          exact .inr ⟨a,t₁,hpush,.inr ⟨r',_,hxs,hys⟩⟩

/-- A frame is refused when it is larger than what is left. Aligning it takes nothing away, since
the bottom of the stack is aligned. -/
private theorem placeFrame_aborts {argc envc : Haddr} {slots : List Haddr} (hle : bottom≤top)
    (haligned : bottom.toNat % 16=0) :
    (placeFrame mapped bottom top argc envc slots).Stops m .abort ↔
      (top - bottom).toNat<(frameSize argc envc).toNat := by
  unfold placeFrame
  split
  · rename_i hshort
    exact iff_of_true (stops_stop.mpr rfl) hshort
  · rename_i hroom
    have hstart : ¬ alignDown (top-frameSize argc envc) 16<bottom := by
      have halign := alignDown_toNat (top-frameSize argc envc)
      have hbelow : bottom.toNat≤(top-frameSize argc envc).toNat := by bv_omega
      rw [BitVec.lt_def]
      omega
    dsimp only
    rw [if_neg hstart]
    apply iff_of_false _ hroom
    simp [stops_bind,writeSlots_not_aborts]

end

/-- The strings are pushed one after the other while their pages are there. Each of them has to
fit, and the frame below the last one. -/
structure ArgumentsFit (pages : Haddr → Bool) (strings : List CString) : Prop where
  pushed : ∀ k < strings.length,
    StackMapped pages (userStackTop.toNat - totalSize (strings.take k)) userStackTop.toNat →
    totalSize (strings.take (k + 1)) ≤ STACK_SIZE.toNat
  frame : StackMapped pages (userStackTop.toNat - totalSize strings) userStackTop.toNat →
    totalSize strings + 8 * (strings.length + 4) ≤ STACK_SIZE.toNat

section

variable {m m' : ByteMemory} {args envs : List CString}

private theorem userStack_facts : userStackLocation≤userStackTop ∧ userStackLocation.toNat % 16=0 ∧
    (userStackTop - userStackLocation).toNat=STACK_SIZE.toNat ∧
    userStackTop.toNat=userStackLocation.toNat + STACK_SIZE.toNat := by
  decide

private theorem argvEntries_list (h : args.length<2 ^ 64) :
    argvEntries (BitVec.ofNat 64 args.length) (some fun i => args[i]?)=args.map some := by
  rw [argvEntries,BitVec.toNat_ofNat,Nat.mod_eq_of_lt h]
  apply ext_getElem?
  intro i
  by_cases hi : i<args.length
  · simp [hi]
  · simp [hi]

private theorem totalSize_length (strings : List CString) : strings.length≤totalSize strings := by
  induction strings with
  | nil => simp
  | cons s strings ih =>
    rw [length_cons,totalSize_cons,CString.size]
    omega

private theorem totalSize_append (xs ys : List CString) :
    totalSize (xs++ys)=totalSize xs + totalSize ys := by
  simp [totalSize]

private theorem pushStrings_left {mapped : Haddr → Bool} {bottom top : Haddr}
    {strings : List CString} {r : Haddr × List Haddr} (hle : bottom≤top)
    (h : (pushStrings mapped bottom top (strings.map some)).Runs m r m') :
    bottom≤r.1 ∧ r.1.toNat + totalSize strings=top.toNat ∧
      (r.1 - bottom).toNat + totalSize strings=(top - bottom).toNat ∧
      StackMapped mapped r.1.toNat top.toNat := by
  obtain ⟨strings',hmap,hplaced,hbottom,-⟩ := pushStrings_spec hle h
  obtain rfl : strings=strings' :=
    map_injective_iff.mpr (Option.some_injective _) hmap
  have htotal := hplaced.totalSize
  obtain ⟨-,hmapped⟩ := (exists_runs_pushStrings strings hle).mp ⟨r,m',h⟩
  exact ⟨hbottom,htotal,by bv_omega,hmapped.mono (by omega)⟩

private theorem frameSize_lengths (h : totalSize (args++envs)≤STACK_SIZE.toNat) :
    (frameSize (BitVec.ofNat 64 args.length) (stringArrayCount (some envs))).toNat =
      8 * ((args++envs).length + 4) := by
  have hcount := totalSize_length (args++envs)
  have hstack : STACK_SIZE.toNat=16384 := rfl
  rw [length_append] at hcount ⊢
  have hargc : (BitVec.ofNat 64 args.length).toNat=args.length := by
    rw [BitVec.toNat_ofNat]
    omega
  have henvc : (stringArrayCount (some envs)).toNat=envs.length := by
    rw [stringArrayCount,BitVec.toNat_ofNat]
    omega
  rw [frameSize_toNat _ _ (by rw [hargc,henvc,lowerHalfEnd]; omega),hargc,henvc]

/-- Strings that do not fit, or whose frame does not, and nothing else make the loops and the frame
reach an `abort`. -/
private theorem pushAll_aborts (pages : Haddr → Bool)
    (slots : Haddr × List Haddr → Haddr × List Haddr → List Haddr) :
    (do
      let argvUser ← pushStrings pages userStackLocation userStackTop (args.map some)
      let envpUser ← pushStrings pages userStackLocation argvUser.1 (envs.map some)
      placeFrame pages userStackLocation envpUser.1 (BitVec.ofNat 64 args.length)
        (stringArrayCount (some envs)) (slots argvUser envpUser)).Stops m .abort ↔
      ¬ ArgumentsFit pages (args++envs) := by
  obtain ⟨hle,haligned,hroom,-⟩ := userStack_facts
  have hloops : (pushStrings pages userStackLocation userStackTop
      ((args++envs).map some)).Stops m .abort ↔ _ := pushStrings_aborts (args++envs) hle
  rw [map_append,stops_pushStrings_append,hroom] at hloops
  simp only [stops_bind]
  constructor
  · rintro (hstop | ⟨r,t,hargs,hstop | ⟨r',t',henvs,hstop⟩⟩) hfit
    · obtain ⟨k,hk,hwritten,hlong⟩ := hloops.mp (.inl hstop)
      have := hfit.pushed k hk hwritten
      omega
    · obtain ⟨k,hk,hwritten,hlong⟩ := hloops.mp (.inr ⟨r,t,hargs,hstop⟩)
      have := hfit.pushed k hk hwritten
      omega
    · obtain ⟨hbottom,htotal,hleft,hmapped⟩ := pushStrings_left hle hargs
      obtain ⟨hbottom',htotal',hleft',hmapped'⟩ := pushStrings_left hbottom henvs
      have hframe := hfit.frame (by
        rw [totalSize_append]
        exact (hmapped'.join hmapped).mono (by omega))
      rw [placeFrame_aborts hbottom' haligned,frameSize_lengths (by omega)] at hstop
      rw [totalSize_append] at hframe
      omega
  · intro hnot
    by_contra hstops
    rw [not_or,not_exists] at hstops
    obtain ⟨hargs,hrest⟩ := hstops
    have hpushed : ∀ k<(args++envs).length,
        StackMapped pages (userStackTop.toNat-totalSize ((args++envs).take k))
          userStackTop.toNat →
        totalSize ((args++envs).take (k+1))≤STACK_SIZE.toNat := by
      intro k hk hwritten
      by_contra hlong
      rcases hloops.mpr ⟨k,hk,hwritten,not_le.mp hlong⟩ with h | ⟨r,t,hruns,h⟩
      · exact hargs h
      · exact hrest r ⟨t,hruns,.inl h⟩
    refine hnot ⟨hpushed,fun hmapped => ?_⟩
    -- All strings fit, so both loops return.
    have hfits : totalSize (args++envs)≤STACK_SIZE.toNat := by
      rcases Nat.eq_zero_or_pos (args++envs).length with hzero | hpos
      · rw [length_eq_zero_iff.mp hzero]
        simp
      · have hlast := hpushed ((args++envs).length-1) (by omega) (hmapped.mono (by
          have hsplit := congrArg totalSize
            (take_append_drop ((args++envs).length-1) (args++envs))
          rw [totalSize_append] at hsplit
          omega))
        rwa [Nat.sub_add_cancel hpos,take_length] at hlast
    have htop := userStack_facts.2.2.2
    rw [totalSize_append] at hfits hmapped
    obtain ⟨r,t,hruns⟩ := (exists_runs_pushStrings (m := m) args hle).mpr
      ⟨by omega,hmapped.mono (by omega)⟩
    obtain ⟨hbottom,htotal,hleft,-⟩ := pushStrings_left hle hruns
    obtain ⟨r',t',hruns'⟩ := (exists_runs_pushStrings (m := t) envs hbottom).mpr
      ⟨by omega,fun a hlow hhigh => hmapped a (by omega) (by omega)⟩
    obtain ⟨hbottom',-,hleft',-⟩ := pushStrings_left hbottom hruns'
    have hframe : ¬ (placeFrame pages userStackLocation r'.1 (BitVec.ofNat 64 args.length)
        (stringArrayCount (some envs)) (slots r r')).Stops t' .abort :=
      fun h => hrest r ⟨t,hruns,.inr ⟨r',t',hruns',h⟩⟩
    rw [placeFrame_aborts hbottom' haligned,frameSize_lengths (by rw [totalSize_append]; exact hfits),
      not_lt] at hframe
    rw [totalSize_append]
    omega

private theorem prepareUserStack_aborts {allocs : StackAllocs} {pages : Haddr → Bool}
    (hargs : args.length<2 ^ 64) :
    (prepareUserStack allocs pages userStackLocation userStackTop (BitVec.ofNat 64 args.length)
        (some fun i => args[i]?) (some envs)).Stops m .abort ↔
      allocs.argvUser=false ∨ allocs.envpUser=false ∨ ¬ ArgumentsFit pages (args++envs) := by
  unfold prepareUserStack
  split
  · rename_i halloc
    apply iff_of_true (stops_stop.mpr rfl)
    rw [Bool.or_eq_true,Bool.not_eq_true',Bool.not_eq_true'] at halloc
    tauto
  · rename_i halloc
    rw [Bool.or_eq_true,Bool.not_eq_true',Bool.not_eq_true',not_or] at halloc
    rw [argvEntries_list hargs,envpEntries,Option.getD_some,
      pushAll_aborts pages fun r r' => frameSlots _ r.2 r'.2]
    tauto

def highestLoaded : Haddr → List ElfProgramHeader → Haddr
  | highest, [] => highest
  | highest, progHeader :: progHeaders =>
    let segmentEnd := progHeader.loadVaddr + progHeader.mappedSize
    if progHeader.type = ELF_PROG_HEADER_TYPE_LOAD ∧ highest < segmentEnd then
      highestLoaded segmentEnd progHeaders
    else highestLoaded highest progHeaders

private theorem loadSegment_ends (mapped : Haddr → Bool) (buffer highest : Haddr)
    (progHeader : ElfProgramHeader) :
    (loadSegment mapped buffer highest progHeader).Ends (· ≠ .abort)
      (· = if progHeader.type=ELF_PROG_HEADER_TYPE_LOAD ∧
        highest<progHeader.loadVaddr + progHeader.mappedSize then
      progHeader.loadVaddr + progHeader.mappedSize else highest) := by
  have hcopy (dst src : Haddr) (n : Nat) :
      (copyBytes mapped dst src n).Ends (· ≠ .abort) fun _ => True :=
    ends_of_not_stops fun _ _ h he => copyBytes_not_aborts _ _ _ (he ▸ h)
  have hclear (dst : Haddr) (n : Nat) :
      (clearBytes mapped dst n).Ends (· ≠ .abort) fun _ => True :=
    ends_of_not_stops fun _ _ h he => clearBytes_not_aborts _ _ (he ▸ h)
  unfold loadSegment clearTail
  by_cases hload : progHeader.type=ELF_PROG_HEADER_TYPE_LOAD
  · simp only [hload,if_true,true_and]
    refine (hcopy _ _ _).bind fun _ _ =>
      Traced.Ends.bind (Q := fun _ => True) ?_ fun _ _ => ends_pure rfl
    split
    · exact hclear _ _
    · exact ends_pure trivial
  · simp only [hload,if_false,false_and]
    exact ends_pure rfl

private theorem loadSegments_ends (mapped : Haddr → Bool) (buffer highest : Haddr)
    (progHeaders : List ElfProgramHeader) :
    (loadSegments mapped buffer highest progHeaders).Ends (· ≠ .abort)
      (· = highestLoaded highest progHeaders) := by
  induction progHeaders generalizing highest with
  | nil => exact ends_pure rfl
  | cons progHeader progHeaders ih =>
    refine (loadSegment_ends mapped buffer highest progHeader).bind fun h hh => ?_
    rw [highestLoaded,hh]
    split <;> exact ih _

structure LaunchFits (env : LaunchEnv) (elf : ElfFile) (args envs : List CString) : Prop where
  vmm : env.hasVmm = true
  room : SegmentsWritable env.segments elf.programHeaders →
    initialBrk (highestLoaded USER_SPACE_MIN_VADDR elf.programHeaders) < userStackLocation
  allocs : SegmentsWritable env.segments elf.programHeaders →
    env.allocs.argvUser = true ∧ env.allocs.envpUser = true
  arguments : SegmentsWritable env.segments elf.programHeaders →
    ArgumentsFit env.pages (args ++ envs)

private theorem elfLaunch_aborts {env : LaunchEnv} {elf : ElfFile} (hargs : args.length<2 ^ 64) :
    (elfLaunch env elf (BitVec.ofNat 64 args.length) (some fun i => args[i]?)
        (some envs)).Stops m .abort ↔ ¬ LaunchFits env elf args envs := by
  unfold elfLaunch
  cases hvmm : env.hasVmm with
  | false =>
    apply iff_of_true
    · simp
    · intro h
      rw [h.vmm] at hvmm
      cases hvmm
  | true =>
    simp only [Bool.not_true,Bool.false_eq_true,if_false]
    by_cases hloads : SegmentsWritable env.segments elf.programHeaders
    · obtain ⟨h,t,hruns⟩ := (exists_runs_loadSegments m elf.buffer USER_SPACE_MIN_VADDR
        elf.programHeaders).mpr hloads
      rw [hruns.stops_bind_iff,(loadSegments_ends _ _ _ _ m).2 h t hruns]
      split
      · rename_i hroom
        apply iff_of_true (stops_stop.mpr rfl)
        intro hfits
        exact absurd (hfits.room hloads) (BitVec.not_lt.mpr hroom)
      · rename_i hroom
        rw [stops_bind,prepareUserStack_aborts hargs]
        constructor
        · rintro ((hargv | henvp | hlong) | ⟨_,_,-,hpure⟩) hfits
          · simp [(hfits.allocs hloads).1] at hargv
          · simp [(hfits.allocs hloads).2] at henvp
          · exact hlong (hfits.arguments hloads)
          · exact not_stops_pure hpure
        · intro hnot
          by_contra hstops
          rw [not_or,not_or,not_or,Bool.not_eq_false,Bool.not_eq_false,not_not] at hstops
          obtain ⟨⟨hargv,henvp,harguments⟩,-⟩ := hstops
          exact hnot ⟨hvmm,fun _ => BitVec.not_le.mp hroom,fun _ => ⟨hargv,henvp⟩,
            fun _ => harguments⟩
    · -- A page fault ends the launch before anything is checked.
      apply iff_of_false
      · rw [stops_bind]
        rintro (h | ⟨h,t,hruns,-⟩)
        · exact (loadSegments_ends _ _ _ _ m).1 _ h rfl
        · exact hloads ((exists_runs_loadSegments _ _ _ _).mp ⟨h,t,hruns⟩)
      · rw [not_not]
        exact ⟨hvmm,fun h => absurd h hloads,fun h => absurd h hloads,fun h => absurd h hloads⟩

end

section

abbrev Returns {α : Type} (x : Kernel Stop α) (Q : α → Prop) : Prop := x.Ends (fun _ => False) Q

private theorem returns_readByte (a : Haddr) : Returns (readByte a) fun _ => True :=
  ends_of_not_stops fun _ e h => not_stops_readByte a e h

private theorem returns_readBytes (src : Haddr) (n : Nat) :
    Returns (readBytes src n) fun _ => True :=
  ends_of_not_stops fun _ e h => not_stops_readBytes src n e h

private theorem returns_readWord (a : Haddr) : Returns (readWord a) fun _ => True :=
  (returns_readBytes a 8).bind fun _ _ => ends_pure trivial

private theorem returns_countToNul (src : Haddr) (left : Nat) :
    Returns (countToNul src left) fun _ => True := by
  induction left generalizing src with
  | zero => exact ends_pure trivial
  | succ left ih =>
    refine (returns_readByte src).bind fun b _ => ?_
    split
    · exact ends_pure trivial
    · exact (ih _).bind fun _ _ => ends_pure trivial

private theorem returns_syscallUtokStrcpy (calloc : Bool) (src maxLen : Haddr) :
    Returns (syscallUtokStrcpy calloc src maxLen) fun _ => True := by
  unfold syscallUtokStrcpy
  split_ifs
  · exact ends_pure trivial
  · exact ends_pure trivial
  · exact (returns_countToNul _ _).bind fun _ _ => ends_pure trivial
  · exact (returns_countToNul _ _).bind fun _ _ =>
      (returns_readBytes _ _).bind fun _ _ => ends_pure trivial

/-- Fewer strings are counted than the loop has rounds. -/
private theorem returns_countStrings (userStrings : Haddr) (left i : Nat) :
    Returns (countStrings userStrings left i) fun r => ∀ n, r=some n → n < i + left := by
  induction left generalizing i with
  | zero => exact ends_pure (by simp)
  | succ left ih =>
    rw [countStrings]
    split
    · exact ends_pure (by simp)
    · refine (returns_readWord _).bind fun w _ => ?_
      split
      · exact ends_pure (by simp)
      · rw [show i+(left+1)=i+1+left by omega]
        exact ih (i+1)

private theorem returns_copyStrings (calloc : Nat → Bool) (userStrings : Haddr) (left i : Nat) :
    Returns (copyStrings calloc userStrings left i) fun r =>
      ∀ strings, r = .ok strings → strings.length=left := by
  induction left generalizing i with
  | zero => exact ends_pure (by rintro _ ⟨⟩; rfl)
  | succ left ih =>
    refine (returns_readWord _).bind fun src _ => ?_
    split
    · exact ends_pure (by simp)
    refine (returns_syscallUtokStrcpy _ _ _).bind fun buffer _ => ?_
    cases buffer with
    | none => exact ends_pure (by simp)
    | some buffer =>
      refine (ih (i+1)).bind fun rest hrest => ?_
      cases rest with
      | error _ => exact ends_pure (by simp)
      | ok rest =>
        apply ends_pure
        rintro _ ⟨⟩
        rw [length_cons,hrest rest rfl]

private theorem returns_copyStringArray (allocs : CopyAllocs) (userStrings : Haddr) :
    Returns (copyStringArray allocs userStrings) fun r =>
      ∀ strings, r = .ok strings → strings.length<EXECVE_ARG_MAX := by
  unfold copyStringArray
  split
  · apply ends_pure
    split
    · rintro _ ⟨⟩
      decide
    · simp
  · refine (returns_countStrings _ _ _).bind fun count hcount => ?_
    cases count with
    | none => exact ends_pure (by simp)
    | some count =>
      dsimp only
      split
      · exact ends_pure (by simp)
      · intro m
        obtain ⟨hstops,hlength⟩ := returns_copyStrings allocs.strings userStrings count 0 m
        refine ⟨hstops,fun r t hrun strings hr => ?_⟩
        rw [hlength r t hrun strings hr]
        have := hcount count rfl
        omega

private theorem returns_readProgram (env : ExecveEnv) :
    Returns (readProgram env) fun _ => True := by
  have hread (allocs : ReadAllocs) (buffer size : Haddr) :
      Returns (elfRead allocs buffer size) fun _ => True := by
    unfold elfRead
    split
    · exact ends_pure trivial
    · refine (returns_readBytes _ _).bind fun bytes _ => ?_
      dsimp only
      split
      · exact ends_pure trivial
      split
      · exact ends_pure trivial
      refine (returns_readBytes _ _).bind fun _ _ => ?_
      split <;> exact ends_pure trivial
  unfold readProgram
  split
  · exact ends_pure trivial
  · refine (hread _ _ _).bind fun elf _ => ?_
    cases elf with
    | none => exact ends_pure trivial
    | some elf =>
      dsimp only
      split_ifs <;> exact ends_pure trivial

private theorem returns_execvePrelude (env : ExecveEnv) (pathname argv envp : Haddr) :
    Returns (execvePrelude env pathname argv envp) fun r =>
      ∀ elf args envs, r = .ok (elf, args, envs) → args.length<EXECVE_ARG_MAX := by
  unfold execvePrelude
  split_ifs
  · exact ends_pure (by simp)
  · exact ends_pure (by simp)
  refine (returns_syscallUtokStrcpy _ _ _).bind fun path _ => ?_
  cases path with
  | none => exact ends_pure (by simp)
  | some path =>
    refine (returns_copyStringArray _ _).bind fun args hargs => ?_
    cases args with
    | error _ => exact ends_pure (by simp)
    | ok args =>
      refine (returns_copyStringArray _ _).bind fun envs _ => ?_
      cases envs with
      | error _ => exact ends_pure (by simp)
      | ok envs =>
        refine (returns_readProgram _).bind fun elf _ => ?_
        cases elf with
        | error _ => exact ends_pure (by simp)
        | ok elf =>
          apply ends_pure
          rintro _ _ _ ⟨⟩
          exact hargs args rfl

end

section

variable {m : ByteMemory}

structure Unended (m : ByteMemory) (src : Haddr) : Prop where
  nonnull : src ≠ NULL
  accepted : syscallIsUaddr src SYSCALL_USER_STRING_MAX = true
  nul_free : ∀ i < SYSCALL_USER_STRING_MAX.toNat, m (src + BitVec.ofNat 64 i).toNat ≠ 0

private theorem Unended.copied {src : Haddr} (h : Unended m src) :
    ∃ buffer, (syscallUtokStrcpy true src SYSCALL_USER_STRING_MAX : Kernel Stop _).Runs m
        (some buffer) m ∧ (CString.ofBuffer buffer).size=4096 := by
  refine ⟨bytesAt m src 4095++[0],?_,?_⟩
  · have hrun := syscallUtokStrcpy_runs (ε := Stop) h.nonnull (by decide) h.accepted le_rfl
      h.nul_free fun h => absurd h (lt_irrefl _)
    rwa [if_neg (lt_irrefl _),show SYSCALL_USER_STRING_MAX.toNat-1=4095 from rfl] at hrun
  · have hall : ∀ b∈bytesAt m src 4095, (b != 0)=true := by
      intro b hb
      obtain ⟨i,hi,rfl⟩ := mem_map.mp hb
      rw [mem_range] at hi
      have hne := h.nul_free i (by rw [show SYSCALL_USER_STRING_MAX.toNat=4096 from rfl]; omega)
      simpa using hne
    have htake : (bytesAt m src 4095++[0]).takeWhile (fun b => b != 0)=_ :=
      takeWhile_append_of_pos hall
    unfold CString.size CString.ofBuffer
    dsimp only
    rw [htake,length_append,length_bytesAt]
    rfl

def slotPointer (m : ByteMemory) (userStrings : Haddr) (i : Nat) : Haddr :=
  field64 (bytesAt m (userSlot userStrings i) 8) 0

private theorem readSlot_runs (m : ByteMemory) (userStrings : Haddr) (i : Nat) :
    (readWord (userSlot userStrings i) : Kernel Stop Haddr).Runs m (slotPointer m userStrings i) m := by
  rw [readWord,(readBytes_runs _ _ _).bind_iff]
  exact runs_pure.mpr ⟨rfl,rfl⟩

private theorem copyStrings_unended {userStrings : Haddr} {left i : Nat}
    (h : ∀ j<left, Unended m (slotPointer m userStrings (i + j))) :
    ∃ strings, (copyStrings (fun _ => true) userStrings left i).Runs m (.ok strings) m ∧
      totalSize strings=4096 * left ∧ strings.length=left := by
  induction left generalizing i with
  | zero => exact ⟨[],runs_pure.mpr ⟨rfl,rfl⟩,rfl,rfl⟩
  | succ left ih =>
    have hfirst := h 0 (by omega)
    rw [Nat.add_zero] at hfirst
    obtain ⟨buffer,hcopy,hsize⟩ := hfirst.copied
    obtain ⟨strings,hrest,htotal,hlength⟩ := ih (i := i+1) fun j hj => by
      rw [show i+1+j=i+(j+1) by omega]
      exact h (j+1) (by omega)
    refine ⟨CString.ofBuffer buffer::strings,?_,?_,by rw [length_cons,hlength]⟩
    · rw [copyStrings,(readSlot_runs _ _ _).bind_iff,if_neg (by simpa using hfirst.accepted),
        hcopy.bind_iff]
      dsimp only
      rw [hrest.bind_iff]
      exact runs_pure.mpr ⟨rfl,rfl⟩
    · rw [totalSize_cons,hsize,htotal]
      omega

end

def emptyProgram : List UInt8 :=
  [0x7F, 0x45, 0x4C, 0x46, 2, 1, 1, 0, 0, 0, 0, 0, 0, 0, 0, 0, 2, 0, 0x3E, 0] ++
    List.replicate 44 0

/-- The path is at 4096. The array at 8192 has four pointers to 16384, where no string ends. The
file is at 1048576. -/
def callerMemory : ByteMemory := fun a =>
  if a < 8192 then 0
  else if a < 16384 then if a < 8192 + 8 * 4 ∧ a % 8 = 1 then 0x40 else 0
  else if a < 1048576 then 0x61
  else emptyProgram.getD (a - 1048576) 0

def callerEnv : ExecveEnv where
  path := true
  argv := ⟨true, fun _ => true⟩
  envp := ⟨true, fun _ => true⟩
  file := some (1048576, 64)
  read := ⟨true, true, true⟩
  process := true
  fresh := true
  launch := ⟨true, fun _ => true, fun _ => true, ⟨true, true⟩⟩

private theorem unended_callerMemory : Unended callerMemory 16384 where
  nonnull := by decide
  accepted := by decide
  nul_free := by
    intro i hi
    rw [show SYSCALL_USER_STRING_MAX.toNat=4096 from rfl] at hi
    have haddr : (16384+BitVec.ofNat 64 i : Haddr).toNat=16384+i := by bv_omega
    rw [haddr,callerMemory,if_neg (by omega),if_neg (by omega),if_pos (by omega)]
    decide

private theorem callerMemory_copied :
    ∃ args, (copyStringArray callerEnv.argv 8192).Runs callerMemory
    (.ok args) callerMemory ∧ totalSize args=16384 ∧ args.length=4 := by
  have hcount : (countStrings 8192 EXECVE_ARG_MAX 0).Runs callerMemory (some 4) callerMemory := by
    with_unfolding_all rfl
  have hpointer : ∀ j<4, slotPointer callerMemory 8192 (0+j)=16384 := by
    decide +kernel
  have hunended : ∀ j<4, Unended callerMemory (slotPointer callerMemory 8192 (0+j)) := by
    intro j hj
    rw [hpointer j hj]
    exact unended_callerMemory
  obtain ⟨args,hcopy,htotal,hlength⟩ := copyStrings_unended hunended
  refine ⟨args,?_,htotal,hlength⟩
  rw [copyStringArray,if_neg (by decide),hcount.bind_iff]
  exact hcopy

end Hojicha.Elf
