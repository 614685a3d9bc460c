import Hojicha.Elf.Image
import Hojicha.Framework.Alignment

/-!
# The first stack of a program

`prepare_user_stack` of `kernel/elf.c` puts the strings below the top of the stack and a frame
under them, from which `_start` of `libc/internal/crt0.s` takes the arguments.
-/

namespace Hojicha.Elf

open Framework Syscalls List Traced

structure CString where
  bytes : List UInt8
  nul_free : 0 ∉ bytes

def CString.size (s : CString) : Nat := s.bytes.length + 1

def CString.stored (s : CString) : List UInt8 := s.bytes ++ [0]

theorem CString.stored_length (s : CString) : s.stored.length=s.size := by
  simp [stored,size]

def alignDown (addr align : Haddr) : Haddr := addr &&& ~~~(align - 1)

def alignUp (addr align : Haddr) : Haddr := (addr + align - 1) &&& ~~~(align - 1)

/-- `NULL` or an array that ends with `NULL`. -/
abbrev StringArray := Option (List CString)

def stringArrayCount (strings : StringArray) : Haddr :=
  match strings with
  | none => 0
  | some strings => BitVec.ofNat 64 strings.length

def writeBytes (mapped : Haddr → Bool) (dst : Haddr) : List UInt8 → Kernel Stop Unit
  | [] => return ()
  | b :: bytes => do
    writeByte mapped dst b
    writeBytes mapped (dst + 1) bytes

def writeWord (mapped : Haddr → Bool) (a v : Haddr) : Kernel Stop Unit :=
  if ∀ i < 8, mapped (a + BitVec.ofNat 64 i) then Traced.change fun m => store64 m a.toNat v.toNat
  else Traced.stop .fault

def writeSlots (mapped : Haddr → Bool) (stack : Haddr) : List Haddr → Kernel Stop Unit
  | [] => return ()
  | v :: slots => do
    writeWord mapped stack v
    writeSlots mapped (stack + 8) slots

/-- One string of either loop. -/
def pushString (mapped : Haddr → Bool) (stackBottom stringsTop : Haddr) (s : CString) :
    Kernel Stop Haddr :=
  let len := s.size
  if (stringsTop - stackBottom).toNat < len then Traced.stop .abort
  else do
    let stringsTop := stringsTop - BitVec.ofNat 64 len
    writeBytes mapped stringsTop s.stored
    return stringsTop

/-- Either loop: the new `strings_top` and the addresses of the strings. A missing string aborts. -/
def pushStrings (mapped : Haddr → Bool) (stackBottom : Haddr) :
    Haddr → List (Option CString) → Kernel Stop (Haddr × List Haddr)
  | stringsTop, [] => return (stringsTop, [])
  | _, none :: _ => Traced.stop .abort
  | stringsTop, some s :: strings => do
    let stringsTop ← pushString mapped stackBottom stringsTop s
    let rest ← pushStrings mapped stackBottom stringsTop strings
    return (rest.1, stringsTop :: rest.2)

structure StackAllocs where
  argvUser : Bool
  envpUser : Bool

/-- `argv[0]`, ..., `argv[argc - 1]`; `argv` may be `NULL` and may have missing entries. -/
def argvEntries (argc : Haddr) (argv : Option (Nat → Option CString)) : List (Option CString) :=
  (List.range argc.toNat).map fun i => argv.bind fun argv => argv i

def envpEntries (envp : StringArray) : List (Option CString) := (envp.getD []).map some

def frameSize (argc envc : Haddr) : Haddr := (1 + argc + 1 + envc + 1 + 1) * 8

def frameSlots (argc : Haddr) (argvUser envpUser : List Haddr) : List Haddr :=
  argc :: (argvUser ++ 0 :: (envpUser ++ [0, 0]))

def placeFrame (mapped : Haddr → Bool) (stackBottom stringsTop argc envc : Haddr)
    (slots : List Haddr) : Kernel Stop Haddr :=
  if stringsTop - stackBottom < frameSize argc envc then Traced.stop .abort
  else
    let stackStart := alignDown (stringsTop - frameSize argc envc) 16
    if stackStart < stackBottom then Traced.stop .abort
    else do
      writeSlots mapped stackStart slots
      return stackStart

def prepareUserStack (allocs : StackAllocs) (mapped : Haddr → Bool) (stackBottom stackTop : Haddr)
    (argc : Haddr) (argv : Option (Nat → Option CString)) (envp : StringArray) :
    Kernel Stop Haddr :=
  if !allocs.argvUser || !allocs.envpUser then Traced.stop .abort
  else do
    let argvUser ← pushStrings mapped stackBottom stackTop (argvEntries argc argv)
    let envpUser ← pushStrings mapped stackBottom argvUser.1 (envpEntries envp)
    placeFrame mapped stackBottom envpUser.1 argc (stringArrayCount envp)
      (frameSlots argc argvUser.2 envpUser.2)

section

variable {mapped : Haddr → Bool} {m m' : ByteMemory} {u : Unit}

def HoldsBytes (m : ByteMemory) (a : Nat) (bytes : List UInt8) : Prop :=
  ∀ i b, bytes[i]? = some b → m (a + i) = b

private theorem holdsBytes_cons {a : Nat} {b : UInt8} {bytes : List UInt8} :
    HoldsBytes m a (b::bytes) ↔ m a=b ∧ HoldsBytes m (a + 1) bytes := by
  constructor
  · intro h
    refine ⟨h 0 b rfl,fun i c hc => ?_⟩
    rw [Nat.add_assoc,Nat.add_comm 1]
    exact h (i+1) c hc
  · rintro ⟨hfirst,hrest⟩ i c hc
    cases i with
    | zero => simpa using hfirst.trans (Option.some.inj hc)
    | succ i =>
      rw [Nat.add_comm i,← Nat.add_assoc]
      exact hrest i c hc

private theorem HoldsBytes.frame {p : Nat → Prop} {a : Nat} {bytes : List UInt8}
    (h : HoldsBytes m a bytes)
    (hagree : AgreeOff p m m') (hp : ∀ x, p x → ¬ InRange a bytes.length x) :
    HoldsBytes m' a bytes := by
  intro i b hb
  have hi : i<bytes.length := (List.getElem?_eq_some_iff.mp hb).1
  rw [hagree (a+i) fun hx => hp _ hx ⟨by omega,by omega⟩]
  exact h i b hb

theorem toNat_add_one {a : Haddr} (h : a.toNat + 1<2 ^ 64) : (a + 1).toNat=a.toNat + 1 := by
  bv_omega

private theorem writeBytes_spec {dst : Haddr} {bytes : List UInt8}
    (h : (writeBytes mapped dst bytes).Runs m u m') (hfit : dst.toNat + bytes.length<2 ^ 64) :
    HoldsBytes m' dst.toNat bytes ∧ AgreeOff (InRange dst.toNat bytes.length) m m' := by
  induction bytes generalizing dst m with
  | nil =>
    obtain ⟨-,rfl⟩ := runs_pure.mp h
    exact ⟨fun i b hb => by simp at hb,AgreeOff.refl _ _⟩
  | cons b bytes ih =>
    rw [length_cons] at hfit
    obtain ⟨_,t,hstore,hrest⟩ := runs_bind.mp h
    obtain ⟨-,rfl⟩ := runs_writeByte.mp hstore
    have hnext : (dst+1).toNat=dst.toNat+1 := toNat_add_one (by omega)
    obtain ⟨hholds,hagree⟩ := ih hrest (by omega)
    rw [hnext] at hholds hagree
    constructor
    · refine holdsBytes_cons.mpr ⟨?_,hholds⟩
      rw [hagree dst.toNat fun hx => by have := hx.1; omega,storeByte_self]
    · refine ((storeByte_agree m dst.toNat b).mono ?_).trans (hagree.mono ?_)
      · rintro x ⟨hlow,hhigh⟩
        exact ⟨hlow,by rw [length_cons]; omega⟩
      · rintro x ⟨hlow,hhigh⟩
        exact ⟨by omega,by rw [length_cons]; omega⟩

def Frame (m : ByteMemory) (a : Nat) (slots : List Haddr) : Prop :=
  ∀ i v, slots[i]? = some v → load64 m (a + 8 * i) = v.toNat

private theorem frame_nil (a : Nat) : Frame m a [] := fun i v hv => by simp at hv

private theorem frame_cons {a : Nat} {v : Haddr} {slots : List Haddr} :
    Frame m a (v::slots) ↔ load64 m a=v.toNat ∧ Frame m (a + 8) slots := by
  constructor
  · intro h
    refine ⟨h 0 v rfl,fun i w hw => ?_⟩
    rw [show a+8+8 * i=a+8 * (i+1) by omega]
    exact h (i+1) w hw
  · rintro ⟨hfirst,hrest⟩ i w hw
    cases i with
    | zero => simpa using hfirst.trans (congrArg _ (Option.some.inj hw))
    | succ i =>
      rw [show a+8 * (i+1)=a+8+8 * i by omega]
      exact hrest i w hw

private theorem frame_append {a : Nat} {slots rest : List Haddr} :
    Frame m a (slots++rest) ↔ Frame m a slots ∧ Frame m (a + 8 * slots.length) rest := by
  induction slots generalizing a with
  | nil => simp [frame_nil]
  | cons v slots ih =>
    rw [cons_append,frame_cons,ih,frame_cons,length_cons,and_assoc,
      show a+8+8 * slots.length=a+8 * (slots.length+1) by omega]

private theorem runs_writeWord {a v : Haddr} (h : (writeWord mapped a v).Runs m u m') :
    m'=store64 m a.toNat v.toNat := by
  unfold writeWord at h
  split at h
  · exact (runs_change _ _).mp h
  · exact absurd h not_runs_stop

private theorem writeSlots_spec {stack : Haddr} {slots : List Haddr}
    (h : (writeSlots mapped stack slots).Runs m u m')
    (hfit : stack.toNat + 8 * slots.length<2 ^ 64) :
    Frame m' stack.toNat slots ∧ AgreeOff (InRange stack.toNat (8 * slots.length)) m m' := by
  induction slots generalizing stack m with
  | nil =>
    obtain ⟨-,rfl⟩ := runs_pure.mp h
    exact ⟨frame_nil _,AgreeOff.refl _ _⟩
  | cons v slots ih =>
    rw [length_cons] at hfit
    obtain ⟨_,t,hstore,hrest⟩ := runs_bind.mp h
    obtain rfl := runs_writeWord hstore
    have hnext : (stack+8).toNat=stack.toNat+8 := by bv_omega
    obtain ⟨hframe,hagree⟩ := ih hrest (by omega)
    rw [hnext] at hframe hagree
    constructor
    · refine frame_cons.mpr ⟨?_,hframe⟩
      rw [hagree.load64 _ fun x hx hin => by have := hx.1; have := hin.2; omega,
        load64_store64 _ _ _ v.isLt]
    · refine ((storeBytes_agree m stack.toNat 8 v.toNat).mono ?_).trans (hagree.mono ?_)
      · rintro x ⟨hlow,hhigh⟩
        exact ⟨hlow,by rw [length_cons]; omega⟩
      · rintro x ⟨hlow,hhigh⟩
        exact ⟨by omega,by rw [length_cons]; omega⟩

end

/-- The strings lie one below the other from `top` down to `last`, at the given addresses. -/
inductive Placed (m : ByteMemory) : Nat → List CString → List Haddr → Nat → Prop
  | nil (top : Nat) : Placed m top [] [] top
  | cons {top last : Nat} {s : CString} {strings : List CString} {a : Haddr} {ptrs : List Haddr}
      (hend : a.toNat + s.size = top) (hholds : HoldsBytes m a.toNat s.stored)
      (hrest : Placed m a.toNat strings ptrs last) : Placed m top (s :: strings) (a :: ptrs) last

section

variable {m m' : ByteMemory} {top last : Nat} {strings : List CString} {ptrs : List Haddr}

section

variable (h : Placed m top strings ptrs last)
include h

private theorem Placed.le : last≤top := by
  induction h with
  | nil => exact le_rfl
  | cons hend _ _ ih => omega

private theorem Placed.frame {p : Nat → Prop}
    (hagree : AgreeOff p m m') (hp : ∀ x, p x → ¬ (last≤x ∧ x<top)) :
    Placed m' top strings ptrs last := by
  induction h with
  | nil => exact .nil _
  | @cons top last s strings a ptrs hend hholds hrest ih =>
    have hle := hrest.le
    refine .cons hend (hholds.frame hagree ?_) (ih fun x hx hin => hp x hx ⟨hin.1,by omega⟩)
    rintro x hx ⟨hlow,hhigh⟩
    rw [CString.stored_length] at hhigh
    exact hp x hx ⟨by omega,by omega⟩

private theorem Placed.length_eq : ptrs.length=strings.length := by
  induction h with
  | nil => rfl
  | cons _ _ _ ih => simp [ih]

private theorem Placed.length_le : last + strings.length≤top := by
  induction h with
  | nil => simp
  | @cons top last s strings a ptrs hend _ _ ih =>
    have hsize : 1 ≤ s.size := by simp [CString.size]
    rw [length_cons]
    omega

private theorem Placed.size_le : ∀ s∈strings, last + s.size≤top := by
  induction h with
  | nil => simp
  | @cons top last s strings a ptrs hend _ hrest ih =>
    have hle := hrest.le
    intro s' hs'
    rcases mem_cons.mp hs' with rfl | hs'
    · omega
    · have := ih s' hs'
      omega

private theorem Placed.last_le : ∀ a∈ptrs, last≤a.toNat := by
  induction h with
  | nil => simp
  | @cons top last s strings a ptrs hend _ hrest ih =>
    intro a' ha'
    rcases mem_cons.mp ha' with rfl | ha'
    · exact hrest.le
    · exact ih a' ha'

end

end

section

variable {mapped : Haddr → Bool} {bottom top : Haddr} {m m' : ByteMemory}

theorem pushString_spec {s : CString} {a : Haddr} (hle : bottom≤top)
    (h : (pushString mapped bottom top s).Runs m a m') :
    bottom≤a ∧ a.toNat + s.size=top.toNat ∧ HoldsBytes m' a.toNat s.stored ∧
      AgreeOff (InRange a.toNat s.size) m m' := by
  unfold pushString at h
  dsimp only at h
  split at h
  · exact absurd h not_runs_stop
  · rename_i hroom
    have hlt := (top-bottom).isLt
    have hsize : (BitVec.ofNat 64 s.size).toNat=s.size := by
      rw [BitVec.toNat_ofNat]
      omega
    obtain ⟨_,t,hwrite,hpure⟩ := runs_bind.mp h
    obtain ⟨rfl,rfl⟩ := runs_pure.mp hpure
    have hsum : (top-BitVec.ofNat 64 s.size).toNat+s.size=top.toNat := by bv_omega
    have hbottom : bottom≤top-BitVec.ofNat 64 s.size := by bv_omega
    have hfit := top.isLt
    obtain ⟨hholds,hagree⟩ := writeBytes_spec hwrite (by rw [CString.stored_length]; omega)
    rw [CString.stored_length] at hagree
    exact ⟨hbottom,hsum,hholds,hagree⟩

theorem pushStrings_spec {entries : List (Option CString)} {result : Haddr × List Haddr}
    (hle : bottom≤top) (h : (pushStrings mapped bottom top entries).Runs m result m') :
    ∃ strings, entries=strings.map some ∧
      Placed m' top.toNat strings result.2 result.1.toNat ∧ bottom≤result.1 ∧
      AgreeOff (fun x => result.1.toNat≤x ∧ x<top.toNat) m m' := by
  induction entries generalizing top m result with
  | nil =>
    obtain ⟨rfl,rfl⟩ := runs_pure.mp h
    exact ⟨[],rfl,.nil _,hle,AgreeOff.refl _ _⟩
  | cons entry entries ih =>
    cases entry with
    | none => exact absurd h not_runs_stop
    | some s =>
      obtain ⟨a,t,hpush,hloop⟩ := runs_bind.mp h
      obtain ⟨rest,t',hrest,hpure⟩ := runs_bind.mp hloop
      obtain ⟨rfl,rfl⟩ := runs_pure.mp hpure
      obtain ⟨hbottom,hend,hholds,hagree⟩ := pushString_spec hle hpush
      obtain ⟨strings,rfl,hplaced,hlast,hagree'⟩ := ih hbottom hrest
      have hbelow := hplaced.le
      refine ⟨s::strings,rfl,.cons hend ?_ hplaced,hlast,?_⟩
      · apply hholds.frame hagree'
        rintro x ⟨-,hx⟩ ⟨hin,-⟩
        omega
      · refine (hagree.mono ?_).trans (hagree'.mono ?_)
        · rintro x ⟨hlow,hhigh⟩
          exact ⟨by dsimp only; omega,by omega⟩
        · rintro x ⟨hlow,hhigh⟩
          exact ⟨hlow,by omega⟩

end

/-- The loop of `_start` that looks for the end of `argv`, for at most `fuel` steps. -/
def crt0Scan (m : ByteMemory) : Nat → Haddr → Option Haddr
  | 0, _ => none
  | fuel + 1, rdx => if load64 m rdx.toNat = 0 then some rdx else crt0Scan m fuel (rdx + 8)

/-- What `_start` gives to `main`. -/
structure Entry where
  argc : Nat
  argv : Haddr
  environ : Haddr

def crt0 (m : ByteMemory) (fuel : Nat) (rsp : Haddr) : Option Entry :=
  (crt0Scan m fuel (rsp + 8)).map fun rdx => ⟨load64 m rsp.toNat, rsp + 8, rdx + 8⟩

def readString (m : ByteMemory) : Nat → Nat → Option (List UInt8)
  | 0, _ => none
  | fuel + 1, a =>
    if m a = 0 then some [] else (readString m fuel (a + 1)).map fun bytes => m a :: bytes

/-- An array of strings as a program reads it, up to the first null pointer. -/
def readStrings (m : ByteMemory) (fuel : Nat) : Nat → Nat → Option (List (List UInt8))
  | 0, _ => none
  | n + 1, a =>
    if load64 m a = 0 then some []
    else
      (readString m fuel (load64 m a)).bind fun bytes =>
        (readStrings m fuel n (a + 8)).map fun rest => bytes :: rest

section

variable {m : ByteMemory}

private theorem readString_eq {fuel a : Nat} {bytes : List UInt8} (hnul : 0∉bytes)
    (hholds : HoldsBytes m a (bytes++[0])) (hfuel : bytes.length<fuel) :
    readString m fuel a=some bytes := by
  induction bytes generalizing fuel a with
  | nil =>
    obtain ⟨hfirst,-⟩ := holdsBytes_cons.mp hholds
    cases fuel with
    | zero => omega
    | succ fuel => simp [readString,hfirst]
  | cons b bytes ih =>
    rw [cons_append] at hholds
    obtain ⟨hfirst,hrest⟩ := holdsBytes_cons.mp hholds
    rw [mem_cons,not_or] at hnul
    cases fuel with
    | zero => omega
    | succ fuel =>
      have htail := ih hnul.2 hrest (by simpa using hfuel)
      simp [readString,hfirst,Ne.symm hnul.1,htail]

private theorem readStrings_eq {a top last n fuel : Nat} {strings : List CString}
    {ptrs : List Haddr} {after : List Haddr} (hplaced : Placed m top strings ptrs last)
    (hframe : Frame m a (ptrs++0::after)) (hlast : 0<last) (hn : strings.length<n)
    (hfuel : ∀ s∈strings, s.size≤fuel) :
    readStrings m fuel n a=some (strings.map CString.bytes) := by
  induction hplaced generalizing a n with
  | nil top =>
    obtain ⟨hnull,-⟩ := frame_cons.mp hframe
    cases n with
    | zero => omega
    | succ n => simp [readStrings,hnull]
  | @cons top last s strings ptr ptrs hend hholds hrest ih =>
    rw [cons_append] at hframe
    obtain ⟨hptr,hframe⟩ := frame_cons.mp hframe
    have hle := hrest.le
    cases n with
    | zero => omega
    | succ n =>
      have hstring : readString m fuel ptr.toNat=some s.bytes := by
        apply readString_eq s.nul_free hholds
        have := hfuel s (by simp)
        unfold CString.size at this
        omega
      have htail := ih hframe hlast (by simpa using hn) fun s' hs' => hfuel s' (by simp [hs'])
      have hne : ptr.toNat≠0 := by omega
      simp [readStrings,hptr,hne,hstring,htail]

private theorem crt0Scan_eq {rdx : Haddr} {ptrs after : List Haddr} (fuel : Nat)
    (hframe : Frame m rdx.toNat (ptrs++0::after)) (hne : ∀ a∈ptrs, a.toNat≠0)
    (hfuel : ptrs.length<fuel) (hfit : rdx.toNat + 8 * ptrs.length<2 ^ 64) :
    ∃ found, crt0Scan m fuel rdx=some found ∧ found.toNat=rdx.toNat + 8 * ptrs.length := by
  induction ptrs generalizing rdx fuel with
  | nil =>
    obtain ⟨hnull,-⟩ := frame_cons.mp hframe
    cases fuel with
    | zero => omega
    | succ fuel => exact ⟨rdx,by simp [crt0Scan,hnull],by simp⟩
  | cons ptr ptrs ih =>
    rw [cons_append] at hframe
    obtain ⟨hptr,hframe⟩ := frame_cons.mp hframe
    rw [length_cons] at hfuel hfit ⊢
    have hnext : (rdx+8).toNat=rdx.toNat+8 := by bv_omega
    rw [← hnext] at hframe
    cases fuel with
    | zero => omega
    | succ fuel =>
      obtain ⟨found,hscan,hfound⟩ := ih fuel hframe (fun a ha => hne a (by simp [ha]))
        (by omega) (by omega)
      have hhead := hne ptr (by simp)
      refine ⟨found,?_,by omega⟩
      rw [crt0Scan,if_neg (by omega),hscan]

end

structure UserStack where
  bottom : Haddr
  top : Haddr
  le : bottom ≤ top
  lower : top.toNat ≤ lowerHalfEnd

def UserStack.size (stack : UserStack) : Nat := stack.top.toNat - stack.bottom.toNat

abbrev Region := Nat × Nat

def Apart (r r' : Region) : Prop := r.1 + r.2 ≤ r'.1 ∨ r'.1 + r'.2 ≤ r.1

def Region.Inside (r : Region) (bottom top : Nat) : Prop := bottom ≤ r.1 ∧ r.1 + r.2 ≤ top

/-- Where the strings are that the pointers from `a` up point to. -/
def stringRegions (m : ByteMemory) : Nat → List CString → List Region
  | _, [] => []
  | a, s :: strings => (load64 m a, s.size) :: stringRegions m (a + 8) strings

/-- The frame at `rsp`, and the strings that its two arrays point to. -/
def stackRegions (m : ByteMemory) (rsp : Nat) (args envs : List CString) : List Region :=
  (rsp, 8 * (args.length + envs.length + 4)) ::
    (stringRegions m (rsp + 8) args ++ stringRegions m (rsp + 8 * (args.length + 2)) envs)

/-- What a program finds on its stack. `fuel` bounds the steps of the loops that look for the end
of a string or of an array. -/
structure StackReady (stack : UserStack) (argc : Haddr) (args envs : List CString) (rsp : Haddr)
    (m : ByteMemory) : Prop where
  aligned : rsp.toNat % 16 = 0
  inside : stack.bottom ≤ rsp ∧ rsp < stack.top
  entry : ∀ fuel, stack.size < fuel → ∃ e, crt0 m fuel rsp = some e ∧ e.argc = argc.toNat ∧
    readStrings m fuel fuel e.argv.toNat = some (args.map CString.bytes) ∧
    readStrings m fuel fuel e.environ.toNat = some (envs.map CString.bytes)
  apart : (stackRegions m rsp.toNat args envs).Pairwise Apart
  bounded : ∀ r ∈ stackRegions m rsp.toNat args envs,
    Region.Inside r stack.bottom.toNat stack.top.toNat

section

variable {m : ByteMemory}

private theorem Placed.regions {top last a : Nat} {strings : List CString} {ptrs : List Haddr}
    (hplaced : Placed m top strings ptrs last) (hframe : Frame m a ptrs) :
    (stringRegions m a strings).Pairwise Apart ∧
      ∀ r∈stringRegions m a strings, Region.Inside r last top := by
  induction hplaced generalizing a with
  | nil top => simp [stringRegions]
  | @cons top last s strings ptr ptrs hend _ hrest ih =>
    obtain ⟨hptr,hframe⟩ := frame_cons.mp hframe
    obtain ⟨hpairs,hinside⟩ := ih hframe
    have hle := hrest.le
    rw [stringRegions,hptr]
    constructor
    · refine pairwise_cons.mpr ⟨fun r hr => .inr (hinside r hr).2,hpairs⟩
    · intro r hr
      rcases mem_cons.mp hr with rfl | hr
      · exact ⟨hle,hend.le⟩
      · have hin := hinside r hr
        exact ⟨hin.1,by have := hin.2; omega⟩

theorem alignDown_toNat (a : Haddr) : (alignDown a 16).toNat=a.toNat / 16 * 16 :=
  toNat_and_not_mask (k := 4) a (16-1) (by decide)

theorem frameSize_toNat (argc envc : Haddr) (h : argc.toNat + envc.toNat≤lowerHalfEnd) :
    (frameSize argc envc).toNat=8 * (argc.toNat + envc.toNat + 4) := by
  unfold lowerHalfEnd at h
  unfold frameSize
  bv_omega

/-- A frame that is written lies below the strings, on a multiple of 16. -/
private theorem placeFrame_spec {mapped : Haddr → Bool} {bottom stringsTop argc envc rsp : Haddr}
    {slots : List Haddr} {m' : ByteMemory} (hle : bottom ≤ stringsTop)
    (hsize : (frameSize argc envc).toNat=8 * slots.length)
    (h : (placeFrame mapped bottom stringsTop argc envc slots).Runs m rsp m') :
    rsp.toNat % 16=0 ∧ bottom≤rsp ∧ rsp.toNat + 8 * slots.length ≤ stringsTop.toNat ∧
      Frame m' rsp.toNat slots ∧ AgreeOff (InRange rsp.toNat (8 * slots.length)) m m' := by
  unfold placeFrame at h
  split at h
  · exact absurd h not_runs_stop
  · rename_i hroom
    dsimp only at h
    split at h
    · exact absurd h not_runs_stop
    · rename_i hbottom
      obtain ⟨_,t,hslots,hpure⟩ := runs_bind.mp h
      obtain ⟨rfl,rfl⟩ := runs_pure.mp hpure
      have halign := alignDown_toNat (stringsTop-frameSize argc envc)
      have hbelow : (stringsTop-frameSize argc envc).toNat+8 * slots.length =
          stringsTop.toNat := by bv_omega
      have htop := stringsTop.isLt
      have hend : (alignDown (stringsTop-frameSize argc envc) 16).toNat+8 * slots.length ≤
          stringsTop.toNat := by omega
      obtain ⟨hframe,hagree⟩ := writeSlots_spec hslots (by omega)
      exact ⟨by omega,BitVec.not_lt.mp hbottom,hend,hframe,hagree⟩

end

/-- What `prepare_user_stack` has done when it returns. -/
structure StackLaidOut (stack : UserStack) (argc : Haddr) (args envs : List CString) (rsp : Haddr)
    (m : ByteMemory) where
  argvUser : List Haddr
  envpUser : List Haddr
  argvLast : Nat
  envpLast : Nat
  argc_eq : argc.toNat = args.length
  argv_placed : Placed m stack.top.toNat args argvUser argvLast
  envp_placed : Placed m argvLast envs envpUser envpLast
  frame : Frame m rsp.toNat (frameSlots argc argvUser envpUser)
  aligned : rsp.toNat % 16 = 0
  bottom_le : stack.bottom ≤ rsp
  frame_below : rsp.toNat + 8 * (args.length + envs.length + 4) ≤ envpLast

private theorem frameSlots_length (argc : Haddr) (argvUser envpUser : List Haddr) :
    (frameSlots argc argvUser envpUser).length=argvUser.length + envpUser.length + 4 := by
  simp [frameSlots]
  omega

private theorem argvEntries_length (argc : Haddr) (argv : Option (Nat → Option CString)) :
    (argvEntries argc argv).length=argc.toNat := by
  simp [argvEntries]

private theorem prepareUserStack_laidOut {stack : UserStack} {allocs : StackAllocs}
    {mapped : Haddr → Bool} {argc rsp : Haddr} {argv : Option (Nat → Option CString)}
    {envp : StringArray} {m m' : ByteMemory}
    (h : (prepareUserStack allocs mapped stack.bottom stack.top argc argv envp).Runs m rsp m') :
    ∃ args, argvEntries argc argv=args.map some ∧
      Nonempty (StackLaidOut stack argc args (envp.getD []) rsp m') := by
  unfold prepareUserStack at h
  split at h
  · exact absurd h not_runs_stop
  obtain ⟨⟨argvTop,argvUser⟩,m₁,hargv,h⟩ := runs_bind.mp h
  obtain ⟨⟨envpTop,envpUser⟩,m₂,henvp,hframe⟩ := runs_bind.mp h
  obtain ⟨args,hargs,hplaced₁,hle₁,-⟩ := pushStrings_spec stack.le hargv
  obtain ⟨envs,henvs,hplaced₂,hle₂,hagree₂⟩ := pushStrings_spec hle₁ henvp
  dsimp only at hplaced₁ hplaced₂ hle₁ hle₂ hagree₂ hframe
  obtain rfl : envp.getD []=envs := by
    have hinj : Function.Injective (List.map (some : CString → Option CString)) :=
      map_injective_iff.mpr (Option.some_injective _)
    exact hinj henvs
  have hargc : argc.toNat=args.length := by
    rw [← argvEntries_length argc argv,hargs,length_map]
  -- Every string takes a byte, so there are few of them.
  have hcount₁ := hplaced₁.length_le
  have hcount₂ := hplaced₂.length_le
  have hlower := stack.lower
  have henvc : (stringArrayCount envp).toNat=(envp.getD []).length := by
    cases envp with
    | none => rfl
    | some strings =>
      simp only [stringArrayCount,Option.getD_some,BitVec.toNat_ofNat]
      unfold lowerHalfEnd at hlower
      simp only [Option.getD_some] at hcount₂
      omega
  have hsize := frameSize_toNat argc (stringArrayCount envp) (by omega)
  obtain ⟨haligned,hbottom,hbelow,hslots,hagree₃⟩ := placeFrame_spec hle₂
    (by rw [hsize,frameSlots_length,hplaced₁.length_eq,hplaced₂.length_eq,hargc,henvc]) hframe
  rw [frameSlots_length,hplaced₁.length_eq,hplaced₂.length_eq] at hbelow hagree₃
  have hle := hplaced₂.le
  refine ⟨args,hargs,⟨{
    argvUser, envpUser, argvLast := argvTop.toNat, envpLast := envpTop.toNat, argc_eq := hargc
    argv_placed := (hplaced₁.frame hagree₂ ?_).frame hagree₃ ?_
    envp_placed := hplaced₂.frame hagree₃ ?_
    frame := hslots, aligned := haligned, bottom_le := hbottom, frame_below := hbelow }⟩⟩
  · rintro x ⟨-,hx⟩ ⟨hlow,-⟩
    omega
  · rintro x ⟨-,hx⟩ ⟨hlow,-⟩
    omega
  · rintro x ⟨-,hx⟩ ⟨hlow,-⟩
    omega

section

variable {stack : UserStack} {argc rsp : Haddr} {args envs : List CString} {m : ByteMemory}

section

variable (l : StackLaidOut stack argc args envs rsp m)
include l

private theorem StackLaidOut.arrays : load64 m rsp.toNat=argc.toNat ∧
      Frame m (rsp.toNat + 8) (l.argvUser++0::(l.envpUser++[0, 0])) ∧
      Frame m (rsp.toNat + 8 * (args.length + 2)) (l.envpUser++0::[0]) := by
  obtain ⟨hargc,hargv⟩ := frame_cons.mp l.frame
  obtain ⟨-,htail⟩ := frame_append.mp hargv
  obtain ⟨-,henvp⟩ := frame_cons.mp htail
  rw [l.argv_placed.length_eq,show rsp.toNat+8+8 * args.length+8 =
    rsp.toNat+8 * (args.length+2) by omega] at henvp
  exact ⟨hargc,hargv,henvp⟩

private theorem StackLaidOut.fits :
    rsp.toNat + 8 * (args.length + envs.length + 4) ≤ stack.top.toNat ∧ 0<l.envpLast ∧
      l.argvLast ≤ stack.top.toNat ∧ l.envpLast≤l.argvLast := by
  have hbelow := l.frame_below
  have hargv := l.argv_placed.le
  have henvp := l.envp_placed.le
  refine ⟨?_,?_,hargv,henvp⟩ <;> omega

private theorem StackLaidOut.entry {fuel : Nat}
    (hfuel : stack.size<fuel) : ∃ e, crt0 m fuel rsp=some e ∧ e.argc=argc.toNat ∧
      readStrings m fuel fuel e.argv.toNat=some (args.map CString.bytes) ∧
      readStrings m fuel fuel e.environ.toNat=some (envs.map CString.bytes) := by
  obtain ⟨hargc,hargv,henvp⟩ := l.arrays
  obtain ⟨htop,hpos,hargvLast,henvpLast⟩ := l.fits
  have hlower := stack.lower
  have hbottom : stack.bottom.toNat≤rsp.toNat := l.bottom_le
  have hbelow := l.frame_below
  have hargCount := l.argv_placed.length_le
  have henvCount := l.envp_placed.length_le
  unfold UserStack.size at hfuel
  unfold lowerHalfEnd at hlower
  have hargvAddr : (rsp+8).toNat=rsp.toNat+8 := by bv_omega
  have hne : ∀ a∈l.argvUser, a.toNat≠0 := by
    intro a ha
    have := l.argv_placed.last_le a ha
    omega
  have hlength := l.argv_placed.length_eq
  obtain ⟨found,hscan,hfound⟩ := crt0Scan_eq fuel (hargvAddr ▸ hargv) hne (by omega)
    (by omega)
  have henvironAddr : (found+8).toNat=rsp.toNat+8 * (args.length+2) := by bv_omega
  refine ⟨⟨_,_,_⟩,by rw [crt0,hscan]; rfl,hargc,?_,?_⟩
  · rw [hargvAddr]
    apply readStrings_eq l.argv_placed hargv (by omega) (by omega)
    intro s hs
    have := l.argv_placed.size_le s hs
    omega
  · rw [henvironAddr]
    apply readStrings_eq l.envp_placed henvp hpos (by omega)
    intro s hs
    have := l.envp_placed.size_le s hs
    omega

private theorem StackLaidOut.regions : (stackRegions m rsp.toNat args envs).Pairwise Apart ∧
      ∀ r∈stackRegions m rsp.toNat args envs,
        Region.Inside r stack.bottom.toNat stack.top.toNat := by
  obtain ⟨-,hargv,henvp⟩ := l.arrays
  obtain ⟨htop,-,hargvLast,henvpLast⟩ := l.fits
  obtain ⟨hargPairs,hargIn⟩ := l.argv_placed.regions (frame_append.mp hargv).1
  obtain ⟨henvPairs,henvIn⟩ := l.envp_placed.regions (frame_append.mp henvp).1
  have hbottom : stack.bottom.toNat≤rsp.toNat := l.bottom_le
  have hbelow := l.frame_below
  constructor
  · refine pairwise_cons.mpr ⟨fun r hr => .inl ?_,pairwise_append.mpr
      ⟨hargPairs,henvPairs,fun r hr r' hr' => .inr ?_⟩⟩
    · rcases mem_append.mp hr with hr | hr
      · have := (hargIn r hr).1
        omega
      · have := (henvIn r hr).1
        omega
    · have := (hargIn r hr).1
      have := (henvIn r' hr').2
      omega
  · intro r hr
    rcases mem_cons.mp hr with rfl | hr
    · exact ⟨hbottom,htop⟩
    · rcases mem_append.mp hr with hr | hr
      · have hin := hargIn r hr
        exact ⟨by have := hin.1; omega,hin.2⟩
      · have hin := henvIn r hr
        exact ⟨by have := hin.1; omega,by have := hin.2; omega⟩

end

end

/-- When `prepare_user_stack` returns, the program finds its arguments on the stack. -/
theorem prepareUserStack_ready (stack : UserStack) (allocs : StackAllocs) (mapped : Haddr → Bool)
    (argc : Haddr) (argv : Option (Nat → Option CString)) (envp : StringArray)
    (m m' : ByteMemory) (rsp : Haddr)
    (h : (prepareUserStack allocs mapped stack.bottom stack.top argc argv envp).Runs m rsp m') :
    ∃ args, argvEntries argc argv = args.map some ∧
      StackReady stack argc args (envp.getD []) rsp m' := by
  obtain ⟨args,hargs,⟨l⟩⟩ := prepareUserStack_laidOut h
  obtain ⟨htop,-,-,-⟩ := l.fits
  have hbelow : rsp<stack.top := by
    rw [BitVec.lt_def]
    omega
  exact ⟨args,hargs,{
    aligned := l.aligned
    inside := ⟨l.bottom_le,hbelow⟩
    entry := fun fuel hfuel => l.entry hfuel
    apart := l.regions.1
    bounded := l.regions.2 }⟩

def launchStack : UserStack where
  bottom := 0x00007FFFFFFFB000
  top := 0x00007FFFFFFFF000
  le := by decide
  lower := by decide

def lsArgv (i : Nat) : Option CString :=
  [⟨[0x6C, 0x73], by decide⟩, ⟨[0x2D, 0x6C], by decide⟩][i]?

def lsEnvp : List CString := [⟨[0x41, 0x3D, 0x31], by decide⟩]

/-- The program `ls -l`, with `A=1` in its environment. -/
theorem prepareUserStack_ready_ls :
    ∃ rsp m', (prepareUserStack ⟨true, true⟩ (fun _ => true) launchStack.bottom launchStack.top 2
        (some lsArgv) (some lsEnvp)).Runs (fun _ => 0) rsp m' ∧
      ∃ args, argvEntries 2 (some lsArgv) = args.map some ∧
        StackReady launchStack 2 args lsEnvp rsp m' := by
  obtain ⟨rsp,m',hrun⟩ | ⟨e,hstop⟩ := runs_or_stops (prepareUserStack ⟨true,true⟩
    (fun _ => true) launchStack.bottom launchStack.top 2 (some lsArgv) (some lsEnvp)) fun _ => 0
  · exact ⟨rsp,m',hrun,prepareUserStack_ready _ _ _ _ _ (some lsEnvp) _ _ _ hrun⟩
  · cases hstop

end Hojicha.Elf
