import Hojicha.Framework.ByteMemory
import Hojicha.Framework.Traced

/-!
# User pointers

The checks and copies of `kernel/syscalls/syscall_utils.c`. The bound of `syscall_is_uaddr` lies
behind the end of the lower half.
-/

namespace Hojicha.Syscalls

open Framework

abbrev Haddr := BitVec 64

/-- Kernel code over the memory it sees. The trace has the addresses it dereferences. -/
abbrev Kernel (ε : Type) := Traced Haddr ε ByteMemory

def NULL : Haddr := 0
def SYSCALL_USER_STRING_MAX : Haddr := 4096
def SYSCALL_HIGHER_HALF_START : Haddr := 0xFFFF000000000000

def syscallIsUaddr (ptr len : Haddr) : Bool :=
  let start := ptr
  if SYSCALL_HIGHER_HALF_START ≤ start then false
  else if len = 0 then true
  else
    let last := start + len - 1
    if last < start then false else last < SYSCALL_HIGHER_HALF_START

def lowerHalfEnd : Nat := 2 ^ 47

/-- The bytes `[ptr, ptr + len)` do not wrap around and lie in the canonical lower half. -/
def InLowerHalf (ptr len : Haddr) : Prop := ∀ i < len.toNat, ptr.toNat + i < lowerHalfEnd

theorem syscallIsUaddr_iff (ptr len : Haddr) :
    syscallIsUaddr ptr len=true ↔ ptr<SYSCALL_HIGHER_HALF_START ∧
      ptr.toNat + len.toNat≤SYSCALL_HIGHER_HALF_START.toNat := by
  have hptr := ptr.isLt
  have hlen := len.isLt
  by_cases hstart : SYSCALL_HIGHER_HALF_START≤ptr
  · have hnot : ¬ ptr<SYSCALL_HIGHER_HALF_START := by bv_omega
    simp [syscallIsUaddr,hstart,hnot]
  · by_cases hzero : len=0
    · have hle : ptr.toNat+len.toNat≤SYSCALL_HIGHER_HALF_START.toNat := by bv_omega
      have hlt : ptr<SYSCALL_HIGHER_HALF_START := by bv_omega
      simp only [syscallIsUaddr,hstart,hzero,if_true,if_false,true_iff]
      exact ⟨hlt,by simpa [hzero] using hle⟩
    · simp only [syscallIsUaddr,hstart,hzero,if_false]
      by_cases hwrap : ptr+len-1<ptr
      · simp only [hwrap,if_true,Bool.false_eq_true,false_iff,not_and]
        intro _
        simp only [SYSCALL_HIGHER_HALF_START] at hstart ⊢
        bv_omega
      · simp only [hwrap,if_false,decide_eq_true_eq]
        simp only [SYSCALL_HIGHER_HALF_START] at hstart ⊢
        bv_omega

section

variable {ε : Type}

def readByte (a : Haddr) : Kernel ε UInt8 := do
  Traced.note a
  Traced.peek fun m => m a.toNat

def readBytes (src : Haddr) : Nat → Kernel ε (List UInt8)
  | 0 => return []
  | n + 1 => do
    let first ← readByte src
    let rest ← readBytes (src + 1) n
    return first :: rest

def bytesAt (m : ByteMemory) (src : Haddr) (n : Nat) : List UInt8 :=
  (List.range n).map fun i => m (src + BitVec.ofNat 64 i).toNat

variable {p : Haddr → Prop} {m m' : ByteMemory}

@[simp] theorem runs_readByte (a : Haddr) (b : UInt8) :
    (readByte a : Kernel ε UInt8).Runs m b m' ↔ b=m a.toNat ∧ m'=m := by
  simp [readByte,Traced.runs_bind]

@[simp] theorem within_readByte (a : Haddr) : (readByte a : Kernel ε UInt8).Within p m ↔ p a := by
  simp [readByte,Traced.within_bind]

@[simp] theorem not_stops_readByte (a : Haddr) (e : ε) :
    ¬ (readByte a : Kernel ε UInt8).Stops m e := by
  simp [readByte,Traced.stops_bind]

theorem add_one_add (src : Haddr) (i : Nat) :
    src + 1 + BitVec.ofNat 64 i=src + BitVec.ofNat 64 (i + 1) := by
  rw [Nat.add_comm,BitVec.ofNat_add,BitVec.add_assoc]
  rfl

theorem forall_add_succ (src : Haddr) (n : Nat) :
    (∀ i<n + 1, p (src + BitVec.ofNat 64 i)) ↔
      p src ∧ ∀ i<n, p (src + 1 + BitVec.ofNat 64 i) := by
  simp only [add_one_add]
  rw [Nat.forall_lt_succ_left']
  simp only [BitVec.add_zero]

theorem bytesAt_succ (m : ByteMemory) (src : Haddr) (n : Nat) :
    bytesAt m src (n + 1)=m src.toNat::bytesAt m (src + 1) n := by
  simp only [bytesAt,List.range_succ_eq_map,List.map_cons,List.map_map,add_one_add]
  simp [Function.comp_def]

theorem readBytes_runs (m : ByteMemory) (src : Haddr) (n : Nat) :
    (readBytes src n : Kernel ε (List UInt8)).Runs m (bytesAt m src n) m := by
  induction n generalizing src with
  | zero => simp [readBytes,bytesAt]
  | succ n ih =>
    rw [readBytes,bytesAt_succ,((runs_readByte _ _).mpr ⟨rfl,rfl⟩).bind_iff,(ih _).bind_iff]
    exact Traced.runs_pure.mpr ⟨rfl,rfl⟩

@[simp] theorem within_readBytes (src : Haddr) (n : Nat) :
    (readBytes src n : Kernel ε (List UInt8)).Within p m ↔
      ∀ i<n, p (src + BitVec.ofNat 64 i) := by
  induction n generalizing src with
  | zero => simp [readBytes]
  | succ n ih =>
    rw [forall_add_succ,← ih,readBytes]
    simp [Traced.within_bind]

@[simp] theorem not_stops_readBytes (src : Haddr) (n : Nat) (e : ε) :
    ¬ (readBytes src n : Kernel ε (List UInt8)).Stops m e := by
  induction n generalizing src with
  | zero => simp [readBytes]
  | succ n ih => simp [readBytes,Traced.stops_bind,ih]

/-- `calloc` says whether the allocation succeeds. -/
def syscallUtokMemcpy (calloc : Bool) (src len : Haddr) : Kernel ε (Option (List UInt8)) :=
  if src = NULL ∧ 0 < len then return none
  else if !syscallIsUaddr src len then return none
  else if !calloc then return none
  else if len = 0 then return some [0]
  else do
    let dst ← readBytes src len.toNat
    return some dst

/-- The loop `while (len < max_len && src[len] != '\0')` from some `src + len` on, with `max_len -
len` given. -/
def countToNul (src : Haddr) : Nat → Kernel ε Nat
  | 0 => return 0
  | left + 1 => do
    if (← readByte src) = 0 then return 0
    return (← countToNul (src + 1) left) + 1

def syscallUtokStrcpy (calloc : Bool) (src maxLen : Haddr) : Kernel ε (Option (List UInt8)) :=
  if src = NULL ∨ maxLen = 0 then return none
  else if !syscallIsUaddr src maxLen then return none
  else do
    let len ← countToNul src maxLen.toNat
    if !calloc then return none
    let copyLen := if len < maxLen.toNat then len else maxLen.toNat - 1
    let dst ← readBytes src copyLen
    return some (dst ++ [0])

theorem countToNul_runs {src : Haddr} {k left : Nat} (hle : k≤left)
    (hnul : ∀ i<k, m (src + BitVec.ofNat 64 i).toNat≠0)
    (hend : k<left → m (src + BitVec.ofNat 64 k).toNat=0) :
    (countToNul src left : Kernel ε Nat).Runs m k m := by
  induction left generalizing src k with
  | zero =>
    obtain rfl := Nat.le_zero.mp hle
    simp [countToNul]
  | succ left ih =>
    rw [countToNul,((runs_readByte _ _).mpr ⟨rfl,rfl⟩).bind_iff]
    cases k with
    | zero =>
      rw [if_pos (by simpa using hend (Nat.succ_pos left))]
      exact Traced.runs_pure.mpr ⟨rfl,rfl⟩
    | succ k =>
      obtain ⟨hfirst,hrest⟩ := (forall_add_succ (p := fun a => m a.toNat≠0) src k).mp hnul
      have hcount := ih (Nat.le_of_succ_le_succ hle) hrest fun hk => by
        rw [add_one_add]
        exact hend (Nat.succ_lt_succ hk)
      rw [if_neg hfirst,hcount.bind_iff]
      exact Traced.runs_pure.mpr ⟨rfl,rfl⟩

theorem syscallUtokStrcpy_runs {src maxLen : Haddr} {k : Nat} (hnull : src≠NULL)
    (hmax : maxLen≠0) (haccept : syscallIsUaddr src maxLen=true) (hle : k ≤ maxLen.toNat)
    (hnul : ∀ i<k, m (src + BitVec.ofNat 64 i).toNat≠0)
    (hend : k < maxLen.toNat → m (src + BitVec.ofNat 64 k).toNat=0) :
    (syscallUtokStrcpy true src maxLen : Kernel ε _).Runs m
      (some (bytesAt m src (if k < maxLen.toNat then k else maxLen.toNat - 1)++[0])) m := by
  rw [syscallUtokStrcpy,if_neg (not_or.mpr ⟨hnull,hmax⟩),if_neg (by simp [haccept]),
    (countToNul_runs hle hnul hend).bind_iff]
  simp only [Bool.not_true,Bool.false_eq_true,if_false]
  rw [(readBytes_runs _ _ _).bind_iff]
  exact Traced.runs_pure.mpr ⟨rfl,rfl⟩

/-- The scan reads only bytes before the limit, wherever the string ends. -/
theorem countToNul_within {src : Haddr} {left : Nat}
    (h : ∀ i<left, p (src + BitVec.ofNat 64 i)) :
    (countToNul src left : Kernel ε Nat).Within p m := by
  induction left generalizing src m with
  | zero => simp [countToNul]
  | succ left ih =>
    obtain ⟨hfirst,hrest⟩ := (forall_add_succ src left).mp h
    rw [countToNul,Traced.within_bind]
    refine ⟨(within_readByte src).mpr hfirst,fun b t _ => ?_⟩
    split
    · exact Traced.within_pure
    · rw [Traced.within_bind]
      exact ⟨ih hrest,fun _ _ _ => Traced.within_pure⟩

theorem countToNul_le {src : Haddr} {left n : Nat}
    (h : (countToNul src left : Kernel ε Nat).Runs m n m') : n≤left := by
  induction left generalizing src m n m' with
  | zero => simp [countToNul] at h; omega
  | succ left ih =>
    rw [countToNul,Traced.runs_bind] at h
    obtain ⟨b,t,_,h⟩ := h
    split at h
    · have hzero := (Traced.runs_pure.mp h).1
      omega
    · obtain ⟨k,t',hrest,hpure⟩ := Traced.runs_bind.mp h
      have hk := ih hrest
      have hn := (Traced.runs_pure.mp hpure).1
      omega

/-- The copies dereference nothing but the buffer that the check accepted. -/
theorem syscallUtokMemcpy_within {calloc : Bool} {src len : Haddr}
    (h : syscallIsUaddr src len=true → ∀ i<len.toNat, p (src + BitVec.ofNat 64 i)) :
    (syscallUtokMemcpy calloc src len : Kernel ε _).Within p m := by
  unfold syscallUtokMemcpy
  split_ifs with hnull haccept hcalloc hzero
  all_goals try exact Traced.within_pure
  rw [Traced.within_bind]
  refine ⟨(within_readBytes _ _).mpr (h (by simpa using haccept)),fun _ _ _ => Traced.within_pure⟩

theorem syscallUtokStrcpy_within {calloc : Bool} {src maxLen : Haddr}
    (h : syscallIsUaddr src maxLen=true → ∀ i < maxLen.toNat, p (src + BitVec.ofNat 64 i)) :
    (syscallUtokStrcpy calloc src maxLen : Kernel ε _).Within p m := by
  unfold syscallUtokStrcpy
  by_cases hnull : src=NULL ∨ maxLen=0
  · simp only [hnull,if_true]
    exact Traced.within_pure
  by_cases haccept : syscallIsUaddr src maxLen=true
  · have hbyte := h haccept
    simp only [hnull,haccept,Bool.not_true,Bool.false_eq_true,if_false]
    rw [Traced.within_bind]
    refine ⟨countToNul_within hbyte,fun len t hlen => ?_⟩
    have hle := countToNul_le hlen
    split
    · exact Traced.within_pure
    · rw [Traced.within_bind]
      refine ⟨(within_readBytes _ _).mpr fun i hi => hbyte i ?_,fun _ _ _ => Traced.within_pure⟩
      split_ifs at hi <;> omega
  · simp only [hnull,haccept,Bool.not_false,if_true,if_false]
    exact Traced.within_pure

end

def IsLower (a : Haddr) : Prop := a.toNat < lowerHalfEnd

theorem InLowerHalf.isLower {ptr len : Haddr} (h : InLowerHalf ptr len) :
    ∀ i<len.toNat, IsLower (ptr + BitVec.ofNat 64 i) := by
  intro i hi
  have hbyte := h i hi
  unfold lowerHalfEnd at hbyte
  have hsum : (ptr+BitVec.ofNat 64 i).toNat=ptr.toNat+i := by
    rw [BitVec.toNat_add,BitVec.toNat_ofNat]
    omega
  rw [IsLower,hsum]
  exact hbyte

/-- A buffer that the check accepts lies in the canonical lower half, and so does every byte that
the copies read on its account. -/
structure UserBufferSafe (ptr len : Haddr) : Prop where
  accepted : syscallIsUaddr ptr len = true → InLowerHalf ptr len
  memcpy : ∀ calloc m, (syscallUtokMemcpy calloc ptr len : Kernel Empty _).Within IsLower m
  strcpy : ∀ calloc m, (syscallUtokStrcpy calloc ptr len : Kernel Empty _).Within IsLower m

theorem UserBufferSafe.of_accepted {ptr len : Haddr}
    (h : syscallIsUaddr ptr len=true → InLowerHalf ptr len) : UserBufferSafe ptr len where
  accepted := h
  memcpy _ _ := syscallUtokMemcpy_within fun haccept => (h haccept).isLower
  strcpy _ _ := syscallUtokStrcpy_within fun haccept => (h haccept).isLower

theorem inLowerHalf_iff (ptr len : Haddr) :
    InLowerHalf ptr len ↔ len=0 ∨ ptr.toNat + len.toNat≤lowerHalfEnd := by
  constructor
  · intro h
    by_cases hzero : len=0
    · exact .inl hzero
    · have hpos : 0<len.toNat := by bv_omega
      have hlast := h (len.toNat-1) (by omega)
      exact .inr (by omega)
  · rintro (rfl | h) i hi
    · simp at hi
    · omega

/-- An accepted buffer is in the lower half unless it is not empty and ends in the gap between the
end of the lower half and the bound of the check. -/
theorem userBufferSafe_iff (ptr len : Haddr) :
    UserBufferSafe ptr len ↔ len = 0 ∨ ptr.toNat + len.toNat ≤ lowerHalfEnd ∨
      SYSCALL_HIGHER_HALF_START.toNat < ptr.toNat + len.toNat := by
  have hiff := syscallIsUaddr_iff ptr len
  constructor
  · intro h
    by_cases haccept : syscallIsUaddr ptr len=true
    · rcases (inLowerHalf_iff ptr len).mp (h.accepted haccept) with hzero | hle
      · exact .inl hzero
      · exact .inr (.inl hle)
    · rw [hiff] at haccept
      simp only [SYSCALL_HIGHER_HALF_START] at haccept ⊢
      bv_omega
  · intro h
    apply UserBufferSafe.of_accepted
    intro haccept
    rw [inLowerHalf_iff]
    have hle := (hiff.mp haccept).2
    rcases h with h | h | h
    · exact .inl h
    · exact .inr h
    · omega

/-- One byte at the first address behind the lower half is accepted. -/
theorem gap_byte_accepted : syscallIsUaddr (BitVec.ofNat 64 (2 ^ 47)) 1 = true ∧
    ¬ UserBufferSafe (BitVec.ofNat 64 (2 ^ 47)) 1 := by
  refine ⟨by decide,fun h => ?_⟩
  have hbyte := h.accepted (by decide) 0 (by decide)
  exact absurd hbyte (by decide)

structure UserString (m : ByteMemory) (src : Haddr) (s : List UInt8) : Prop where
  bytes : bytesAt m src s.length = s
  ends : m (src + BitVec.ofNat 64 s.length).toNat = 0
  nul_free : 0 ∉ s

def Refused (calloc : Bool) (src maxLen : Haddr) : Prop :=
  src = NULL ∨ maxLen = 0 ∨ syscallIsUaddr src maxLen = false ∨ calloc = false

section

variable {m : ByteMemory} {src : Haddr} {s : List UInt8}

theorem length_bytesAt (n : Nat) : (bytesAt m src n).length=n := by
  rw [bytesAt,List.length_map,List.length_range]

theorem UserString.ne_zero (hs : UserString m src s) :
    ∀ i<s.length, m (src + BitVec.ofNat 64 i).toNat≠0 := by
  intro i hi hzero
  refine hs.nul_free ?_
  rw [← hzero,← hs.bytes]
  exact List.mem_map_of_mem (List.mem_range.mpr hi)

theorem not_runs_of_refused {calloc : Bool} {maxLen : Haddr} (h : Refused calloc src maxLen)
    (copy : List UInt8) (m' : ByteMemory) :
    ¬ (syscallUtokStrcpy calloc src maxLen : Kernel Empty _).Runs m (some copy) m' := by
  unfold syscallUtokStrcpy
  split_ifs with hnull haccept hcalloc
  · simp
  · simp
  · simp [Traced.runs_bind]
  · simp_all [Refused]

/-- A copy is the whole string exactly when the string ends before the limit. -/
theorem strcpy_copies_whole_iff (calloc : Bool) (maxLen : Haddr) (hs : UserString m src s) :
    (∀ copy m', (syscallUtokStrcpy calloc src maxLen : Kernel Empty _).Runs m (some copy) m' →
      copy = s ++ [0]) ↔ s.length < maxLen.toNat ∨ Refused calloc src maxLen := by
  by_cases hrefused : Refused calloc src maxLen
  · exact iff_of_true (fun copy m' h => absurd h (not_runs_of_refused hrefused copy m'))
      (.inr hrefused)
  obtain ⟨hnull,hmax,haccept,rfl⟩ : src≠NULL ∧ maxLen≠0 ∧
      syscallIsUaddr src maxLen=true ∧ calloc=true := by simpa [Refused] using hrefused
  rw [or_iff_left hrefused]
  by_cases hlen : s.length < maxLen.toNat
  · have hrun := syscallUtokStrcpy_runs (ε := Empty) hnull hmax haccept hlen.le hs.ne_zero
      fun _ => hs.ends
    rw [if_pos hlen,hs.bytes] at hrun
    refine iff_of_true (fun copy m' h => ?_) hlen
    exact Option.some.inj (hrun.unique h).1
  · have hrun := syscallUtokStrcpy_runs (ε := Empty) hnull hmax haccept le_rfl
      (fun i hi => hs.ne_zero i (hi.trans_le (not_lt.mp hlen))) fun h => absurd h (lt_irrefl _)
    refine iff_of_false (fun h => ?_) hlen
    have hlength := congrArg List.length (h _ _ hrun)
    rw [List.length_append,length_bytesAt,List.length_append,if_neg (lt_irrefl _)] at hlength
    have hpos : maxLen.toNat≠0 := fun h => hmax (BitVec.eq_of_toNat_eq h)
    omega

theorem strcpy_copies_whole_letter :
    (∀ copy m', (syscallUtokStrcpy true 4096 SYSCALL_USER_STRING_MAX : Kernel Empty _).Runs
      (fun a => if a = 4096 then 97 else 0) (some copy) m' → copy = [97] ++ [0]) ↔
      [97].length < SYSCALL_USER_STRING_MAX.toNat ∨ Refused true 4096 SYSCALL_USER_STRING_MAX :=
  strcpy_copies_whole_iff true SYSCALL_USER_STRING_MAX ⟨rfl,rfl,by decide⟩

/-- The copy of a path of 4096 bytes is one byte short. -/
theorem long_path_shortened :
    ∃ m, UserString m 4096 (List.replicate 4096 97) ∧
      (syscallUtokStrcpy true 4096 SYSCALL_USER_STRING_MAX : Kernel Empty _).Runs m
        (some (List.replicate 4095 97 ++ [0])) m := by
  have haddr (i : Nat) (hi : i≤4096) : (4096+BitVec.ofNat 64 i).toNat=4096+i := by
    rw [BitVec.toNat_add,BitVec.toNat_ofNat,show BitVec.toNat 4096=4096 from rfl]
    omega
  let m : ByteMemory := fun a => if a<8192 then 97 else 0
  have hbytes (n : Nat) (hn : n≤4096) : bytesAt m 4096 n=List.replicate n 97 := by
    refine List.eq_replicate_iff.mpr ⟨length_bytesAt n,fun b hb => ?_⟩
    obtain ⟨i,hi,rfl⟩ := List.mem_map.mp hb
    rw [List.mem_range] at hi
    rw [haddr i (by omega)]
    exact if_pos (by omega)
  have hend : m (4096+BitVec.ofNat 64 4096).toNat=0 := by rw [haddr 4096 le_rfl]; rfl
  have hs : UserString m 4096 (List.replicate 4096 97) := by
    refine ⟨?_,?_,fun h => absurd (List.eq_of_mem_replicate h) (by decide)⟩
    · rw [List.length_replicate]
      exact hbytes 4096 le_rfl
    · rwa [List.length_replicate]
  refine ⟨m,hs,?_⟩
  have hnul := hs.ne_zero
  rw [List.length_replicate] at hnul
  have hle : 4096≤SYSCALL_USER_STRING_MAX.toNat := by decide
  have hrun := syscallUtokStrcpy_runs (ε := Empty) (by decide) (by decide) (by decide) hle hnul
    fun _ => hend
  rwa [if_neg (by decide),hbytes _ (by decide)] at hrun

end

end Hojicha.Syscalls
