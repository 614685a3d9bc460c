import Hojicha.Vmm.Model

/-!
# What the flags mean for the hardware
-/

namespace Hojicha.Vmm

open Framework.Paging BitVec

private theorem and_bit (e : Haddr) {k : Nat} (hk : k<64) :
    (e &&& (1#64 <<< k) != 0)=e.getLsbD k := by
  have hbit (i : Nat) : (e &&& (1#64 <<< k)).getLsbD i=(e.getLsbD i && decide (i=k)) := by
    rw [getLsbD_and,getLsbD_shiftLeft,getLsbD_one]
    by_cases hik : i=k
    · simp [hik,hk]
    · by_cases h : i<k
      · simp [h,hik]
      · have hpos : ¬ i-k=0 := by omega
        simp [hik,hpos]
  cases hek : e.getLsbD k with
  | true =>
    rw [bne_iff_ne]
    intro hzero
    have hk' := hbit k
    rw [hzero,hek] at hk'
    simp at hk'
  | false =>
    rw [bne_eq_false_iff_eq]
    apply eq_of_getLsbD_eq
    intro i hi
    rw [hbit]
    by_cases hik : i=k
    · simp [hik,hek]
    · simp [hik]

@[simp]
theorem entryIsPresent_eq (e : Haddr) : entryIsPresent e=isPresent e := by
  have hbit := and_bit e (k := 0) (by decide)
  have hone : PAGE_PRESENT=1#64 <<< 0 := by decide
  rw [entryIsPresent,hone,isPresent,← hbit]
  have hcases (x : Haddr) : x &&& 1#64=0 ∨ x &&& 1#64=1#64 := by
    rw [and_one_eq_setWidth_ofBool_getLsbD]
    cases x.getLsbD 0 <;> decide
  rcases hcases e with h | h <;> simp [h]

theorem hasFlag_user (e : Haddr) : hasFlag e PAGE_USER_ACCESIBLE=isUser e :=
  and_bit e (k := 2) (by decide)

theorem hasFlag_noExec (e : Haddr) : hasFlag e PAGE_NO_EXECUTE=isNoExec e :=
  and_bit e (k := 63) (by decide)

theorem hasFlag_mapped {e : Haddr} (h : isPresent e=true) :
    hasFlag e (PAGE_PRESENT ||| PAGE_WRITABLE)=true := by
  rw [hasFlag,bne_iff_ne]
  intro hzero
  have hbit := congrArg isPresent hzero
  rw [isPresent_and,h] at hbit
  exact absurd hbit (by decide)

theorem target_entryPhys (e : Haddr) : target (entryPhys e)=target e := by
  rw [entryPhys,target_and]
  have hmask : target ENTRY_PHYS_MASK=allOnes 40 := by decide
  rw [hmask,and_allOnes]

theorem entryPhys_eq (e : Haddr) : entryPhys e=address (target e) := by
  apply eq_of_getLsbD_eq
  intro i hi
  have hmask : ∀ k<64, ENTRY_PHYS_MASK.getLsbD k=(decide (12≤k) && decide (k<52)) := by
    decide
  rw [entryPhys,getLsbD_and,hmask i hi]
  simp only [address,target,getLsbD_shiftLeft,getLsbD_setWidth,
    getLsbD_extractLsb']
  by_cases h1 : i<12
  · have : ¬ 12 ≤ i := by omega
    simp [h1,this]
  · have h2 : 12 ≤ i := by omega
    have h3 : 12+(i-12)=i := by omega
    have h4 : i-12<64 := by omega
    by_cases h5 : i<52
    · have : i-12<40 := by omega
      simp [h1,h2,h3,h4,h5,this,hi]
    · have : ¬ i-12<40 := by omega
      simp [h1,h2,h5,this]

theorem isPresent_entryFlags (e : Haddr) : isPresent (entryFlags e)=isPresent e := by
  rw [entryFlags,isPresent_and]
  have : isPresent (~~~ENTRY_PHYS_MASK)=true := by decide
  rw [this,Bool.and_true]

theorem target_entryFlags (e : Haddr) : target (entryFlags e)=0 := by
  rw [entryFlags,target_and]
  have : target (~~~ENTRY_PHYS_MASK)=0 := by decide
  rw [this]
  simp

/-- What the hardware reads of an entry. -/
structure Bits where
  present : Bool
  writable : Bool
  target : Frame
  user : Bool
  noExec : Bool

def bits (e : Word) : Bits := ⟨isPresent e, isWritable e, target e, isUser e, isNoExec e⟩

variable (virt flags : Haddr) (e : Word)

private theorem bits_and_not {bit : Haddr} (hp : isPresent (~~~bit)=true)
    (hw : isWritable (~~~bit)=true) (ht : target (~~~bit)=BitVec.allOnes 40) :
    bits (e &&& ~~~bit)=⟨isPresent e, isWritable e, target e, isUser e && isUser (~~~bit),
      isNoExec e && isNoExec (~~~bit)⟩ := by
  simp only [bits,isPresent_and,isWritable_and,target_and,isUser_and,isNoExec_and,hp,hw,ht,
    Bool.and_true,and_allOnes]

private theorem bits_or {bit : Haddr} (hp : isPresent bit=false) (hw : isWritable bit=false)
    (ht : target bit=0) :
    bits (e ||| bit)=⟨isPresent e, isWritable e, target e, isUser e || isUser bit,
      isNoExec e || isNoExec bit⟩ := by
  simp only [bits,isPresent_or,isWritable_or,target_or,isUser_or,isNoExec_or,hp,hw,ht,
    Bool.or_false,ofNat_eq_ofNat,or_zero]

theorem bits_clear_executable : bits (e &&& ~~~PAGE_EXECUTABLE)=bits e := by
  rw [bits_and_not e (by decide) (by decide) (by decide)]
  have h : isUser (~~~PAGE_EXECUTABLE)=true ∧ isNoExec (~~~PAGE_EXECUTABLE)=true := by decide
  simp [bits,h]

theorem bits_clear_user :
    bits (e &&& ~~~PAGE_USER_ACCESIBLE) = { bits e with user := false } := by
  rw [bits_and_not e (by decide) (by decide) (by decide)]
  have h : isUser (~~~PAGE_USER_ACCESIBLE)=false ∧ isNoExec (~~~PAGE_USER_ACCESIBLE)=true := by
    decide
  simp [bits,h]

theorem bits_clear_noExec : bits (e &&& ~~~PAGE_NO_EXECUTE) = { bits e with noExec := false } := by
  rw [bits_and_not e (by decide) (by decide) (by decide)]
  have h : isUser (~~~PAGE_NO_EXECUTE)=true ∧ isNoExec (~~~PAGE_NO_EXECUTE)=false := by decide
  simp [bits,h]

theorem bits_set_noExec : bits (e ||| PAGE_NO_EXECUTE) = { bits e with noExec := true } := by
  rw [bits_or e (by decide) (by decide) (by decide)]
  have h : isUser PAGE_NO_EXECUTE=false ∧ isNoExec PAGE_NO_EXECUTE=true := by decide
  simp [bits,h]

theorem bits_set_user : bits (e ||| PAGE_USER_ACCESIBLE) = { bits e with user := true } := by
  rw [bits_or e (by decide) (by decide) (by decide)]
  have h : isUser PAGE_USER_ACCESIBLE=true ∧ isNoExec PAGE_USER_ACCESIBLE=false := by decide
  simp [bits,h]

theorem bits_normalizeTableFlags :
    bits (normalizeTableFlags virt flags)=⟨true, true, 0, isUser flags && !isHigherHalf virt,
      isHigherHalf virt && !hasFlag flags PAGE_EXECUTABLE⟩ := by
  have hbase : bits (PAGE_PRESENT ||| PAGE_WRITABLE)=⟨true,true,0,false,false⟩ := rfl
  rw [normalizeTableFlags,hasFlag_user]
  cases isUser flags <;> cases isHigherHalf virt <;> cases hasFlag flags PAGE_EXECUTABLE <;>
    simp [bits_set_user,bits_set_noExec,bits_clear_noExec,hbase]

theorem bits_normalizeLeafFlags :
    bits (normalizeLeafFlags virt flags)=⟨isPresent flags, isWritable flags, target flags,
      isUser flags && !isHigherHalf virt,
      !hasFlag flags PAGE_EXECUTABLE && (isHigherHalf virt || isNoExec flags)⟩ := by
  rw [normalizeLeafFlags]
  cases isHigherHalf virt <;> cases hasFlag flags PAGE_EXECUTABLE <;>
    simp [bits_clear_user,bits_set_noExec,bits_clear_noExec,bits_clear_executable] <;>
    simp [bits]

/-- What `clear_nx` and `set_user_access` make of an entry. -/
def loosen : Word :=
  let e := if hasFlag flags PAGE_EXECUTABLE && hasFlag e PAGE_NO_EXECUTE then
      e &&& ~~~PAGE_NO_EXECUTE else e
  if hasFlag flags PAGE_USER_ACCESIBLE && !isHigherHalf virt && !hasFlag e PAGE_USER_ACCESIBLE then
    e ||| PAGE_USER_ACCESIBLE else e

theorem bits_loosen :
    bits (loosen virt flags e)=⟨isPresent e, isWritable e, target e,
      isUser e || isUser flags && !isHigherHalf virt,
      isNoExec e && !hasFlag flags PAGE_EXECUTABLE⟩ := by
  have huser : isUser (e &&& ~~~PAGE_NO_EXECUTE)=isUser e :=
    congrArg Bits.user (bits_clear_noExec e)
  rw [loosen,hasFlag_user,hasFlag_user,hasFlag_noExec]
  cases hx : hasFlag flags PAGE_EXECUTABLE <;> cases hn : isNoExec e <;> cases isUser flags <;>
    cases isHigherHalf virt <;> cases hu : isUser e <;>
    simp [bits_set_user,bits_clear_noExec,huser,hu] <;> simp [bits,hn,hu]

theorem loosen_zero : loosen virt 0 e=e := by
  have h1 : hasFlag 0 PAGE_EXECUTABLE=false := by decide
  have h2 : hasFlag 0 PAGE_USER_ACCESIBLE=false := by decide
  simp only [loosen,h1,h2,Bool.false_and,Bool.false_eq_true,if_false]

/-- An entry that was just made needs no loosening. -/
theorem loosen_normalizeTableFlags (f : Frame) :
    loosen virt flags (address f ||| normalizeTableFlags virt flags) =
      address f ||| normalizeTableFlags virt flags := by
  have hbits := bits_normalizeTableFlags virt flags
  have hu := congrArg Bits.user hbits
  have hx := congrArg Bits.noExec hbits
  simp only [bits] at hu hx
  rw [loosen,hasFlag_noExec,hasFlag_user]
  simp only [isNoExec_or,isNoExec_address,hx,Bool.false_or]
  have h1 : (hasFlag flags PAGE_EXECUTABLE && (isHigherHalf virt && !hasFlag flags PAGE_EXECUTABLE)) =
      false := by
    cases hasFlag flags PAGE_EXECUTABLE <;> simp
  rw [h1]
  simp only [Bool.false_eq_true,if_false,hasFlag_user,isUser_or,isUser_address,hu,Bool.false_or]
  cases isUser flags <;> cases isHigherHalf virt <;> simp

end Hojicha.Vmm
