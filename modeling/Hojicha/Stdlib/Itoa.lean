import Hojicha.Stdio.Vformat

/-!
# What `itoa` writes

The remainders of a negative number are negative, and `itoa` negates a number for the base 10 only.
The least number is still negative then.
-/

namespace Hojicha.Stdlib

open List Stdio

def baseLetter : Nat → Char
  | 16 => 'x'
  | 10 => 'd'
  | 8 => 'o'
  | _ => 'b'

/-- The text is the number in the base: digits that are valid in the base behind the prefix. -/
def Decodes (base : Nat) (text : List Char) (value : Int) : Prop :=
  ∃ (negative : Bool) (ds : List Nat), (∀ d ∈ ds, d < base) ∧ ds ≠ [] ∧
    text = (if negative then ['-'] else []) ++ '0' :: baseLetter base :: ds.map Nat.digitChar ∧
    value = (if negative then -1 else 1) * ((Nat.ofDigits base ds.reverse : Nat) : Int)

variable {base n v : Nat} {num : BitVec 64}

theorem itoaDigits_natCast (hbase : 1<base) (hle : base≤16) (hv : v<2 ^ n) :
    itoaDigits base n v=(Nat.digits base v).map Nat.digitChar := by
  have hdigit : ∀ r : Nat, r<16 →
      Char.ofNat (if (r : Int) > 9 then (r : Int)-10+97 else r+48).toNat=Nat.digitChar r := by
    decide
  induction n generalizing v with
  | zero =>
    obtain rfl : v=0 := by omega
    simp [itoaDigits]
  | succ n ih =>
    rcases Nat.eq_zero_or_pos v with rfl | hpos
    · simp [itoaDigits]
    · have hhalf : v / base≤v / 2 := Nat.div_le_div_left hbase (by decide)
      have hr : v % base<16 := (Nat.mod_lt v (by omega)).trans_le hle
      rw [itoaDigits,if_neg (by omega),← Int.ofNat_tmod,← Int.ofNat_tdiv,ih (by omega),
        hdigit _ hr,Nat.digits_def' hbase hpos,map_cons]

theorem exists_mem_itoaDigits_neg (hbase : 1<base) (hpos : 0<v) (hv : v<2 ^ n) :
    ∃ c∈itoaDigits base n (-v), c.toNat<48 := by
  have hchar : ∀ r : Nat, r<48 → (Char.ofNat r).toNat<48 := by decide
  induction n generalizing v with
  | zero => omega
  | succ n ih =>
    have hhalf : v / base≤v / 2 := Nat.div_le_div_left hbase (by decide)
    have hsplit := Nat.div_add_mod v base
    rw [itoaDigits,if_neg (by omega),Int.neg_tmod,Int.neg_tdiv,← Int.ofNat_tmod,← Int.ofNat_tdiv]
    by_cases hr : v % base=0
    · have hnext : 0<v / base := Nat.pos_of_ne_zero fun h => by rw [h,hr] at hsplit; omega
      obtain ⟨c,hc,hlt⟩ := ih hnext (by omega)
      exact ⟨c,mem_cons_of_mem _ hc,hlt⟩
    · refine ⟨_,mem_cons_self,?_⟩
      rw [if_neg (by omega)]
      exact hchar _ (by omega)

def magnitude (num : BitVec 64) (base : Nat) : BitVec 64 :=
  if num.slt 0 && base == 10 then -num else num

def digitsOf (base : Nat) (x : BitVec 64) : List Char :=
  if x = 0 then ['0'] else itoaDigits base 64 x.toInt

theorem itoa_eq (hbase : base∈[2, 8, 10, 16]) :
    itoa num base=(if num.slt 0 && base == 10 then ['-'] else []) ++ '0'::baseLetter base ::
      (digitsOf base (magnitude num base)).reverse := by
  simp only [mem_cons,not_mem_nil,or_false] at hbase
  unfold itoa
  dsimp only
  rw [← magnitude,← digitsOf]
  rcases hbase with rfl | rfl | rfl | rfl <;> cases num.slt 0 <;> simp [baseLetter]

theorem toInt_eq_toNat {x : BitVec 64} (hx : 0≤x.toInt) : x.toInt=x.toNat := by
  have hlt := x.isLt
  rw [BitVec.toInt_eq_toNat_cond] at hx ⊢
  omega

theorem digitsOf_of_nonneg (hbase : 1<base) (hle : base≤16) {x : BitVec 64}
    (hx : 0≤x.toInt) : ∃ ds : List Nat, (∀ d∈ds, d<base) ∧ ds≠[] ∧
      (digitsOf base x).reverse=ds.map Nat.digitChar ∧
      Nat.ofDigits base ds.reverse=x.toNat := by
  by_cases hzero : x=0
  · refine ⟨[0],by simp; omega,by simp,?_,by simp [hzero]⟩
    rw [digitsOf,if_pos hzero]
    rfl
  · refine ⟨(Nat.digits base x.toNat).reverse,?_,?_,?_,?_⟩
    · intro d hd
      exact Nat.digits_lt_base hbase (mem_reverse.mp hd)
    · simpa [Nat.digits_eq_nil_iff_eq_zero] using fun h => hzero (BitVec.eq_of_toNat_eq h)
    · rw [digitsOf,if_neg hzero,toInt_eq_toNat hx,itoaDigits_natCast hbase hle x.isLt,map_reverse]
    · rw [reverse_reverse,Nat.ofDigits_digits]

theorem not_digits_of_neg (hbase : 1<base) {x : BitVec 64} (hx : x.toInt<0) {ds : List Nat}
    (hlt : ∀ d∈ds, d<16) : (digitsOf base x).reverse≠ds.map Nat.digitChar := by
  have hchar : ∀ d : Nat, d<16 → 48≤(Nat.digitChar d).toNat := by decide
  have hzero : x≠0 := by
    rintro rfl
    exact absurd hx (by decide)
  have hmin := BitVec.le_toInt x
  intro heq
  obtain ⟨c,hc,hsmall⟩ := exists_mem_itoaDigits_neg hbase (v := (-x.toInt).toNat) (n := 64)
    (by omega) (by omega)
  rw [Int.toNat_of_nonneg (by omega),neg_neg] at hc
  rw [digitsOf,if_neg hzero] at heq
  obtain ⟨d,hd,rfl⟩ := mem_map.mp (heq ▸ mem_reverse.mpr hc)
  have hge := hchar d (hlt d hd)
  omega

/-- Numbers are written so that they can be read back unless they are negative, or the least number
in the base 10. -/
theorem itoa_decodes_iff (num : BitVec 64) (hbase : base ∈ [2, 8, 10, 16]) :
    (∃ value, Decodes base (itoa num base) value ∧ BitVec.ofInt 64 value = num) ↔
      0 ≤ num.toInt ∨ base = 10 ∧ num.toInt ≠ -2 ^ 63 := by
  have hrange : 1<base ∧ base≤16 := by
    simp only [mem_cons,not_mem_nil,or_false] at hbase
    omega
  have hsign : num.slt 0=decide (num.toInt<0) := rfl
  constructor
  · rintro ⟨value,⟨negative,ds,hlt,-,htext,-⟩,-⟩
    by_contra hnot
    push Not at hnot
    have hneg : (magnitude num base).toInt<0 := by
      rw [magnitude]
      split_ifs with hten
      · rw [BitVec.toInt_neg,hnot.2 (by simp_all)]
        decide
      · exact hnot.1
    refine not_digits_of_neg hrange.1 hneg (fun d hd => (hlt d hd).trans_le hrange.2) ?_
    rw [itoa_eq hbase] at htext
    cases negative <;> split_ifs at htext <;> simp_all
  · intro hgood
    have hmag : 0≤(magnitude num base).toInt ∧ num.toInt =
        (if num.slt 0 && base == 10 then -1 else 1) * (magnitude num base).toInt := by
      have hmin := BitVec.le_toInt num
      have hmax := BitVec.toInt_lt (x := num)
      rw [magnitude,hsign]
      split_ifs with hten
      · rw [BitVec.toInt_neg,Int.bmod_eq_of_le (by omega) (by simp_all; omega)]
        simp_all
        omega
      · simp_all
        omega
    obtain ⟨ds,hlt,hne,hdigits,hvalue⟩ := digitsOf_of_nonneg hrange.1 hrange.2 hmag.1
    refine ⟨num.toInt,⟨num.slt 0 && base == 10,ds,hlt,hne,?_,?_⟩,BitVec.ofInt_toInt⟩
    · rw [itoa_eq hbase,hdigits]
    · rw [hvalue,hmag.2,toInt_eq_toNat hmag.1]

theorem itoa_decodes_ten :
    (∃ value, Decodes 10 (itoa (-10) 10) value ∧ BitVec.ofInt 64 value = -10) ↔
      0 ≤ (-10 : BitVec 64).toInt ∨ 10 = 10 ∧ (-10 : BitVec 64).toInt ≠ -2 ^ 63 :=
  itoa_decodes_iff (-10) (by simp)

/-- A negative number in the base 16. -/
theorem itoa_minus_one : itoa (-1) 16 = ['0', 'x', '/'] ∧
    ¬ ∃ value, Decodes 16 ['0', 'x', '/'] value := by
  have htext : itoa (-1) 16=['0','x','/'] := by decide
  refine ⟨htext,?_⟩
  rintro ⟨value,negative,ds,hlt,-,hds,-⟩
  refine not_digits_of_neg (x := -1) (by decide : 1<16) (by decide) hlt ?_
  rw [show (digitsOf 16 (-1)).reverse=['/'] by decide]
  cases negative <;> simp_all [baseLetter]

end Hojicha.Stdlib
