import Hojicha.Stdio.Vformat

/-!
# What a format stands for

A format is a list of directives, each of which has an expansion of its own. The loop agrees with
it, except that `%%` behind text ends the interpretation of the format.
-/

namespace Hojicha.Stdio

open List

inductive NumberKind
  | d
  | i
  | u
  | x
  deriving DecidableEq

/-- `width` and `precision` are the digits in the format. -/
inductive Directive
  | literal (c : Char)
  | percent
  | char
  | string
  | number (zero : Bool) (width : List Char) (precision : Option (List Char)) (kind : NumberKind)

def NumberKind.letter : NumberKind → Char
  | .d => 'd'
  | .i => 'i'
  | .u => 'u'
  | .x => 'x'

/-- What stands between the percent sign and the letter. -/
def renderSpec (zero : Bool) (width : List Char) (precision : Option (List Char)) : List Char :=
  (if zero then ['0'] else []) ++ (width ++ precision.elim [] ('.' :: ·))

def Directive.render : Directive → List Char
  | .literal c => [c]
  | .percent => ['%', '%']
  | .char => ['%', 'c']
  | .string => ['%', 's']
  | .number zero width precision kind => '%' :: (renderSpec zero width precision ++ [kind.letter])

def decimal (digits : List Char) : Nat := Nat.ofDigitChars 10 digits 0

def IsInt (digits : List Char) : Prop := (∀ c ∈ digits, c.isDigit) ∧ decimal digits < 2 ^ 31

/-- The first zero of a width is the flag. -/
def Directive.WellFormed : Directive → Prop
  | .literal c => c ≠ '%'
  | .number zero width precision _ =>
    (zero = false → width.head? ≠ some '0') ∧ IsInt width ∧ ∀ p ∈ precision, IsInt p
  | _ => True

def NumberKind.value (kind : NumberKind) (arg : BitVec 64) : Int :=
  if kind = .d ∨ kind = .i then arg.toInt else arg.toNat

def padNumber (zero : Bool) (width : Nat) (precision : Option Nat) (negative : Bool)
    (digits : List Char) : List Char :=
  let sign := if negative then ['-'] else []
  let content := replicate (precision.getD 0 - digits.length) '0' ++ digits
  let pad := width - (sign.length + content.length)
  if zero && precision.isNone then sign ++ (replicate pad '0' ++ content)
  else replicate pad ' ' ++ (sign ++ content)

def expandNumber (zero : Bool) (width : Nat) (precision : Option Nat) (kind : NumberKind)
    (arg : BitVec 64) : List Char :=
  padNumber zero width precision (decide (kind.value arg < 0))
    (Nat.toDigits (if kind = .x then 16 else 10) (kind.value arg).natAbs)

variable (str : BitVec 64 → List Char) (ap : Nat → BitVec 64)

def Directive.text (arg : BitVec 64) : Directive → List Char
  | .char => [Char.ofNat (arg.toNat % 256)]
  | .string => if arg = 0 then "(null)".toList else str arg
  | .number zero width precision kind =>
    expandNumber zero (decimal width) (precision.map decimal) kind arg
  | .literal c => [c]
  | .percent => ['%']

def Directive.takesArg : Directive → Bool
  | .literal _ | .percent => false
  | _ => true

/-- The expansion of directives, behind the first `k` arguments. -/
def expand : Nat → List Directive → List Char
  | _, [] => []
  | k, d :: ds => d.text str (ap k) ++ expand (if d.takesArg then k + 1 else k) ds

/-- Each `%%` stands at the start or right behind a conversion. -/
def Spaced : Bool → List Directive → Prop
  | _, [] => True
  | behindText, .percent :: ds => behindText = false ∧ Spaced true ds
  | _, d :: ds => Spaced (!d.takesArg) ds

def renderAll (ds : List Directive) : List Char := ds.flatMap Directive.render

theorem digitsLoop_eq {base n value : Nat} (hbase : 2≤base) (hpos : 0<value)
    (hlt : value<2 ^ n) : (digitsLoop base n value).reverse=Nat.toDigits base value := by
  induction n generalizing value with
  | zero => omega
  | succ n ih =>
    rw [digitsLoop,if_neg hpos.ne',reverse_cons,Nat.toDigits_eq_if hbase]
    split_ifs with hsmall
    · have hrest : digitsLoop base n (value / base)=[] := by
        rw [Nat.div_eq_of_lt hsmall]
        cases n <;> rfl
      rw [hrest,Nat.mod_eq_of_lt hsmall]
      rfl
    · have hhalf : value / base≤value / 2 := Nat.div_le_div_left hbase (by decide)
      rw [ih (Nat.div_pos (by omega) (by omega)) (by omega)]

theorem formatUnsigned_eq (value : BitVec 64) {base : Nat} (hbase : 2≤base) :
    formatUnsigned value base=Nat.toDigits base value.toNat := by
  by_cases hzero : value=0
  · rw [formatUnsigned,if_pos hzero,hzero]
    exact (Nat.toDigits_of_lt_base (Nat.lt_of_lt_of_le Nat.two_pos hbase)).symm
  · have hpos : value.toNat≠0 := fun h => hzero (BitVec.eq_of_toNat_eq h)
    rw [formatUnsigned,if_neg hzero,digitsLoop_eq hbase (by omega) value.isLt]

theorem parseDigits_eq {digits rest : List Char} (hdigits : ∀ c∈digits, c.isDigit)
    (hrest : ∀ c∈rest.head?, ¬c.isDigit) :
    parseDigits (digits++rest)=(BitVec.ofNat 32 (decimal digits), rest) := by
  have hfold (n : Nat) : digits.foldl (fun n c => n * 10+BitVec.ofNat 32 (c.toNat-48))
      (BitVec.ofNat 32 n)=BitVec.ofNat 32 (Nat.ofDigitChars 10 digits n) := by
    clear hdigits
    induction digits generalizing n with
    | nil => simp
    | cons c digits ih =>
      rw [foldl_cons,Nat.ofDigitChars_cons,← ih,BitVec.ofNat_add,BitVec.ofNat_mul,BitVec.mul_comm]
      rfl
  have hstop : rest.takeWhile Char.isDigit=[] ∧ rest.dropWhile Char.isDigit=rest := by
    cases rest <;> simp_all
  rw [parseDigits,takeWhile_append_of_pos hdigits,dropWhile_append_of_pos hdigits,hstop.1,hstop.2,
    append_nil]
  exact congrArg (·, rest) (hfold 0)

def numberSpec (zero : Bool) (width : Nat) (precision : Option Nat) (letter : Char) : FormatSpec :=
  ⟨BitVec.ofNat 32 width, BitVec.ofNat 32 (precision.getD 0), precision.isSome, zero, letter⟩

theorem parseFormatSpec_eq {zero : Bool} {width : List Char} {precision : Option (List Char)}
    (hzero : zero=false → width.head? ≠ some '0') (hwidth : ∀ c∈width, c.isDigit)
    (hprecision : ∀ p∈precision, ∀ c∈p, c.isDigit) {letter : Char} (hletter : ¬letter.isDigit)
    (hdot : letter ≠ '.') (rest : List Char) :
    parseFormatSpec (renderSpec zero width precision++letter::rest) =
      (numberSpec zero (decimal width) (precision.map decimal) letter, rest) := by
  set rest' := precision.elim [] ('.' :: ·)++letter::rest with hrest'
  have hletter' : letter ≠ '0' := by
    rintro rfl
    exact hletter rfl
  have hstop : ∀ c∈rest'.head?, ¬c.isDigit ∧ c ≠ '0' := by
    cases precision <;> simp [hrest',hletter,hletter']
  have hwhole : renderSpec zero width precision++letter::rest =
      (if zero then ['0'] else [])++(width++rest') := by
    simp [renderSpec,hrest']
  have hflag : (((if zero then ['0'] else [])++(width++rest')).head? == some '0')=zero := by
    cases zero with
    | true => rfl
    | false =>
      cases width with
      | nil => simpa using fun h => (hstop '0' h).2 rfl
      | cons c width => simpa using hzero rfl
  have hself : (if zero then ((if zero then ['0'] else [])++(width++rest')).tail
      else (if zero then ['0'] else [])++(width++rest'))=width++rest' := by
    cases zero <;> rfl
  rw [hwhole,parseFormatSpec,hflag,hself,parseDigits_eq hwidth fun c hc => (hstop c hc).1]
  cases precision with
  | none => simp [parsePrecision,numberSpec,hrest',hdot]
  | some p =>
    have hp : parseDigits (p++letter::rest)=_ :=
      parseDigits_eq (hprecision p rfl) (by simpa using hletter)
    simp [parsePrecision,numberSpec,hrest',hp]

theorem parseFormatSpec_plain {letter : Char} (hletter : ¬letter.isDigit) (hdot : letter ≠ '.')
    (rest : List Char) :
    parseFormatSpec (letter::rest)=(numberSpec false 0 none letter, rest) :=
  @parseFormatSpec_eq false [] none (by simp) (by simp) (by simp) letter hletter hdot rest

theorem toInt_ofNat32 {n : Nat} (hn : n<2 ^ 31) : (BitVec.ofNat 32 n).toInt=n := by
  rw [BitVec.toInt_eq_toNat_cond,BitVec.toNat_ofNat]
  omega

theorem negative_iff (kind : NumberKind) (arg : BitVec 64) :
    (decide (kind = .d ∨ kind = .i) && arg.slt 0)=decide (kind.value arg<0) := by
  by_cases hsigned : kind = .d ∨ kind = .i <;> simp [hsigned,NumberKind.value,BitVec.slt]

/-- The magnitude that is printed, also of the least number. -/
theorem magnitude_eq (kind : NumberKind) (arg : BitVec 64) :
    (if decide (kind.value arg<0) then -arg else arg).toNat=(kind.value arg).natAbs := by
  have hint := BitVec.toInt_eq_toNat_cond arg
  have hlt := arg.isLt
  have hneg := BitVec.toNat_neg arg
  rw [NumberKind.value]
  grind

variable {zero : Bool} {width : Nat} {precision : Option Nat} {kind : NumberKind} {arg : BitVec 64}

theorem zeroCount_eq (hprecision : precision.getD 0<2 ^ 31) (letter : Char) (len : Nat) :
    zeroCount (numberSpec zero width precision letter) len=precision.getD 0 - len := by
  rw [zeroCount,numberSpec,toInt_ofNat32 hprecision,BitVec.toNat_ofNat]
  cases precision with
  | none => simp
  | some p =>
    simp only [Option.isSome_some,Bool.true_and,decide_eq_true_eq,Option.getD_some] at *
    split_ifs <;> omega

theorem padCount_eq (hwidth : width<2 ^ 31) (letter : Char) {len : Nat} (hlen : len<2 ^ 31) :
    padCount (numberSpec zero width precision letter) len=width - len := by
  rw [padCount,numberSpec,toInt_ofNat32 hwidth,toInt_ofNat32 hlen,BitVec.toNat_ofInt]
  split_ifs <;> omega

theorem length_padNumber (negative : Bool) (digits : List Char) :
    (padNumber zero width precision negative digits).length =
      max width ((if negative then 1 else 0) + max (precision.getD 0) digits.length) := by
  rw [padNumber]
  split_ifs <;> simp <;> omega

theorem flatten_writeDigits (hwidth : width<2 ^ 31) (hprecision : precision.getD 0<2 ^ 31)
    {negative : Bool} {digits : List Char} (letter : Char)
    (hlen : (padNumber zero width precision negative digits).length≤INT_MAX) :
    (writeDigits (numberSpec zero width precision letter) negative digits).flatten =
      padNumber zero width precision negative digits := by
  rw [length_padNumber] at hlen
  have hsign : (if negative then [['-']] else []).length=if negative then 1 else 0 := by
    cases negative <;> rfl
  rw [writeDigits,zeroCount_eq hprecision,hsign,padCount_eq hwidth letter]
  · cases negative <;> cases zero <;> cases precision <;>
      simp [numberSpec,padNumber,Nat.add_assoc]
  · grind [INT_MAX]

theorem flatten_writeFormattedNumber (hwidth : width<2 ^ 31)
    (hprecision : precision.getD 0<2 ^ 31)
    (hlen : (expandNumber zero width precision kind arg).length≤INT_MAX) :
    (writeFormattedNumber (numberSpec zero width precision kind.letter)
      (decide (kind = .d ∨ kind = .i)) arg).flatten =
      expandNumber zero width precision kind arg := by
  have hx : (numberSpec zero width precision kind.letter).conversion = 'x' ↔ kind = .x := by
    cases kind <;> simp [numberSpec,NumberKind.letter]
  have hbase : 2 ≤ if kind = .x then 16 else 10 := by split_ifs <;> omega
  rw [writeFormattedNumber,negative_iff,if_congr hx rfl rfl,formatUnsigned_eq _ hbase,magnitude_eq]
  exact flatten_writeDigits hwidth hprecision kind.letter hlen

variable {str ap} {k : Nat} {c : Char} {cs : List Char} {ds : List Directive} {d : Directive}

def convOut (str : BitVec 64 → List Char) (ap : Nat → BitVec 64) (k : Nat) (format : List Char) :
    List Char :=
  if format = [] then [] else
    (formatConversion str ap k format).1.flatten ++ (vformatCalls str ap
      (formatConversion str ap k format).2.2 (formatConversion str ap k format).2.1).flatten

def textOut (str : BitVec 64 → List Char) (ap : Nat → BitVec 64) (k : Nat) (format : List Char) :
    List Char :=
  format.takeWhile (· ≠ '%') ++ convOut str ap k (format.dropWhile (· ≠ '%'))

theorem out_text (h : c ≠ '%' ∨ cs.head? = some '%') :
    (vformatCalls str ap k (c::cs)).flatten =
      if c = '%' then '%'::textOut str ap k cs.tail else c::textOut str ap k cs := by
  have hpiece (cs : List Char) : ((c::cs.takeWhile (· ≠ '%')) ::
      if cs.dropWhile (· ≠ '%')=[] then [] else
        let next := formatConversion str ap k (cs.dropWhile (· ≠ '%'))
        next.1++vformatCalls str ap next.2.2 next.2.1).flatten=c::textOut str ap k cs := by
    rw [textOut,convOut]
    split_ifs <;> simp
  rw [vformatCalls,if_pos h]
  split_ifs with hc
  · obtain ⟨cs,rfl⟩ : ∃ l, cs = '%'::l := by
      cases cs <;> simp_all
    exact hc ▸ hpiece cs
  · exact hpiece cs

theorem out_conv (h : cs.head? ≠ some '%') :
    (vformatCalls str ap k ('%'::cs)).flatten=convOut str ap k ('%'::cs) := by
  rw [vformatCalls,if_neg (by simp [h]),convOut,if_neg (by simp),flatten_append]

theorem formatConversion_eq (hd : d.WellFormed) (harg : d.takesArg=true)
    (hlen : (d.text str (ap k)).length≤INT_MAX) (rest : List Char) :
    (formatConversion str ap k (d.render++rest)).1.flatten=d.text str (ap k) ∧
      (formatConversion str ap k (d.render++rest)).2=(rest, k + 1) := by
  cases d with
  | literal c => cases harg
  | percent => cases harg
  | char => simp [formatConversion,Directive.render,parseFormatSpec_plain,numberSpec,Directive.text]
  | string =>
    simp [formatConversion,Directive.render,parseFormatSpec_plain,numberSpec,Directive.text]
  | number zero width precision kind =>
    obtain ⟨hzero,hwidth,hprecision⟩ := hd
    have hletter : ¬kind.letter.isDigit ∧ kind.letter ≠ '.' := by cases kind <;> decide
    have hspec := parseFormatSpec_eq hzero hwidth.1 (fun p hp => (hprecision p hp).1) hletter.1
      hletter.2 rest
    have hsmall : (precision.map decimal).getD 0<2 ^ 31 := by
      cases precision with
      | none => simp
      | some p => exact (hprecision p rfl).2
    have hnumber := flatten_writeFormattedNumber hwidth.2 hsmall hlen
    have hrender : (Directive.number zero width precision kind).render++rest =
        '%'::(renderSpec zero width precision++kind.letter::rest) := by
      simp [Directive.render]
    rw [hrender,formatConversion,tail_cons,hspec]
    cases kind <;> exact ⟨hnumber,rfl⟩

theorem render_of_takesArg (hd : d.WellFormed) (harg : d.takesArg=true) :
    ∃ c cs, d.render = '%'::c::cs ∧ c ≠ '%' := by
  cases d with
  | literal c => cases harg
  | percent => cases harg
  | char => exact ⟨'c',[],rfl,by decide⟩
  | string => exact ⟨'s',[],rfl,by decide⟩
  | number zero width precision kind =>
    cases zero with
    | true => exact ⟨'0',_,rfl,by decide⟩
    | false =>
      cases width with
      | nil =>
        cases precision with
        | none => exact ⟨kind.letter,[],rfl,by cases kind <;> decide⟩
        | some p => exact ⟨'.',_,rfl,by decide⟩
      | cons c width =>
        refine ⟨c,_,rfl,?_⟩
        rintro rfl
        exact absurd (hd.2.1.1 '%' mem_cons_self) (by decide)

/-- What the loop prints: behind text, `%%` and what follows are printed as they are. -/
def printed (str : BitVec 64 → List Char) (ap : Nat → BitVec 64) :
    Bool → Nat → List Directive → List Char
  | _, _, [] => []
  | true, _, .percent :: ds => '%' :: '%' :: renderAll ds
  | _, k, d :: ds =>
    d.text str (ap k) ++ printed str ap (!d.takesArg) (if d.takesArg then k + 1 else k) ds

theorem out_eq_printed (hwf : ∀ d∈ds, d.WellFormed)
    (hlen : (expand str ap k ds).length≤INT_MAX) :
    (vformatCalls str ap k (renderAll ds)).flatten=printed str ap false k ds ∧
      textOut str ap k (renderAll ds)=printed str ap true k ds := by
  induction ds generalizing k with
  | nil => simp [renderAll,vformatCalls,printed,textOut,convOut]
  | cons d ds ih =>
    have hd := hwf d mem_cons_self
    have hwf' : ∀ d∈ds, d.WellFormed := fun e he => hwf e (mem_cons_of_mem d he)
    have hall : renderAll (d::ds)=d.render++renderAll ds := rfl
    rw [expand,length_append] at hlen
    cases harg : d.takesArg with
    | true =>
      have hnext := (ih hwf' (k := k+1) (by simp [harg] at hlen; omega)).1
      have hfits : (d.text str (ap k)).length≤INT_MAX := by omega
      obtain ⟨htext,hrest⟩ := formatConversion_eq hd harg hfits (renderAll ds)
      obtain ⟨c,cs,hcs,hc⟩ := render_of_takesArg hd harg
      have hconv : convOut str ap k (renderAll (d::ds)) =
          d.text str (ap k)++printed str ap false (k+1) ds := by
        rw [convOut,hall,htext,hrest,hnext,if_neg (by simp [hcs])]
      have hprinted (flag : Bool) : printed str ap flag k (d::ds) =
          d.text str (ap k)++printed str ap false (k+1) ds := by
        cases d <;> cases flag <;> simp_all [printed,Directive.takesArg]
      rw [hprinted,hprinted,← hconv,hall,hcs]
      exact ⟨out_conv (by simpa using hc),by simp [textOut]⟩
    | false =>
      obtain ⟨hout,htext⟩ := ih hwf' (k := k) (by simp [harg] at hlen; omega)
      cases d with
      | literal c =>
        have hc : c ≠ '%' := hd
        have hfirst : (vformatCalls str ap k (c::renderAll ds)).flatten=_ := out_text (.inl hc)
        simp_all [printed,Directive.text,Directive.takesArg,Directive.render,textOut]
      | percent =>
        have hfirst : (vformatCalls str ap k ('%' :: '%'::renderAll ds)).flatten=_ :=
          out_text (.inr rfl)
        have hraw : formatConversion str ap k ('%' :: '%'::renderAll ds) =
            (['%' :: '%'::renderAll ds], [], k) := by
          rw [formatConversion,tail_cons,parseFormatSpec_plain (by decide) (by decide)]
          rfl
        have hstop : textOut str ap k ('%' :: '%'::renderAll ds) =
            '%' :: '%'::renderAll ds := by
          simp [textOut,convOut,hraw,vformatCalls]
        simp_all [printed,Directive.text,Directive.takesArg,Directive.render]
      | char => cases harg
      | string => cases harg
      | number => cases harg

theorem printed_eq_expand {flag : Bool} (h : Spaced flag ds) :
    printed str ap flag k ds=expand str ap k ds := by
  induction ds generalizing flag k with
  | nil => rfl
  | cons d ds ih =>
    cases d <;> cases flag <;> simp_all [Spaced,printed,expand,Directive.takesArg]

section

/-- Arguments whose texts are as short as possible and have no percent sign. -/
abbrev plainStr : BitVec 64 → List Char := fun _ => []
abbrev plainArgs : Nat → BitVec 64 := fun _ => 1

theorem expandNumber_one : expandNumber zero width precision kind 1 =
    padNumber zero width precision false ['1'] := by
  cases kind <;> rfl

theorem count_expand_le :
    (expand plainStr plainArgs k ds).count '%'≤(renderAll ds).count '%' := by
  induction ds generalizing k with
  | nil => simp [expand]
  | cons d ds ih =>
    have hall : renderAll (d::ds)=d.render++renderAll ds := rfl
    have hd : (d.text plainStr 1).count '%'≤d.render.count '%' := by
      cases d with
      | number zero width precision kind =>
        rw [Directive.text,expandNumber_one,padNumber]
        split_ifs <;> simp [count_replicate]
      | _ => simp [Directive.text,Directive.render]
    rw [expand,hall,count_append,count_append]
    exact Nat.add_le_add hd ih

theorem length_expand_le :
    (expand plainStr plainArgs k ds).length≤(expand str ap k ds).length := by
  induction ds generalizing k with
  | nil => simp [expand]
  | cons d ds ih =>
    have hd : (d.text plainStr 1).length≤(d.text str (ap k)).length := by
      cases d with
      | number zero width precision kind =>
        have hpos : 0<(Nat.toDigits (if kind = .x then 16 else 10)
            (kind.value (ap k)).natAbs).length := Nat.length_toDigits_pos
        rw [Directive.text,Directive.text,expandNumber_one,expandNumber,length_padNumber,
          length_padNumber]
        simp
        omega
      | _ => simp [Directive.text]
    rw [expand,expand,length_append,length_append]
    exact Nat.add_le_add hd ih

theorem printed_ne_expand {flag : Bool} (h : ¬Spaced flag ds) :
    printed plainStr plainArgs flag k ds≠expand plainStr plainArgs k ds := by
  induction ds generalizing flag k with
  | nil => exact absurd trivial h
  | cons d ds ih =>
    by_cases hraw : flag=true ∧ d = .percent
    · obtain ⟨rfl,rfl⟩ := hraw
      intro heq
      have hcount := congrArg (count '%') heq
      have hle := @count_expand_le k ds
      simp [printed,expand,Directive.text,Directive.takesArg] at hcount
      omega
    · have hnext : printed plainStr plainArgs flag k (d::ds)=d.text plainStr 1 ++
          printed plainStr plainArgs (!d.takesArg) (if d.takesArg then k+1 else k) ds := by
        cases d <;> cases flag <;> simp_all [printed]
      have hspaced : ¬Spaced (!d.takesArg) ds := by
        cases d <;> cases flag <;> simp_all [Spaced,Directive.takesArg]
      rw [hnext,expand]
      exact fun heq => ih hspaced (append_cancel_left heq)

end

/-- Outputs that an `int` can count are the expansion of the format, whatever the arguments, exactly
for formats in which no `%%` stands behind text. -/
theorem vformat_expands_iff (hwf : ∀ d ∈ ds, d.WellFormed) :
    (∀ str ap, (expand str ap 0 ds).length ≤ INT_MAX → vformat str ap record [] (renderAll ds) =
      some (expand str ap 0 ds, (expand str ap 0 ds).length)) ↔
      Spaced false ds ∨ ∀ str ap, INT_MAX < (expand str ap 0 ds).length := by
  have hout (str : BitVec 64 → List Char) (ap : Nat → BitVec 64)
      (hlen : (expand str ap 0 ds).length≤INT_MAX) :
      output str ap (renderAll ds)=printed str ap false 0 ds := (out_eq_printed hwf hlen).1
  constructor
  · intro hall
    by_contra hneither
    push Not at hneither
    obtain ⟨hns,str,ap,hle⟩ := hneither
    have hlen := length_expand_le.trans hle
    have hrun := hall plainStr plainArgs hlen
    rw [vformat_record,hout _ _ hlen] at hrun
    split_ifs at hrun
    exact printed_ne_expand hns (congrArg Prod.fst (Option.some.inj hrun))
  · rintro (hspaced | hlong) str ap hlen
    · rw [vformat_record,hout str ap hlen,printed_eq_expand hspaced,if_pos hlen]
    · exact absurd hlen (hlong str ap).not_ge

theorem vformat_expands_number :
    (∀ str ap, (expand str ap 0 [.percent, .number true ['5'] none .d]).length ≤ INT_MAX →
      vformat str ap record [] ['%', '%', '%', '0', '5', 'd'] = some
        (expand str ap 0 [.percent, .number true ['5'] none .d],
          (expand str ap 0 [.percent, .number true ['5'] none .d]).length)) ↔
      Spaced false [.percent, .number true ['5'] none .d] ∨ ∀ str ap, INT_MAX <
        (expand str ap 0 [.percent, .number true ['5'] none .d]).length :=
  vformat_expands_iff (by simp [Directive.WellFormed,IsInt,decimal,Nat.ofDigitChars])

/-- Behind text, `%%` is printed twice. -/
theorem vformat_percent_behind_text : vformat plainStr plainArgs record [] ['a', '%', '%'] =
    some (['a', '%', '%'], 3) ∧
      expand plainStr plainArgs 0 [.literal 'a', .percent] = ['a', '%'] := by
  have hout : output plainStr plainArgs ['a','%','%']=['a','%','%'] :=
    (@out_eq_printed plainStr plainArgs 0 [.literal 'a',.percent] (by simp [Directive.WellFormed])
      (by decide)).1
  rw [vformat_record,hout]
  exact ⟨rfl,rfl⟩

end Hojicha.Stdio
