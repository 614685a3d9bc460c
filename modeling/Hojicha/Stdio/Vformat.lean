import Mathlib.Tactic

/-!
# `__hojicha_vformat`

A translation of `libc/stdio/__vformat.c` and `libc/stdio/vsnprintf.c`. A format yields the list
of its calls of `write_all`. `ap k` is the argument behind the first `k`, and `str p` the string at
`p`, without its `'\0'`.
-/

namespace Hojicha.Stdio

open List

abbrev NUL : Char := Char.ofNat 0

def INT_MAX : Nat := 2 ^ 31 - 1

structure FormatSpec where
  width : BitVec 32
  precision : BitVec 32
  precisionSet : Bool
  zeroPad : Bool
  conversion : Char

def parseDigits (format : List Char) : BitVec 32 × List Char :=
  ((format.takeWhile Char.isDigit).foldl (fun n c => n * 10 + BitVec.ofNat 32 (c.toNat - 48)) 0,
    format.dropWhile Char.isDigit)

def parsePrecision (format : List Char) : Bool × BitVec 32 × List Char :=
  if format.head? = some '.' then (true, parseDigits format.tail) else (false, 0, format)

def parseFormatSpec (format : List Char) : FormatSpec × List Char :=
  let zeroPad := format.head? == some '0'
  let width := parseDigits (if zeroPad then format.tail else format)
  let precision := parsePrecision width.2
  (⟨width.1, precision.2.1, precision.1, zeroPad, precision.2.2.headD NUL⟩, precision.2.2.tail)

def digitsLoop (base : Nat) : Nat → Nat → List Char
  | 0, _ => []
  | n + 1, value =>
    if value = 0 then [] else (value % base).digitChar :: digitsLoop base n (value / base)

def formatUnsigned (value : BitVec 64) (base : Nat) : List Char :=
  if value = 0 then ['0'] else (digitsLoop base 64 value.toNat).reverse

def zeroCount (spec : FormatSpec) (digitLen : Nat) : Nat :=
  if spec.precisionSet && decide (spec.precision.toInt > digitLen) then
    spec.precision.toNat - digitLen else 0

/-- The comparison is made in `int`, the difference in `size_t`. -/
def padCount (spec : FormatSpec) (contentLen : Nat) : Nat :=
  if spec.width.toInt > (BitVec.ofNat 32 contentLen).toInt then
    (BitVec.ofInt 64 (spec.width.toInt - contentLen)).toNat else 0

def writeDigits (spec : FormatSpec) (negative : Bool) (digits : List Char) : List (List Char) :=
  let sign := if negative then [['-']] else []
  let zeros := zeroCount spec digits.length
  let pad := padCount spec (sign.length + zeros + digits.length)
  if spec.zeroPad && !spec.precisionSet then sign ++ (replicate (zeros + pad) ['0'] ++ [digits])
  else replicate pad [' '] ++ (sign ++ (replicate zeros ['0'] ++ [digits]))

def writeFormattedNumber (spec : FormatSpec) (isSigned : Bool) (value : BitVec 64) :
    List (List Char) :=
  let negative := isSigned && value.slt 0
  writeDigits spec negative (formatUnsigned (if negative then -value else value)
    (if spec.conversion = 'x' then 16 else 10))

def itoaDigits (base : Nat) : Nat → Int → List Char
  | 0, _ => []
  | n + 1, num =>
    let remainder := num.tmod base
    if num = 0 then [] else
      Char.ofNat (if remainder > 9 then remainder - 10 + 97 else remainder + 48).toNat ::
        itoaDigits base n (num.tdiv base)

/-- `itoa` of `libc/stdlib/itoa.c`, which fills the buffer from the last character on. -/
def itoa (num : BitVec 64) (base : Nat) : List Char :=
  let isNegative := num.slt 0 && base == 10
  let num := if isNegative then -num else num
  let digits := if num = 0 then ['0'] else itoaDigits base 64 num.toInt
  let letter := match base with
    | 16 => ['x']
    | 10 => ['d']
    | 8 => ['o']
    | 2 => ['b']
    | _ => []
  (digits ++ letter ++ ['0'] ++ if isNegative then ['-'] else []).reverse

variable (str : BitVec 64 → List Char) (ap : Nat → BitVec 64)

/-- The calls for a conversion, the rest of the format, and the number of arguments read. -/
def formatConversion (k : Nat) (format : List Char) : List (List Char) × List Char × Nat :=
  let (spec, rest) := parseFormatSpec format.tail
  match spec.conversion with
  | 'c' => ([[Char.ofNat ((ap k).toNat % 256)]], rest, k + 1)
  | 's' => ([if ap k = 0 then "(null)".toList else str (ap k)], rest, k + 1)
  | 'd' | 'i' => (writeFormattedNumber spec true (ap k), rest, k + 1)
  | 'x' | 'u' => (writeFormattedNumber spec false (ap k), rest, k + 1)
  | 'b' => ([itoa (((ap k).setWidth 32).setWidth 64) 2], rest, k + 1)
  -- the rest of the format is printed as it is
  | _ => ([format], [], k)

theorem length_parseFormatSpec_le (format : List Char) :
    (parseFormatSpec format).2.length≤format.length := by
  have hdigits (l : List Char) : (parseDigits l).2.length≤l.length := (dropWhile_suffix _).length_le
  have hprecision (l : List Char) : (parsePrecision l).2.2.length≤l.length := by
    grind [parsePrecision]
  have hzero : (if format.head? == some '0' then format.tail else format).length≤format.length := by
    split_ifs <;> simp
  rw [parseFormatSpec,length_tail]
  exact (Nat.sub_le _ _).trans (((hprecision _).trans (hdigits _)).trans hzero)

theorem length_formatConversion_le (k : Nat) (format : List Char) :
    (formatConversion str ap k format).2.1.length≤format.tail.length := by
  have hrest := length_parseFormatSpec_le format.tail
  unfold formatConversion
  dsimp only
  split <;> first | exact hrest | exact Nat.zero_le _

/-- The calls for a format, behind the first `k` arguments. Text is followed by a conversion in the
same round of the loop. -/
def vformatCalls (k : Nat) (format : List Char) : List (List Char) :=
  match format with
  | [] => []
  | c :: cs =>
    if c ≠ '%' ∨ cs.head? = some '%' then
      let text := if c = '%' then cs else c :: cs
      let rest := text.tail.dropWhile (· ≠ '%')
      (text.take 1 ++ text.tail.takeWhile (· ≠ '%')) :: if rest = [] then [] else
        let next := formatConversion str ap k rest
        next.1 ++ vformatCalls next.2.2 next.2.1
    else
      let next := formatConversion str ap k (c :: cs)
      next.1 ++ vformatCalls next.2.2 next.2.1
termination_by format.length
decreasing_by
  · have hle := length_formatConversion_le str ap k (text.tail.dropWhile (· ≠ '%'))
    have hdrop := (dropWhile_suffix (l := text.tail) (· ≠ '%')).length_le
    grind
  · have hle := length_formatConversion_le str ap k (c :: cs)
    grind

variable {σ : Type}

def writeAll (write : σ → List Char → Option σ) (out : σ × Nat) (data : List Char) :
    Option (σ × Nat) :=
  if INT_MAX - out.2 < data.length then none
  else if 0 < data.length then (write out.1 data).map (·, out.2 + data.length)
  else some out

/-- `none` is the result -1. -/
def vformat (write : σ → List Char → Option σ) (ctx : σ) (format : List Char) : Option (σ × Nat) :=
  (vformatCalls str ap 0 format).foldlM (writeAll write) (ctx, 0)

def output (format : List Char) : List Char := (vformatCalls str ap 0 format).flatten

theorem foldlM_writeAll {write : σ → List Char → Option σ} {put : σ → Char → σ}
    (hwrite : ∀ ctx data, write ctx data=some (data.foldl put ctx)) (calls : List (List Char))
    (ctx : σ) (n : Nat) (hn : n≤INT_MAX) :
    calls.foldlM (writeAll write) (ctx, n) =
      if n + calls.flatten.length≤INT_MAX then
        some (calls.flatten.foldl put ctx, n + calls.flatten.length)
      else none := by
  induction calls generalizing ctx n with
  | nil => simp [hn]
  | cons data calls ih =>
    rw [foldlM_cons,writeAll]
    by_cases hfull : INT_MAX-n<data.length
    · have hlong : ¬n+(data::calls).flatten.length≤INT_MAX := by
        rw [flatten_cons,length_append]
        omega
      rw [if_neg hlong,if_pos hfull]
      rfl
    · have hwritten : (if 0<data.length then (write ctx data).map (·, n+data.length)
          else some (ctx, n))=some (data.foldl put ctx, n+data.length) := by
        cases data <;> simp [hwrite]
      simp only [hfull,if_false,hwritten,Option.bind_eq_bind,Option.bind_some]
      rw [ih _ _ (by omega),flatten_cons,length_append,foldl_append,Nat.add_assoc]

/-- With a callback that takes characters one by one and does not fail, the whole output is written
unless it is longer than an `int` can say. -/
theorem vformat_eq {write : σ → List Char → Option σ} {put : σ → Char → σ}
    (hwrite : ∀ ctx data, write ctx data=some (data.foldl put ctx)) (ctx : σ)
    (format : List Char) :
    vformat str ap write ctx format=if (output str ap format).length≤INT_MAX then
      some ((output str ap format).foldl put ctx, (output str ap format).length) else none := by
  rw [vformat,foldlM_writeAll hwrite _ _ _ (Nat.zero_le _),Nat.zero_add]
  rfl

def record (written data : List Char) : Option (List Char) := some (written ++ data)

theorem vformat_record (format : List Char) :
    vformat str ap record [] format=if (output str ap format).length≤INT_MAX then
      some (output str ap format, (output str ap format).length) else none := by
  have hput (data ctx : List Char) : data.foldl (fun ctx c => ctx++[c]) ctx=ctx++data := by
    induction data generalizing ctx with
    | nil => simp
    | cons c data ih => simp [ih]
  have hrecord (ctx data : List Char) : record ctx data=some (data.foldl _ ctx) :=
    congrArg some (hput data ctx).symm
  rw [vformat_eq str ap hrecord,hput,nil_append]

structure SnprintfCtx where
  buffer : Nat → Char
  size : Nat
  written : Nat

def snprintfPut (ctx : SnprintfCtx) (c : Char) : SnprintfCtx :=
  { ctx with
    buffer := if 0 < ctx.size ∧ ctx.written < ctx.size - 1 then
      Function.update ctx.buffer ctx.written c else ctx.buffer
    written := ctx.written + 1 }

def snprintfWrite (ctx : SnprintfCtx) (data : List Char) : Option SnprintfCtx :=
  some (data.foldl snprintfPut ctx)

/-- `buffer i` is the byte in memory `i` bytes behind the start of the buffer. -/
def vsnprintf (buffer : Nat → Char) (size : Nat) (format : List Char) :
    Option (Nat × (Nat → Char)) :=
  (vformat str ap snprintfWrite ⟨buffer, size, 0⟩ format).map fun (ctx, ret) =>
    (ret, if 0 < size then
      Function.update ctx.buffer (if ret < size then ret else size - 1) NUL else ctx.buffer)

theorem foldl_snprintfPut (buffer : Nat → Char) (size : Nat) (data : List Char) :
    data.foldl snprintfPut ⟨buffer,size,0⟩ =
      ⟨fun i => if i<size - 1 then data.getD i (buffer i) else buffer i, size, data.length⟩ := by
  induction data using List.reverseRecOn with
  | nil => simp
  | append_singleton data c ih =>
    have hnext : (data++[c]).length=data.length+1 := by simp
    rw [foldl_append,ih,foldl_cons,foldl_nil,snprintfPut,hnext]
    congr
    funext i
    split_ifs <;> grind [Function.update_apply]

variable {str ap} {buffer out : Nat → Char} {size r : Nat} {format : List Char}

/-- The buffer takes what fits of the unlimited output, which is returned in length. -/
theorem vsnprintf_truncates (h : vsnprintf str ap buffer size format = some (r, out)) :
    ∃ o, vformat str ap record [] format = some (o, r) ∧ r = o.length ∧
      (∀ i < min r (size - 1), o[i]? = some (out i)) ∧
      (0 < size → out (min r (size - 1)) = NUL) ∧ (∀ i, size ≤ i → out i = buffer i) := by
  have hwrite (ctx data) : snprintfWrite ctx data=some (data.foldl snprintfPut ctx) := rfl
  rw [vsnprintf,vformat_eq str ap hwrite] at h
  rw [vformat_record]
  generalize output str ap format=o at h
  by_cases hlen : o.length≤INT_MAX
  · rw [if_pos hlen,foldl_snprintfPut] at h
    obtain ⟨rfl,rfl⟩ : o.length=r ∧ _=out := by simpa using h
    refine ⟨o,if_pos hlen,rfl,?_,?_,?_⟩
    all_goals split_ifs <;> grind [Function.update_apply]
  · rw [if_neg hlen] at h
    cases h

theorem vsnprintf_truncates_hi : ∃ out o,
    vsnprintf (fun _ => []) (fun _ => 0) (fun _ => 'x') 2 ['h', 'i'] = some (2, out) ∧
      vformat (fun _ => []) (fun _ => 0) record [] ['h', 'i'] = some (o, 2) ∧ out 1 = NUL := by
  have hcalls : vformatCalls (fun _ => []) (fun _ => 0) 0 ['h','i']=[['h','i']] := by
    rw [vformatCalls]
    decide
  have hrun : ∃ out,
      vsnprintf (fun _ => []) (fun _ => 0) (fun _ => 'x') 2 ['h','i']=some (2,out) := by
    rw [vsnprintf,vformat,hcalls]
    exact ⟨_,rfl⟩
  obtain ⟨out,hout⟩ := hrun
  obtain ⟨o,hrecord,-,-,hend,-⟩ := vsnprintf_truncates hout
  exact ⟨out,o,hout,hrecord,hend (by decide)⟩

end Hojicha.Stdio
