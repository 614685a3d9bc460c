import Hojicha.Framework.Alignment
import Hojicha.Vma.Coverage
import Mathlib.Order.Bounds.Basic

/-!
# Searching for a free range

`vma_find_free_forward`, `vma_find_free_backward` and `vma_find_free_fixed`. What the two searches
report is the least, respectively the greatest, start of a free range.
-/

namespace Hojicha.Vma

open Framework List
open BitVec (le_def lt_def)

def vmaAlignUp (addr : Haddr) : Haddr := (addr + VMA_PAGE_SIZE - 1) &&& ~~~(VMA_PAGE_SIZE - 1)

def vmaAlignDown (addr : Haddr) : Haddr := addr &&& ~~~(VMA_PAGE_SIZE - 1)

/-- The end of the range, which the source stores through `end_out`, or `none` for `false`. -/
def vmaRangeFits (start min max length : Haddr) : Option Haddr :=
  if start < min ∨ start > max then none
  else if length - 1 > HADDR_MAX - start then none
  else
    let end_ := start + length - 1
    if end_ > max then none else some end_

/-- The result of a search: the value returned and what `*out` holds then. -/
def report (out : Option Haddr) : Option Haddr → Bool × Option Haddr
  | none => (false, out)
  | some a => (true, some a)

def forwardLoop (s : Store) (min max length : Haddr) : Nat → Haddr → Haddr → Haddr →
    Option (Option Haddr)
  | 0, _, _, _ => none
  | fuel + 1, current, candidate, end_ =>
    if current = NULL then some (some candidate)
    else do
      let n ← s.nodes current
      if n.data.end_ < candidate then forwardLoop s min max length fuel n.next candidate end_
      else if end_ < n.data.start then return some candidate
      else if n.data.end_ = HADDR_MAX then return none
      else
        let candidate := n.data.end_ + 1
        match vmaRangeFits candidate min max length with
        | none => return none
        | some end_ => forwardLoop s min max length fuel n.next candidate end_

/-- Where the forward search starts, or `none` if rounding up passes the end of the address
space. -/
def forwardStart (hint min : Haddr) : Option Haddr :=
  let candidate := if hint = 0 then min else hint
  if candidate &&& (VMA_PAGE_SIZE - 1) ≠ 0 then
    if candidate > HADDR_MAX - (VMA_PAGE_SIZE - 1) then none
    else
      let candidate := vmaAlignUp candidate
      some (if candidate < min then min else candidate)
  else some (if candidate < min then min else candidate)

/-- `out` is what the variable behind the pointer holds, `none` for `NULL`. -/
def vmaFindFreeForward (s : Store) (head hint min max length : Haddr) (out : Option Haddr) :
    Option (Bool × Option Haddr) :=
  if out = none ∨ length = 0 ∨ max < min then some (false, out)
  else if length &&& (VMA_PAGE_SIZE - 1) ≠ 0 then some (false, out)
  else
    match forwardStart hint min with
    | none => some (false, out)
    | some candidate =>
      match vmaRangeFits candidate min max length with
      | none => some (false, out)
      | some end_ => (forwardLoop s min max length (2 ^ 64) head candidate end_).map (report out)

/-- The second loop of `vma_find_free_backward`. -/
def backwardLoop (s : Store) (min max length : Haddr) : Nat → Haddr → Haddr →
    Option (Option Haddr)
  | 0, _, _ => none
  | fuel + 1, candidate, current =>
    match vmaRangeFits candidate min max length with
    | none => some none
    | some end_ => do
      let current ← walk s.nodes NULL Node.prev (fun n => decide (n.data.start > end_)) (2 ^ 64)
        current
      if current = NULL then return some candidate
      else
        let n ← s.nodes current
        if n.data.end_ < candidate then return some candidate
        else if n.data.start ≤ min then return none
        else if length > n.data.start - min then return none
        else
          backwardLoop s min max length fuel (vmaAlignDown (n.data.start - length)) n.prev

def backwardStart (hint max length : Haddr) : Haddr :=
  let highest := vmaAlignDown (max - length + 1)
  let candidate := if hint = 0 then highest else vmaAlignDown hint
  if candidate > highest then highest else candidate

def vmaFindFreeBackward (s : Store) (head hint min max length : Haddr) (out : Option Haddr) :
    Option (Bool × Option Haddr) :=
  if out = none ∨ length = 0 ∨ max < min then some (false, out)
  else if length &&& (VMA_PAGE_SIZE - 1) ≠ 0 then some (false, out)
  else if length - 1 > max - min then some (false, out)
  else
    let candidate := backwardStart hint max length
    match vmaRangeFits candidate min max length with
    | none => some (false, out)
    | some end_ => do
      let current ← walkLast s.nodes NULL (fun n => decide (n.data.start ≤ end_)) (2 ^ 64) NULL head
      let found ← backwardLoop s min max length (2 ^ 64) candidate current
      return report out found

/-- The loop of `vma_find_free_fixed`: whether it ends without an overlap. -/
def fixedLoop (s : Store) (addr end_ : Haddr) : Nat → Haddr → Option Bool
  | 0, _ => none
  | fuel + 1, current =>
    if current = NULL then some true
    else do
      let n ← s.nodes current
      if n.data.start > end_ then return true
      else if vmaOverlaps n.data addr end_ then return false
      else fixedLoop s addr end_ fuel n.next

def vmaFindFreeFixed (s : Store) (head addr min max length : Haddr) (out : Option Haddr) :
    Option (Bool × Option Haddr) :=
  if out = none ∨ length = 0 ∨ max < min then some (false, out)
  else if addr &&& (VMA_PAGE_SIZE - 1) ≠ 0 then some (false, out)
  else if length &&& (VMA_PAGE_SIZE - 1) ≠ 0 then some (false, out)
  else
    match vmaRangeFits addr min max length with
    | none => some (false, out)
    | some end_ => (fixedLoop s addr end_ (2 ^ 64) head).map fun free =>
        report out (if free then some addr else none)

/-- `[a, a + length - 1]` is a range of addresses that does not wrap and ends at `end_`. -/
def Spans (a length end_ : Haddr) : Prop :=
  a ≤ end_ ∧ end_.toNat + 1 = a.toNat + length.toNat

/-- `length` bytes from the page `a` on lie in `[min, max]`, outside all areas. -/
structure FreeAt (xs : List Area) (min max length a : Haddr) : Prop where
  aligned : a.toNat % 4096 = 0
  free : ∃ end_, Spans a length end_ ∧ min ≤ a ∧ end_ ≤ max ∧
    ∀ b ∈ xs, ∀ x, b.Covers x → ¬ (a ≤ x ∧ x ≤ end_)

theorem vmaAlignDown_toNat (a : Haddr) : (vmaAlignDown a).toNat=a.toNat / 4096 * 4096 :=
  toNat_and_not_mask (k := 12) a (VMA_PAGE_SIZE-1) (by decide)

theorem vmaAlignUp_toNat (a : Haddr) (h : a.toNat + 4095<2 ^ 64) :
    (vmaAlignUp a).toNat=(a.toNat + 4095) / 4096 * 4096 := by
  have hsum : a+VMA_PAGE_SIZE-1=a+(VMA_PAGE_SIZE-1) := by
    unfold VMA_PAGE_SIZE
    bv_omega
  rw [vmaAlignUp,hsum]
  exact toNat_add_mask_and_not_mask (k := 12) a (VMA_PAGE_SIZE-1) (by decide) h

section Fits

variable {xs : List Area} {start min max length e a candidate end_ : Haddr} {c : Area}
variable (hlen : length ≠ 0)
include hlen

theorem length_pos : 0<length.toNat :=
  Nat.pos_of_ne_zero fun h => hlen (BitVec.eq_of_toNat_eq h)

theorem vmaRangeFits_iff :
    vmaRangeFits start min max length=some e ↔ Spans start length e ∧ min ≤ start ∧ e ≤ max := by
  have hpos := length_pos hlen
  have hmax : HADDR_MAX=18446744073709551615#64 := rfl
  unfold vmaRangeFits Spans
  rw [hmax]
  constructor
  · intro h
    dsimp only at h
    split_ifs at h with h1 h2 h3
    obtain rfl := Option.some.inj h
    bv_omega
  · rintro ⟨⟨h1,h2⟩,h3,h4⟩
    have he : e=start+length-1 := by bv_omega
    subst he
    rw [if_neg (by bv_omega),if_neg (by bv_omega)]
    exact if_neg (BitVec.not_lt.mpr h4)

theorem freeAt_iff (hv : ∀ b∈xs, b.start≤b.end_) :
    FreeAt xs min max length a ↔ a.toNat % 4096=0 ∧ min.toNat≤a.toNat ∧
      a.toNat + length.toNat ≤ max.toNat + 1 ∧
      ∀ b∈xs, b.end_.toNat<a.toNat ∨ a.toNat + length.toNat≤b.start.toNat := by
  have hpos := length_pos hlen
  have hlt := max.isLt
  constructor
  · rintro ⟨hal,e,⟨hle,he⟩,hmin,hmax,hfree⟩
    simp only [le_def] at hle hmin hmax
    refine ⟨hal,hmin,by omega,fun b hb => ?_⟩
    have hno := (vmaOverlaps_iff (hv b hb) (BitVec.le_def.mpr hle)).not.mpr fun ⟨x,hbx,hx⟩ =>
      hfree b hb x hbx hx
    simp only [vmaOverlaps,Bool.and_eq_true,decide_eq_true_eq,not_and_or,le_def] at hno
    omega
  · rintro ⟨hal,hmin,hmax,hfree⟩
    have he : (a+length-1).toNat=a.toNat+length.toNat-1 := by bv_omega
    refine ⟨hal,a+length-1,⟨?_,?_⟩,hmin,?_,?_⟩
    · rw [le_def]
      omega
    · omega
    · rw [le_def]
      omega
    · rintro b hb x ⟨hx1,hx2⟩ ⟨hx3,hx4⟩
      have hb' := hfree b hb
      simp only [le_def] at *
      omega

end Fits

/-- The first address of the set, where `First` says which one that is, or none. -/
def FirstOf (First : Set Haddr → Haddr → Prop) (S : Set Haddr) : Option Haddr → Prop
  | none => S = ∅
  | some a => First S a

def FreeFrom (xs : List Area) (min max length candidate : Haddr) : Set Haddr :=
  {a | candidate ≤ a ∧ FreeAt xs min max length a}

section Forward

variable {xs : List Area} {min max length candidate end_ : Haddr} {c : Area}
variable (hlen : length ≠ 0)
include hlen

theorem mem_freeFrom {a : Haddr} (hs : Sorted xs) :
    a∈FreeFrom xs min max length candidate ↔ candidate.toNat≤a.toNat ∧ a.toNat % 4096=0 ∧
      min.toNat≤a.toNat ∧ a.toNat + length.toNat ≤ max.toNat + 1 ∧
      ∀ b∈xs, b.end_.toNat<a.toNat ∨ a.toNat + length.toNat≤b.start.toNat := by
  rw [FreeFrom,Set.mem_ofPred_eq,freeAt_iff hlen fun b hb => (hs.valid b hb).le,le_def]

theorem freeFrom_behind (hs : Sorted (c::xs)) (hc : c.end_<candidate) :
    FreeFrom (c::xs) min max length candidate=FreeFrom xs min max length candidate := by
  obtain ⟨-,hxs,-⟩ := sorted_cons.mp hs
  rw [lt_def] at hc
  ext a
  simp only [mem_freeFrom hlen hs,mem_freeFrom hlen hxs,forall_mem_cons]
  constructor
  · rintro ⟨h1,h2,h3,h4,-,h5⟩
    exact ⟨h1,h2,h3,h4,h5⟩
  · rintro ⟨h1,h2,h3,h4,h5⟩
    exact ⟨h1,h2,h3,h4,.inl (by omega),h5⟩

theorem isLeast_freeFrom (hs : Sorted xs) (hal : candidate.toNat % 4096=0)
    (hspan : Spans candidate length end_) (hmin : min≤candidate) (hmax : end_ ≤ max)
    (hbefore : ∀ b∈xs, end_<b.start) :
    IsLeast (FreeFrom xs min max length candidate) candidate := by
  obtain ⟨-,hend⟩ := hspan
  rw [le_def] at hmin hmax
  refine ⟨(mem_freeFrom hlen hs).mpr ⟨le_refl _,hal,hmin,by omega,fun b hb => .inr ?_⟩,?_⟩
  · have hlt := BitVec.lt_def.mp (hbefore b hb)
    omega
  · intro a ha
    exact ha.1

section

variable (hs : Sorted (c :: xs)) (hspan : Spans candidate length end_)
include hs hspan

/-- Every free range behind the candidate lies behind the area that the candidate meets. -/
theorem freeFrom_meets {a : Haddr}
    (hstart : ¬ end_<c.start) (ha : a∈FreeFrom (c::xs) min max length candidate) :
    c.end_.toNat<a.toNat := by
  obtain ⟨-,hend⟩ := hspan
  obtain ⟨hle,-,-,-,hfree⟩ := (mem_freeFrom hlen hs).mp ha
  have hc := hfree c (by simp)
  rw [lt_def] at hstart
  omega

theorem freeFrom_jump
    (hend : ¬ c.end_<candidate) (hstart : ¬ end_<c.start) (hlast : c.end_≠HADDR_MAX) :
    FreeFrom (c::xs) min max length candidate =
      FreeFrom xs min max length (c.end_ + 1) := by
  have hnext : (c.end_+1).toNat=c.end_.toNat+1 := by
    have hmax : HADDR_MAX=18446744073709551615#64 := rfl
    rw [hmax] at hlast
    bv_omega
  obtain ⟨-,hxs,-⟩ := sorted_cons.mp hs
  rw [lt_def] at hend
  ext a
  constructor
  · intro ha
    have hlt := freeFrom_meets hlen hs hspan hstart ha
    obtain ⟨-,h2,h3,h4,h5⟩ := (mem_freeFrom hlen hs).mp ha
    exact (mem_freeFrom hlen hxs).mpr ⟨by omega,h2,h3,h4,fun b hb => h5 b (by simp [hb])⟩
  · intro ha
    obtain ⟨h1,h2,h3,h4,h5⟩ := (mem_freeFrom hlen hxs).mp ha
    refine (mem_freeFrom hlen hs).mpr ⟨by omega,h2,h3,h4,forall_mem_cons.mpr ⟨?_,h5⟩⟩
    exact .inl (by omega)

theorem freeFrom_last (hstart : ¬ end_<c.start) (hlast : c.end_=HADDR_MAX) :
    FreeFrom (c::xs) min max length candidate = ∅ := by
  apply Set.eq_empty_of_forall_notMem
  intro a ha
  have hlt := freeFrom_meets hlen hs hspan hstart ha
  exact not_HADDR_MAX_lt a (hlast ▸ BitVec.lt_def.mpr hlt)

end

theorem freeFrom_past (hs : Sorted xs) (hmin : min≤candidate)
    (hfits : vmaRangeFits candidate min max length=none) :
    FreeFrom xs min max length candidate = ∅ := by
  apply Set.eq_empty_of_forall_notMem
  intro a ha
  obtain ⟨h1,-,-,h4,-⟩ := (mem_freeFrom hlen hs).mp ha
  have hpos := length_pos hlen
  have hlt := max.isLt
  have hsome : vmaRangeFits candidate min max length=some (candidate+length-1) := by
    rw [vmaRangeFits_iff hlen,Spans]
    bv_omega
  simp [hsome] at hfits

theorem forwardLoop_spec {s : Store} {ps : List (Haddr × Area)} {before current : Haddr}
    {fuel : Nat} (hl : Linked s.nodes before current ps NULL) (hfuel : ps.length<fuel)
    (hnull : NULL∉ptrs ps) (hs : Sorted (areas ps)) (hal : candidate.toNat % 4096=0)
    (hfits : vmaRangeFits candidate min max length=some end_) :
    ∃ r, forwardLoop s min max length fuel current candidate end_=some r ∧
      FirstOf IsLeast (FreeFrom (areas ps) min max length candidate) r := by
  induction ps generalizing before current fuel candidate end_ with
  | nil =>
    obtain ⟨fuel,rfl⟩ := Nat.exists_eq_succ_of_ne_zero (Nat.ne_of_gt hfuel)
    obtain ⟨hspan,hmin,hmax⟩ := (vmaRangeFits_iff hlen).mp hfits
    obtain rfl : current=NULL := hl
    refine ⟨some candidate,by simp [forwardLoop],?_⟩
    exact isLeast_freeFrom hlen hs hal hspan hmin hmax (by simp)
  | cons p ps ih =>
    obtain ⟨fuel,rfl⟩ := Nat.exists_eq_succ_of_ne_zero (Nat.ne_of_gt (Nat.zero_lt_of_lt hfuel))
    obtain ⟨hspan,hmin,hmax⟩ := (vmaRangeFits_iff hlen).mp hfits
    obtain ⟨rfl,next,hnode,hrest⟩ := hl
    simp only [ptrs_cons,mem_cons,not_or] at hnull
    rw [areas_cons] at hs
    obtain ⟨hv,hsrest,-⟩ := sorted_cons.mp hs
    have hnext {start e : Haddr} (h1 : start.toNat % 4096=0)
        (h2 : vmaRangeFits start min max length=some e) :=
      ih hrest (by simpa using hfuel) hnull.2 hsrest h1 h2
    have hstep : forwardLoop s min max length (fuel+1) p.1 candidate end_ =
        if p.2.end_<candidate then forwardLoop s min max length fuel next candidate end_
        else if end_<p.2.start then some (some candidate)
        else if p.2.end_=HADDR_MAX then some none
        else match vmaRangeFits (p.2.end_+1) min max length with
          | none => some none
          | some end_ => forwardLoop s min max length fuel next (p.2.end_+1) end_ := by
      simp [forwardLoop,Ne.symm hnull.1,hnode]
    rw [hstep,areas_cons]
    split_ifs with h1 h2 h3
    · rw [freeFrom_behind hlen hs h1]
      exact hnext hal hfits
    · exact ⟨_,rfl,isLeast_freeFrom hlen hs hal hspan hmin hmax (hs.starts_after h2)⟩
    · exact ⟨_,rfl,freeFrom_last hlen hs hspan h2 h3⟩
    · rw [freeFrom_jump hlen hs hspan h1 h2 h3]
      have hmax' : HADDR_MAX=18446744073709551615#64 := rfl
      have hal' : (p.2.end_+1).toNat % 4096=0 := by
        have := hv.end_aligned
        rw [hmax'] at h3
        bv_omega
      cases hfit : vmaRangeFits (p.2.end_+1) min max length with
      | none =>
        refine ⟨none,rfl,freeFrom_past hlen hsrest ?_ hfit⟩
        rw [hmax'] at h3
        bv_omega
      | some e => exact hnext hal' hfit

end Forward

def pageCeil (a : Haddr) : Nat := (a.toNat + 4095) / 4096 * 4096

theorem forwardStart_spec (hint : Haddr) {min : Haddr} (hmin : min.toNat % 4096=0) :
    (forwardStart hint min=none ∧ pageCeil hint=2 ^ 64) ∨
    ∃ candidate, forwardStart hint min=some candidate ∧ candidate.toNat % 4096=0 ∧
      candidate.toNat=Nat.max (pageCeil hint) min.toNat := by
  have hraise (b : Haddr) (hb : b.toNat % 4096=0) (hceil : b.toNat=pageCeil hint) :
      (if b < min then min else b).toNat % 4096=0 ∧
        (if b < min then min else b).toNat=Nat.max (pageCeil hint) min.toNat := by
    rw [← hceil]
    split_ifs with hlt
    · exact ⟨hmin,(Nat.max_eq_right (Nat.le_of_lt (BitVec.lt_def.mp hlt))).symm⟩
    · exact ⟨hb,(Nat.max_eq_left (BitVec.le_def.mp (BitVec.not_lt.mp hlt))).symm⟩
  by_cases h0 : hint=0
  · subst h0
    refine .inr ⟨min,?_,hmin,by simp [pageCeil]⟩
    have hmask := (and_page_mask min).mpr hmin
    simp only [forwardStart,if_true,hmask,ne_eq,not_true_eq_false,if_false,ite_self]
  have hlt := hint.isLt
  have hmax : (HADDR_MAX-(VMA_PAGE_SIZE-1)).toNat=2 ^ 64-4096 := by decide
  by_cases hal : hint.toNat % 4096=0
  · have hmask := (and_page_mask hint).mpr hal
    refine .inr ⟨if hint < min then min else hint,?_,hraise hint hal ?_⟩
    · simp only [forwardStart,if_neg h0,hmask,ne_eq,not_true_eq_false,if_false]
    · unfold pageCeil
      omega
  have hmask := (and_page_mask hint).not.mpr hal
  by_cases hend : hint > HADDR_MAX-(VMA_PAGE_SIZE-1)
  · refine .inl ⟨?_,?_⟩
    · simp only [forwardStart,if_neg h0,hmask,ne_eq,not_false_eq_true,if_true,hend]
    · rw [gt_iff_lt,lt_def,hmax] at hend
      unfold pageCeil
      omega
  · refine .inr ⟨if vmaAlignUp hint < min then min else vmaAlignUp hint,?_,?_⟩
    · simp only [forwardStart,if_neg h0,hmask,ne_eq,not_false_eq_true,if_true,hend,if_false]
    · rw [gt_iff_lt,lt_def,hmax] at hend
      have hup := vmaAlignUp_toNat hint (by omega)
      exact hraise (vmaAlignUp hint) (by omega) hup

theorem not_freeAt_zero {xs : List Area} {min max a : Haddr} : ¬ FreeAt xs min max 0 a := by
  rintro ⟨-,e,⟨hle,he⟩,-⟩
  rw [le_def] at hle
  simp at he
  omega

theorem not_freeAt_of_lt {xs : List Area} {min max length a : Haddr} (h : max < min) :
    ¬ FreeAt xs min max length a := by
  rintro ⟨-,e,⟨hle,-⟩,hmin,hmax,-⟩
  simp only [le_def,lt_def] at *
  omega

theorem FirstOf.report {First : Set Haddr → Haddr → Prop} {S : Set Haddr} {r : Option Haddr}
    (h : FirstOf First S r) (hmem : ∀ a, First S a → a∈S) (out : Option Haddr) :
    ((report out r).1=true ↔ S.Nonempty) ∧
      ((report out r).1=true → ∃ a, (report out r).2=some a ∧ First S a) := by
  cases r with
  | none =>
    have hempty : S = ∅ := h
    simp [Vma.report,hempty]
  | some a => exact ⟨⟨fun _ => ⟨a,hmem a h⟩,fun _ => rfl⟩,fun _ => ⟨a,rfl,h⟩⟩

theorem FirstOf.mem_of_report {First : Set Haddr → Haddr → Prop} {S : Set Haddr}
    {r out : Option Haddr} {a : Haddr} (h : FirstOf First S r) (hmem : ∀ a, First S a → a∈S)
    (hr : (true, some a)=Vma.report out r) : a∈S := by
  cases r with
  | none => simp [Vma.report] at hr
  | some b =>
    obtain rfl : a=b := by simpa [Vma.report] using hr
    exact hmem a h

section Whole

variable {s : Store} {l : Nat} {ps : List (Haddr × Area)} (hc : Chain s l ps)
variable (hs : Sorted (areas ps)) (hint : Haddr) {min max length : Haddr} (old : Haddr)
include hc hs

theorem vmaFindFreeForward_spec (hmin : min.toNat % 4096=0) (hlen : length.toNat % 4096=0) :
    ∃ r, vmaFindFreeForward s (s.heads l) hint min max length (some old) =
        some (report (some old) r) ∧
      FirstOf IsLeast {a | Nat.max (pageCeil hint) min.toNat≤a.toNat ∧
        FreeAt (areas ps) min max length a} r := by
  unfold vmaFindFreeForward
  by_cases h0 : length=0
  · subst h0
    exact ⟨none,by simp [report],Set.eq_empty_of_forall_notMem fun a ha => not_freeAt_zero ha.2⟩
  by_cases hlt : max < min
  · refine ⟨none,by simp [hlt,report],Set.eq_empty_of_forall_notMem fun a ha => ?_⟩
    exact not_freeAt_of_lt hlt ha.2
  simp only [reduceCtorEq,h0,hlt,or_self,if_false,ne_eq,(and_page_mask length).mpr hlen,
    not_true_eq_false]
  rcases forwardStart_spec hint hmin with ⟨hnone,hceil⟩ | ⟨candidate,hstart,hal,hcand⟩
  · refine ⟨none,by simp [hnone,report],Set.eq_empty_of_forall_notMem fun a ha => ?_⟩
    have hle : Nat.max (pageCeil hint) min.toNat≤a.toNat := ha.1
    have hceil' := Nat.le_trans (Nat.le_max_left _ _) hle
    have hlt := a.isLt
    omega
  · have hset : {a : Haddr | Nat.max (pageCeil hint) min.toNat≤a.toNat ∧
        FreeAt (areas ps) min max length a} = FreeFrom (areas ps) min max length candidate := by
      rw [← hcand]
      rfl
    have hle : min≤candidate := by
      rw [le_def,hcand]
      exact Nat.le_max_right _ _
    rw [hset,hstart]
    dsimp only
    cases hfits : vmaRangeFits candidate min max length with
    | none => exact ⟨none,rfl,freeFrom_past h0 hs hle hfits⟩
    | some end_ =>
      have hnull : NULL∉ptrs ps := (nodup_cons.mp hc.distinct).1
      obtain ⟨r,hrun,hr⟩ := forwardLoop_spec h0 hc.linked (length_lt_of_distinct hc.distinct)
        hnull hs hal hfits
      exact ⟨r,congrArg (Option.map (report (some old))) hrun,hr⟩

end Whole

/-- The forward search finds an address exactly when a range is free from the hint on, and then the
least one. -/
theorem vmaFindFreeForward_least {s : Store} {ls : Nat → List (Haddr × Area)}
    (hc : Consistent s ls) (l : Nat) (hint max old : Haddr) {min length : Haddr}
    (hmin : min.toNat % 4096 = 0) (hlen : length.toNat % 4096 = 0) :
    ∃ found out, vmaFindFreeForward s (s.heads l) hint min max length (some old) =
        some (found, out) ∧
      (found = true ↔ ∃ a : Haddr, Nat.max (pageCeil hint) min.toNat ≤ a.toNat ∧
        FreeAt (areas (ls l)) min max length a) ∧
      (found = true → ∃ a, out = some a ∧
        IsLeast {a : Haddr | Nat.max (pageCeil hint) min.toNat ≤ a.toNat ∧
          FreeAt (areas (ls l)) min max length a} a) := by
  obtain ⟨r,hrun,hr⟩ := vmaFindFreeForward_spec (hc.represents.chain l) (hc.sorted l)
    hint old hmin hlen
  obtain ⟨hiff,hleast⟩ := hr.report (fun _ ha => ha.1) (some old)
  exact ⟨_,_,hrun,hiff,hleast⟩

theorem vmaFindFreeForward_least_behind :
    ∃ found out, vmaFindFreeForward fourPagesStore (fourPagesStore.heads 0) 0x2001 0x1000 0x8fff
        0x2000 (some 0) = some (found, out) ∧ found = true ∧
      ∃ a, out = some a ∧ IsLeast {a : Haddr | Nat.max (pageCeil 0x2001) 0x1000 ≤ a.toNat ∧
          FreeAt (areas (fourPagesLists 0)) 0x1000 0x8fff 0x2000 a} a := by
  have hmin : (0x1000 : Haddr).toNat % 4096=0 := by decide
  have hlen : (0x2000 : Haddr).toNat % 4096=0 := by decide
  obtain ⟨found,out,hrun,hiff,hleast⟩ := vmaFindFreeForward_least fourPagesStore_consistent 0
    0x2001 0x8fff 0 hmin hlen
  have hfound : found=true := by
    refine hiff.mpr ⟨0x5000,by decide,?_⟩
    rw [freeAt_iff (by decide) fun b hb => ((fourPagesStore_consistent.sorted 0).valid b hb).le]
    simp [fourPagesLists,fourPages]
  exact ⟨found,out,hrun,hfound,hleast hfound⟩

def FreeUpTo (xs : List Area) (min max length candidate : Haddr) : Set Haddr :=
  {a | a ≤ candidate ∧ FreeAt xs min max length a}

section Backward

variable {xs ys : List Area} {min max length candidate end_ : Haddr} {c : Area}
variable (hlen : length ≠ 0)
include hlen

theorem mem_freeUpTo {a : Haddr} (hs : Sorted xs) :
    a∈FreeUpTo xs min max length candidate ↔ a.toNat≤candidate.toNat ∧ a.toNat % 4096=0 ∧
      min.toNat≤a.toNat ∧ a.toNat + length.toNat ≤ max.toNat + 1 ∧
      ∀ b∈xs, b.end_.toNat<a.toNat ∨ a.toNat + length.toNat≤b.start.toNat := by
  rw [FreeUpTo,Set.mem_ofPred_eq,freeAt_iff hlen fun b hb => (hs.valid b hb).le,le_def]

theorem freeUpTo_before (hs : Sorted (xs++ys)) (hspan : Spans candidate length end_)
    (hys : ∀ b∈ys, end_<b.start) :
    FreeUpTo (xs++ys) min max length candidate=FreeUpTo xs min max length candidate := by
  obtain ⟨hxs,-,-⟩ := sorted_append.mp hs
  obtain ⟨-,hend⟩ := hspan
  ext a
  simp only [mem_freeUpTo hlen hs,mem_freeUpTo hlen hxs,forall_mem_append]
  constructor
  · rintro ⟨h1,h2,h3,h4,h5,-⟩
    exact ⟨h1,h2,h3,h4,h5⟩
  · rintro ⟨h1,h2,h3,h4,h5⟩
    refine ⟨h1,h2,h3,h4,h5,fun b hb => .inr ?_⟩
    have hlt := BitVec.lt_def.mp (hys b hb)
    omega

theorem isGreatest_freeUpTo (hs : Sorted xs) (hal : candidate.toNat % 4096=0)
    (hspan : Spans candidate length end_) (hmin : min≤candidate) (hmax : end_ ≤ max)
    (hbehind : ∀ b∈xs, b.end_<candidate) :
    IsGreatest (FreeUpTo xs min max length candidate) candidate := by
  obtain ⟨-,hend⟩ := hspan
  rw [le_def] at hmin hmax
  refine ⟨(mem_freeUpTo hlen hs).mpr ⟨le_refl _,hal,hmin,by omega,fun b hb => .inl ?_⟩,?_⟩
  · exact BitVec.lt_def.mp (hbehind b hb)
  · intro a ha
    exact ha.1

/-- Every free range up to the candidate lies in front of the area that the candidate meets. -/
theorem freeUpTo_meets {a : Haddr} (hs : Sorted (xs++[c])) (hend : ¬ c.end_<candidate)
    (ha : a∈FreeUpTo (xs++[c]) min max length candidate) :
    a.toNat + length.toNat≤c.start.toNat := by
  obtain ⟨hle,-,-,-,hfree⟩ := (mem_freeUpTo hlen hs).mp ha
  have hc := hfree c (by simp)
  rw [lt_def] at hend
  omega

/-- No range is free where there is no room between `min` and the area that the candidate meets. -/
theorem freeUpTo_low (hs : Sorted (xs++[c])) (hend : ¬ c.end_<candidate)
    (hroom : c.start ≤ min ∨ length > c.start - min) :
    FreeUpTo (xs++[c]) min max length candidate = ∅ := by
  apply Set.eq_empty_of_forall_notMem
  intro a ha
  have hpos := length_pos hlen
  have hle := freeUpTo_meets hlen hs hend ha
  obtain ⟨-,-,hmin,-⟩ := (mem_freeUpTo hlen hs).mp ha
  bv_omega

theorem freeUpTo_jump {next : Haddr} (hs : Sorted (xs++[c]))
    (hspan : Spans candidate length end_) (hend : ¬ c.end_<candidate) (hstart : c.start≤end_)
    (hnext : next.toNat + length.toNat=c.start.toNat) :
    FreeUpTo (xs++[c]) min max length candidate=FreeUpTo xs min max length next := by
  obtain ⟨hxs,-,-⟩ := sorted_append.mp hs
  obtain ⟨-,hlast⟩ := hspan
  rw [le_def] at hstart
  ext a
  constructor
  · intro ha
    have hle := freeUpTo_meets hlen hs hend ha
    obtain ⟨-,h2,h3,h4,h5⟩ := (mem_freeUpTo hlen hs).mp ha
    exact (mem_freeUpTo hlen hxs).mpr ⟨by omega,h2,h3,h4,fun b hb => h5 b (by simp [hb])⟩
  · intro ha
    obtain ⟨h1,h2,h3,h4,h5⟩ := (mem_freeUpTo hlen hxs).mp ha
    refine (mem_freeUpTo hlen hs).mpr ⟨by omega,h2,h3,h4,?_⟩
    rw [forall_mem_append,forall_mem_singleton]
    exact ⟨h5,.inr (by omega)⟩

end Backward

theorem split_start (end_ : Haddr) {ps : List (Haddr × Area)} (hs : Sorted (areas ps)) :
    ∃ xs ys, ps=xs++ys ∧ (∀ b∈areas xs, b.start≤end_) ∧ ∀ b∈areas ys, end_<b.start := by
  refine ⟨ps.takeWhile fun q => q.2.start≤end_,ps.dropWhile fun q => q.2.start≤end_,
    takeWhile_append_dropWhile.symm,?_,?_⟩
  · intro b hb
    obtain ⟨q,hq,rfl⟩ := mem_map.mp hb
    simpa using mem_takeWhile_imp hq
  · have hsplit : ps.takeWhile (fun q => q.2.start≤end_) ++
        ps.dropWhile (fun q => q.2.start≤end_)=ps := takeWhile_append_dropWhile
    have hhead := head?_dropWhile_not (fun q : Haddr × Area => decide (q.2.start≤end_)) ps
    rw [← hsplit,areas_append] at hs
    cases hback : ps.dropWhile (fun q => q.2.start≤end_) with
    | nil => simp
    | cons q ys =>
      simp only [hback,head?_cons,decide_eq_false_iff_not] at hhead
      rw [hback] at hs
      exact (sorted_append.mp hs).2.1.starts_after (BitVec.not_le.mp (by simpa using hhead))

theorem walk_to_start {s : Store} {xs ys : List (Haddr × Area)} {first after end_ : Haddr}
    (hl : Linked s.nodes NULL first (xs++ys) after) (hd : (NULL::ptrs (xs++ys)).Nodup)
    (hxs : ∀ b∈areas xs, b.start≤end_) (hys : ∀ b∈areas ys, end_<b.start) :
    walk s.nodes NULL Node.prev (fun n => decide (n.data.start > end_)) (2 ^ 64)
      (lastPtr NULL (xs++ys))=some (lastPtr NULL xs) := by
  obtain ⟨mid,hlx,hly⟩ := linked_append.mp hl
  have hlength := length_lt_of_distinct hd
  rw [length_append] at hlength
  refine walk_back hl (by omega) (nodup_cons.mp hd).1 ?_ ?_
  · intro q hq n hn
    obtain ⟨x,hx,rfl⟩ := mem_map.mp hq
    obtain ⟨n',hn',hdata⟩ := hly.node hx
    obtain rfl : n'=n := Option.some.inj (hn'.symm.trans hn)
    simpa [hdata] using hys x.2 (mem_map_of_mem hx)
  · rcases eq_nil_or_concat' xs with rfl | ⟨ws,c,rfl⟩
    · exact .inl rfl
    · obtain ⟨-,hnode⟩ := linked_concat.mp hlx
      refine .inr ⟨_,by rw [lastPtr_concat]; exact hnode,?_⟩
      simpa using hxs c.2 (by simp)

theorem backwardLoop_spec {s : Store} {min max length : Haddr} (hlen : length≠0)
    (hlenal : length.toNat % 4096=0) {ps : List (Haddr × Area)} {first after : Haddr} {fuel : Nat}
    {candidate end_ : Haddr} (hl : Linked s.nodes NULL first ps after) (hfuel : ps.length<fuel)
    (hd : (NULL::ptrs ps).Nodup) (hs : Sorted (areas ps)) (hal : candidate.toNat % 4096=0)
    (hfits : vmaRangeFits candidate min max length=some end_) :
    ∃ r, backwardLoop s min max length fuel candidate (lastPtr NULL ps)=some r ∧
      FirstOf IsGreatest (FreeUpTo (areas ps) min max length candidate) r := by
  -- each round leaves at least the area that the candidate meets behind
  induction fuel generalizing ps after candidate end_ with
  | zero => omega
  | succ fuel ih =>
    obtain ⟨hspan,hmin,hmax⟩ := (vmaRangeFits_iff hlen).mp hfits
    obtain ⟨xs,ys,rfl,hxs,hys⟩ := split_start end_ hs
    have hnull : NULL∉ptrs (xs++ys) := (nodup_cons.mp hd).1
    obtain ⟨mid,hlx,-⟩ := linked_append.mp hl
    have hwalk := walk_to_start hl hd hxs hys
    rw [areas_append] at hs ⊢
    rw [freeUpTo_before hlen hs hspan hys]
    have hsx := (sorted_append.mp hs).1
    rcases eq_nil_or_concat' xs with rfl | ⟨ws,c,rfl⟩
    · refine ⟨some candidate,?_,isGreatest_freeUpTo hlen hsx hal hspan hmin hmax (by simp)⟩
      simp only [backwardLoop,hfits,hwalk,lastPtr,Option.bind_eq_bind,Option.bind_some,if_true]
      rfl
    · obtain ⟨hlw,hnode⟩ := linked_concat.mp hlx
      have hc0 : c.1≠NULL := fun h => hnull (by simp [h])
      have hstep : backwardLoop s min max length (fuel+1) candidate
          (lastPtr NULL (ws++[c]++ys)) =
          if c.2.end_<candidate then some (some candidate)
          else if c.2.start ≤ min then some none
          else if length > c.2.start-min then some none
          else backwardLoop s min max length fuel (vmaAlignDown (c.2.start-length))
            (lastPtr NULL ws) := by
        simp only [backwardLoop,hfits,hwalk,lastPtr_concat,Option.bind_eq_bind,
          Option.bind_some,hc0,if_false,hnode]
        rfl
      have hcstart := hxs c.2 (by simp)
      simp only [areas_append,areas_cons,areas_nil] at hsx ⊢
      obtain ⟨hsw,hsc,hwc⟩ := sorted_append.mp hsx
      obtain ⟨hv,-,-⟩ := sorted_cons.mp hsc
      rw [hstep]
      split_ifs with h1 h2 h3
      · refine ⟨_,rfl,isGreatest_freeUpTo hlen hsx hal hspan hmin hmax fun b hb => ?_⟩
        rcases mem_append.mp hb with hb | hb
        · have hbc := hwc b hb c.2 (by simp)
          have hle := hv.le
          simp only [lt_def,le_def] at *
          omega
        · rwa [mem_singleton.mp hb]
      · exact ⟨_,rfl,freeUpTo_low hlen hsx h1 (.inl h2)⟩
      · exact ⟨_,rfl,freeUpTo_low hlen hsx h1 (.inr h3)⟩
      · have hnext : (vmaAlignDown (c.2.start-length)).toNat+length.toNat=c.2.start.toNat ∧
            min.toNat≤(vmaAlignDown (c.2.start-length)).toNat := by
          have halc := hv.start_aligned
          rw [vmaAlignDown_toNat]
          bv_omega
        have hfits' : vmaRangeFits (vmaAlignDown (c.2.start-length)) min max length =
            some (c.2.start-1) := by
          have hpos := length_pos hlen
          rw [vmaRangeFits_iff hlen,Spans]
          bv_omega
        rw [freeUpTo_jump hlen hsx hspan h1 hcstart hnext.1]
        refine ih hlw ?_ ?_ hsw ?_ hfits'
        · simp only [length_append,length_cons] at hfuel
          omega
        · exact hd.sublist (by simp [ptrs])
        · rw [vmaAlignDown_toNat]
          omega

def pageFloor (a : Haddr) : Nat := a.toNat / 4096 * 4096

theorem backwardStart_spec (hint : Haddr) {min max length : Haddr} (hlen : length≠0)
    (hle : min ≤ max) (hroom : ¬ length - 1 > max - min) :
    (backwardStart hint max length).toNat % 4096=0 ∧
      (backwardStart hint max length).toNat + length.toNat ≤ max.toNat + 1 ∧
      ∀ a : Haddr, a.toNat % 4096=0 → a.toNat + length.toNat ≤ max.toNat + 1 →
        (hint=0 ∨ a.toNat≤pageFloor hint ↔ a.toNat≤(backwardStart hint max length).toNat) := by
  have hpos := length_pos hlen
  have hlast : (max-length+1).toNat+length.toNat=max.toNat+1 := by bv_omega
  have hhigh := vmaAlignDown_toNat (max-length+1)
  have hfloor := vmaAlignDown_toNat hint
  unfold backwardStart pageFloor
  by_cases h0 : hint=0
  · simp only [h0,if_true,gt_iff_lt,BitVec.lt_irrefl,if_false,true_or,true_iff]
    exact ⟨by omega,by omega,by omega⟩
  · simp only [h0,if_false,false_or,gt_iff_lt,lt_def]
    split_ifs with hgt
    · exact ⟨by omega,by omega,by omega⟩
    · exact ⟨by omega,by omega,by omega⟩

theorem vmaFindFreeBackward_spec {s : Store} {l : Nat} {ps : List (Haddr × Area)}
    (hc : Chain s l ps) (hs : Sorted (areas ps)) (hint : Haddr) {min max length : Haddr}
    (old : Haddr) (hlen : length.toNat % 4096=0) :
    ∃ r, vmaFindFreeBackward s (s.heads l) hint min max length (some old) =
        some (report (some old) r) ∧
      FirstOf IsGreatest {a | (hint=0 ∨ a.toNat≤pageFloor hint) ∧
        FreeAt (areas ps) min max length a} r := by
  have hv : ∀ b∈areas ps, b.start≤b.end_ := fun b hb => (hs.valid b hb).le
  unfold vmaFindFreeBackward
  by_cases h0 : length=0
  · subst h0
    exact ⟨none,by simp [report],Set.eq_empty_of_forall_notMem fun a ha => not_freeAt_zero ha.2⟩
  by_cases hlt : max < min
  · refine ⟨none,by simp [hlt,report],Set.eq_empty_of_forall_notMem fun a ha => ?_⟩
    exact not_freeAt_of_lt hlt ha.2
  simp only [reduceCtorEq,h0,hlt,or_self,if_false,ne_eq,(and_page_mask length).mpr hlen,
    not_true_eq_false]
  have hle : min ≤ max := BitVec.not_lt.mp hlt
  by_cases hroom : length-1 > max-min
  · refine ⟨none,by simp only [if_pos hroom,report],Set.eq_empty_of_forall_notMem fun a ha => ?_⟩
    obtain ⟨-,h2,h3,-⟩ := (freeAt_iff h0 hv).mp ha.2
    have hpos := length_pos h0
    bv_omega
  simp only [if_neg hroom]
  obtain ⟨hal,hfit,hup⟩ := backwardStart_spec hint h0 hle hroom
  obtain ⟨candidate,hcand⟩ : ∃ candidate, backwardStart hint max length=candidate := ⟨_,rfl⟩
  rw [hcand] at hal hfit hup ⊢
  have hset : {a : Haddr | (hint=0 ∨ a.toNat≤pageFloor hint) ∧
      FreeAt (areas ps) min max length a} = FreeUpTo (areas ps) min max length candidate := by
    ext a
    refine and_congr_left fun ha => ?_
    obtain ⟨h1,-,h3,-⟩ := (freeAt_iff h0 hv).mp ha
    exact hup a h1 h3
  rw [hset]
  cases hfits : vmaRangeFits candidate min max length with
  | none =>
    -- the candidate ends in time, so it starts too early
    refine ⟨none,rfl,Set.eq_empty_of_forall_notMem fun a ha => ?_⟩
    obtain ⟨h1,-,h3,-⟩ := (mem_freeUpTo h0 hs).mp ha
    have hpos := length_pos h0
    have hsome : vmaRangeFits candidate min max length=some (candidate+length-1) := by
      rw [vmaRangeFits_iff h0,Spans]
      bv_omega
    simp [hsome] at hfits
  | some end_ =>
    obtain ⟨xs,ys,rfl,hxs,hys⟩ := split_start end_ hs
    obtain ⟨hspan,-,-⟩ := (vmaRangeFits_iff h0).mp hfits
    obtain ⟨mid,hlx,hly⟩ := linked_append.mp hc.linked
    have hlength := length_lt_of_distinct hc.distinct
    rw [length_append] at hlength
    have hd := hc.distinct
    simp only [ptrs_append,nodup_cons,mem_append,not_or] at hd
    have hlast : walkLast s.nodes NULL (fun n => decide (n.data.start≤end_)) (2 ^ 64) NULL
        (s.heads l)=some (lastPtr NULL xs) := by
      refine walkLast_linked hlx (by omega) hd.1.1 ?_ ?_
      · intro q hq n hn
        obtain ⟨x,hx,rfl⟩ := mem_map.mp hq
        obtain ⟨n',hn',hdata⟩ := hlx.node hx
        obtain rfl : n'=n := Option.some.inj (hn'.symm.trans hn)
        simpa [hdata] using hxs x.2 (mem_map_of_mem hx)
      · cases ys with
        | nil => exact .inl hly
        | cons y ys =>
          obtain ⟨rfl,r,hnode,-⟩ := hly
          exact .inr ⟨_,hnode,by simpa using hys y.2 (by simp)⟩
    rw [areas_append] at hs ⊢
    obtain ⟨r,hrun,hr⟩ := backwardLoop_spec h0 hlen hlx (Nat.lt_of_le_of_lt (Nat.le_add_right _ _)
      hlength) (nodup_cons.mpr ⟨hd.1.1,(nodup_append.mp hd.2).1⟩)
      (sorted_append.mp hs).1 hal hfits
    rw [freeUpTo_before h0 hs hspan hys]
    refine ⟨r,?_,hr⟩
    simp only [hlast,Option.bind_eq_bind,Option.bind_some,hrun]
    rfl

/-- The backward search ends; it finds an address exactly when a range is free up to the hint, and
then the greatest one. -/
theorem vmaFindFreeBackward_greatest {s : Store} {ls : Nat → List (Haddr × Area)}
    (hc : Consistent s ls) (l : Nat) (hint min max old : Haddr) {length : Haddr}
    (hlen : length.toNat % 4096 = 0) :
    ∃ found out, vmaFindFreeBackward s (s.heads l) hint min max length (some old) =
        some (found, out) ∧
      (found = true ↔ ∃ a : Haddr, (hint = 0 ∨ a.toNat ≤ pageFloor hint) ∧
        FreeAt (areas (ls l)) min max length a) ∧
      (found = true → ∃ a, out = some a ∧
        IsGreatest {a : Haddr | (hint = 0 ∨ a.toNat ≤ pageFloor hint) ∧
          FreeAt (areas (ls l)) min max length a} a) := by
  obtain ⟨r,hrun,hr⟩ := vmaFindFreeBackward_spec (hc.represents.chain l) (hc.sorted l) hint old hlen
  obtain ⟨hiff,hgreatest⟩ := hr.report (fun _ ha => ha.1) (some old)
  exact ⟨_,_,hrun,hiff,hgreatest⟩

theorem vmaFindFreeBackward_greatest_below :
    ∃ found out, vmaFindFreeBackward fourPagesStore (fourPagesStore.heads 0) 0x4001 0 0x8fff 0x1000
        (some 0) = some (found, out) ∧ found = true ∧
      ∃ a, out = some a ∧ IsGreatest {a : Haddr | (0x4001#64 = 0 ∨ a.toNat ≤ pageFloor 0x4001) ∧
          FreeAt (areas (fourPagesLists 0)) 0 0x8fff 0x1000 a} a := by
  have hlen : (0x1000 : Haddr).toNat % 4096=0 := by decide
  obtain ⟨found,out,hrun,hiff,hgreatest⟩ := vmaFindFreeBackward_greatest
    fourPagesStore_consistent 0 0x4001 0 0x8fff 0 hlen
  have hfound : found=true := by
    refine hiff.mpr ⟨0,.inr (by decide),?_⟩
    rw [freeAt_iff (by decide) fun b hb => ((fourPagesStore_consistent.sorted 0).valid b hb).le]
    simp [fourPagesLists,fourPages]
  exact ⟨found,out,hrun,hfound,hgreatest hfound⟩

theorem fixedLoop_spec {s : Store} {addr end_ : Haddr} (hle : addr≤end_)
    {ps : List (Haddr × Area)} {before current : Haddr} {fuel : Nat}
    (hl : Linked s.nodes before current ps NULL) (hfuel : ps.length<fuel)
    (hnull : NULL∉ptrs ps) (hs : Sorted (areas ps)) :
    ∃ free, fixedLoop s addr end_ fuel current=some free ∧
      (free=true ↔ ∀ b∈areas ps, ∀ x, b.Covers x → ¬ (addr≤x ∧ x≤end_)) := by
  induction ps generalizing before current fuel with
  | nil =>
    obtain ⟨fuel,rfl⟩ := Nat.exists_eq_succ_of_ne_zero (Nat.ne_of_gt hfuel)
    obtain rfl : current=NULL := hl
    exact ⟨true,by simp [fixedLoop],by simp⟩
  | cons p ps ih =>
    obtain ⟨fuel,rfl⟩ := Nat.exists_eq_succ_of_ne_zero (Nat.ne_of_gt (Nat.zero_lt_of_lt hfuel))
    obtain ⟨rfl,next,hnode,hrest⟩ := hl
    simp only [ptrs_cons,mem_cons,not_or] at hnull
    rw [areas_cons] at hs ⊢
    obtain ⟨hv,hsrest,-⟩ := sorted_cons.mp hs
    have hstep : fixedLoop s addr end_ (fuel+1) p.1 =
        if p.2.start > end_ then some true
        else if vmaOverlaps p.2 addr end_ then some false
        else fixedLoop s addr end_ fuel next := by
      simp [fixedLoop,Ne.symm hnull.1,hnode]
    rw [hstep]
    split_ifs with h1 h2
    · refine ⟨true,rfl,fun _ b hb x hbx hx => ?_,fun _ => rfl⟩
      have hlt := hs.starts_after h1 b hb
      exact BitVec.not_le.mpr hlt (BitVec.le_trans hbx.1 hx.2)
    · obtain ⟨x,hpx,hx⟩ := (vmaOverlaps_iff hv.le hle).mp h2
      exact ⟨false,rfl,by simp,fun h => absurd hx (h p.2 (by simp) x hpx)⟩
    · obtain ⟨free,hrun,hiff⟩ := ih hrest (by simpa using hfuel) hnull.2 hsrest
      refine ⟨free,hrun,hiff.trans ?_⟩
      rw [forall_mem_cons]
      refine (and_iff_right fun x hpx hx => h2 ?_).symm
      exact (vmaOverlaps_iff hv.le hle).mpr ⟨x,hpx,hx⟩

section Insertion

variable {s : Store} {ls : Nat → List (Haddr × Area)} (hc : Consistent s ls) (l : Nat)
include hc

/-- The search at a fixed address looks for what the other searches call a free range. -/
theorem vmaFindFreeFixed_spec (addr min max length old : Haddr) :
    ∃ found out, vmaFindFreeFixed s (s.heads l) addr min max length (some old) =
        some (found, out) ∧
      (found=true ↔ length.toNat % 4096=0 ∧ FreeAt (areas (ls l)) min max length addr) := by
  unfold vmaFindFreeFixed
  by_cases h0 : length=0
  · subst h0
    exact ⟨false,some old,by simp,by simp,fun h => absurd h.2 not_freeAt_zero⟩
  by_cases hlt : max < min
  · exact ⟨false,some old,by simp [hlt],by simp,fun h => absurd h.2 (not_freeAt_of_lt hlt)⟩
  simp only [reduceCtorEq,h0,hlt,or_self,if_false,ne_eq,and_page_mask]
  by_cases hal : addr.toNat % 4096=0
  swap
  · exact ⟨false,some old,by rw [if_pos hal],by simp,fun h => absurd h.2.aligned hal⟩
  by_cases hlen : length.toNat % 4096=0
  swap
  · exact ⟨false,some old,by rw [if_neg (by simpa using hal),if_pos hlen],by simp,
      fun h => absurd h.1 hlen⟩
  rw [if_neg (by simpa using hal),if_neg (by simpa using hlen)]
  cases hfits : vmaRangeFits addr min max length with
  | none =>
    refine ⟨false,some old,rfl,by simp,fun h => ?_⟩
    obtain ⟨e,hspan,hmin,hmax,-⟩ := h.2.free
    simp [(vmaRangeFits_iff h0).mpr ⟨hspan,hmin,hmax⟩] at hfits
  | some end_ =>
    obtain ⟨hspan,hmin,hmax⟩ := (vmaRangeFits_iff h0).mp hfits
    have hchain := hc.represents.chain l
    obtain ⟨free,hrun,hiff⟩ := fixedLoop_spec hspan.1 hchain.linked
      (length_lt_of_distinct hchain.distinct) (nodup_cons.mp hchain.distinct).1 (hc.sorted l)
    refine ⟨free,if free then some addr else some old,?_,hiff.trans ⟨fun h => ?_,fun h => ?_⟩⟩
    · dsimp only
      rw [hrun]
      cases free <;> rfl
    · exact ⟨hlen,hal,end_,hspan,hmin,hmax,h⟩
    · obtain ⟨-,-,e,he,-,-,hdisj⟩ := h
      obtain rfl : e=end_ := BitVec.eq_of_toNat_eq (by have := he.2; have := hspan.2; omega)
      exact hdisj

theorem vmaInsert_iff_free {answer : SlabAnswer} (hg : Grants answer s) {start end_ : Haddr}
    (hv : ValidRange start end_) (access flags offset : BitVec 64) :
    (∃ s', vmaInsert answer (some l) ⟨start, end_, access, flags, offset⟩ s=some (true, s')) ↔
      ∀ b∈areas (ls l), ∀ x, b.Covers x → ¬ (start≤x ∧ x≤end_) := by
  have hv' : ValidRange (⟨start,end_,access,flags,offset⟩ : Area).start
    (⟨start,end_,access,flags,offset⟩ : Area).end_ := hv
  obtain ⟨b,s',hrun,hiff⟩ := vmaInsert_succeeds_iff hc l hg hv'
  rw [hrun]
  refine Iff.trans ?_ hiff
  constructor
  · rintro ⟨s'',heq⟩
    exact (Prod.mk.inj (Option.some.inj heq)).1
  · rintro rfl
    exact ⟨s',rfl⟩

theorem FreeAt.inserted {answer : SlabAnswer} (hg : Grants answer s)
    (access flags offset : BitVec 64) {min max length a : Haddr}
    (hlen : length.toNat % 4096=0) (h : FreeAt (areas (ls l)) min max length a) :
    ∃ end_, Spans a length end_ ∧
      ∃ s', vmaInsert answer (some l) ⟨a, end_, access, flags, offset⟩ s=some (true, s') := by
  obtain ⟨hal,e,hspan,-,-,hdisj⟩ := h
  have hv : ValidRange a e := ⟨hspan.1,hal,by have := hspan.2; omega⟩
  exact ⟨e,hspan,(vmaInsert_iff_free hc l hg hv access flags offset).mpr hdisj⟩

omit hc in
theorem length_aligned_of_found {hint min max length old a : Haddr}
    (h : vmaFindFreeForward s (s.heads l) hint min max length (some old)=some (true, some a) ∨
      vmaFindFreeBackward s (s.heads l) hint min max length (some old)=some (true, some a)) :
    length.toNat % 4096=0 := by
  by_contra hlen
  have hmask := (and_page_mask length).not.mpr hlen
  rcases h with h | h
  · simp only [vmaFindFreeForward,hmask,ne_eq,not_false_eq_true,if_true,ite_self] at h
    simp at h
  · simp only [vmaFindFreeBackward,hmask,ne_eq,not_false_eq_true,if_true,ite_self] at h
    simp at h

end Insertion

/-- Where a node is granted, the search at a fixed address succeeds exactly for the ranges of whole
pages in `[min, max]` that `vma_insert` takes, and `vma_insert` takes what the other two searches
report. -/
theorem searches_agree_with_insert {s : Store} {ls : Nat → List (Haddr × Area)}
    (hc : Consistent s ls) (l : Nat) {answer : SlabAnswer} (hg : Grants answer s)
    (access flags offset : BitVec 64) (min max length old : Haddr) :
    (∀ addr, ∃ found out, vmaFindFreeFixed s (s.heads l) addr min max length (some old) =
        some (found, out) ∧
      (found = true ↔ ∃ end_, Spans addr length end_ ∧ addr.toNat % 4096 = 0 ∧
        (end_.toNat + 1) % 4096 = 0 ∧ min ≤ addr ∧ end_ ≤ max ∧
        ∃ s', vmaInsert answer (some l) ⟨addr, end_, access, flags, offset⟩ s =
          some (true, s'))) ∧
    (min.toNat % 4096 = 0 → ∀ hint a,
      vmaFindFreeForward s (s.heads l) hint min max length (some old) = some (true, some a) ∨
        vmaFindFreeBackward s (s.heads l) hint min max length (some old) = some (true, some a) →
      ∃ end_, Spans a length end_ ∧
        ∃ s', vmaInsert answer (some l) ⟨a, end_, access, flags, offset⟩ s = some (true, s')) := by
  constructor
  · intro addr
    obtain ⟨found,out,hrun,hiff⟩ := vmaFindFreeFixed_spec hc l addr min max length old
    refine ⟨found,out,hrun,hiff.trans ⟨?_,?_⟩⟩
    · rintro ⟨hlen,hal,e,hspan,hmin,hmax,hdisj⟩
      have hend : (e.toNat+1) % 4096=0 := by have := hspan.2; omega
      refine ⟨e,hspan,hal,hend,hmin,hmax,?_⟩
      exact (vmaInsert_iff_free hc l hg ⟨hspan.1,hal,hend⟩ access flags offset).mpr hdisj
    · rintro ⟨e,hspan,hal,hend,hmin,hmax,hins⟩
      have hdisj := (vmaInsert_iff_free hc l hg ⟨hspan.1,hal,hend⟩ access flags offset).mp hins
      refine ⟨?_,hal,e,hspan,hmin,hmax,hdisj⟩
      have hlast := hspan.2
      omega
  · intro hmin hint a h
    have hlen := length_aligned_of_found l h
    have hfree : FreeAt (areas (ls l)) min max length a := by
      rcases h with h | h
      · obtain ⟨r,hrun,hr⟩ := vmaFindFreeForward_spec (hc.represents.chain l) (hc.sorted l) hint
          old hmin hlen
        exact (hr.mem_of_report (fun _ ha => ha.1) (Option.some.inj (h.symm.trans hrun))).2
      · obtain ⟨r,hrun,hr⟩ := vmaFindFreeBackward_spec (hc.represents.chain l) (hc.sorted l) hint
          old hlen
        exact (hr.mem_of_report (fun _ ha => ha.1) (Option.some.inj (h.symm.trans hrun))).2
    exact hfree.inserted hc l hg access flags offset hlen

theorem searches_agree_with_insert_fixed :
    Grants (.grant 2) fourPagesStore ∧
    ∃ found out, vmaFindFreeFixed fourPagesStore (fourPagesStore.heads 0) 0x5000 0x1000 0x8fff 0x1000
        (some 0) = some (found, out) ∧
      (found = true ↔ ∃ end_, Spans 0x5000 0x1000 end_ ∧ (0x5000 : Haddr).toNat % 4096 = 0 ∧
        (end_.toNat + 1) % 4096 = 0 ∧ 0x1000#64 ≤ 0x5000 ∧ end_ ≤ 0x8fff ∧
        ∃ s', vmaInsert (.grant 2) (some 0) ⟨0x5000, end_, 3, 1, 0⟩ fourPagesStore =
          some (true, s')) := by
  have hgrant : Grants (.grant 2) fourPagesStore :=
    ⟨2,rfl,by decide,by simp [fourPagesStore]⟩
  exact ⟨hgrant,(searches_agree_with_insert fourPagesStore_consistent 0 hgrant 3 1 0 0x1000 0x8fff
    0x1000 0).1 0x5000⟩

end Hojicha.Vma
