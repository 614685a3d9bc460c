import Hojicha.Vma.Model
import Mathlib.Data.List.TakeWhile

/-!
# Sorted areas

Page-aligned ranges with inclusive ends, sorted and pairwise disjoint.
-/

namespace Hojicha.Vma

open List
open BitVec (lt_def toNat_inj le_def)

structure ValidRange (start end_ : Haddr) : Prop where
  le : start ≤ end_
  start_aligned : start.toNat % 4096 = 0
  end_aligned : (end_.toNat + 1) % 4096 = 0

def Area.Covers (a : Area) (x : Haddr) : Prop := a.start ≤ x ∧ x ≤ a.end_

/-- Sorted by address, each area a valid range in front of the next one. -/
structure Sorted (xs : List Area) : Prop where
  valid : ∀ a ∈ xs, ValidRange a.start a.end_
  ordered : xs.Pairwise fun a b => a.end_ < b.start

theorem not_HADDR_MAX_lt (x : Haddr) : ¬ HADDR_MAX<x := by
  have hx := x.isLt
  have hmax : HADDR_MAX.toNat=2 ^ 64-1 := by decide
  rw [lt_def]
  omega

theorem and_page_mask (x : Haddr) :
    x &&& (VMA_PAGE_SIZE - 1)=0 ↔ x.toNat % 4096=0 := by
  have hmask : (VMA_PAGE_SIZE-1).toNat=2 ^ 12-1 := by decide
  rw [← toNat_inj,BitVec.toNat_and,hmask,Nat.and_two_pow_sub_one_eq_mod]
  rfl

theorem vmaRangeValid_iff (start end_ : Haddr) :
    vmaRangeValid start end_=true ↔ ValidRange start end_ := by
  have hend : (end_+1).toNat % 4096=(end_.toNat+1) % 4096 := by
    rw [BitVec.toNat_add]
    exact Nat.mod_mod_of_dvd _ (by decide)
  unfold vmaRangeValid
  simp only [ne_eq,and_page_mask,hend,ite_not]
  constructor
  · intro h
    split_ifs at h with h1 h2 h3
    exact ⟨BitVec.not_lt.mp h1,h2,h3⟩
  · rintro ⟨h1,h2,h3⟩
    simp [BitVec.not_lt.mpr h1,h2,h3]

theorem vmaOverlaps_iff {a : Area} {start end_ : Haddr} (ha : a.start≤a.end_)
    (hr : start≤end_) :
    vmaOverlaps a start end_=true ↔ ∃ x, a.Covers x ∧ start≤x ∧ x≤end_ := by
  simp only [vmaOverlaps,Bool.and_eq_true,decide_eq_true_eq,Area.Covers,le_def] at *
  constructor
  · rintro ⟨h1,h2⟩
    rcases Nat.le_total a.start.toNat start.toNat with h | h
    · exact ⟨start,⟨h,h2⟩,le_refl _,hr⟩
    · exact ⟨a.start,⟨le_refl _,ha⟩,h,h1⟩
  · rintro ⟨x,⟨h1,h2⟩,h3,h4⟩
    exact ⟨h1.trans h4,h3.trans h2⟩

def front (start : Haddr) (xs : List Area) : List Area := xs.takeWhile fun a => a.end_ < start
def back (start : Haddr) (xs : List Area) : List Area := xs.dropWhile fun a => a.end_ < start

def insertArea (a : Area) (xs : List Area) : Option (List Area) :=
  if vmaRangeValid a.start a.end_ && (back a.start xs).head?.all fun b =>
      !vmaOverlaps b a.start a.end_ then
    some (front a.start xs ++ a :: back a.start xs)
  else none

def remainders (start end_ : Haddr) (a : Area) : List Area :=
  let removeEnd := if end_ < a.end_ then end_ else a.end_
  if start = a.start ∧ removeEnd = a.end_ then []
  else if start = a.start then [{ a with start := removeEnd + 1 }]
  else if removeEnd = a.end_ then [{ a with end_ := start - 1 }]
  else [{ a with end_ := start - 1 }, { a with start := removeEnd + 1 }]

def removeRange (start end_ : Haddr) (xs : List Area) : List Area :=
  match back start xs with
  | [] => xs
  | a :: rest =>
    if a.start > start then xs else front start xs ++ remainders start end_ a ++ rest

section Order

variable {xs ys : List Area} {a n : Area} {start end_ : Haddr}

theorem front_append_back (start : Haddr) (xs : List Area) :
    front start xs++back start xs=xs := takeWhile_append_dropWhile

theorem end_lt_of_mem_front (ha : a∈front start xs) : a.end_<start := by
  simpa using mem_takeWhile_imp ha

theorem not_end_lt_of_back (hb : back start xs=a::ys) : ¬ a.end_<start := by
  have hhead := head?_dropWhile_not (fun a : Area => decide (a.end_<start)) xs
  unfold back at hb
  simpa [hb] using hhead

theorem sorted_append :
    Sorted (xs++ys) ↔ Sorted xs ∧ Sorted ys ∧ ∀ a∈xs, ∀ b∈ys, a.end_<b.start := by
  constructor
  · rintro ⟨hv,ho⟩
    obtain ⟨hx,hy,hxy⟩ := pairwise_append.mp ho
    exact ⟨⟨fun a ha => hv a (by simp [ha]),hx⟩,⟨fun a ha => hv a (by simp [ha]),hy⟩,hxy⟩
  · rintro ⟨⟨hvx,hx⟩,⟨hvy,hy⟩,hxy⟩
    refine ⟨fun a ha => ?_,pairwise_append.mpr ⟨hx,hy,hxy⟩⟩
    exact (mem_append.mp ha).elim (hvx a) (hvy a)

theorem sorted_cons :
    Sorted (a::xs) ↔ ValidRange a.start a.end_ ∧ Sorted xs ∧ ∀ b∈xs, a.end_<b.start := by
  have hone : Sorted [a] ↔ ValidRange a.start a.end_ :=
    ⟨fun h => h.valid a (by simp),fun h => ⟨by simpa using h,pairwise_singleton _ _⟩⟩
  rw [← singleton_append,sorted_append,hone]
  simp

theorem Sorted.starts_after {e : Haddr} (hs : Sorted (a::xs)) (ha : e<a.start) :
    ∀ b∈a::xs, e<b.start := by
  obtain ⟨hv,-,hlt⟩ := sorted_cons.mp hs
  intro b hb
  rcases mem_cons.mp hb with rfl | hb
  · exact ha
  · have hab := hlt b hb
    have hle := hv.le
    simp only [lt_def,le_def] at *
    omega

/-- A sorted list takes a new area exactly when no area of the list shares an address with it. -/
theorem insertArea_spec (hs : Sorted xs) (hv : ValidRange n.start n.end_) :
    (insertArea n xs=some (front n.start xs++n::back n.start xs) ∧
      Sorted (front n.start xs++n::back n.start xs) ∧
      ∀ b∈xs, ∀ x, b.Covers x → ¬ n.Covers x) ∨
    (insertArea n xs=none ∧ ∃ b∈xs, ∃ x, b.Covers x ∧ n.Covers x) := by
  have hsplit := front_append_back n.start xs
  have hvalid : vmaRangeValid n.start n.end_=true := (vmaRangeValid_iff _ _).mpr hv
  have hfront : ∀ a∈front n.start xs, a.end_<n.start := fun a ha => end_lt_of_mem_front ha
  have hs' := hs
  rw [← hsplit] at hs'
  obtain ⟨hsf,hsb,hfb⟩ := sorted_append.mp hs'
  -- all depends on the first area that does not end in front of the new one
  have hfits (hback : ∀ b∈back n.start xs, n.end_<b.start) :
      Sorted (front n.start xs++n::back n.start xs) ∧
        ∀ b∈xs, ∀ x, b.Covers x → ¬ n.Covers x := by
    refine ⟨sorted_append.mpr ⟨hsf,sorted_cons.mpr ⟨hv,hsb,hback⟩,?_⟩,?_⟩
    · intro a ha b hb
      rcases mem_cons.mp hb with rfl | hb
      · exact hfront a ha
      · exact hfb a ha b hb
    · intro b hb x hbx hnx
      rw [← hsplit,mem_append] at hb
      rcases hb with hb | hb
      · have hlt := hfront b hb
        simp only [Area.Covers,lt_def,le_def] at *
        omega
      · have hlt := hback b hb
        simp only [Area.Covers,lt_def,le_def] at *
        omega
  cases hback : back n.start xs with
  | nil => exact .inl ⟨by simp [insertArea,hvalid,hback],by simpa [hback] using hfits⟩
  | cons b rest =>
    have hb : b∈xs := by rw [← hsplit,hback]; simp
    have hnot := not_end_lt_of_back hback
    by_cases hov : vmaOverlaps b n.start n.end_=true
    · refine .inr ⟨by simp [insertArea,hback,hov],b,hb,?_⟩
      exact (vmaOverlaps_iff (hs.valid b hb).le hv.le).mp hov
    · refine .inl ⟨by simp [insertArea,hvalid,hback,hov],?_⟩
      rw [hback] at hfits hsb
      refine hfits (hsb.starts_after ?_)
      simp only [vmaOverlaps,Bool.and_eq_true,decide_eq_true_eq,not_and_or,lt_def,le_def] at *
      omega

theorem remainders_spec (ha : ValidRange a.start a.end_) (hr : ValidRange start end_)
    (hlo : a.start ≤ start) (hhi : start≤a.end_) :
    Sorted (remainders start end_ a) ∧
      ∀ c∈remainders start end_ a, a.start≤c.start ∧ c.end_≤a.end_ := by
  obtain ⟨ha1,ha2,ha3⟩ := ha
  obtain ⟨hr1,hr2,hr3⟩ := hr
  obtain ⟨re,hre⟩ : ∃ re, (if end_<a.end_ then end_ else a.end_)=re := ⟨_,rfl⟩
  have hre' : re.toNat≤a.end_.toNat ∧ start.toNat≤re.toNat ∧ (re.toNat+1) % 4096=0 := by
    simp only [lt_def,le_def] at *
    subst hre
    split <;> omega
  have hleft (h : start≠a.start) : (start-1).toNat=start.toNat-1 ∧
      a.start.toNat<start.toNat := by
    simp only [ne_eq,← toNat_inj,le_def] at *
    rw [BitVec.toNat_sub_of_le (by simp only [le_def]; change 1≤_; omega)]
    exact ⟨rfl,by omega⟩
  have hright (h : re≠a.end_) : (re+1).toNat=re.toNat+1 ∧ re.toNat<a.end_.toNat := by
    have hlt := a.end_.isLt
    simp only [ne_eq,← toNat_inj] at *
    rw [BitVec.toNat_add]
    refine ⟨Nat.mod_eq_of_lt ?_,by omega⟩
    change re.toNat+1<_
    omega
  have hsl (h : start≠a.start) : ValidRange a.start (start-1) := by
    obtain ⟨heq,hlt⟩ := hleft h
    refine ⟨?_,ha2,?_⟩ <;> simp only [le_def] at * <;> omega
  have hsr (h : re≠a.end_) : ValidRange (re+1) a.end_ := by
    obtain ⟨heq,hlt⟩ := hright h
    refine ⟨?_,?_,ha3⟩ <;> simp only [le_def] at * <;> omega
  unfold remainders
  simp only [hre]
  simp only [le_def] at hlo hhi
  split_ifs with h1 h2 h3
  · exact ⟨⟨by simp,.nil⟩,by simp⟩
  · have hne : re≠a.end_ := fun h => h1 ⟨h2,h⟩
    refine ⟨sorted_cons.mpr ⟨hsr hne,⟨by simp,.nil⟩,by simp⟩,?_⟩
    simp only [mem_singleton,forall_eq,le_def,hright hne]
    omega
  · refine ⟨sorted_cons.mpr ⟨hsl h2,⟨by simp,.nil⟩,by simp⟩,?_⟩
    simp only [mem_singleton,forall_eq,le_def,hleft h2]
    omega
  · refine ⟨sorted_cons.mpr ⟨hsl h2,sorted_cons.mpr ⟨hsr h3,⟨by simp,.nil⟩,by simp⟩,?_⟩,?_⟩
    · simp only [mem_singleton,forall_eq,lt_def,hleft h2,hright h3]
      omega
    · simp only [mem_cons,not_mem_nil,or_false,forall_eq_or_imp,forall_eq,le_def,hleft h2,hright h3]
      omega

theorem Sorted.replace {zs : List Area} (hs : Sorted (xs++a::ys)) (hz : Sorted zs)
    (hin : ∀ c∈zs, a.start≤c.start ∧ c.end_≤a.end_) : Sorted (xs++zs++ys) := by
  obtain ⟨hx,hay,hxa⟩ := sorted_append.mp hs
  obtain ⟨-,hy,hlt⟩ := sorted_cons.mp hay
  refine sorted_append.mpr ⟨sorted_append.mpr ⟨hx,hz,fun b hb c hc => ?_⟩,hy,fun b hb c hc => ?_⟩
  · have h1 := hxa b hb a (by simp)
    have h2 := (hin c hc).1
    simp only [lt_def,le_def] at *
    omega
  · rcases mem_append.mp hb with hb | hb
    · exact hxa b hb c (by simp [hc])
    · have h1 := hlt c hc
      have h2 := (hin b hb).2
      simp only [lt_def,le_def] at *
      omega

theorem Sorted.removeRange (hs : Sorted xs) (hr : ValidRange start end_) :
    Sorted (removeRange start end_ xs) := by
  unfold Vma.removeRange
  cases hback : back start xs with
  | nil => exact hs
  | cons a rest =>
    have hnot := not_end_lt_of_back hback
    have hs' := hs
    rw [← front_append_back start xs,hback] at hs'
    by_cases hgt : a.start > start
    · simpa [hgt] using hs
    · simp only [hgt,if_false]
      have hlo : a.start ≤ start := BitVec.not_lt.mp hgt
      have hhi : start≤a.end_ := BitVec.not_lt.mp hnot
      obtain ⟨hz,hin⟩ := remainders_spec (hs'.valid a (by simp)) hr hlo hhi
      exact hs'.replace hz hin

end Order

end Hojicha.Vma
