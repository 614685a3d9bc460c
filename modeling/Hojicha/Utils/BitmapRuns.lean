import Hojicha.Framework.Run
import Hojicha.Utils.BitmapBounds

/-!
# Histories of a bitmap

Any sequence of `bitmap_set` and `bitmap_clear` calls after `bitmap_init`. The size of the storage
is computed in 64 bits; for the largest bit counts it wraps to zero.
-/

namespace Hojicha.Utils

open Framework

inductive BitCall where
  | set (idx : Nat)
  | clear (idx : Nat)

def bitStep (b : Bitmap) : BitCall → Option Bitmap
  | .set idx => (bitmapSet b idx).map Prod.snd
  | .clear idx => (bitmapClear b idx).map Prod.snd

/-- The indices below `n` that are set after a call. -/
def usedStep (n : Nat) (used : Nat → Bool) : BitCall → Nat → Bool
  | .set idx => if idx < n then Function.update used idx true else used
  | .clear idx => if idx < n then Function.update used idx false else used

def usedAfter (n : Nat) (defaultSet : Bool) (calls : List BitCall) : Nat → Bool :=
  calls.foldl (usedStep n) fun _ => defaultSet

/-- What a caller can observe of a bitmap that holds the indices in `used`. -/
structure Exact (b : Bitmap) (used : Nat → Bool) : Prop where
  bounds : Bounds (fun i => i < b.bitCount ∧ used i = false) b.bitCount b.lowestClearIdx
    b.highestClearIdx
  find : ∃ r, bitmapFindClear b = some r ∧ match r with
    | none => ∀ i < b.bitCount, used i = true
    | some i => i < b.bitCount ∧ used i = false ∧ ∀ j < i, used j = true
  get : ∀ idx, bitmapGet b idx = some (decide (idx < b.bitCount) && used idx)

variable {b : Bitmap} {used : Nat → Bool}

theorem Shows.exact (hs : Shows b used) : Exact b used :=
  ⟨hs.bounds,bitmapFindClear_spec hs,bitmapGet_spec hs⟩

theorem bitStep_spec (hs : Shows b used) (c : BitCall) :
    ∃ b', bitStep b c=some b' ∧ b'.bitCount=b.bitCount ∧
      Shows b' (usedStep b.bitCount used c) := by
  cases c with
  | set idx =>
    by_cases hidx : idx<b.bitCount
    · obtain ⟨b',hrun,hcount,hs'⟩ := bitmapSet_spec hs hidx
      exact ⟨b',by simp [bitStep,hrun],hcount,by simpa [usedStep,hidx] using hs'⟩
    · have hge : idx ≥ b.bitCount := Nat.le_of_not_lt hidx
      exact ⟨b,by simp [bitStep,bitmapSet,hge],rfl,by simpa [usedStep,hidx] using hs⟩
  | clear idx =>
    by_cases hidx : idx<b.bitCount
    · obtain ⟨b',hrun,hcount,hs'⟩ := bitmapClear_spec hs hidx
      exact ⟨b',by simp [bitStep,hrun],hcount,by simpa [usedStep,hidx] using hs'⟩
    · have hge : idx ≥ b.bitCount := Nat.le_of_not_lt hidx
      exact ⟨b,by simp [bitStep,bitmapClear,hge],rfl,by simpa [usedStep,hidx] using hs⟩

theorem run_shows (hs : Shows b used) (calls : List BitCall) :
    ∃ b', run bitStep b calls=some b' ∧ b'.bitCount=b.bitCount ∧
      Shows b' (calls.foldl (usedStep b.bitCount) used) := by
  induction calls generalizing b used with
  | nil => exact ⟨b,rfl,rfl,hs⟩
  | cons c calls ih =>
    obtain ⟨b₁,hstep,hcount,hs₁⟩ := bitStep_spec hs c
    obtain ⟨b',hrun,hcount',hs'⟩ := ih hs₁
    refine ⟨b',by simp [run,hstep,hrun],hcount'.trans hcount,?_⟩
    rw [hcount] at hs'
    exact hs'

theorem bitmapStorageSize_of_wraps {n : Nat} (hn : n<2 ^ 64) (hwraps : ¬ n + 7<2 ^ 64) :
    bitmapStorageSize n=0 := by
  unfold bitmapStorageSize
  omega

/-- With a storage size of zero, `bitmap_init` leaves the storage as it was. -/
theorem bitmapInit_of_wraps {n : Nat} (hn : n<2 ^ 64) (hwraps : ¬ n + 7<2 ^ 64)
    (st : List Byte) (defaultSet : Bool) :
    ∃ lo hi, bitmapInit (some st) n defaultSet=some ⟨some st, n, 0, lo, hi⟩ ∧
      Bounds (fun i => i<n ∧ defaultSet=false) n lo hi := by
  have hsize := bitmapStorageSize_of_wraps hn hwraps
  have h0 : n≠0 := by omega
  have hfill (v : Byte) : fillPrefix st 0 v=some st := by simp [fillPrefix]
  cases defaultSet with
  | true =>
    refine ⟨n,n,?_,.inl ⟨rfl,rfl,by simp⟩⟩
    simp [bitmapInit,h0,hsize,hfill]
  | false =>
    refine ⟨0,n-1,?_,.inr ⟨⟨by omega,rfl⟩,⟨by omega,rfl⟩,fun i hi => by omega⟩⟩
    simp [bitmapInit,h0,hsize,hfill]

section Whole

variable {n : Nat} (hn : n < 2 ^ 64) {st : List Byte} (hst : st.length = (n + 7) / 8)
variable (defaultSet : Bool)
include hn hst

theorem bitmapInit_shows (h : n + 7<2 ^ 64 ∨ ∀ i<n, bitAt st i=defaultSet) :
    ∃ b, bitmapInit (some st) n defaultSet=some b ∧ b.bitCount=n ∧
      Shows b fun _ => defaultSet := by
  by_cases hfits : n+7<2 ^ 64
  · have hsize : bitmapStorageSize n ≤ st.length := by
      rw [hst,bitmapStorageSize,Nat.mod_eq_of_lt hfits]
    exact bitmapInit_spec hfits hsize defaultSet
  · obtain ⟨lo,hi,hinit,hbounds⟩ := bitmapInit_of_wraps hn hfits st defaultSet
    have hbits := h.resolve_left hfits
    refine ⟨_,hinit,rfl,hn,⟨st,rfl,?_,hbits⟩,hbounds⟩
    change n≤8 * st.length
    omega

theorem bits_of_exact (hwraps : ¬ n + 7<2 ^ 64) {b : Bitmap}
    (hinit : bitmapInit (some st) n defaultSet=some b) (he : Exact b fun _ => defaultSet) :
    ∀ i<n, bitAt st i=defaultSet := by
  obtain ⟨lo,hi,hinit',-⟩ := bitmapInit_of_wraps hn hwraps st defaultSet
  obtain rfl : _=b := Option.some.inj (hinit'.symm.trans hinit)
  intro i hi
  have hget := he.get i
  have hbyte : st[i / 8]? = some st[i / 8] := List.getElem?_eq_getElem (by omega)
  have hge : ¬ i ≥ n := by omega
  simp only [bitmapGet,if_neg hge,hbyte,Option.map_some,hi,decide_true,Bool.true_and,
    Option.some.injEq,bitMask,and_mask_ne_zero _ _ (Nat.mod_lt i (by decide))] at hget
  rw [bitAt,List.getD_eq_getElem?_getD,hbyte,Option.getD_some,hget]

end Whole

/-- The bitmap is exact after every sequence of calls, within a storage of one bit for each index,
exactly if the size of the storage does not wrap or the storage already holds what `bitmap_init`
should have written. -/
theorem bitmap_exact_iff {n : Nat} (hn : n < 2 ^ 64) {st : List Byte}
    (hst : st.length = (n + 7) / 8) (defaultSet : Bool) :
    (∀ calls, ∃ b b', bitmapInit (some st) n defaultSet = some b ∧
      run bitStep b calls = some b' ∧ b'.bitCount = n ∧ Exact b' (usedAfter n defaultSet calls)) ↔
    n + 7 < 2 ^ 64 ∨ ∀ i < n, bitAt st i = defaultSet := by
  constructor
  · intro h
    by_cases hfits : n+7<2 ^ 64
    · exact .inl hfits
    · obtain ⟨b,b',hinit,hrun,-,he⟩ := h []
      obtain rfl : b=b' := Option.some.inj hrun
      exact .inr (bits_of_exact hn hst defaultSet hfits hinit he)
  · intro h calls
    obtain ⟨b,hinit,hcount,hs⟩ := bitmapInit_shows hn hst defaultSet h
    obtain ⟨b',hrun,hcount',hs'⟩ := run_shows hs calls
    rw [hcount] at hs' hcount'
    exact ⟨b,b',hinit,hrun,hcount',hs'.exact⟩

theorem bitmap_exact_iff_ten_bits :
    ∃ b b', bitmapInit (some [0xA5, 0xFF]) 10 false = some b ∧
      run bitStep b [.set 3, .clear 200, .set 9] = some b' ∧ b'.bitCount = 10 ∧
      Exact b' (usedAfter 10 false [.set 3, .clear 200, .set 9]) := by
  have hlen : ([0xA5,0xFF] : List Byte).length=(10+7) / 8 := by decide
  exact (bitmap_exact_iff (by decide) hlen false).mpr (.inl (by decide)) _

/-- A storage of `2 ^ 61` bytes that was full stays full, and its bits are reported as clear. -/
theorem largest_bitmap_not_cleared :
    ∃ b, bitmapInit (some (List.replicate (2 ^ 61) 0xFF)) (2 ^ 64 - 1) false = some b ∧
      b.lowestClearIdx = 0 ∧ bitmapGet b 0 = some true := by
  obtain ⟨lo,hi,hinit,hbounds⟩ := bitmapInit_of_wraps (n := 2 ^ 64-1) (by decide) (by decide)
    (List.replicate (2 ^ 61) 0xFF) false
  refine ⟨_,hinit,?_,?_⟩
  · rcases hbounds with ⟨-,-,hnone⟩ | ⟨-,-,hall⟩
    · exact absurd ⟨by decide,rfl⟩ (hnone 0)
    · exact Nat.le_zero.mp (hall 0 ⟨by decide,rfl⟩).1
  · have hbyte : (List.replicate (2 ^ 61) (0xFF : Byte))[0 / 8]? = some 0xFF := by
      rw [List.getElem?_replicate,if_pos (by decide)]
    simp only [bitmapGet]
    rw [if_neg (by decide),hbyte]
    rfl

end Hojicha.Utils
