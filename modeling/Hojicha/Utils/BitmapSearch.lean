import Hojicha.Utils.Bitmap

/-!
# Searching for clear bits

The two searches go byte by byte and hide the bits outside of the range.
-/

namespace Hojicha.Utils

def bitAt (st : List Byte) (i : Nat) : Bool := (st.getD (i / 8) 0).getLsbD (i % 8)

def IsFirst (p : Nat → Prop) (lo hi : Nat) : Option Nat → Prop
  | some k => p k ∧ lo ≤ k ∧ k ≤ hi ∧ ∀ j, lo ≤ j → j < k → ¬ p j
  | none => ∀ j, lo ≤ j → j ≤ hi → ¬ p j

def IsLast (p : Nat → Prop) (lo hi : Nat) : Option Nat → Prop
  | some k => p k ∧ lo ≤ k ∧ k ≤ hi ∧ ∀ j, k < j → j ≤ hi → ¬ p j
  | none => ∀ j, lo ≤ j → j ≤ hi → ¬ p j

theorem lowestZeroBit_spec (x : Byte) (hx : x≠0xFF) :
    bitmapGetLowestZeroBit x<8 ∧ x.getLsbD (bitmapGetLowestZeroBit x)=false ∧
      ∀ k<bitmapGetLowestZeroBit x, x.getLsbD k=true := by
  revert x
  decide +kernel

theorem highestZeroBit_spec (x : Byte) (hx : x≠0xFF) :
    bitmapGetHighestZeroBit x<8 ∧ x.getLsbD (bitmapGetHighestZeroBit x)=false ∧
      ∀ k<8, bitmapGetHighestZeroBit x<k → x.getLsbD k=true := by
  revert x
  decide +kernel

private theorem below_mask :
    ∀ bit<8, ∀ k<8, ((1#8 <<< bit) - 1#8).getLsbD k=decide (k<bit) := by
  decide

private theorem above_mask :
    ∀ bit<7, ∀ k<8, (0xFF#8 <<< (bit + 1)).getLsbD k=decide (bit<k) := by
  decide

private theorem single_mask :
    ∀ bit<8, ∀ k<8, (1#8 <<< bit).getLsbD k=decide (k=bit) := by
  decide

theorem getLsbD_hideBelow (x : Byte) {bit k : Nat} (hb : bit<8) (hk : k<8) :
    (hideBelow x bit).getLsbD k=(x.getLsbD k || decide (k<bit)) := by
  rw [hideBelow,BitVec.getLsbD_or,below_mask bit hb k hk]

theorem getLsbD_hideAbove (x : Byte) {bit k : Nat} (hb : bit<8) (hk : k<8) :
    (hideAbove x bit).getLsbD k=(x.getLsbD k || decide (bit<k)) := by
  unfold hideAbove
  split
  · next h => rw [BitVec.getLsbD_or,above_mask bit h k hk]
  · have hnot : ¬ bit<k := by omega
    simp [hnot]

theorem getLsbD_bitMask (idx : Nat) {k : Nat} (hk : k<8) :
    (bitMask idx).getLsbD k=decide (k=idx % 8) :=
  single_mask _ (Nat.mod_lt _ (by decide)) k hk

theorem eq_ff_iff (x : Byte) : x=0xFF ↔ ∀ k<8, x.getLsbD k=true := by
  revert x
  decide +kernel

section Search

variable {st : List Byte} {lo hi : Nat}

theorem bitAt_eq {i k : Nat} {byte : Byte} (hi : st[i]? = some byte) (hk : k<8) :
    bitAt st (i * 8 + k)=byte.getLsbD k := by
  have hdiv : (i * 8+k) / 8=i := by omega
  have hmod : (i * 8+k) % 8=k := by omega
  rw [bitAt,hdiv,hmod,List.getD_eq_getElem?_getD,hi,Option.getD_some]

/-- In the byte `x` that the searches look at, bits outside of `[lo, hi]` count as set. -/
def Sees (st : List Byte) (lo hi i : Nat) (x : Byte) : Prop :=
  ∀ k < 8, x.getLsbD k = false ↔ bitAt st (i * 8 + k) = false ∧ lo ≤ i * 8 + k ∧ i * 8 + k ≤ hi

private theorem sees_of_bits {i : Nat} {byte x : Byte} (hb : st[i]? = some byte)
    (hlo : lo / 8 ≤ i) (hhi : i≤hi / 8)
    (hx : ∀ k<8, x.getLsbD k=(byte.getLsbD k || (decide (i=lo / 8) && decide (k<lo % 8)) ||
      (decide (i=hi / 8) && decide (hi % 8<k)))) : Sees st lo hi i x := by
  intro k hk
  rw [hx k hk,bitAt_eq hb hk]
  simp only [Bool.or_eq_false_iff,Bool.and_eq_false_imp,decide_eq_true_eq,decide_eq_false_iff_not]
  constructor
  · rintro ⟨⟨hbit,h1⟩,h2⟩
    exact ⟨hbit,by omega,by omega⟩
  · rintro ⟨hbit,h1,h2⟩
    exact ⟨⟨hbit,fun h => by omega⟩,fun h => by omega⟩

private theorem getLsbD_hideBelow_if (c : Prop) [Decidable c] (x : Byte) (idx : Nat) {k : Nat}
    (hk : k<8) : (if c then hideBelow x (idx % 8) else x).getLsbD k =
      (x.getLsbD k || (decide c && decide (k < idx % 8))) := by
  split
  · next h => simp [getLsbD_hideBelow x (Nat.mod_lt idx (by decide)) hk,h]
  · next h => simp [h]

private theorem getLsbD_hideAbove_if (c : Prop) [Decidable c] (x : Byte) (idx : Nat) {k : Nat}
    (hk : k<8) : (if c then hideAbove x (idx % 8) else x).getLsbD k =
      (x.getLsbD k || (decide c && decide (idx % 8<k))) := by
  split
  · next h => simp [getLsbD_hideAbove x (Nat.mod_lt idx (by decide)) hk,h]
  · next h => simp [h]

/-- A bit that shows as set is set or out of range. -/
theorem Sees.not_clear {i j : Nat} {x : Byte} (hs : Sees st lo hi i x) (h1 : i * 8≤j)
    (h2 : j < i * 8 + 8) (h3 : lo≤j) (h4 : j≤hi) (hx : x.getLsbD (j - i * 8)=true) :
    ¬ bitAt st j=false := by
  intro hbit
  have hk := hs (j-i * 8) (by omega)
  rw [show i * 8+(j-i * 8)=j by omega] at hk
  rw [hk.mpr ⟨hbit,h3,h4⟩] at hx
  simp at hx

private theorem forwardLoop_step {n i : Nat} (hb : i<st.length) (hlo : lo / 8 ≤ i)
    (hhi : i≤hi / 8) :
    ∃ x, Sees st lo hi i x ∧ forwardLoop st lo hi (n + 1) i =
      if x≠0xFF then some (some (i * 8 + bitmapGetLowestZeroBit x))
      else forwardLoop st lo hi n (i + 1) := by
  have hbyte : st[i]? = some st[i] := List.getElem?_eq_getElem hb
  refine ⟨if i=hi / 8 then hideAbove
    (if i=lo / 8 then hideBelow st[i] (lo % 8) else st[i]) (hi % 8)
    else if i=lo / 8 then hideBelow st[i] (lo % 8) else st[i],
    sees_of_bits hbyte hlo hhi fun k hk => ?_,?_⟩
  · rw [getLsbD_hideAbove_if _ _ _ hk,getLsbD_hideBelow_if _ _ _ hk]
  · simp only [forwardLoop,hbyte,Option.bind_eq_bind,Option.bind_some]
    rfl

theorem forwardLoop_spec (lo n i : Nat) (hlen : hi / 8<st.length) (hn : i + n=hi / 8 + 1)
    (hlo : lo / 8 ≤ i) :
    ∃ r, forwardLoop st lo hi n i=some r ∧
      IsFirst (fun j => bitAt st j=false) (max lo (i * 8)) hi r := by
  induction n generalizing i with
  | zero => exact ⟨none,rfl,fun j h1 h2 => by omega⟩
  | succ n ih =>
    obtain ⟨x,hsees,hrun⟩ := forwardLoop_step (n := n) (by omega : i<st.length) hlo
      (by omega : i≤hi / 8)
    rw [hrun]
    by_cases hff : x=0xFF
    · obtain ⟨r,hr,hfirst⟩ := ih (i+1) (by omega) (by omega)
      refine ⟨r,by simp [hff,hr],?_⟩
      have hbyte (j : Nat) (hj : i * 8≤j) (hj' : j<(i+1) * 8) (h1 : lo≤j) (h2 : j≤hi) :
          ¬ bitAt st j=false :=
        hsees.not_clear hj (by omega) h1 h2 ((eq_ff_iff x).mp hff _ (by omega))
      cases r with
      | none =>
        intro j h1 h2
        by_cases hj : j<(i+1) * 8
        · exact hbyte j (by omega) hj (by omega) h2
        · exact hfirst j (by omega) h2
      | some k =>
        obtain ⟨hk,hk1,hk2,hk3⟩ := hfirst
        refine ⟨hk,by omega,hk2,fun j h1 h2 => ?_⟩
        by_cases hj : j<(i+1) * 8
        · exact hbyte j (by omega) hj (by omega) (by omega)
        · exact hk3 j (by omega) h2
    · obtain ⟨hz1,hz2,hz3⟩ := lowestZeroBit_spec x hff
      obtain ⟨hbit,h1,h2⟩ := (hsees _ hz1).mp hz2
      refine ⟨_,if_pos hff,hbit,by omega,h2,fun j hj hj' => ?_⟩
      exact hsees.not_clear (by omega) (by omega) (by omega) (by omega) (hz3 _ (by omega))

private theorem exists_clamp {n : Nat} (h : ¬ (lo > hi ∨ lo ≥ n)) :
    ∃ e, (if hi ≥ n then n - 1 else hi)=e ∧ lo≤e ∧ e≤hi ∧ e<n ∧ ∀ j, j≤hi → j<n → j≤e := by
  refine ⟨_,rfl,?_⟩
  split <;> refine ⟨?_,?_,?_,?_⟩ <;> omega

theorem bitmapFindClearForward_spec {b : Bitmap} (hst : b.storage=some st)
    (hlen : b.bitCount≤8 * st.length) (start end_ : Nat) :
    ∃ r, bitmapFindClearForward b start end_=some r ∧
      IsFirst (fun j => j<b.bitCount ∧ bitAt st j=false) start end_ r := by
  by_cases hbad : start > end_ ∨ start ≥ b.bitCount
  · refine ⟨none,by simp only [bitmapFindClearForward,if_pos hbad],fun j h1 h2 h3 => ?_⟩
    omega
  obtain ⟨e,he,hes1,hes2,hes3,hes4⟩ := exists_clamp hbad
  obtain ⟨r,hr,hfirst⟩ := forwardLoop_spec start (e / 8+1-start / 8) (start / 8)
    (by omega : e / 8<st.length) (by omega) (le_refl _)
  refine ⟨r,?_,?_⟩
  · simp only [bitmapFindClearForward,if_neg hbad,he,hst]
    exact hr
  · rw [show max start (start / 8 * 8)=start by omega] at hfirst
    cases r with
    | none => exact fun j h1 h2 h3 => hfirst j h1 (hes4 j h2 h3.1) h3.2
    | some k =>
      obtain ⟨hk,hk1,hk2,hk3⟩ := hfirst
      exact ⟨⟨by omega,hk⟩,hk1,by omega,fun j h1 h2 h3 => hk3 j h1 h2 h3.2⟩

private theorem backwardLoop_step {n i : Nat} (hb : i<st.length) (hlo : lo / 8 ≤ i)
    (hhi : i≤hi / 8) :
    ∃ x, Sees st lo hi i x ∧ backwardLoop st hi lo (n + 1) i =
      if x≠0xFF then some (some (i * 8 + bitmapGetHighestZeroBit x))
      else backwardLoop st hi lo n (i - 1) := by
  have hbyte : st[i]? = some st[i] := List.getElem?_eq_getElem hb
  refine ⟨if i=lo / 8 then hideBelow
    (if i=hi / 8 then hideAbove st[i] (hi % 8) else st[i]) (lo % 8)
    else if i=hi / 8 then hideAbove st[i] (hi % 8) else st[i],
    sees_of_bits hbyte hlo hhi fun k hk => ?_,?_⟩
  · rw [getLsbD_hideBelow_if _ _ _ hk,getLsbD_hideAbove_if _ _ _ hk,Bool.or_assoc,
      Bool.or_assoc,Bool.or_comm (_ && _)]
  · simp only [backwardLoop,hbyte,Option.bind_eq_bind,Option.bind_some]
    rfl

private theorem Sees.last {i : Nat} {x : Byte} (hs : Sees st lo hi i x) (hx : x≠0xFF) :
    IsLast (fun j => bitAt st j=false) lo (min hi (i * 8 + 7))
      (some (i * 8 + bitmapGetHighestZeroBit x)) := by
  obtain ⟨hz1,hz2,hz3⟩ := highestZeroBit_spec x hx
  obtain ⟨hbit,h1,h2⟩ := (hs _ hz1).mp hz2
  refine ⟨hbit,h1,by omega,fun j hj hj' => ?_⟩
  exact hs.not_clear (by omega) (by omega) (by omega) (by omega) (hz3 _ (by omega) (by omega))

theorem backwardLoop_spec (lo n i : Nat) (hlen : hi / 8<st.length) (hn : lo / 8 + n=i)
    (hi' : i≤hi / 8) :
    ∃ r, backwardLoop st hi lo (n + 1) i=some r ∧
      IsLast (fun j => bitAt st j=false) lo (min hi (i * 8 + 7)) r := by
  induction n generalizing i with
  | zero =>
    obtain ⟨x,hsees,hrun⟩ := backwardLoop_step (n := 0) (by omega : i<st.length)
      (by omega : lo / 8 ≤ i) hi'
    rw [hrun]
    by_cases hff : x=0xFF
    · refine ⟨none,by simp [hff,backwardLoop],fun j h1 h2 => ?_⟩
      exact hsees.not_clear (by omega) (by omega) h1 (by omega) ((eq_ff_iff x).mp hff _ (by omega))
    · exact ⟨_,if_pos hff,hsees.last hff⟩
  | succ n ih =>
    obtain ⟨x,hsees,hrun⟩ := backwardLoop_step (n := n+1) (by omega : i<st.length)
      (by omega : lo / 8 ≤ i) hi'
    rw [hrun]
    by_cases hff : x=0xFF
    · obtain ⟨r,hr,hlast⟩ := ih (i-1) (by omega) (by omega)
      refine ⟨r,by simp [hff,hr],?_⟩
      have hbyte (j : Nat) (hj : i * 8≤j) (hj' : j < i * 8+8) (h1 : lo≤j) (h2 : j≤hi) :
          ¬ bitAt st j=false :=
        hsees.not_clear hj hj' h1 h2 ((eq_ff_iff x).mp hff _ (by omega))
      cases r with
      | none =>
        intro j h1 h2
        by_cases hj : i * 8≤j
        · exact hbyte j hj (by omega) h1 (by omega)
        · exact hlast j h1 (by omega)
      | some k =>
        obtain ⟨hk,hk1,hk2,hk3⟩ := hlast
        refine ⟨hk,hk1,by omega,fun j h1 h2 => ?_⟩
        by_cases hj : i * 8≤j
        · exact hbyte j hj (by omega) (by omega) (by omega)
        · exact hk3 j h1 (by omega)
    · exact ⟨_,if_pos hff,hsees.last hff⟩

theorem bitmapFindClearBackward_spec {b : Bitmap} (hst : b.storage=some st)
    (hlen : b.bitCount≤8 * st.length) (start end_ : Nat) :
    ∃ r, bitmapFindClearBackward b start end_=some r ∧
      IsLast (fun j => j<b.bitCount ∧ bitAt st j=false) end_ start r := by
  by_cases hbad : start<end_ ∨ end_ ≥ b.bitCount
  · refine ⟨none,by simp only [bitmapFindClearBackward,if_pos hbad],fun j h1 h2 h3 => ?_⟩
    omega
  obtain ⟨e,he,hes1,hes2,hes3,hes4⟩ := exists_clamp hbad
  obtain ⟨r,hr,hlast⟩ := backwardLoop_spec end_ (e / 8-end_ / 8) (e / 8)
    (by omega : e / 8<st.length) (by omega) (le_refl _)
  refine ⟨r,?_,?_⟩
  · simp only [bitmapFindClearBackward,if_neg hbad,he,hst]
    rw [show e / 8+1-end_ / 8=e / 8-end_ / 8+1 by omega]
    exact hr
  · rw [show min e (e / 8 * 8+7)=e by omega] at hlast
    cases r with
    | none => exact fun j h1 h2 h3 => hlast j h1 (hes4 j h2 h3.1) h3.2
    | some k =>
      obtain ⟨hk,hk1,hk2,hk3⟩ := hlast
      refine ⟨⟨by omega,hk⟩,hk1,by omega,fun j h1 h2 h3 => ?_⟩
      exact hk3 j h1 (hes4 j h2 h3.1) h3.2

end Search

end Hojicha.Utils
