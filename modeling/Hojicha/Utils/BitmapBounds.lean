import Hojicha.Utils.BitmapSearch

/-! # The bitmap represents a set of used indices -/

namespace Hojicha.Utils

open Function List Option

/-- `lo` and `hi` are the least and the greatest index with `p`, and both are `n` if there is none. -/
def Bounds (p : Nat → Prop) (n lo hi : Nat) : Prop :=
  (lo = n ∧ hi = n ∧ ∀ i, ¬ p i) ∨ (p lo ∧ p hi ∧ ∀ i, p i → lo ≤ i ∧ i ≤ hi)

structure Shows (b : Bitmap) (used : Nat → Bool) : Prop where
  small : b.bitCount < 2 ^ 64
  stored : ∃ st, b.storage = some st ∧ b.bitCount ≤ 8 * st.length ∧
    ∀ i < b.bitCount, bitAt st i = used i
  bounds : Bounds (fun i => i < b.bitCount ∧ used i = false) b.bitCount b.lowestClearIdx
    b.highestClearIdx

variable {b : Bitmap} {used : Nat → Bool} {idx n : Nat} {st : List Byte}

theorem and_mask_ne_zero : ∀ x : Byte, ∀ k<8, (x &&& (1#8 <<< k) != 0)=x.getLsbD k := by
  decide +kernel

theorem bitmapGet_spec (hs : Shows b used) (idx : Nat) :
    bitmapGet b idx=some (decide (idx<b.bitCount) && used idx) := by
  obtain ⟨st,hst,hlen,hbits⟩ := hs.stored
  by_cases hidx : idx<b.bitCount
  · have hbyte : st[idx / 8]? = some st[idx / 8] := getElem?_eq_getElem (by omega)
    have hbit := hbits idx hidx
    rw [bitAt,getD_eq_getElem?_getD,hbyte,getD_some] at hbit
    have hge : ¬ idx ≥ b.bitCount := by omega
    simp only [bitmapGet,hst,if_neg hge,hbyte,map_some,bitMask,
      and_mask_ne_zero _ _ (Nat.mod_lt idx (by decide)),hbit,decide_eq_true hidx,Bool.true_and]
  · have hge : idx ≥ b.bitCount := by omega
    simp [bitmapGet,hst,hge,hidx]

theorem modifyByte_spec (hs : Shows b used) (hidx : idx<b.bitCount) (f : Byte → Byte) (v : Bool)
    (hf : ∀ x : Byte, ∀ k<8, (f x).getLsbD k=if k=idx % 8 then v else x.getLsbD k) :
    ∃ st, modifyByte b (idx / 8) f=some { b with storage := some st } ∧
      b.bitCount≤8 * st.length ∧
      ∀ i<b.bitCount, bitAt st i=update used idx v i := by
  obtain ⟨st,hst,hlen,hbits⟩ := hs.stored
  have hbyte : st[idx / 8]? = some st[idx / 8] := getElem?_eq_getElem (by omega)
  refine ⟨st.set (idx / 8) (f st[idx / 8]),?_,by simpa using hlen,fun i hi => ?_⟩
  · simp [modifyByte,hst,hbyte]
  · have hk : i % 8<8 := Nat.mod_lt i (by decide)
    have hold := hbits i hi
    simp only [bitAt,getD_eq_getElem?_getD] at hold ⊢
    by_cases hq : idx / 8=i / 8
    · have hset : (st.set (idx / 8) (f st[idx / 8]))[i / 8]? = some (f st[idx / 8]) := by
        rw [← hq,getElem?_set_self (by omega)]
      rw [← hq,hbyte,getD_some] at hold
      rw [hset,getD_some,hf _ _ hk]
      by_cases hi' : i=idx
      · subst hi'
        simp
      · rw [if_neg (by omega),hold,update_of_ne hi']
    · rw [getElem?_set_ne hq,hold,update_of_ne]
      rintro rfl
      exact hq rfl

private theorem clear_update {i : Nat} :
    (i<n ∧ update used idx true i=false) ↔ (i<n ∧ used i=false) ∧ i≠idx := by
  by_cases hi : i=idx
  · subst hi
    simp
  · simp [hi]

/-- After a clear bit was set, the refreshed bounds are exact again. -/
private theorem refresh_spec (hst : b.storage=some st)
    (hlen : b.bitCount≤8 * st.length) (hsmall : b.bitCount<2 ^ 64) (hidx : idx<b.bitCount)
    (hused : used idx=false)
    (hbits : ∀ i<b.bitCount, bitAt st i=update used idx true i)
    (hb : Bounds (fun i => i<b.bitCount ∧ used i=false) b.bitCount b.lowestClearIdx
      b.highestClearIdx) :
    ∃ lo hi, bitmapRefreshBoundsAfterSet b idx =
        some { b with lowestClearIdx := lo, highestClearIdx := hi } ∧
      Bounds (fun i => i<b.bitCount ∧ update used idx true i=false) b.bitCount lo hi := by
  simp only [clear_update]
  have hnew (i : Nat) : (i<b.bitCount ∧ bitAt st i=false) ↔
      (i<b.bitCount ∧ used i=false) ∧ i≠idx := by
    rw [← clear_update]
    exact and_congr_right fun hi => by rw [hbits i hi]
  rcases hb with ⟨-,-,hnone⟩ | ⟨hlo,hhi,hall⟩
  · exact absurd ⟨hidx,hused⟩ (hnone idx)
  have hin := hall idx ⟨hidx,hused⟩
  have hguard : ¬ (b.lowestClearIdx ≥ b.bitCount ∨ b.highestClearIdx ≥ b.bitCount) := by omega
  by_cases hl : idx=b.lowestClearIdx
  · have hwrap : (idx+1) % 2 ^ 64=idx+1 := Nat.mod_eq_of_lt (by omega)
    obtain ⟨r,hr,hfirst⟩ := bitmapFindClearForward_spec hst hlen (idx+1) b.highestClearIdx
    simp only [hnew] at hfirst
    cases r with
    | none =>
      refine ⟨b.bitCount,b.bitCount,?_,.inl ⟨rfl,rfl,fun i hi => ?_⟩⟩
      · simp only [bitmapRefreshBoundsAfterSet,if_neg hguard,if_pos hl,hwrap,hr,
          bind_eq_bind,bind_some]
        rfl
      · have hi' := hall i hi.1
        exact hfirst i (by omega) hi'.2 hi
    | some next =>
      obtain ⟨hn,hn1,hn2,hn3⟩ := hfirst
      have hne : ¬ idx=b.highestClearIdx := by omega
      refine ⟨next,b.highestClearIdx,?_,.inr ⟨hn,⟨hhi,by omega⟩,fun i hi => ?_⟩⟩
      · simp only [bitmapRefreshBoundsAfterSet,if_neg hguard,if_pos hl,hwrap,hr,
          bind_eq_bind,bind_some,refreshHighest,if_neg hne]
      · have hi' := hall i hi.1
        refine ⟨?_,hi'.2⟩
        by_contra hlt
        exact hn3 i (by omega) (by omega) hi
  · by_cases hh : idx=b.highestClearIdx
    · obtain ⟨r,hr,hlast⟩ := bitmapFindClearBackward_spec hst hlen (idx-1) b.lowestClearIdx
      simp only [hnew] at hlast
      cases r with
      | none => exact absurd ⟨hlo,by omega⟩ (hlast b.lowestClearIdx (le_refl _) (by omega))
      | some prev =>
        obtain ⟨hp,hp1,hp2,hp3⟩ := hlast
        have hpos : idx > 0 := by omega
        refine ⟨b.lowestClearIdx,prev,?_,.inr ⟨⟨hlo,by omega⟩,hp,fun i hi => ?_⟩⟩
        · simp only [bitmapRefreshBoundsAfterSet,if_neg hguard,if_neg hl,refreshHighest,
            if_pos hh,if_pos hpos,hr,bind_eq_bind,bind_some]
          rfl
        · have hi' := hall i hi.1
          refine ⟨hi'.1,?_⟩
          by_contra hlt
          exact hp3 i (by omega) (by omega) hi
    · refine ⟨b.lowestClearIdx,b.highestClearIdx,?_,
        .inr ⟨⟨hlo,fun h => hl h.symm⟩,⟨hhi,fun h => hh h.symm⟩,fun i hi => hall i hi.1⟩⟩
      simp only [bitmapRefreshBoundsAfterSet,if_neg hguard,if_neg hl,refreshHighest,if_neg hh]

theorem bitmapSet_spec (hs : Shows b used) (hidx : idx<b.bitCount) :
    ∃ b', bitmapSet b idx=some (true, b') ∧ b'.bitCount=b.bitCount ∧
      Shows b' (update used idx true) := by
  obtain ⟨st,hst,-,-⟩ := hs.stored
  have hget := bitmapGet_spec hs idx
  have hguard : ¬ (b.storage=none ∨ idx ≥ b.bitCount) := by
    simp only [hst,reduceCtorEq,false_or]
    omega
  cases hused : used idx with
  | true =>
    refine ⟨b,?_,rfl,?_⟩
    · simp [bitmapSet,hst,hget,hidx,hused]
    · rwa [← hused,update_eq_self]
  | false =>
    obtain ⟨st',hmod,hlen',hbits'⟩ := modifyByte_spec hs hidx (fun x => x ||| bitMask idx) true
      fun x k hk => by
        rw [BitVec.getLsbD_or,getLsbD_bitMask idx hk]
        by_cases hkm : k=idx % 8 <;> simp [hkm]
    obtain ⟨lo,hi,hrefresh,hbounds⟩ := refresh_spec (b := { b with storage := some st' }) rfl
      hlen' hs.small hidx hused hbits' hs.bounds
    refine ⟨{ b with storage := some st', lowestClearIdx := lo, highestClearIdx := hi },?_,rfl,
      ⟨hs.small,⟨st',rfl,hlen',hbits'⟩,hbounds⟩⟩
    simp only [bitmapSet,if_neg hguard,hget,hidx,hused,decide_true,Bool.and_false,
      bind_eq_bind,bind_some,Bool.false_eq_true,if_false,hmod,hrefresh]
    rfl

private theorem clear_or_update {i : Nat} (hidx : idx<n) :
    (i<n ∧ update used idx false i=false) ↔ (i<n ∧ used i=false) ∨ i=idx := by
  by_cases hi : i=idx
  · subst hi
    simp [hidx]
  · simp [hi]

theorem bitmapClear_spec (hs : Shows b used) (hidx : idx<b.bitCount) :
    ∃ b', bitmapClear b idx=some (true, b') ∧ b'.bitCount=b.bitCount ∧
      Shows b' (update used idx false) := by
  obtain ⟨st,hst,-,-⟩ := hs.stored
  have hget := bitmapGet_spec hs idx
  have hguard : ¬ (b.storage=none ∨ idx ≥ b.bitCount) := by
    simp only [hst,reduceCtorEq,false_or]
    omega
  cases hused : used idx with
  | false =>
    refine ⟨b,?_,rfl,?_⟩
    · simp [bitmapClear,hst,hget,hidx,hused]
    · rwa [← hused,update_eq_self]
  | true =>
    obtain ⟨st',hmod,hlen',hbits'⟩ := modifyByte_spec hs hidx (fun x => x &&& ~~~(bitMask idx))
      false fun x k hk => by
        rw [BitVec.getLsbD_and,BitVec.getLsbD_not,getLsbD_bitMask idx hk]
        by_cases hkm : k=idx % 8 <;> simp [hkm,hk]
    have hb := hs.bounds
    by_cases hfull : b.lowestClearIdx ≥ b.bitCount ∨ b.highestClearIdx ≥ b.bitCount
    · refine ⟨{ b with storage := some st', lowestClearIdx := idx, highestClearIdx := idx },?_,
        rfl,⟨hs.small,⟨st',rfl,hlen',hbits'⟩,?_⟩⟩
      · simp only [bitmapClear,if_neg hguard,hget,hidx,hused,decide_true,Bool.and_true,
          bind_eq_bind,bind_some,Bool.not_true,Bool.false_eq_true,if_false,hmod,
          if_pos hfull]
        rfl
      · simp only [clear_or_update hidx]
        obtain ⟨-,-,hnone⟩ | ⟨hlo,hhi,-⟩ := hb
        · exact .inr ⟨.inr rfl,.inr rfl,fun i hi => by
            obtain hi | rfl := hi
            · exact absurd hi (hnone i)
            · exact ⟨le_refl _,le_refl _⟩⟩
        · omega
    · refine ⟨{ b with
          storage := some st'
          lowestClearIdx := min idx b.lowestClearIdx
          highestClearIdx := max idx b.highestClearIdx },?_,rfl,
        ⟨hs.small,⟨st',rfl,hlen',hbits'⟩,?_⟩⟩
      · simp only [bitmapClear,if_neg hguard,hget,hidx,hused,decide_true,Bool.and_true,
          bind_eq_bind,bind_some,Bool.not_true,Bool.false_eq_true,if_false,hmod,
          if_neg hfull]
        by_cases h1 : idx<b.lowestClearIdx <;> by_cases h2 : idx > b.highestClearIdx <;>
          simp [h1,h2,min_def,max_def] <;> omega
      · simp only [clear_or_update hidx]
        obtain ⟨h1,-,-⟩ | ⟨hlo,hhi,hall⟩ := hb
        · omega
        · refine .inr ⟨?_,?_,fun i hi => ?_⟩
          · rcases min_choice idx b.lowestClearIdx with h | h <;> rw [h]
            · exact .inr rfl
            · exact .inl hlo
          · rcases max_choice idx b.highestClearIdx with h | h <;> rw [h]
            · exact .inr rfl
            · exact .inl hhi
          · obtain hi | rfl := hi
            · have := hall i hi
              omega
            · omega

theorem bitmapFindClear_spec (hs : Shows b used) :
    ∃ r, bitmapFindClear b=some r ∧ match r with
      | none => ∀ i<b.bitCount, used i=true
      | some i => i<b.bitCount ∧ used i=false ∧ ∀ j < i, used j=true := by
  obtain ⟨st,hst,hlen,hbits⟩ := hs.stored
  have hclear (i : Nat) : (i<b.bitCount ∧ bitAt st i=false) ↔
      (i<b.bitCount ∧ used i=false) := and_congr_right fun hi => by rw [hbits i hi]
  obtain ⟨hlo,hhi,hnone⟩ | ⟨hlo,hhi,hall⟩ := hs.bounds
  · refine ⟨none,by simp [bitmapFindClear,hlo],fun i hi => ?_⟩
    exact Bool.eq_true_of_not_eq_false fun h => hnone i ⟨hi,h⟩
  · obtain ⟨r,hr,hfirst⟩ :=
      bitmapFindClearForward_spec hst hlen b.lowestClearIdx b.highestClearIdx
    simp only [hclear] at hfirst
    have hguard : ¬ (b.storage=none ∨ b.lowestClearIdx ≥ b.bitCount ∨
        b.highestClearIdx ≥ b.bitCount) := by
      simp only [hst,reduceCtorEq,false_or]
      omega
    refine ⟨r,by rw [bitmapFindClear,if_neg hguard,hr],?_⟩
    cases r with
    | none => exact absurd hlo (hfirst _ (le_refl _) (hall _ hlo).2)
    | some i =>
      obtain ⟨hi,hi1,hi2,hi3⟩ := hfirst
      refine ⟨hi.1,hi.2,fun j hj => Bool.eq_true_of_not_eq_false fun h => ?_⟩
      have hjn : j<b.bitCount := by omega
      exact hi3 j (hall j ⟨hjn,h⟩).1 hj ⟨hjn,h⟩

private theorem fillPrefix_spec (hn : n + 7<2 ^ 64)
    (hst : bitmapStorageSize n ≤ st.length) (v : Bool) :
    ∃ st', fillPrefix st (bitmapStorageSize n) (if v then 0xFF else 0)=some st' ∧
      n≤8 * st'.length ∧ ∀ i<n, bitAt st' i=v := by
  have hsize : bitmapStorageSize n=(n+7) / 8 := by
    rw [bitmapStorageSize,Nat.mod_eq_of_lt hn]
  refine ⟨_,if_pos hst,?_,fun i hi => ?_⟩
  · simp only [length_append,length_replicate,length_drop]
    omega
  · have hk : i % 8<8 := Nat.mod_lt i (by decide)
    have hfull : ∀ k<8, (0xFF#8).getLsbD k=true := by decide
    rw [bitAt,getD_eq_getElem?_getD,getElem?_append_left
      (by rw [length_replicate]; omega),getElem?_replicate,if_pos (by omega)]
    cases v
    · simp
    · exact hfull _ hk

theorem bitmapInit_spec (hn : n + 7<2 ^ 64)
    (hst : bitmapStorageSize n ≤ st.length) (defaultSet : Bool) :
    ∃ b, bitmapInit (some st) n defaultSet=some b ∧ b.bitCount=n ∧
      Shows b fun _ => defaultSet := by
  by_cases h0 : n=0
  · subst h0
    exact ⟨⟨some st,0,_,0,0⟩,rfl,rfl,Nat.two_pow_pos 64,⟨st,rfl,by simp,by simp⟩,
      .inl ⟨rfl,rfl,by simp⟩⟩
  obtain ⟨st',hfill,hlen,hbits⟩ := fillPrefix_spec hn hst defaultSet
  have hsmall : n<2 ^ 64 := by omega
  cases defaultSet with
  | true =>
    refine ⟨⟨some st',n,bitmapStorageSize n,n,n⟩,?_,rfl,hsmall,⟨st',rfl,hlen,hbits⟩,
      .inl ⟨rfl,rfl,by simp⟩⟩
    rw [bitmapInit]
    dsimp only
    rw [if_neg h0,hfill]
    rfl
  | false =>
    refine ⟨⟨some st',n,bitmapStorageSize n,0,n-1⟩,?_,rfl,hsmall,⟨st',rfl,hlen,hbits⟩,
      .inr ⟨⟨Nat.pos_of_ne_zero h0,rfl⟩,⟨Nat.sub_one_lt h0,rfl⟩,
        fun i hi => ⟨Nat.zero_le i,Nat.le_sub_one_of_lt hi.1⟩⟩⟩
    rw [bitmapInit]
    dsimp only
    rw [if_neg h0,hfill]
    rfl

end Hojicha.Utils
