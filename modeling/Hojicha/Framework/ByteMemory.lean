import Mathlib.Tactic

/-! # Little-endian byte memory -/

namespace Hojicha.Framework

abbrev ByteMemory := Nat → UInt8

/-- The two memories hold the same bytes wherever `p` does not hold. -/
def AgreeOff (p : Nat → Prop) (m m' : ByteMemory) : Prop := ∀ x, ¬ p x → m' x = m x

def InRange (a n x : Nat) : Prop := a ≤ x ∧ x < a + n

instance (a n x : Nat) : Decidable (InRange a n x) := inferInstanceAs (Decidable (_ ∧ _))

def loadBytes (m : ByteMemory) : Nat → Nat → Nat
  | _, 0 => 0
  | a, n + 1 => (m a).toNat + 256 * loadBytes m (a + 1) n

def storeBytes (m : ByteMemory) (a n v : Nat) : ByteMemory := fun x =>
  if InRange a n x then UInt8.ofNat (v / 256 ^ (x - a)) else m x

def fillBytes (m : ByteMemory) (a n : Nat) (b : UInt8) : ByteMemory := fun x =>
  if InRange a n x then b else m x

/-- Overlay the bytes of `src` on the range `[a, a + n)`. -/
def overlayBytes (m : ByteMemory) (a n : Nat) (src : ByteMemory) : ByteMemory := fun x =>
  if InRange a n x then src x else m x

def storeByte (m : ByteMemory) (a : Nat) (b : UInt8) : ByteMemory := fun x =>
  if x = a then b else m x

abbrev load64 (m : ByteMemory) (a : Nat) : Nat := loadBytes m a 8
abbrev store64 (m : ByteMemory) (a v : Nat) : ByteMemory := storeBytes m a 8 v

theorem loadBytes_congr {m m' : ByteMemory} (a n : Nat)
    (h : ∀ x, InRange a n x → m' x=m x) : loadBytes m' a n=loadBytes m a n := by
  induction n generalizing a with
  | zero => rfl
  | succ n ih =>
    have hhead : m' a=m a := h a (by constructor <;> omega)
    have htail : loadBytes m' (a+1) n=loadBytes m (a+1) n := by
      apply ih
      intro x hx
      exact h x ⟨by have := hx.1; omega,by have := hx.2; omega⟩
    simp only [loadBytes,hhead,htail]

theorem loadBytes_of_zero {m : ByteMemory} (a n : Nat) (h : ∀ x, InRange a n x → m x=0) :
    loadBytes m a n=0 := by
  induction n generalizing a with
  | zero => rfl
  | succ n ih =>
    have htail : loadBytes m (a+1) n=0 := by
      apply ih
      rintro x ⟨hge,hlt⟩
      exact h x ⟨by omega,by omega⟩
    rw [loadBytes,h a ⟨by omega,by omega⟩,htail]
    rfl

section

variable (m : ByteMemory)
include m

private theorem loadBytes_of_digits (a n v : Nat)
    (h : ∀ i<n, (m (a + i)).toNat=v / 256 ^ i % 256) : loadBytes m a n=v % 256 ^ n := by
  induction n generalizing a v with
  | zero => simp [loadBytes,Nat.mod_one]
  | succ n ih =>
    have hhead := h 0 (by omega)
    have htail : loadBytes m (a+1) n=v / 256 % 256 ^ n := by
      apply ih
      intro i hi
      have hstep := h (i+1) (by omega)
      rw [pow_succ',← Nat.div_div_eq_div_mul] at hstep
      rw [← hstep,show a+1+i=a+(i+1) by omega]
    simp only [Nat.add_zero,pow_zero,Nat.div_one] at hhead
    rw [loadBytes,hhead,htail,pow_succ',Nat.mod_mul]

theorem loadBytes_storeBytes (a n v : Nat) (hv : v<256 ^ n) :
    loadBytes (storeBytes m a n v) a n=v := by
  rw [loadBytes_of_digits _ a n v,Nat.mod_eq_of_lt hv]
  intro i hi
  have hin : InRange a n (a+i) := ⟨by omega,by omega⟩
  simp [storeBytes,hin]

theorem load64_store64 (a v : Nat) (hv : v<2 ^ 64) : load64 (store64 m a v) a=v :=
  loadBytes_storeBytes m a 8 v (by simpa using hv)

theorem storeBytes_agree (a n v : Nat) : AgreeOff (InRange a n) m (storeBytes m a n v) := by
  intro x hx
  simp [storeBytes,hx]

theorem fillBytes_agree (a n : Nat) (b : UInt8) : AgreeOff (InRange a n) m (fillBytes m a n b) := by
  intro x hx
  simp [fillBytes,hx]

theorem overlayBytes_agree (a n : Nat) (src : ByteMemory) :
    AgreeOff (InRange a n) m (overlayBytes m a n src) := by
  intro x hx
  simp [overlayBytes,hx]

theorem storeByte_agree (a : Nat) (b : UInt8) : AgreeOff (InRange a 1) m (storeByte m a b) := by
  intro x hx
  have hne : x≠a := fun h => hx ⟨by omega,by omega⟩
  simp [storeByte,hne]

@[simp] theorem storeByte_self (a : Nat) (b : UInt8) : storeByte m a b a=b := by
  simp [storeByte]

end

theorem AgreeOff.refl (p : Nat → Prop) (m : ByteMemory) : AgreeOff p m m := fun _ _ => rfl

theorem AgreeOff.trans {p : Nat → Prop} {m₁ m₂ m₃ : ByteMemory}
    (h₁ : AgreeOff p m₁ m₂) (h₂ : AgreeOff p m₂ m₃) : AgreeOff p m₁ m₃ := by
  intro x hx
  rw [h₂ x hx,h₁ x hx]

theorem AgreeOff.mono {p q : Nat → Prop} {m m' : ByteMemory}
    (h : AgreeOff p m m') (hpq : ∀ x, p x → q x) : AgreeOff q m m' :=
  fun x hx => h x fun hp => hx (hpq x hp)

theorem AgreeOff.load64 {p : Nat → Prop} {m m' : ByteMemory} (h : AgreeOff p m m') (a : Nat)
    (ha : ∀ x, p x → ¬ InRange a 8 x) : load64 m' a=load64 m a := by
  apply loadBytes_congr
  intro x hx
  exact h x fun hp => ha x hp hx

/-! Reading through one store that misses or covers the address; the side conditions are linear. -/

section

variable (m : ByteMemory)
include m

theorem load64_store64_of_apart (a b v : Nat) (h : a + 8≤b ∨ b + 8≤a) :
    load64 (store64 m a v) b=load64 m b :=
  (storeBytes_agree m a 8 v).load64 b fun x hx hb => by
    unfold InRange at hx hb
    omega

theorem load64_storeByte_of_apart (a b : Nat) (v : UInt8)
    (h : a<b ∨ b + 8≤a) : load64 (storeByte m a v) b=load64 m b :=
  (storeByte_agree m a v).load64 b fun x hx hb => by
    unfold InRange at hx hb
    omega

theorem load64_fillBytes_of_apart (a n b : Nat) (v : UInt8)
    (h : a + n≤b ∨ b + 8≤a) : load64 (fillBytes m a n v) b=load64 m b :=
  (fillBytes_agree m a n v).load64 b fun x hx hb => by
    unfold InRange at hx hb
    omega

theorem store64_apply_of_apart (a x v : Nat) (h : x<a ∨ a + 8≤x) : store64 m a v x=m x :=
  storeBytes_agree m a 8 v x fun hx => by
    unfold InRange at hx
    omega

theorem storeByte_apply_of_ne (a x : Nat) (v : UInt8) (h : x≠a) : storeByte m a v x=m x := by
  simp [storeByte,h]

theorem fillBytes_apply_of_apart (a n x : Nat) (v : UInt8)
    (h : x<a ∨ a + n≤x) : fillBytes m a n v x=m x :=
  fillBytes_agree m a n v x fun hx => by
    unfold InRange at hx
    omega

end

/-- Copy the bytes `[src, src + n)` to `[dst, dst + n)`, one after the other. -/
def copyBytes (m : ByteMemory) (dst src : Nat) : Nat → ByteMemory
  | 0 => m
  | n + 1 => storeByte (copyBytes m dst src n) (dst + n) (copyBytes m dst src n (src + n))

theorem copyBytes_agree (m : ByteMemory) (dst src n : Nat) :
    AgreeOff (InRange dst n) m (copyBytes m dst src n) := by
  induction n with
  | zero => exact .refl _ m
  | succ n ih =>
    refine (ih.mono fun x hx => ?_).trans ((storeByte_agree _ _ _).mono fun x hx => ?_)
    · unfold InRange at hx ⊢
      omega
    · unfold InRange at hx ⊢
      omega

theorem copyBytes_apply (m : ByteMemory) {dst src n i : Nat}
    (hapart : src + n≤dst ∨ dst + n ≤ src) (hi : i<n) :
    copyBytes m dst src n (dst + i)=m (src + i) := by
  induction n with
  | zero => omega
  | succ n ih =>
    rcases Nat.lt_succ_iff_lt_or_eq.mp hi with hlt | rfl
    · rw [copyBytes,storeByte_apply_of_ne _ _ _ _ (by omega),ih (by omega) hlt]
    · -- the source is apart from what has been copied so far
      rw [copyBytes,storeByte_self]
      refine copyBytes_agree m dst src i _ fun hx => ?_
      unfold InRange at hx
      omega

-- Loads are only reasoned about through the lemmas above.
attribute [irreducible] loadBytes

end Hojicha.Framework
