import Mathlib.Tactic

/-!
# Runs of a partial step function

A step may not return, and a request may be one that the environment promises not to make.
-/

namespace Hojicha.Framework

variable {σ κ : Type*} (step : σ → κ → Option σ) (allowed : σ → κ → Prop)

def run : σ → List κ → Option σ
  | s, [] => some s
  | s, c :: cs => (step s c).bind fun s' => run s' cs

/-- Every request of the sequence is allowed in the state in which it is made. -/
def Permitted : σ → List κ → Prop
  | _, [] => True
  | s, c :: cs => allowed s c ∧ ∀ s' ∈ step s c, Permitted s' cs

instance decidablePermitted [∀ s c, Decidable (allowed s c)] :
    (s : σ) → (cs : List κ) → Decidable (Permitted step allowed s cs)
  | _, [] => inferInstanceAs (Decidable True)
  | s, c :: cs =>
    have : DecidablePred fun s' => Permitted step allowed s' cs := fun s' =>
      decidablePermitted s' cs
    inferInstanceAs (Decidable (allowed s c ∧ ∀ s' ∈ step s c, Permitted step allowed s' cs))

variable {step allowed} {s s' : σ}

theorem Permitted.append_left {cs ds : List κ} (hp : Permitted step allowed s (cs++ds)) :
    Permitted step allowed s cs := by
  induction cs generalizing s with
  | nil => trivial
  | cons c cs ih => exact ⟨hp.1,fun s' hs' => ih (hp.2 s' hs')⟩

theorem Permitted.append_right {cs ds : List κ} (hp : Permitted step allowed s (cs++ds))
    (hrun : run step s cs=some s') : Permitted step allowed s' ds := by
  induction cs generalizing s with
  | nil =>
    obtain rfl : s=s' := Option.some.inj hrun
    exact hp
  | cons c cs ih =>
    obtain ⟨t,ht,hrest⟩ := Option.bind_eq_some_iff.mp hrun
    exact ih (hp.2 t ht) hrest

theorem Permitted.and {p : κ → Prop} {cs : List κ} (hp : Permitted step allowed s cs)
    (hcs : ∀ c∈cs, p c) : Permitted step (fun s c => allowed s c ∧ p c) s cs := by
  induction cs generalizing s with
  | nil => trivial
  | cons c cs ih =>
    refine ⟨⟨hp.1,hcs c (by simp)⟩,fun s' hs' => ih (hp.2 s' hs') fun d hd => hcs d (by simp [hd])⟩

theorem permitted_of_forall (h : ∀ s c, allowed s c) (cs : List κ) :
    Permitted step allowed s cs := by
  induction cs generalizing s with
  | nil => trivial
  | cons c cs ih => exact ⟨h s c,fun _ _ => ih⟩

theorem run_invariant (inv : σ → Prop)
    (hstep : ∀ s c, inv s → allowed s c → ∃ s', step s c=some s' ∧ inv s') {cs : List κ}
    (hs : inv s) (hp : Permitted step allowed s cs) : ∃ s', run step s cs=some s' ∧ inv s' := by
  induction cs generalizing s with
  | nil => exact ⟨s,rfl,hs⟩
  | cons c cs ih =>
    obtain ⟨t,ht,hinv⟩ := hstep s c hs hp.1
    obtain ⟨s',hrun,hinv'⟩ := ih hinv (hp.2 t ht)
    exact ⟨s',by simp [run,ht,hrun],hinv'⟩

end Hojicha.Framework
