import Mathlib.Data.List.Basic

/-! # Replies of a system -/

namespace Hojicha.Framework

variable {σ τ κ ρ : Type*} (step : σ → κ → ρ × σ) (allowed : σ → κ → Prop)

/-- The replies to a sequence of requests, and the state afterwards. -/
def trace : σ → List κ → List ρ × σ
  | s, [] => ([], s)
  | s, c :: cs =>
    let (rs, s') := trace (step s c).2 cs
    ((step s c).1 :: rs, s')

/-- Every request of the sequence is allowed in the state in which it is made. -/
def Always : σ → List κ → Prop
  | _, [] => True
  | s, c :: cs => allowed s c ∧ Always (step s c).2 cs

instance decidableAlways [∀ s c, Decidable (allowed s c)] :
    (s : σ) → (cs : List κ) → Decidable (Always step allowed s cs)
  | _, [] => inferInstanceAs (Decidable True)
  | s, c :: cs =>
    have := decidableAlways (step s c).2 cs
    inferInstanceAs (Decidable (allowed s c ∧ Always step allowed (step s c).2 cs))

variable {step allowed} {step' : τ → κ → ρ × τ} {s : σ} {t : τ} {cs : List κ}

theorem trace_cons (s : σ) (c : κ) (cs : List κ) :
    trace step s (c::cs) =
      ((step s c).1::(trace step (step s c).2 cs).1, (trace step (step s c).2 cs).2) := rfl

theorem trace_invariant (inv : σ → Prop)
    (hstep : ∀ s c, inv s → allowed s c → inv (step s c).2) (hs : inv s)
    (hall : Always step allowed s cs) : inv (trace step s cs).2 := by
  induction cs generalizing s with
  | nil => exact hs
  | cons c cs ih =>
    rw [trace_cons]
    exact ih (hstep s c hs hall.1) hall.2

theorem trace_simulates (rel : σ → τ → Prop)
    (hstep : ∀ s t c, rel s t → allowed s c →
      (step s c).1=(step' t c).1 ∧ rel (step s c).2 (step' t c).2)
    (hs : rel s t) (hall : Always step allowed s cs) :
    (trace step s cs).1=(trace step' t cs).1 ∧ rel (trace step s cs).2 (trace step' t cs).2 := by
  induction cs generalizing s t with
  | nil => exact ⟨rfl,hs⟩
  | cons c cs ih =>
    obtain ⟨hreply,hnext⟩ := hstep s t c hs hall.1
    obtain ⟨hreplies,hend⟩ := ih hnext hall.2
    rw [trace_cons,trace_cons]
    exact ⟨by rw [hreply,hreplies],hend⟩

end Hojicha.Framework
