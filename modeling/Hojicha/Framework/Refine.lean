import Mathlib.Tactic

/-!
# Programs that refine functions

A program refines a function on abstract states when, from every related state, it does not fail,
returns what the function returns, and ends in a related state.
-/

namespace Hojicha.Framework

variable {S A α β κ : Type} {R : A → S → Prop}

def Refines (R : A → S → Prop) (x : StateT S Option α) (y : A → α × A) : Prop :=
  ∀ a s, R a s → ∃ s', x s = some ((y a).1, s') ∧ R (y a).2 s'

theorem pure_apply (v : α) (s : S) : (pure v : StateT S Option α) s=some (v, s) := rfl

theorem Refines.pure (v : α) : Refines R (pure v) fun a => (v, a) :=
  fun _ s hs => ⟨s,rfl,hs⟩

/-- The actions are performed in order, until one of them is `false`. -/
def perform (act : κ → A → Bool × A) : List κ → A → Bool × A
  | [], a => (true, a)
  | k :: ks, a => if (act k a).1 then perform act ks (act k a).2 else act k a

variable {act : κ → A → Bool × A}

theorem perform_append (ks ls : List κ) (a : A) :
    perform act (ks++ls) a =
      if (perform act ks a).1 then perform act ls (perform act ks a).2 else perform act ks a := by
  induction ks generalizing a with
  | nil => rfl
  | cons k ks ih =>
    simp only [List.cons_append,perform]
    split_ifs with hk
    · exact (ih _).trans (if_pos ‹_›)
    · exact (ih _).trans (if_neg ‹_›)
    · rfl

theorem perform_singleton (k : κ) (a : A) : perform act [k] a=act k a := by
  rw [perform,perform]
  split_ifs with hk
  · rw [← hk]
  · rfl

/-- One action list after another, the second only if the first was not left early. -/
theorem Refines.append {x y : StateT S Option Bool} {ks ls : List κ}
    (hx : Refines R x (perform act ks)) (hy : Refines R y (perform act ls)) :
    Refines R (do if ← x then y else Pure.pure false) (perform act (ks++ls)) := by
  intro a s hs
  obtain ⟨s₁,hrun,hs₁⟩ := hx a s hs
  rw [perform_append]
  cases hb : (perform act ks a).1 with
  | true =>
    obtain ⟨s₂,hrest,hs₂⟩ := hy _ s₁ hs₁
    refine ⟨s₂,?_,hs₂⟩
    simp [Bind.bind,StateT.bind,hrun,hb,hrest]
  | false =>
    refine ⟨s₁,?_,hs₁⟩
    simp [Bind.bind,StateT.bind,hrun,hb,pure_apply]

end Hojicha.Framework
