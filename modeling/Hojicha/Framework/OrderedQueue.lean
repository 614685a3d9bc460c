import Mathlib.Data.List.Pairwise
import Mathlib.Data.List.TakeWhile

/-!
# Queues kept in order

A queue is cut where a test fails for the first time. If the test can only hold on in front of
elements for which it holds, a new element may be put in between.
-/

namespace Hojicha.Framework

open List

variable {α : Type*} {R : α → α → Prop} {f : α → Bool} {xs : List α}

/-- Whatever the test accepts has only accepted elements in front of it. -/
def Cuts (f : α → Bool) (xs : List α) : Prop := xs.Pairwise fun x y => f y = true → f x = true

theorem Cuts.takeWhile_eq (h : Cuts f xs) : xs.takeWhile f=xs.filter f := by
  induction xs with
  | nil => rfl
  | cons x xs ih =>
    obtain ⟨hx,hxs⟩ := pairwise_cons.mp h
    by_cases hf : f x=true
    · rw [takeWhile_cons_of_pos hf,filter_cons_of_pos hf,ih hxs]
    · -- nothing behind a rejected element is accepted
      rw [takeWhile_cons_of_neg hf,filter_cons_of_neg hf,eq_comm,filter_eq_nil_iff]
      intro y hy hfy
      exact hf (hx y hy hfy)

theorem Cuts.dropWhile_eq (h : Cuts f xs) : xs.dropWhile f=xs.filter fun x => !f x := by
  induction xs with
  | nil => rfl
  | cons x xs ih =>
    obtain ⟨hx,hxs⟩ := pairwise_cons.mp h
    by_cases hf : f x=true
    · rw [dropWhile_cons_of_pos hf,filter_cons_of_neg (by simp [hf]),ih hxs]
    · rw [dropWhile_cons_of_neg hf,eq_comm,filter_eq_self]
      intro y hy
      rcases mem_cons.mp hy with rfl | hy
      · simpa using hf
      · simpa using fun hfy => hf (hx y hy hfy)

theorem Cuts.insert {a : α} (h : Cuts f xs) (hR : xs.Pairwise R)
    (hbefore : ∀ x∈xs, f x=true → R x a) (hafter : ∀ x∈xs, f x≠true → R a x) :
    (xs.takeWhile f++a::xs.dropWhile f).Pairwise R := by
  have hsplit : (xs.takeWhile f++xs.dropWhile f).Pairwise R := by
    rwa [takeWhile_append_dropWhile]
  obtain ⟨htake,hdrop,hcross⟩ := pairwise_append.mp hsplit
  have hbefore' : ∀ x∈xs.takeWhile f, R x a := by
    intro x hx
    have hpre := takeWhile_prefix f (l := xs)
    exact hbefore x (hpre.subset hx) (mem_takeWhile_imp hx)
  have hafter' : ∀ x∈xs.dropWhile f, R a x := by
    intro x hx
    rw [h.dropWhile_eq,mem_filter] at hx
    exact hafter x hx.1 (by simpa using hx.2)
  rw [pairwise_append,pairwise_cons]
  refine ⟨htake,⟨hafter',hdrop⟩,?_⟩
  intro x hx y hy
  rcases mem_cons.mp hy with rfl | hy
  · exact hbefore' x hx
  · exact hcross x hx y hy

end Hojicha.Framework
