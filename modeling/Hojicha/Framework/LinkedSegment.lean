import Mathlib.Tactic

/-!
# Singly linked segments

Following `next` from `p` visits exactly the nodes `xs`, in order, and then stands at `q`.
-/

namespace Hojicha.Framework

variable {α : Type*} {next next' : α → α}

def Segment (next : α → α) : α → List α → α → Prop
  | p, [], q => p = q
  | p, a :: as, q => p = a ∧ Segment next (next a) as q

@[simp] theorem segment_nil (p q : α) : Segment next p [] q ↔ p=q := Iff.rfl

@[simp] theorem segment_cons (p a q : α) (as : List α) :
    Segment next p (a::as) q ↔ p=a ∧ Segment next (next a) as q := Iff.rfl

theorem segment_append (p r : α) (xs ys : List α) :
    Segment next p (xs++ys) r ↔ ∃ q, Segment next p xs q ∧ Segment next q ys r := by
  induction xs generalizing p with
  | nil => simp
  | cons a xs ih =>
    simp only [List.cons_append,segment_cons,ih]
    constructor
    · rintro ⟨hp,q,hxs,hys⟩
      exact ⟨q,⟨hp,hxs⟩,hys⟩
    · rintro ⟨q,⟨hp,hxs⟩,hys⟩
      exact ⟨hp,q,hxs,hys⟩

theorem segment_concat (p q z : α) (xs : List α) :
    Segment next p (xs++[z]) q ↔ Segment next p xs z ∧ next z=q := by
  rw [segment_append]
  constructor
  · rintro ⟨r,hxs,hr,hz⟩
    exact ⟨hr ▸ hxs,hz⟩
  · rintro ⟨hxs,hz⟩
    exact ⟨z,hxs,rfl,hz⟩

theorem Segment.congr {p q : α} {xs : List α} (h : Segment next p xs q)
    (hn : ∀ a∈xs, next' a=next a) : Segment next' p xs q := by
  induction xs generalizing p with
  | nil => exact h
  | cons a xs ih =>
    refine ⟨h.1,?_⟩
    rw [hn a (by simp)]
    exact ih h.2 fun b hb => hn b (by simp [hb])

theorem Segment.redirect {p q r z : α} {xs : List α} (h : Segment next p (xs++[z]) q)
    (hn : ∀ a∈xs, next' a=next a) (hz : next' z=r) : Segment next' p (xs++[z]) r := by
  rw [segment_concat] at h ⊢
  exact ⟨h.1.congr hn,hz⟩

theorem Segment.start_eq {p q : α} {xs : List α} (h : Segment next p xs q) :
    p=xs.head?.getD q := by
  cases xs with
  | nil => exact h
  | cons a xs => exact h.1

theorem Segment.next_mem {p q z c : α} {xs : List α} (h : Segment next p (xs++[z]) q)
    (hc : c∈xs) : next c∈xs++[z] := by
  induction xs generalizing p with
  | nil => simp at hc
  | cons a xs ih =>
    rcases List.mem_cons.mp hc with rfl | hc
    · have hnext := h.2.start_eq
      rw [hnext]
      cases xs <;> simp
    · exact List.mem_cons_of_mem a (ih h.2 hc)

def walkWhile (next : α → α) (cond : α → Bool) : Nat → α → Option α
  | 0, _ => none
  | bound + 1, p => if cond p then walkWhile next cond bound (next p) else some p

theorem walkWhile_segment {cond : α → Bool} {p q z : α} {xs : List α} {bound : Nat}
    (h : Segment next p (xs++[z]) q) (hgo : ∀ c∈xs, cond c=true)
    (hstop : cond z=false) (hbound : xs.length<bound) :
    walkWhile next cond bound p=some z := by
  induction xs generalizing p bound with
  | nil =>
    obtain ⟨rfl,-⟩ := h
    obtain ⟨n,rfl⟩ : ∃ n, bound=n+1 := ⟨bound-1,by simp at hbound; omega⟩
    simp [walkWhile,hstop]
  | cons a xs ih =>
    obtain ⟨rfl,hrest⟩ := h
    obtain ⟨n,rfl⟩ : ∃ n, bound=n+1 := ⟨bound-1,by simp at hbound; omega⟩
    rw [walkWhile,if_pos (hgo _ (by simp))]
    exact ih hrest (fun c hc => hgo c (by simp [hc])) (by simpa using hbound)

theorem walkWhile_end {cond : α → Bool} {p q : α} {xs : List α} {bound : Nat}
    (h : Segment next p xs q) (hgo : ∀ c∈xs, cond c=true)
    (hstop : cond q=false) (hbound : xs.length<bound) :
    walkWhile next cond bound p=some q :=
  walkWhile_segment ((segment_concat p (next q) q xs).mpr ⟨h,rfl⟩) hgo hstop hbound

end Hojicha.Framework
