import Mathlib.Data.List.Nodup

/-!
# Cursors

A cursor is an element of a list, or `none` behind its end.
-/

namespace Hojicha.Framework

open List

variable {α : Type*} [DecidableEq α] {l : List α} {x y c : α} {cursor : Option α}

def restFrom (l : List α) : Option α → List α
  | none => []
  | some x => l.dropWhile (· ≠ x)

def nextOf (l : List α) (x : α) : Option α := (l.dropWhile (· ≠ x)).tail.head?

theorem dropWhile_ne_append {front : List α} (h : x∉front) (back : List α) :
    (front++x::back).dropWhile (· ≠ x)=x::back := by
  induction front with
  | nil => simp
  | cons a front ih =>
    rw [mem_cons,not_or] at h
    rw [cons_append,dropWhile_cons_of_pos (by simpa using Ne.symm h.1)]
    exact ih h.2

theorem restFrom_head (l : List α) : restFrom l l.head? = l := by
  cases l with
  | nil => rfl
  | cons a l => simp [restFrom]

/-- The cursor comes first, then what is in front of it after the next step. -/
theorem restFrom_next (hnodup : l.Nodup) (hx : x∈l) :
    restFrom l (some x)=x::restFrom l (nextOf l x) := by
  obtain ⟨front,back,rfl,hfront⟩ := eq_append_cons_of_mem hx
  rw [restFrom,nextOf,dropWhile_ne_append hfront,tail_cons]
  cases back with
  | nil => rfl
  | cons b back =>
    have hb : b∉front++[x] := by
      intro hmem
      rw [append_cons] at hnodup
      exact (nodup_append.mp hnodup).2.2 b hmem b (mem_cons_self ..) rfl
    rw [head?_cons,restFrom,append_cons,dropWhile_ne_append hb]

theorem nextOf_mem (hy : nextOf l x=some y) : y∈l := by
  have hmem := mem_of_mem_tail (mem_of_mem_head? hy)
  exact (dropWhile_suffix _).subset hmem

theorem nextOf_ne_self (hnodup : l.Nodup) (hx : x∈l) : x∉restFrom l (nextOf l x) := by
  have hrest : (restFrom l (some x)).Nodup := hnodup.sublist (dropWhile_suffix _).sublist
  rw [restFrom_next hnodup hx] at hrest
  exact (nodup_cons.mp hrest).1

theorem mem_restFrom_append (hcursor : ∀ x, cursor=some x → x∈l) (hc : c≠y) :
    c∈restFrom (l++[y]) cursor ↔ c∈restFrom l cursor := by
  cases cursor with
  | none => rfl
  | some x =>
    obtain ⟨front,back,rfl,hfront⟩ := eq_append_cons_of_mem (hcursor x rfl)
    rw [restFrom,restFrom,append_assoc,cons_append,dropWhile_ne_append hfront,
      dropWhile_ne_append hfront]
    simp [hc]

theorem mem_restFrom_erase (hcursor : ∀ x, cursor=some x → x∈l ∧ x≠y) (hc : c≠y) :
    c∈restFrom (l.erase y) cursor ↔ c∈restFrom l cursor := by
  cases cursor with
  | none => rfl
  | some x =>
    have hx := hcursor x rfl
    obtain ⟨front,back,rfl,hfront⟩ := eq_append_cons_of_mem hx.1
    rw [restFrom,restFrom,dropWhile_ne_append hfront]
    by_cases hy : y∈front
    · have hfront' : x∉front.erase y := fun hmem => hfront (mem_of_mem_erase hmem)
      rw [erase_append_left _ hy,dropWhile_ne_append hfront']
    · rw [erase_append_right _ hy,erase_cons_tail (by simpa using hx.2),dropWhile_ne_append hfront]
      rw [mem_cons,mem_cons,mem_erase_of_ne hc]

theorem nextOf_drop (hnodup : l.Nodup) {i : Nat} {rest : List α} (hdrop : l.drop i=x::rest) :
    nextOf l x=(l.drop (i + 1)).head? := by
  have hsplit : l=l.take i++x::rest := by
    rw [← hdrop]
    exact (take_append_drop i l).symm
  have hfront : x∉l.take i := by
    intro hmem
    rw [hsplit] at hnodup
    exact (nodup_append.mp hnodup).2.2 x hmem x (mem_cons_self ..) rfl
  have hfrom : l.dropWhile (· ≠ x)=x::rest := by
    conv_lhs => rw [hsplit]
    exact dropWhile_ne_append hfront rest
  have hrest : l.drop (i+1)=rest := by
    rw [← tail_drop,hdrop]
    rfl
  rw [nextOf,hfrom,hrest]
  rfl

end Hojicha.Framework
