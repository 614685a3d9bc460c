import Mathlib.Data.List.TakeWhile

/-!
# Fields of a list

The fields of a list are its maximal non-empty runs without the separator.
-/

namespace Hojicha.Framework

open List

variable {α : Type*} [DecidableEq α] (sep : α)

/-- The non-empty runs between the separators. -/
def fields : List α → List (List α)
  | [] => []
  | a :: l =>
    if a = sep then fields l
    else if l.head? = none ∨ l.head? = some sep then [a] :: fields l
    else (fields l).modifyHead (a :: ·)

variable {sep}

theorem fields_cons_sep (l : List α) : fields sep (sep::l)=fields sep l := by
  rw [fields,if_pos rfl]

theorem fields_cons_last {a : α} (h : a≠sep) {l : List α}
    (hl : l.head? = none ∨ l.head? = some sep) : fields sep (a::l)=[a]::fields sep l := by
  rw [fields,if_neg h,if_pos hl]

theorem fields_cons_more {a : α} (h : a≠sep) {l : List α}
    (hl : ¬(l.head? = none ∨ l.head? = some sep)) :
    fields sep (a::l)=(fields sep l).modifyHead (a :: ·) := by
  rw [fields,if_neg h,if_neg hl]

theorem fields_dropWhile (l : List α) : fields sep (l.dropWhile (· == sep))=fields sep l := by
  induction l with
  | nil => rfl
  | cons a l ih =>
    by_cases h : a=sep
    · subst h
      rw [dropWhile_cons_of_pos (by simp),fields_cons_sep,ih]
    · rw [dropWhile_cons_of_neg (by simpa using h)]

theorem fields_word (l : List α) (hne : l≠[]) (hhead : l.head? ≠ some sep) :
    fields sep l=l.takeWhile (· != sep)::fields sep (l.dropWhile (· != sep)) := by
  induction l with
  | nil => exact absurd rfl hne
  | cons a l ih =>
    have ha : a≠sep := by
      intro h
      exact hhead (by rw [h]; rfl)
    rw [takeWhile_cons_of_pos (by simpa using ha),dropWhile_cons_of_pos (by simpa using ha)]
    by_cases hl : l.head? = none ∨ l.head? = some sep
    · rw [fields_cons_last ha hl]
      cases l with
      | nil => rfl
      | cons b l =>
        have hb : b=sep := by simpa using hl
        subst hb
        rw [takeWhile_cons_of_neg (by simp),dropWhile_cons_of_neg (by simp)]
    · rw [fields_cons_more ha hl]
      rw [not_or] at hl
      rw [ih (by intro h; exact hl.1 (by rw [h]; rfl)) hl.2,modifyHead_cons]

theorem fields_append (l m : List α) :
    fields sep (l++sep::m)=fields sep l++fields sep m := by
  induction l with
  | nil => rw [nil_append,fields_cons_sep,fields,nil_append]
  | cons a l ih =>
    rw [cons_append]
    by_cases ha : a=sep
    · subst ha
      rw [fields_cons_sep,fields_cons_sep,ih]
    · cases l with
      | nil =>
        rw [nil_append,fields_cons_last ha (Or.inr rfl),fields_cons_last ha (Or.inl rfl),
          fields_cons_sep,fields,cons_append,nil_append]
      | cons b l =>
        by_cases hb : b=sep
        · rw [fields_cons_last ha (Or.inr (by rw [hb]; rfl)),
            fields_cons_last ha (Or.inr (by rw [hb]; rfl)),ih,cons_append]
        · have hl : ∀ l' : List α, ¬((b::l').head? = none ∨ (b::l').head? = some sep) := by
            intro l'
            simpa using hb
          rw [cons_append,fields_cons_more ha (hl _),← cons_append,ih,
            fields_cons_more ha (hl _),fields_word (b::l) (by simp) (by simpa using hb)]
          rfl

theorem mem_fields {l w : List α} (h : w∈fields sep l) : w≠[] ∧ sep∉w := by
  induction l generalizing w with
  | nil => simp [fields] at h
  | cons a l ih =>
    by_cases ha : a=sep
    · subst ha
      rw [fields_cons_sep] at h
      exact ih h
    · by_cases hl : l.head? = none ∨ l.head? = some sep
      · rw [fields_cons_last ha hl] at h
        rcases mem_cons.mp h with rfl | h
        · exact ⟨by simp,by simpa using Ne.symm ha⟩
        · exact ih h
      · rw [fields_cons_more ha hl] at h
        cases hf : fields sep l with
        | nil => simp [hf] at h
        | cons v ws =>
          rw [hf,modifyHead_cons] at h
          rcases mem_cons.mp h with rfl | h
          · have hv := (ih (w := v) (by rw [hf]; exact mem_cons_self)).2
            refine ⟨by simp,?_⟩
            simp [Ne.symm ha,hv]
          · exact ih (by rw [hf]; exact mem_cons_of_mem v h)

theorem eq_sep_of_fields_eq_nil {l : List α} (h : fields sep l=[]) : ∀ a∈l, a=sep := by
  induction l with
  | nil => simp
  | cons a l ih =>
    by_cases ha : a=sep
    · subst ha
      rw [fields_cons_sep] at h
      simpa using ih h
    · rw [fields_word (a::l) (by simp) (by simpa using ha)] at h
      exact absurd h (by simp)

theorem fields_self {w : List α} (hne : w≠[]) (hsep : sep∉w) : fields sep w=[w] := by
  have hall : ∀ a∈w, (a != sep)=true := by
    intro a ha
    have h : a≠sep := fun h => hsep (h ▸ ha)
    simpa using h
  have hhead : w.head? ≠ some sep := by
    intro h
    exact hsep (mem_of_mem_head? h)
  rw [fields_word w hne hhead,takeWhile_eq_self_iff.mpr hall,dropWhile_eq_nil_iff.mpr hall,fields]

theorem fields_flatMap {ws : List (List α)} (h : ∀ w∈ws, w≠[] ∧ sep∉w) :
    fields sep (ws.flatMap (sep :: ·))=ws := by
  induction ws with
  | nil => rfl
  | cons w ws ih =>
    have hw := h w mem_cons_self
    have hws := ih fun v hv => h v (mem_cons_of_mem w hv)
    rw [flatMap_cons,cons_append,fields_cons_sep]
    cases ws with
    | nil => rw [flatMap_nil,append_nil,fields_self hw.1 hw.2]
    | cons v ws =>
      rw [flatMap_cons,cons_append,fields_cons_sep] at hws
      rw [flatMap_cons,cons_append,fields_append,hws,fields_self hw.1 hw.2]
      rfl

end Hojicha.Framework
