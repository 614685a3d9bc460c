import Hojicha.Framework.Run
import Hojicha.Vma.Copy

/-! # Histories of list operations -/

namespace Hojicha.Vma

open Framework

/-- The calls, with what `slab_calloc` answers during them. -/
inductive Call where
  | insert (answer : SlabAnswer) (head : Option Nat) (area : Area)
  | remove (answer : SlabAnswer) (head : Option Nat) (start end_ : Haddr)
  | copyList (answers : Nat → SlabAnswer) (dst src : Option Nat)
  | clear (head : Option Nat)

/-- The result of a call and the store after it. `vma_clear` cannot fail. -/
def call (s : Store) : Call → Option (Bool × Store)
  | .insert answer head area => vmaInsert answer head area s
  | .remove answer head start end_ => vmaRemove answer head start end_ s
  | .copyList answers dst src => vmaCopyList answers dst src s
  | .clear head => (vmaClear head s).map (true, ·)

def step (s : Store) (c : Call) : Option Store := (call s c).map Prod.snd

structure Consistent (s : Store) (ls : Nat → List (Haddr × Area)) : Prop where
  represents : Represents s ls
  sorted : ∀ l, Sorted (areas (ls l))

variable {s : Store} {ls : Nat → List (Haddr × Area)}

theorem Consistent.update {s' : Store} {l : Nat} {zs : List (Haddr × Area)}
    (hc : Consistent s ls) (hr : Represents s' (Function.update ls l zs)) (hz : Sorted (areas zs)) :
    Consistent s' (Function.update ls l zs) := by
  refine ⟨hr,fun l' => ?_⟩
  by_cases hl : l'=l
  · subst hl
    rwa [Function.update_self]
  · rw [Function.update_of_ne hl]
    exact hc.sorted l'

theorem insertArea_sorted {xs zs : List Area} {a : Area} (hs : Sorted xs)
    (hz : insertArea a xs=some zs) : Sorted zs := by
  have hv : ValidRange a.start a.end_ := by
    rw [← vmaRangeValid_iff]
    by_contra hv
    simp [insertArea,hv] at hz
  rcases insertArea_spec hs hv with ⟨hins,hsorted,-⟩ | ⟨hnone,-⟩
  · rwa [← Option.some.inj (hins.symm.trans hz)]
  · simp [hnone] at hz

/-- What a successful call does to the lists of areas. -/
def Effect (before after : Nat → List Area) : Call → Prop
  | .insert _ head a => ∃ l ∈ head, ∃ xs ys, before l = xs ++ ys ∧
      after = Function.update before l (xs ++ a :: ys)
  | .remove _ head start end_ => ∃ l ∈ head,
      after = Function.update before l (removeRange start end_ (before l))
  | .copyList _ dst src => ∃ l ∈ dst, after = Function.update before l (src.elim [] before)
  | .clear head => after = head.elim before fun l => Function.update before l []

/-- The call returns, and the lists are consistent again. A failing call has changed nothing. -/
def Answers (s : Store) (ls : Nat → List (Haddr × Area)) (c : Call) : Prop :=
  ∃ b s' ls', call s c = some (b, s') ∧ Consistent s' ls' ∧
    (b = true → Effect (areas ∘ ls) (areas ∘ ls') c) ∧ (b = false → s' = s)

theorem Consistent.fails {c : Call} (hc : Consistent s ls) (h : call s c=some (false, s)) :
    Answers s ls c :=
  ⟨false,s,ls,h,hc,Bool.noConfusion,fun _ => rfl⟩

theorem Consistent.succeeds {c : Call} {s' : Store} {l : Nat} {zs : List (Haddr × Area)}
    (hc : Consistent s ls) (h : call s c=some (true, s'))
    (hr : Represents s' (Function.update ls l zs)) (hz : Sorted (areas zs))
    (heffect : Effect (areas ∘ ls) (Function.update (areas ∘ ls) l (areas zs)) c) :
    Answers s ls c := by
  refine ⟨true,s',_,h,hc.update hr hz,fun _ => ?_,Bool.noConfusion⟩
  rwa [Function.comp_update]

theorem call_consistent (hc : Consistent s ls) (c : Call) : Answers s ls c := by
  cases c with
  | insert answer head area =>
    cases head with
    | none => exact hc.fails rfl
    | some l =>
      rcases vmaInsert_spec hc.represents l answer area with
        ⟨hrun,-⟩ | ⟨p,s',xs,ys,hrun,-,hl,-,hr,hins,-⟩
      · exact hc.fails hrun
      · refine hc.succeeds hrun hr (insertArea_sorted (hc.sorted l) hins)
          ⟨l,rfl,areas xs,areas ys,?_,?_⟩
        · rw [Function.comp_apply,hl,areas_append]
        · rw [areas_append,areas_cons]
  | remove answer head start end_ =>
    cases head with
    | none => exact hc.fails rfl
    | some l =>
      rcases vmaRemove_spec hc.represents l answer start end_ with
        ⟨hrun,-⟩ | ⟨s',zs,hrun,hv,hr,hz,-⟩
      · exact hc.fails hrun
      · refine hc.succeeds hrun hr (hz ▸ (hc.sorted l).removeRange hv) ⟨l,rfl,?_⟩
        rw [hz,Function.comp_apply]
  | copyList answers dst src =>
    cases dst with
    | none => exact hc.fails rfl
    | some dst =>
      rcases vmaCopyList_spec hc.represents answers dst src fun l _ => hc.sorted l with
        hrun | ⟨s',zs,hrun,hr,hz,-⟩
      · exact hc.fails hrun
      · refine hc.succeeds hrun hr ?_ ⟨dst,rfl,?_⟩
        · rw [hz]
          cases src with
          | none => exact ⟨by simp,.nil⟩
          | some src => exact hc.sorted src
        · rw [hz]
          rfl
  | clear head =>
    cases head with
    | none => exact ⟨true,s,ls,rfl,hc,fun _ => rfl,Bool.noConfusion⟩
    | some l =>
      obtain ⟨s',hrun,-,hr⟩ := vmaClear_spec hc.represents l
      exact hc.succeeds (by simp [call,hrun]) hr ⟨by simp,.nil⟩ rfl

/-- Where the allocation succeeds, a valid range is inserted exactly when it shares no address with
an area of the list. -/
theorem vmaInsert_succeeds_iff (hc : Consistent s ls) (l : Nat) {answer : SlabAnswer} {a : Area}
    (hg : Grants answer s) (hv : ValidRange a.start a.end_) :
    ∃ b s', vmaInsert answer (some l) a s=some (b, s') ∧
      (b=true ↔ ∀ c∈areas (ls l), ∀ x, c.Covers x → ¬ a.Covers x) := by
  rcases vmaInsert_spec hc.represents l answer a with
    ⟨hrun,hnot⟩ | ⟨p,s',xs,ys,hrun,-,-,-,-,hins,-⟩
  · refine ⟨false,s,hrun,?_⟩
    rcases insertArea_spec (hc.sorted l) hv with ⟨hins,-⟩ | ⟨-,b,hb,x,hbx,hax⟩
    · exact absurd ⟨hg,_,hins⟩ hnot
    · simp only [Bool.false_eq_true,false_iff]
      exact fun h => h b hb x hbx hax
  · refine ⟨true,s',hrun,?_⟩
    rcases insertArea_spec (hc.sorted l) hv with ⟨-,-,hdisj⟩ | ⟨hnone,-⟩
    · simpa using hdisj
    · simp [hnone] at hins

theorem run_consistent (calls : List Call) :
    ∃ s, run step .empty calls=some s ∧ ∃ ls, Consistent s ls := by
  refine run_invariant (fun s => ∃ ls, Consistent s ls) ?_
    ⟨_,.empty,fun _ => ⟨by simp,.nil⟩⟩ (permitted_of_forall (fun _ _ => True.intro) calls)
  rintro s c ⟨ls,hc⟩ -
  obtain ⟨b,s',ls',hrun,hc',-,-⟩ := call_consistent hc c
  exact ⟨s',by simp [step,hrun],ls',hc'⟩

/-- After every history the lists are sorted and well linked, insertion succeeds exactly on free
ranges, successful calls have their effect on the lists, and failing calls change nothing. -/
theorem vma_lists_consistent (calls : List Call) :
    ∃ s, run step .empty calls = some s ∧ ∃ ls, Consistent s ls ∧
      (∀ l answer a, Grants answer s → ValidRange a.start a.end_ →
        ∃ b s', vmaInsert answer (some l) a s = some (b, s') ∧
          (b = true ↔ ∀ c ∈ areas (ls l), ∀ x, c.Covers x → ¬ a.Covers x)) ∧
      ∀ c, ∃ b s' ls', call s c = some (b, s') ∧ Consistent s' ls' ∧
        (b = true → Effect (areas ∘ ls) (areas ∘ ls') c) ∧ (b = false → s' = s) := by
  obtain ⟨s,hrun,ls,hc⟩ := run_consistent calls
  exact ⟨s,hrun,ls,hc,fun l answer a hg hv => vmaInsert_succeeds_iff hc l hg hv,call_consistent hc⟩

end Hojicha.Vma
