import Mathlib.Tactic

/-!
# Doubly linked lists in a heap of nodes

`Linked` is a segment of such a list, entered from a given predecessor. A traversal that
dereferences a pointer without a node is `none`.
-/

namespace Hojicha.Framework

structure Node (P D : Type*) where
  data : D
  next : P
  prev : P

abbrev NodeHeap (P D : Type*) := P → Option (Node P D)

variable {P D : Type*}

def ptrs (xs : List (P × D)) : List P := xs.map Prod.fst

/-- The last pointer of a segment, or the pointer in front of an empty one. -/
def lastPtr (before : P) : List (P × D) → P
  | [] => before
  | (q, _) :: xs => lastPtr q xs

/-- The nodes `xs` linked in both directions, from `first` to the link `after` behind them. -/
def Linked (m : NodeHeap P D) : P → P → List (P × D) → P → Prop
  | _, first, [], after => first = after
  | before, first, (q, d) :: xs, after =>
    first = q ∧ ∃ r, m q = some ⟨d, r, before⟩ ∧ Linked m q r xs after

section Segments

variable {m m' : NodeHeap P D} {b f a : P} {xs ys : List (P × D)}

@[simp] theorem ptrs_nil : ptrs ([] : List (P × D))=[] := rfl

@[simp] theorem ptrs_cons (q : P × D) (xs : List (P × D)) : ptrs (q::xs)=q.1::ptrs xs := rfl

@[simp] theorem ptrs_append (xs ys : List (P × D)) : ptrs (xs++ys)=ptrs xs++ptrs ys := by
  simp [ptrs]

@[simp] theorem lastPtr_concat (b : P) (xs : List (P × D)) (q : P × D) :
    lastPtr b (xs++[q])=q.1 := by
  induction xs generalizing b with
  | nil => rfl
  | cons p xs ih => exact ih p.1

@[simp] theorem linked_nil : Linked m b f [] a ↔ f=a := Iff.rfl

@[simp] theorem linked_cons {q : P × D} :
    Linked m b f (q::xs) a ↔ f=q.1 ∧ ∃ r, m q.1=some ⟨q.2, r, b⟩ ∧ Linked m q.1 r xs a :=
  Iff.rfl

theorem linked_append :
    Linked m b f (xs++ys) a ↔ ∃ c, Linked m b f xs c ∧ Linked m (lastPtr b xs) c ys a := by
  induction xs generalizing b f with
  | nil => simp [lastPtr]
  | cons q xs ih =>
    simp only [List.cons_append,linked_cons,lastPtr,ih]
    constructor
    · rintro ⟨hf,r,hq,c,hxs,hys⟩
      exact ⟨c,⟨hf,r,hq,hxs⟩,hys⟩
    · rintro ⟨c,⟨hf,r,hq,hxs⟩,hys⟩
      exact ⟨hf,r,hq,c,hxs,hys⟩

theorem linked_concat {q : P × D} :
    Linked m b f (xs++[q]) a ↔
      Linked m b f xs q.1 ∧ m q.1=some ⟨q.2, a, lastPtr b xs⟩ := by
  rw [linked_append]
  constructor
  · rintro ⟨c,hxs,rfl,r,hq,rfl⟩
    exact ⟨hxs,hq⟩
  · rintro ⟨hxs,hq⟩
    exact ⟨q.1,hxs,rfl,a,hq,rfl⟩

section

variable (h : Linked m b f xs a)
include h

theorem Linked.congr (hm : ∀ q∈ptrs xs, m' q=m q) : Linked m' b f xs a := by
  induction xs generalizing b f with
  | nil => exact h
  | cons q xs ih =>
    obtain ⟨hf,r,hq,hxs⟩ := h
    refine ⟨hf,r,?_,ih hxs fun p hp => hm p (by simp [hp])⟩
    rw [hm q.1 (by simp),hq]

theorem Linked.node {q : P × D} (hq : q∈xs) : ∃ n, m q.1=some n ∧ n.data=q.2 := by
  induction xs generalizing b f with
  | nil => simp at hq
  | cons p xs ih =>
    obtain ⟨-,r,hp,hxs⟩ := h
    rcases List.mem_cons.mp hq with rfl | hq
    · exact ⟨_,hp,rfl⟩
    · exact ih hxs hq

theorem Linked.next_mem {q : P} (hq : q∈ptrs xs) {n : Node P D}
    (hn : m q=some n) : n.next∈ptrs xs ∨ n.next=a := by
  induction xs generalizing b f with
  | nil => simp at hq
  | cons p xs ih =>
    obtain ⟨-,r,hp,hxs⟩ := h
    rcases List.mem_cons.mp hq with rfl | hq
    · obtain rfl : _=n := Option.some.inj (hp.symm.trans hn)
      cases xs with
      | nil => exact .inr hxs
      | cons p' xs => exact .inl (by simp [hxs.1])
    · exact (ih hxs hq).imp_left fun h => List.mem_cons_of_mem _ h

theorem Linked.first_eq : f=((ptrs xs).head?).getD a := by
  cases xs with
  | nil => exact h
  | cons q xs => exact h.1

end

end Segments

section Walk

variable [DecidableEq P]

/-- `while (p != null && cond(*p)) p = link(*p)`, for at most `fuel` nodes. -/
def walk (m : NodeHeap P D) (null : P) (link : Node P D → P) (cond : Node P D → Bool) :
    Nat → P → Option P
  | 0, _ => none
  | fuel + 1, p =>
    if p = null then some null
    else (m p).bind fun n => if cond n then walk m null link cond fuel (link n) else some p

/-- `while (p != null && cond(*p)) { last = p; p = p->next }`: the last node passed. -/
def walkLast (m : NodeHeap P D) (null : P) (cond : Node P D → Bool) : Nat → P → P → Option P
  | 0, _, _ => none
  | fuel + 1, last, p =>
    if p = null then some last
    else (m p).bind fun n =>
      if cond n then walkLast m null cond fuel p n.next else some last

variable {m : NodeHeap P D} {null b f p : P} {cond : Node P D → Bool} {xs ys : List (P × D)}
  {fuel : Nat}

section

variable (h : Linked m b f xs p) (hfuel : xs.length < fuel) (hnull : null ∉ ptrs xs)
  (hcond : ∀ q ∈ ptrs xs, ∀ n, m q = some n → cond n = true)
  (hstop : p = null ∨ ∃ n, m p = some n ∧ cond n = false)
include h hfuel hnull hcond hstop

/-- A walk along a segment whose nodes all satisfy the condition ends at the first node that does
not, or at the null pointer. -/
theorem walk_linked : walk m null Node.next cond fuel f=some p := by
  induction xs generalizing b f fuel with
  | nil =>
    obtain ⟨fuel,rfl⟩ := Nat.exists_eq_succ_of_ne_zero (Nat.ne_of_gt hfuel)
    obtain rfl : f=p := h
    rcases hstop with rfl | ⟨n,hn,hc⟩
    · simp [walk]
    · by_cases hp : f=null
      · simp [walk,hp]
      · simp [walk,hp,hn,hc]
  | cons q xs ih =>
    obtain ⟨fuel,rfl⟩ := Nat.exists_eq_succ_of_ne_zero (Nat.ne_of_gt (Nat.zero_lt_of_lt hfuel))
    obtain ⟨rfl,r,hq,hxs⟩ := h
    simp only [ptrs_cons,List.mem_cons,not_or,forall_eq_or_imp] at hnull hcond
    have hrest := ih hxs (by simpa using hfuel) hnull.2 hcond.2
    simp [walk,Ne.symm hnull.1,hq,hcond.1 _ hq,hrest]

theorem walkLast_linked : walkLast m null cond fuel b f=some (lastPtr b xs) := by
  induction xs generalizing b f fuel with
  | nil =>
    obtain ⟨fuel,rfl⟩ := Nat.exists_eq_succ_of_ne_zero (Nat.ne_of_gt hfuel)
    obtain rfl : f=p := h
    rcases hstop with rfl | ⟨n,hn,hc⟩
    · simp [walkLast,lastPtr]
    · simp [walkLast,lastPtr,hn,hc]
  | cons q xs ih =>
    obtain ⟨fuel,rfl⟩ := Nat.exists_eq_succ_of_ne_zero (Nat.ne_of_gt (Nat.zero_lt_of_lt hfuel))
    obtain ⟨rfl,r,hq,hxs⟩ := h
    simp only [ptrs_cons,List.mem_cons,not_or,forall_eq_or_imp] at hnull hcond
    have hrest := ih hxs (by simpa using hfuel) hnull.2 hcond.2
    simp [walkLast,lastPtr,Ne.symm hnull.1,hq,hcond.1 _ hq,hrest]

end

/-- The same walk back from the end of a segment `xs ++ ys` that starts behind the null pointer: it
passes the nodes `ys`. -/
theorem walk_back (h : Linked m null f (xs++ys) p) (hfuel : ys.length<fuel)
    (hnull : null∉ptrs (xs++ys)) (hcond : ∀ q∈ptrs ys, ∀ n, m q=some n → cond n=true)
    (hstop : xs=[] ∨ ∃ n, m (lastPtr null xs)=some n ∧ cond n=false) :
    walk m null Node.prev cond fuel (lastPtr null (xs++ys))=some (lastPtr null xs) := by
  induction ys using List.reverseRecOn generalizing p fuel with
  | nil =>
    obtain ⟨fuel,rfl⟩ := Nat.exists_eq_succ_of_ne_zero (Nat.ne_of_gt hfuel)
    rcases hstop with rfl | ⟨n,hn,hc⟩
    · simp [walk,lastPtr]
    · by_cases hp : lastPtr null xs=null
      · simp [walk,hp]
      · simp [walk,hp,hn,hc]
  | append_singleton ys q ih =>
    obtain ⟨fuel,rfl⟩ := Nat.exists_eq_succ_of_ne_zero (Nat.ne_of_gt (Nat.zero_lt_of_lt hfuel))
    rw [← List.append_assoc] at h hnull ⊢
    obtain ⟨hrest,hq⟩ := linked_concat.mp h
    have hlen : ys.length<fuel := by simpa using hfuel
    rw [ptrs_append,List.mem_append,not_or] at hnull
    have hq0 : q.1≠null := fun h0 => hnull.2 (by simp [← h0])
    have hback := ih hrest hlen hnull.1 fun p hp => hcond p (by simp [hp])
    rw [lastPtr_concat]
    simp [walk,hq0,hq,hcond q.1 (by simp) _ hq,hback]

end Walk

end Hojicha.Framework
