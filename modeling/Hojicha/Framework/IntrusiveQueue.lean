import Hojicha.Framework.LinkedSegment

/-!
# Queues threaded through one link per element

An element carries a single `next` link, whichever queue it is in. `Links.Holds` relates the links
to one list per queue; `0` is the null pointer.
-/

namespace Hojicha.Framework

open Function List

structure Links (ι α : Type*) where
  next : α → α
  head : ι → α
  tail : ι → α

variable {ι α : Type*}

/-- The elements met by following `next` from `p` to the null pointer, at most `fuel` of them. -/
def follow [Zero α] [DecidableEq α] (next : α → α) : Nat → α → List α
  | 0, _ => []
  | fuel + 1, p => if p = 0 then [] else p :: follow next fuel (next p)

namespace Links

variable [DecidableEq ι] [DecidableEq α] [Zero α] (l : Links ι α)

def setNext (p q : α) : Links ι α := { l with next := update l.next p q }

def setHead (i : ι) (p : α) : Links ι α := { l with head := update l.head i p }

def setTail (i : ι) (p : α) : Links ι α := { l with tail := update l.tail i p }

def toList (fuel : Nat) (i : ι) : List α := follow l.next fuel (l.head i)

def pushHead (i : ι) (p : α) : Links ι α :=
  let l' := (l.setNext p (l.head i)).setHead i p
  if l'.tail i = 0 then l'.setTail i p else l'

def pushTail (i : ι) (p : α) : Links ι α :=
  let l' := l.setNext p 0
  if l'.head i = 0 then (l'.setHead i p).setTail i p
  else (l'.setNext (l'.tail i) p).setTail i p

def popHead (i : ι) : Links ι α :=
  if l.head i = 0 then l
  else
    let p := l.head i
    let l' := l.setHead i (l.next p)
    let l'' := if l'.head i = 0 then l'.setTail i 0 else l'
    l''.setNext p 0

def insertAfter (i : ι) (a p : α) : Links ι α :=
  let l' := (l.setNext p (l.next a)).setNext a p
  if l'.tail i = a then l'.setTail i p else l'

/-- The element behind `prev`, or the first one for a null `prev`, is taken out. -/
def removeAfter (i : ι) (prev : α) : α × Links ι α :=
  if prev = 0 then (l.head i, l.popHead i)
  else
    let p := l.next prev
    if p = 0 then (0, l)
    else
      let l' := l.setNext prev (l.next p)
      let l' := if l'.tail i = p then l'.setTail i prev else l'
      (p, l'.setNext p 0)

def remove (fuel : Nat) (i : ι) (p : α) : Links ι α :=
  let xs := l.toList fuel i
  if p ∈ xs then
    -- the element the search stood at before it came to `p`
    let prev := (xs.takeWhile (· ≠ p)).getLast?.getD 0
    let l' := if prev = 0 then l.setHead i (l.next p) else l.setNext prev (l.next p)
    let l'' := if l'.tail i = p then l'.setTail i prev else l'
    l''.setNext p 0
  else l

def findLastPrefix (fuel : Nat) (i : ι) (pred : α → Bool) : α :=
  ((l.toList fuel i).takeWhile pred).getLast?.getD 0

/-- Move the elements of `src` up to `last` to the end of `dst`. -/
def splicePrefixTail (dst src : ι) (last : α) : Links ι α :=
  if l.head src = 0 ∨ last = 0 then l
  else
    let first := l.head src
    let l' := l.setHead src (l.next last)
    let l' := if l'.tail src = last then l'.setTail src 0 else l'
    let l' := l'.setNext last 0
    if l'.head dst = 0 then (l'.setHead dst first).setTail dst last
    else (l'.setNext (l'.tail dst) first).setTail dst last

/-- The queues hold these lists, and no element is in two of them. -/
structure Holds (l : Links ι α) (L : ι → List α) : Prop where
  segment : ∀ i, Segment l.next (l.head i) (L i) 0
  tail : ∀ i, l.tail i = (L i).getLast?.getD 0
  zero : ∀ i, 0 ∉ L i
  nodup : ∀ i, (L i).Nodup
  disjoint : ∀ i j a, a ∈ L i → a ∈ L j → i = j

end Links

section Follow

variable [Zero α] [DecidableEq α] {next : α → α}

theorem follow_segment {p : α} {xs : List α} {fuel : Nat} (h : Segment next p xs 0)
    (hzero : 0∉xs) (hfuel : xs.length≤fuel) : follow next fuel p=xs := by
  induction xs generalizing p fuel with
  | nil =>
    cases fuel with
    | zero => rfl
    | succ fuel => exact if_pos h
  | cons a xs ih =>
    obtain ⟨rfl,hrest⟩ := h
    obtain ⟨fuel,rfl⟩ := Nat.exists_eq_add_of_lt (Nat.lt_of_lt_of_le (Nat.succ_pos _) hfuel)
    have hp : p≠0 := fun hp => hzero (hp ▸ mem_cons_self)
    rw [Nat.zero_add,follow,if_neg hp]
    congr 1
    apply ih hrest (fun h0 => hzero (mem_cons_of_mem p h0))
    simpa using hfuel

end Follow

section Update

variable [DecidableEq ι] {L : ι → List α} {i j : ι} {a : α} {xs : List α}

theorem mem_update :
    a∈update L i xs j ↔ (j=i ∧ a∈xs) ∨ (j≠i ∧ a∈L j) := by
  by_cases hj : j=i
  · subst hj
    simp
  · simp [hj]

theorem mem_push {x : α} : a∈update L i (L i++[x]) j ↔ (j=i ∧ a=x) ∨ a∈L j := by
  rw [mem_update,mem_append,mem_singleton]
  grind

theorem ite_update_of_ne {c : Prop} [Decidable c] {f : ι → α} (hj : j≠i) :
    (if c then update f i a else f) j=f j := by
  split_ifs
  · exact update_of_ne hj _ _
  · rfl

end Update

namespace Links

variable {l l' : Links ι α} {L : ι → List α} {i j : ι} {a p : α} {xs ys : List α}

section SetNext

variable [DecidableEq α]

@[simp] theorem setNext_next (p q : α) : (l.setNext p q).next=update l.next p q := rfl
@[simp] theorem setNext_head (p q : α) : (l.setNext p q).head=l.head := rfl
@[simp] theorem setNext_tail (p q : α) : (l.setNext p q).tail=l.tail := rfl

end SetNext

section SetEnds

variable [DecidableEq ι]

@[simp] theorem setHead_next (i : ι) (p : α) : (l.setHead i p).next=l.next := rfl
@[simp] theorem setHead_head (i : ι) (p : α) :
    (l.setHead i p).head=update l.head i p := rfl
@[simp] theorem setHead_tail (i : ι) (p : α) : (l.setHead i p).tail=l.tail := rfl
@[simp] theorem setTail_next (i : ι) (p : α) : (l.setTail i p).next=l.next := rfl
@[simp] theorem setTail_head (i : ι) (p : α) : (l.setTail i p).head=l.head := rfl
end SetEnds

variable [Zero α]

section

variable (h : Holds l L)
include h

theorem Holds.tail_eq_zero : l.tail i=0 ↔ L i=[] := by
  rw [h.tail i]
  constructor
  · intro h0
    by_contra hne
    rw [getLast?_eq_some_getLast hne,Option.getD_some] at h0
    exact h.zero i (h0 ▸ getLast_mem hne)
  · intro h0
    rw [h0]
    rfl

theorem Holds.head_eq_zero : l.head i=0 ↔ L i=[] := by
  have hhead := (h.segment i).start_eq
  constructor
  · intro h0
    cases hL : L i with
    | nil => rfl
    | cons a xs =>
      rw [hL] at hhead
      refine (h.zero i ?_).elim
      rw [hL,← h0,hhead]
      exact mem_cons_self
  · intro h0
    rw [hhead,h0]
    rfl

theorem Holds.head_cons (hL : L i=a::xs) : l.head i=a := by
  have hhead := (h.segment i).start_eq
  rw [hL] at hhead
  exact hhead

theorem Holds.ne_zero (ha : a∈L i) : a≠0 := fun h0 => h.zero i (h0 ▸ ha)

theorem Holds.split (hL : L i=xs++a::ys) :
    Segment l.next (l.head i) xs a ∧ Segment l.next (l.next a) ys 0 ∧ a∉xs ∧ a∉ys := by
  have hseg := h.segment i
  have hnodup := h.nodup i
  rw [hL,segment_append] at hseg
  rw [hL,nodup_append] at hnodup
  obtain ⟨q,hxs,rfl,hys⟩ := hseg
  obtain ⟨-,hzys,hapart⟩ := hnodup
  exact ⟨hxs,hys,fun ha => hapart q ha q mem_cons_self rfl,(nodup_cons.mp hzys).1⟩

theorem Holds.ne_of_mem (hL : L i=xs++a::ys) (hj : j≠i) (hp : p∈L j) : p≠a := by
  rintro rfl
  exact hj (h.disjoint j i p hp (by rw [hL]; simp))

theorem Holds.tail_mem (hL : L i≠[]) : l.tail i∈L i := by
  rw [h.tail i,getLast?_eq_some_getLast hL,Option.getD_some]
  exact getLast_mem hL

theorem Holds.tail_eq_iff {z : α} (hL : L i=xs++z::ys) : l.tail i=z ↔ ys=[] := by
  obtain ⟨-,-,-,hz⟩ := h.split hL
  rw [h.tail i,hL,getLast?_append_of_ne_nil _ (cons_ne_nil z ys)]
  by_cases hnil : ys=[]
  · simp [hnil]
  · have hlast : ys.getLast hnil≠z := ne_of_mem_of_not_mem (getLast_mem hnil) hz
    simp [getLast?_cons,getLast?_eq_some_getLast hnil,hnil,hlast]

/-- A segment goes on behind its last element when that element's link is rewritten. -/
theorem Holds.extend {next' : α → α} {q : α} (hL : L i≠[])
    (hsame : ∀ a∈L i, a≠l.tail i → next' a=l.next a) (hq : next' (l.tail i)=q) :
    Segment next' (l.head i) (L i) q := by
  obtain ⟨ys,z,hys⟩ : ∃ ys z, L i=ys++[z] :=
    ⟨(L i).dropLast,(L i).getLast hL,(dropLast_append_getLast hL).symm⟩
  have hz : l.tail i=z := by rw [h.tail i,hys,getLast?_concat,Option.getD_some]
  have hseg := h.segment i
  have hnodup := h.nodup i
  rw [hys] at hseg hnodup ⊢
  apply hseg.redirect
  · intro a ha
    apply hsame a (by rw [hys]; exact mem_append_left _ ha)
    rw [hz]
    rintro rfl
    exact (nodup_append.mp hnodup).2.2 a ha a (mem_singleton_self a) rfl
  · rw [← hz]
    exact hq

theorem Holds.toList_eq [DecidableEq α] {fuel : Nat} (hfuel : (L i).length≤fuel) :
    l.toList fuel i=L i :=
  follow_segment (h.segment i) (h.zero i) hfuel

theorem findLastPrefix_eq [DecidableEq α] {fuel : Nat} (hfuel : (L i).length≤fuel)
    (pred : α → Bool) :
    l.findLastPrefix fuel i pred=((L i).takeWhile pred).getLast?.getD 0 := by
  rw [findLastPrefix,h.toList_eq hfuel]

end

variable [DecidableEq ι]

/-- Replace the list of one queue: the others are left alone when neither their ends nor the
links of their elements change. -/
theorem Holds.replace (h : Holds l L) {zs : List α} (hseg : Segment l'.next (l'.head i) zs 0)
    (htail : l'.tail i=zs.getLast?.getD 0) (hzero : 0∉zs) (hnodup : zs.Nodup)
    (hfrom : ∀ a∈zs, a∈L i ∨ ∀ j, a∉L j) (hhead : ∀ j, j≠i → l'.head j=l.head j)
    (htails : ∀ j, j≠i → l'.tail j=l.tail j)
    (hnext : ∀ j, j≠i → ∀ a∈L j, l'.next a=l.next a) :
    Holds l' (update L i zs) := by
  -- an element of the new list is in no other queue
  have happart : ∀ j, j≠i → ∀ a∈zs, a∉L j := by
    intro j hj a ha haj
    rcases hfrom a ha with hai | hnone
    · exact hj (h.disjoint j i a haj hai)
    · exact hnone j haj
  constructor
  · rw [forall_update_iff L fun j zs => Segment l'.next (l'.head j) zs 0]
    refine ⟨hseg,fun j hj => ?_⟩
    rw [hhead j hj]
    exact (h.segment j).congr (hnext j hj)
  · rw [forall_update_iff L fun j zs => l'.tail j=zs.getLast?.getD 0]
    refine ⟨htail,fun j hj => ?_⟩
    rw [htails j hj,h.tail]
  · exact (forall_update_iff L fun _ zs => 0∉zs).mpr ⟨hzero,fun j _ => h.zero j⟩
  · exact (forall_update_iff L fun _ zs => zs.Nodup).mpr ⟨hnodup,fun j _ => h.nodup j⟩
  · intro j k a haj hak
    rcases mem_update.mp haj with ⟨hj,haj⟩ | ⟨hj,haj⟩ <;>
      rcases mem_update.mp hak with ⟨hk,hak⟩ | ⟨hk,hak⟩
    · rw [hj,hk]
    · exact (happart k hk a haj hak).elim
    · exact (happart j hj a hak haj).elim
    · exact h.disjoint j k a haj hak

theorem Holds.append (h : Holds l L) (first last : α) (hne : xs≠[])
    (hseg : Segment l'.next first xs 0) (hlast : xs.getLast? = some last) (hzero : 0∉xs)
    (hnodup : xs.Nodup) (hout : ∀ a∈xs, ∀ j, a∉L j)
    (hhead : l'.head=if L i=[] then update l.head i first else l.head)
    (htail : l'.tail=update l.tail i last)
    (hlink : L i≠[] → l'.next (l.tail i)=first)
    (hnext : ∀ j, ∀ a∈L j, a≠l.tail i → l'.next a=l.next a) :
    Holds l' (update L i (L i++xs)) := by
  apply h.replace
  · rw [segment_append]
    refine ⟨first,?_,hseg⟩
    rw [hhead]
    split_ifs with hL
    · rw [update_self,hL]
      rfl
    · exact h.extend hL (hnext i) (hlink hL)
  · rw [htail,update_self,getLast?_append_of_ne_nil _ hne,hlast]
    rfl
  · intro h0
    rcases mem_append.mp h0 with h0 | h0
    · exact h.zero i h0
    · exact hzero h0
  · apply nodup_append.mpr
    refine ⟨h.nodup i,hnodup,?_⟩
    rintro a ha b hb rfl
    exact hout a hb i ha
  · intro a ha
    rcases mem_append.mp ha with ha | ha
    · exact Or.inl ha
    · exact Or.inr (hout a ha)
  · intro j hj
    rw [hhead,ite_update_of_ne hj]
  · intro j hj
    rw [htail,update_of_ne hj]
  · intro j hj a ha
    by_cases hL : L i=[]
    · -- the tail of an empty queue is null, which is in no queue
      refine hnext j a ha fun hat => ?_
      rw [h.tail_eq_zero.mpr hL] at hat
      exact h.ne_zero ha hat
    · refine hnext j a ha fun hat => hj (h.disjoint j i a ha ?_)
      rw [hat]
      exact h.tail_mem hL

variable [DecidableEq α]

theorem Holds.pushHead (h : Holds l L) (hp0 : p≠0) (hp : ∀ j, p∉L j) (i : ι) :
    Holds (l.pushHead i p) (update L i (p::L i)) := by
  have hnext : (l.pushHead i p).next=update l.next p (l.head i) := by
    rw [Links.pushHead]
    split_ifs <;> rfl
  have hhead : (l.pushHead i p).head=update l.head i p := by
    rw [Links.pushHead]
    split_ifs <;> rfl
  have htail : (l.pushHead i p).tail
      = if L i=[] then update l.tail i p else l.tail := by
    rw [Links.pushHead]
    rw [setHead_tail,setNext_tail,apply_ite Links.tail]
    simp only [h.tail_eq_zero]
    rfl
  apply h.replace
  · rw [hhead,update_self,hnext]
    refine ⟨rfl,?_⟩
    rw [update_self]
    exact (h.segment i).congr fun a ha =>
      update_of_ne (ne_of_mem_of_not_mem ha (hp i)) _ _
  · rw [htail]
    split_ifs with hL
    · rw [update_self,hL]
      rfl
    · rw [getLast?_cons,Option.getD_some,h.tail i]
      rw [getLast?_eq_some_getLast hL]
      rfl
  · simpa [hp0.symm] using h.zero i
  · exact nodup_cons.mpr ⟨hp i,h.nodup i⟩
  · intro a ha
    rcases mem_cons.mp ha with rfl | ha
    · exact Or.inr hp
    · exact Or.inl ha
  · intro j hj
    rw [hhead,update_of_ne hj]
  · intro j hj
    rw [htail,ite_update_of_ne hj]
  · intro j hj a ha
    rw [hnext]
    exact update_of_ne (ne_of_mem_of_not_mem ha (hp j)) _ _

theorem Holds.pushTail (h : Holds l L) (hp0 : p≠0) (hp : ∀ j, p∉L j) (i : ι) :
    Holds (l.pushTail i p) (update L i (L i++[p])) := by
  by_cases hL : L i=[]
  · have hpush : l.pushTail i p=((l.setNext p 0).setHead i p).setTail i p := by
      rw [Links.pushTail]
      rw [setNext_head,if_pos (h.head_eq_zero.mpr hL)]
    apply h.append p p (cons_ne_nil p [])
    · rw [hpush]
      exact ⟨rfl,update_self _ _ _⟩
    · rfl
    · simpa using hp0.symm
    · exact nodup_singleton p
    · intro a ha j
      rw [mem_singleton.mp ha]
      exact hp j
    · rw [hpush,if_pos hL]
      rfl
    · rw [hpush]
      rfl
    · exact fun hne => (hne hL).elim
    · intro j a ha _
      rw [hpush]
      exact update_of_ne (ne_of_mem_of_not_mem ha (hp j)) _ _
  · have hpush : l.pushTail i p=((l.setNext p 0).setNext (l.tail i) p).setTail i p := by
      rw [Links.pushTail]
      rw [setNext_head,if_neg (fun h0 => hL (h.head_eq_zero.mp h0))]
      rfl
    have htp : p≠l.tail i := fun hpt => hp i (hpt ▸ h.tail_mem hL)
    apply h.append p p (cons_ne_nil p [])
    · rw [hpush]
      refine ⟨rfl,?_⟩
      rw [setTail_next,setNext_next,update_of_ne htp]
      exact update_self _ _ _
    · rfl
    · simpa using hp0.symm
    · exact nodup_singleton p
    · intro a ha j
      rw [mem_singleton.mp ha]
      exact hp j
    · rw [hpush,if_neg hL]
      rfl
    · rw [hpush]
      rfl
    · intro _
      rw [hpush]
      exact update_self _ _ _
    · intro j a ha hat
      rw [hpush,setTail_next,setNext_next,update_of_ne hat]
      exact update_of_ne (ne_of_mem_of_not_mem ha (hp j)) _ _

theorem Holds.dropFront (h : Holds l L) {z : α} (hL : L i=xs++z::ys)
    (hhead : l'.head=update l.head i (l.next z))
    (htail : l'.tail=if ys=[] then update l.tail i 0 else l.tail)
    (hnext : l'.next=update l.next z 0) :
    Holds l' (update L i ys) ∧ Segment l'.next (l.head i) (xs++[z]) 0 := by
  obtain ⟨hxs,hys,hzxs,hzys⟩ := h.split hL
  have hnodup := h.nodup i
  rw [hL] at hnodup
  constructor
  · apply h.replace
    · rw [hhead,update_self,hnext]
      exact hys.congr fun a ha => update_of_ne (ne_of_mem_of_not_mem ha hzys) _ _
    · rw [htail]
      split_ifs with hys
      · rw [update_self,hys]
        rfl
      · rw [h.tail i,hL,getLast?_append_of_ne_nil _ (cons_ne_nil z ys),getLast?_cons_of_ne_nil hys]
    · intro h0
      apply h.zero i
      rw [hL]
      simp [h0]
    · exact (nodup_cons.mp (nodup_append.mp hnodup).2.1).2
    · intro a ha
      left
      rw [hL]
      simp [ha]
    · intro j hj
      rw [hhead,update_of_ne hj]
    · intro j hj
      rw [htail,ite_update_of_ne hj]
    · intro j hj a ha
      rw [hnext]
      exact update_of_ne (h.ne_of_mem hL hj ha) _ _
  · rw [segment_concat,hnext,update_self]
    exact ⟨hxs.congr fun a ha => update_of_ne (ne_of_mem_of_not_mem ha hzxs) _ _,rfl⟩

theorem Holds.popHead (h : Holds l L) (hL : L i=p::xs) :
    Holds (l.popHead i) (update L i xs) := by
  have hp : l.head i=p := h.head_cons hL
  have hp0 : p≠0 := h.ne_zero (by rw [hL]; exact mem_cons_self)
  -- the new head is null exactly when nothing is left
  have hrest : l.next p=0 ↔ xs=[] := by
    have hseg := h.segment i
    rw [hL] at hseg
    have hstart := hseg.2.start_eq
    cases hxs : xs with
    | nil => simp [hstart,hxs]
    | cons b ys =>
      have hb : b≠0 := h.ne_zero (by rw [hL,hxs]; simp)
      simp [hstart,hxs,hb]
  have hpop : l.popHead i=if xs=[] then ((l.setHead i (l.next p)).setTail i 0).setNext p 0
      else (l.setHead i (l.next p)).setNext p 0 := by
    rw [Links.popHead,if_neg (hp ▸ hp0),hp]
    simp only [setHead_head,update_self,hrest]
    split_ifs <;> rfl
  have hfront : L i=[]++p::xs := hL
  refine (h.dropFront hfront ?_ ?_ ?_).1
  · rw [hpop]
    split_ifs <;> rfl
  · rw [hpop]
    split_ifs <;> rfl
  · rw [hpop]
    split_ifs <;> rfl

omit [Zero α] [DecidableEq α] in
theorem perm_behind (xs ys : List α) (z p : α) :
    List.Perm (xs++z::p::ys) (p::(xs++z::ys)) := by
  rw [show xs++z::p::ys=(xs++[z])++p::ys by simp,
    show xs++z::ys=(xs++[z])++ys by simp]
  exact perm_middle

section

variable (h : Holds l L)
include h

theorem Holds.insertAfter (hL : L i=xs++a::ys) (hp0 : p≠0)
    (hp : ∀ j, p∉L j) : Holds (l.insertAfter i a p) (update L i (xs++a::p::ys)) := by
  obtain ⟨hxs,hys,haxs,hays⟩ := h.split hL
  have hpi := hp i
  have hzero := h.zero i
  rw [hL] at hpi hzero
  have hpa : p≠a := fun hpa => hpi (by simp [hpa])
  have hnext : (l.insertAfter i a p).next
      = update (update l.next p (l.next a)) a p := by
    rw [Links.insertAfter]
    split_ifs <;> rfl
  have hhead : (l.insertAfter i a p).head=l.head := by
    rw [Links.insertAfter]
    split_ifs <;> rfl
  have htail : (l.insertAfter i a p).tail
      = if ys=[] then update l.tail i p else l.tail := by
    rw [Links.insertAfter,apply_ite Links.tail]
    simp only [setNext_tail,h.tail_eq_iff hL]
    rfl
  -- neither the element nor its successor's place is among the others
  have hother : ∀ b, b≠p → b≠a →
      update (update l.next p (l.next a)) a p b=l.next b := by
    intro b hbp hba
    rw [update_of_ne hba,update_of_ne hbp]
  apply h.replace
  · rw [hhead,hnext,segment_append]
    refine ⟨a,hxs.congr fun b hb => hother b ?_ (ne_of_mem_of_not_mem hb haxs),rfl,?_,?_⟩
    · exact ne_of_mem_of_not_mem (mem_append_left _ hb) hpi
    · rw [update_self]
    · rw [update_of_ne hpa,update_self]
      refine hys.congr fun b hb => hother b ?_ (ne_of_mem_of_not_mem hb hays)
      exact ne_of_mem_of_not_mem (mem_append_right _ (mem_cons_of_mem a hb)) hpi
  · rw [htail]
    split_ifs with hnil
    · rw [update_self,hnil]
      simp
    · rw [h.tail i,hL]
      simp [getLast?_append,getLast?_cons,getLast?_eq_some_getLast hnil]
  · simp only [mem_append,mem_cons] at hzero ⊢
    tauto
  · rw [(perm_behind xs ys a p).nodup_iff,nodup_cons,← hL]
    exact ⟨hp i,h.nodup i⟩
  · intro b hb
    by_cases hbp : b=p
    · subst hbp
      exact Or.inr hp
    · left
      rw [hL]
      simp only [mem_append,mem_cons] at hb ⊢
      tauto
  · intro j _
    rw [hhead]
  · intro j hj
    rw [htail,ite_update_of_ne hj]
  · intro j hj b hb
    rw [hnext]
    exact hother b (ne_of_mem_of_not_mem hb (hp j)) (h.ne_of_mem hL hj hb)

theorem Holds.unlink {z : α} (hL : L i=xs++z::p::ys) (hhead : l'.head=l.head)
    (htail : l'.tail=if ys=[] then update l.tail i z else l.tail)
    (hnext : l'.next=update (update l.next z (l.next p)) p 0) :
    Holds l' (update L i (xs++z::ys)) := by
  obtain ⟨hxs,⟨-,hys⟩,hzxs,hzys⟩ := h.split hL
  have hperm := perm_behind xs ys z p
  have hnodup := h.nodup i
  rw [hL,hperm.nodup_iff] at hnodup
  obtain ⟨hpout,hnodup'⟩ := nodup_cons.mp hnodup
  have hzp : z≠p := fun hzp => hzys (by simp [hzp])
  have hL' : L i=(xs++[z])++p::ys := by rw [hL]; simp
  have hother : ∀ b, b≠p → b≠z → l'.next b=l.next b := by
    intro b hbp hbz
    rw [hnext,update_of_ne hbp,update_of_ne hbz]
  apply h.replace
  · rw [hhead,segment_append]
    refine ⟨z,hxs.congr fun b hb => hother b ?_ (ne_of_mem_of_not_mem hb hzxs),rfl,?_⟩
    · exact ne_of_mem_of_not_mem (mem_append_left _ hb) hpout
    · rw [hnext,update_of_ne hzp,update_self,← hnext]
      refine hys.congr fun b hb => hother b ?_ ?_
      · exact ne_of_mem_of_not_mem (mem_append_right _ (mem_cons_of_mem z hb)) hpout
      · exact ne_of_mem_of_not_mem (mem_cons_of_mem p hb) hzys
  · rw [htail]
    split_ifs with hnil
    · rw [update_self,hnil]
      simp
    · rw [h.tail i,hL]
      simp [getLast?_append,getLast?_cons,getLast?_eq_some_getLast hnil]
  · intro h0
    apply h.zero i
    rw [hL]
    exact hperm.symm.subset (mem_cons_of_mem p h0)
  · exact hnodup'
  · intro b hb
    left
    rw [hL]
    exact hperm.symm.subset (mem_cons_of_mem p hb)
  · intro j _
    rw [hhead]
  · intro j hj
    rw [htail,ite_update_of_ne hj]
  · intro j hj b hb
    exact hother b (h.ne_of_mem hL' hj hb) (h.ne_of_mem hL hj hb)

theorem Holds.remove {fuel : Nat} (hfuel : (L i).length≤fuel) (hp : p∈L i) :
    Holds (l.remove fuel i p) (update L i ((L i).erase p)) := by
  obtain ⟨xs,ys,hL⟩ := append_of_mem hp
  obtain ⟨-,-,hpxs,-⟩ := h.split hL
  have herase : (L i).erase p=xs++ys := by
    rw [hL,erase_append_right _ hpxs,erase_cons_head]
  have hbefore : (L i).takeWhile (· ≠ p)=xs := by
    rw [hL,takeWhile_append_of_pos]
    · simp
    · intro a ha
      exact decide_eq_true (ne_of_mem_of_not_mem ha hpxs)
  rw [herase,Links.remove,h.toList_eq hfuel,if_pos hp,hbefore]
  cases xs using List.reverseRec with
  | nil =>
    refine (h.dropFront hL ?_ ?_ ?_).1
    · simp only [getLast?_nil,Option.getD_none,if_true]
      split_ifs <;> rfl
    · simp only [getLast?_nil,Option.getD_none,if_true,setHead_tail,h.tail_eq_iff hL]
      split_ifs <;> rfl
    · simp only [getLast?_nil,Option.getD_none,if_true]
      split_ifs <;> rfl
  | append_singleton ws z =>
    have hz : z≠0 := h.ne_zero (by rw [hL]; simp)
    have hL' : L i=ws++z::p::ys := by rw [hL]; simp
    rw [show ws++[z]++ys=ws++z::ys by simp]
    simp only [getLast?_concat,Option.getD_some,if_neg hz,setNext_tail,h.tail_eq_iff hL]
    apply h.unlink hL'
    · split_ifs <;> rfl
    · split_ifs <;> rfl
    · split_ifs <;> rfl

theorem Holds.removeAfter (hL : L i=xs++a::ys) :
    (l.removeAfter i a).1=ys.headD 0 ∧
      Holds (l.removeAfter i a).2 (update L i (xs++a::ys.tail)) ∧
      (ys≠[] → (l.removeAfter i a).2.next (ys.headD 0)=0) := by
  obtain ⟨-,hys,-,-⟩ := h.split hL
  have ha0 : a≠0 := h.ne_zero (by rw [hL]; simp)
  rw [Links.removeAfter,if_neg ha0]
  dsimp only
  cases ys with
  | nil =>
    rw [if_pos (show l.next a=0 from hys)]
    refine ⟨rfl,?_,fun hne => (hne rfl).elim⟩
    rw [List.tail_nil,← hL,update_eq_self]
    exact h
  | cons p ys =>
    have hp0 : p≠0 := h.ne_zero (by rw [hL]; simp)
    have hL' : L i=(xs++[a])++p::ys := by rw [hL]; simp
    rw [show l.next a=p from hys.1,if_neg hp0]
    simp only [setNext_tail,h.tail_eq_iff hL',List.tail_cons]
    refine ⟨rfl,h.unlink hL ?_ ?_ ?_,fun _ => update_self _ _ _⟩
    · split_ifs <;> rfl
    · split_ifs <;> rfl
    · split_ifs <;> rfl

theorem Holds.splicePrefixTail {z : α} (hij : j≠i) (hL : L i=xs++z::ys) :
    Holds (l.splicePrefixTail j i z)
      (update (update L i ys) j (L j++(xs++[z]))) := by
  have hz0 : z≠0 := h.ne_zero (by rw [hL]; simp)
  have hhead0 : l.head i≠0 := by
    rw [Ne,h.head_eq_zero,hL]
    simp
  -- the source without its front, and the front by itself
  let m : Links ι α := ⟨update l.next z 0,update l.head i (l.next z),
    if ys=[] then update l.tail i 0 else l.tail⟩
  obtain ⟨hm,hfront⟩ : Holds m (update L i ys) ∧
      Segment m.next (l.head i) (xs++[z]) 0 := h.dropFront hL rfl rfl rfl
  have hLj : update L i ys j=L j := update_of_ne hij _ _
  have hjm : m.head j=0 ↔ L j=[] := by rw [hm.head_eq_zero,hLj]
  have hsplice : l.splicePrefixTail j i z
      = if L j=[] then (m.setHead j (l.head i)).setTail j z
        else (m.setNext (m.tail j) (l.head i)).setTail j z := by
    rw [Links.splicePrefixTail,if_neg (by tauto)]
    simp only [setHead_tail,h.tail_eq_iff hL]
    simp only [← hjm]
    by_cases hnil : ys=[]
    · simp only [m,hnil,if_true]
      rfl
    · simp only [m,hnil,if_false]
      rfl
  have hnodup : (xs++z::ys).Nodup := hL ▸ h.nodup i
  have hnodup' : ((xs++[z])++ys).Nodup := by simpa using hnodup
  -- the front is in no queue any more
  have hout : ∀ a∈xs++[z], ∀ k, a∉update L i ys k := by
    intro a ha k
    have hai : a∈L i := by
      rw [hL]
      simp only [mem_append,mem_cons] at ha ⊢
      tauto
    by_cases hk : k=i
    · subst hk
      rw [update_self]
      exact fun hays => (nodup_append.mp hnodup').2.2 a ha a hays rfl
    · rw [update_of_ne hk]
      exact fun hak => hk (h.disjoint k i a hak hai)
  have happ : update (update L i ys) j (L j++(xs++[z]))
      = update (update L i ys) j (update L i ys j++(xs++[z])) := by
    rw [hLj]
  rw [happ,hsplice]
  apply hm.append (l.head i) z (by simp)
  · by_cases hnil : L j=[]
    · rw [if_pos hnil]
      exact hfront
    · rw [if_neg hnil]
      have htj : m.tail j∈update L i ys j := hm.tail_mem (by rwa [hLj])
      exact hfront.congr fun a ha =>
        update_of_ne (ne_of_mem_of_not_mem htj (hout a ha j)).symm _ _
  · rw [getLast?_concat]
  · intro h0
    apply h.zero i
    rw [hL]
    simp only [mem_append,mem_cons] at h0 ⊢
    tauto
  · exact (nodup_append.mp hnodup').1
  · exact hout
  · rw [hLj]
    split_ifs <;> rfl
  · split_ifs <;> rfl
  · intro hne
    rw [hLj] at hne
    rw [if_neg hne]
    exact update_self _ _ _
  · intro k a ha hat
    split_ifs
    · rfl
    · exact update_of_ne hat _ _

omit [DecidableEq ι] in
theorem Holds.setNext (hp : ∀ j, p∉L j) (q : α) : Holds (l.setNext p q) L := by
  refine ⟨?_,h.tail,h.zero,h.nodup,h.disjoint⟩
  intro j
  exact (h.segment j).congr fun a ha =>
    update_of_ne (ne_of_mem_of_not_mem ha (hp j)) _ _

omit [DecidableEq α] in
theorem Holds.clear (hi : L i=[]) : (l.setHead i 0).setTail i 0=l := by
  have hhead := h.head_eq_zero.mpr hi
  have htail := h.tail_eq_zero.mpr hi
  rw [Links.setTail,Links.setHead]
  congr 1
  · rw [← hhead]
    exact update_eq_self _ _
  · rw [← htail]
    exact update_eq_self _ _

end

end Links

end Hojicha.Framework
