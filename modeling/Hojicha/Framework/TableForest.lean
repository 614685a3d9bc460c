import Hojicha.Framework.Paging

/-!
# Forests of page tables

Several roots, each of which names itself at `self`, and which name the same tables below the
indices in `shared`. `T` says which frame holds which table.
-/

namespace Hojicha.Framework.Paging

open Function Option

structure Shape where
  self : Index
  shared : Index → Bool

/-- A table, by the indices that lead to it; `space` is `none` for a shared table. -/
structure Node where
  space : Option Frame
  path : List Index
deriving DecidableEq

variable (S : Shape)

def Node.root (r : Frame) : Node := ⟨some r, []⟩

def Node.child (n : Node) (i : Index) : Node :=
  ⟨if n.path = [] ∧ S.shared i = true then none else n.space, n.path ++ [i]⟩

def Node.descend (n : Node) (is : List Index) : Node := is.foldl (Node.child S) n

/-- The `i`-th entry of the table names a table one level below. -/
def Node.Links (n : Node) (i : Index) : Prop := n.path.length < 3 ∧ ¬ (n.path = [] ∧ i = S.self)

structure Forest (m : PhysMem) (T : Node → Option Frame) : Prop where
  root {r f : Frame} : T (.root r) = some f → f = r
  rootless : T ⟨none, []⟩ = none
  link {n : Node} {f : Frame} {i : Index} : T n = some f → n.Links S i →
    T (n.child S i) = if isPresent (m f i) then some (target (m f i)) else none
  closed {n : Node} {i : Index} : T n = none → n.path ≠ [] ∨ S.shared i = false →
    T (n.child S i) = none
  label {o : Option Frame} {i : Index} {is : List Index} {f : Frame} : T ⟨o, i :: is⟩ = some f →
    is.length < 3 ∧ i ≠ S.self ∧ (o = none ↔ S.shared i = true)
  inj {n n' : Node} {f : Frame} : T n = some f → T n' = some f → n = n'
  writable {n : Node} {f : Frame} {i : Index} : T n = some f → n.Links S i →
    isPresent (m f i) = true → isWritable (m f i) = true
  self {r f : Frame} : T (.root r) = some f → isPresent (m r S.self) = true ∧
    isWritable (m r S.self) = true ∧ target (m r S.self) = r
  common {i : Index} : S.shared i = true → i ≠ S.self → ∃ f, T ⟨none, [i]⟩ = some f

variable {S} {m m' : PhysMem} {T : Node → Option Frame} {n n' : Node} {f t r : Frame} {i j : Index}
  {is : List Index} {e : Word}

@[simp]
theorem Node.child_path : (n.child S i).path=n.path++[i] := rfl

theorem Node.child_of_ne_nil (h : n.path≠[]) : n.child S i=⟨n.space, n.path++[i]⟩ := by
  simp [Node.child,h]

theorem Node.child_ne_self : n.child S i≠n := by
  intro h
  have hlen := congrArg (fun n => n.path.length) h
  simp at hlen

theorem Node.child_ne_root : n.child S i ≠ .root r := by
  intro h
  have hpath := congrArg Node.path h
  simp [Node.root] at hpath

theorem Node.child_inj (h : n.child S i=n'.child S j) (hi : n.path≠[] ∨ S.shared i=false) :
    n=n' ∧ i=j := by
  obtain ⟨o,p⟩ := n
  obtain ⟨o',p'⟩ := n'
  simp only [Node.child,Node.mk.injEq] at h
  obtain ⟨hspace,hpath⟩ := h
  obtain ⟨rfl,hij⟩ := List.append_inj' hpath rfl
  obtain rfl : i=j := by simpa using hij
  have hnot : ¬ (p=[] ∧ S.shared i=true) := by
    rintro ⟨hp,hs⟩
    rcases hi with hi | hi
    · exact hi hp
    · simp [hs] at hi
  rw [if_neg hnot,if_neg hnot] at hspace
  exact ⟨by rw [hspace],rfl⟩

@[simp]
theorem Node.descend_nil : n.descend S []=n := rfl

@[simp]
theorem Node.descend_cons : n.descend S (i::is)=(n.child S i).descend S is := rfl

theorem Node.descend_of_ne_nil (h : n.path≠[]) : n.descend S is=⟨n.space, n.path++is⟩ := by
  induction is generalizing n with
  | nil => simp
  | cons i is ih =>
    rw [descend_cons,ih (by simp),child_of_ne_nil h]
    simp

theorem Node.root_descend (r : Frame) (i : Index) (is : List Index) :
    (Node.root r).descend S (i::is)=⟨if S.shared i=true then none else some r, i::is⟩ := by
  rw [descend_cons,descend_of_ne_nil (by simp)]
  simp [Node.child,Node.root]

theorem Forest.closed_descend (is : List Index) (h : Forest S m T) (hn : T n=none)
    (hp : n.path≠[]) : T (n.descend S is)=none := by
  induction is generalizing n with
  | nil => exact hn
  | cons i is ih => exact ih (h.closed hn (.inl hp)) (by simp)

theorem Forest.follow_eq (h : Forest S m T) (hn : T n=some f)
    (hlen : n.path.length + is.length≤3) (hself : n.path=[] → is.head? ≠ some S.self) :
    follow m f is=T (n.descend S is) := by
  induction is generalizing n f with
  | nil => exact hn.symm
  | cons i is ih =>
    have hlinks : n.Links S i :=
      ⟨by simp at hlen; omega,fun ⟨hp,hi⟩ => hself hp (by simp [hi])⟩
    have hlink := h.link hn hlinks
    rw [follow,Node.descend_cons]
    split_ifs at hlink ⊢ with hpresent
    · exact ih hlink (by simp at hlen ⊢; omega) (by simp)
    · exact (h.closed_descend is hlink (by simp)).symm

theorem Forest.leadsTo (h : Forest S m T) {u : Frame} (hn : T n=some f) (hi : n.Links S i)
    (hu : T (n.child S i)=some u) : LeadsTo (m f i) u := by
  have hlink := h.link hn hi
  rw [hu] at hlink
  split_ifs at hlink with hp
  exact ⟨hp,h.writable hn hi hp,(some.inj hlink).symm⟩

theorem Forest.parent (h : Forest S m T) {u : Frame} (hu : T (n.child S i)=some u)
    (hp : n.path≠[]) : ∃ f, T n=some f := by
  cases hn : T n with
  | some f => exact ⟨f,rfl⟩
  | none => simp [h.closed hn (.inl hp)] at hu

/-- Every table of a forest can be written through the walk that leads to it. -/
theorem Forest.reaches (is : List Index) (h : Forest S m T) {u : Frame} (hn : T n=some f)
    (hlen : n.path.length + is.length≤3) (hself : n.path=[] → is.head? ≠ some S.self)
    (hu : T (n.descend S is)=some u) : Reaches m f is u := by
  induction is generalizing n f with
  | nil =>
    obtain rfl := some.inj (hn.symm.trans hu)
    exact reaches_nil m f
  | cons i is ih =>
    have hlinks : n.Links S i :=
      ⟨by simp at hlen; omega,fun ⟨hp,hi⟩ => hself hp (by simp [hi])⟩
    have hlink := h.link hn hlinks
    split_ifs at hlink with hpresent
    · exact .cons hpresent (h.writable hn hlinks hpresent)
        (ih hlink (by simp at hlen ⊢; omega) (by simp) hu)
    · rw [Node.descend_cons,h.closed_descend is hlink (by simp)] at hu
      simp at hu

section

variable (h : Forest S m T)
include h

theorem Forest.reaches_self {u : Frame} (hr : T (.root r)=some r)
    (hu : Reaches m r is u) : Reaches m r (S.self::is) u := by
  obtain ⟨hp,hw,ht⟩ := h.self hr
  exact .cons hp hw (by rwa [ht])

theorem Forest.congr (hsame : ∀ {n f i}, T n=some f → n.path.length<3 →
      isPresent (m' f i)=isPresent (m f i) ∧ (isPresent (m f i)=true →
        isWritable (m' f i)=isWritable (m f i) ∧ target (m' f i)=target (m f i))) :
    Forest S m' T where
  root := h.root
  rootless := h.rootless
  link {n f i} hn hi := by
    rw [h.link hn hi]
    obtain ⟨hp,ht⟩ := hsame (i := i) hn hi.1
    rw [hp]
    split_ifs with hpresent
    · rw [(ht hpresent).2]
    · rfl
  closed := h.closed
  label := h.label
  inj := h.inj
  writable {n f i} hn hi hp := by
    obtain ⟨hp',ht⟩ := hsame (i := i) hn hi.1
    rw [hp'] at hp
    rw [(ht hp).1,h.writable hn hi hp]
  self {r f} hr := by
    obtain rfl := h.root hr
    obtain ⟨hp,hw,ht⟩ := h.self hr
    obtain ⟨hp',ht'⟩ := hsame (i := S.self) hr (by simp [Node.root])
    rw [hp',(ht' hp).1,(ht' hp).2]
    exact ⟨hp,hw,ht⟩
  common := h.common

section

variable (hn : T n=some t) (hi : n.Links S i)
include hn hi

theorem Forest.not_shared (habsent : isPresent (m t i)=false) : n.path≠[] ∨ S.shared i=false := by
  by_contra hcon
  rw [not_or,not_not,Bool.not_eq_false] at hcon
  obtain ⟨hp,hs⟩ := hcon
  obtain ⟨f,hf⟩ := h.common hs fun hself => hi.2 ⟨hp,hself⟩
  have hchild : n.child S i=⟨none,[i]⟩ := by simp [Node.child,hp,hs]
  have hlink := h.link hn hi
  rw [hchild,hf,habsent] at hlink
  simp at hlink

theorem Forest.child_label (hns : n.path≠[] ∨ S.shared i=false) {o : Option Frame}
    (hc : n.child S i=⟨o, j::is⟩) : is.length<3 ∧ j≠S.self ∧ (o=none ↔ S.shared j=true) := by
  obtain ⟨o',p⟩ := n
  cases p with
  | nil =>
    have hs : S.shared i=false := hns.resolve_left (by simp)
    simp only [Node.child,hs,Bool.false_eq_true,and_false,if_false,List.nil_append,
      Node.mk.injEq,List.cons.injEq] at hc
    obtain ⟨rfl,rfl,rfl⟩ := hc
    refine ⟨by simp,fun hself => hi.2 ⟨rfl,hself⟩,?_⟩
    cases o' with
    | none => simp [h.rootless] at hn
    | some r => simp [hs]
  | cons k ks =>
    obtain ⟨-,hk,ho⟩ := h.label hn
    rw [Node.child_of_ne_nil (by simp)] at hc
    simp only [List.cons_append,Node.mk.injEq,List.cons.injEq] at hc
    obtain ⟨rfl,rfl,rfl⟩ := hc
    have hlen := hi.1
    simp only [List.length_cons] at hlen
    exact ⟨by simp; omega,hk,ho⟩

/-- A fresh frame becomes an empty table below an entry that was not present. -/
theorem Forest.newTable (habsent : isPresent (m t i)=false) (hfresh : ∀ n', T n'≠some f)
    (hpresent : isPresent e=true) (hwritable : isWritable e=true) (htarget : target e=f) :
    Forest S (setFrame (setWord m t i e) f fun _ => 0)
      (update T (n.child S i) (some f)) := by
  have hns := h.not_shared hn hi habsent
  have hchild : T (n.child S i)=none := by
    rw [h.link hn hi,habsent]
    rfl
  have hzero : isPresent (0 : Word)=false := by decide
  have hold {n' : Node} {g : Frame} (hn' : T n'=some g) : n'≠n.child S i := by
    rintro rfl
    simp [hchild] at hn'
  -- the entries of the other tables
  have hentry {n' : Node} {g : Frame} {j : Index} (hn' : T n'=some g) :
      setFrame (setWord m t i e) f (fun _ => 0) g j=if n'=n ∧ j=i then e else m g j := by
    have hgf : g≠f := fun hg => hfresh n' (hg ▸ hn')
    rw [setFrame_of_ne _ _ _ hgf,setWord]
    by_cases hg : g=t
    · subst hg
      simp [h.inj hn' hn]
    · have hnn : n'≠n := by
        rintro rfl
        exact hg (some.inj (hn'.symm.trans hn))
      simp [hg,hnn]
  refine
    { root := fun {r g} hr => ?_, rootless := ?_, link := fun {n' g j} hn' hj => ?_,
      closed := fun {n' j} hn' hj => ?_, label := fun {o j js g} hn' => ?_,
      inj := fun {n₁ n₂ g} h₁ h₂ => ?_, writable := fun {n' g j} hn' hj hp => ?_,
      self := fun {r g} hr => ?_, common := fun {j} hs hj => ?_ }
  · rw [update_of_ne Node.child_ne_root.symm] at hr
    exact h.root hr
  · rw [update_of_ne,h.rootless]
    intro hcon
    have := congrArg Node.path hcon
    simp at this
  · by_cases hc : n'=n.child S i
    · subst hc
      rw [update_self,some.injEq] at hn'
      subst hn'
      rw [setFrame_self,hzero,update_of_ne Node.child_ne_self]
      exact h.closed hchild (.inl (by simp))
    · rw [update_of_ne hc] at hn'
      rw [hentry hn']
      by_cases hpos : n'=n ∧ j=i
      · obtain ⟨rfl,rfl⟩ := hpos
        simp [hpresent,htarget]
      · rw [if_neg hpos,update_of_ne,h.link hn' hj]
        intro hcon
        obtain ⟨rfl,rfl⟩ := Node.child_inj hcon.symm hns
        exact hpos ⟨rfl,rfl⟩
  · have hn'c : n'≠n.child S i := by
      rintro rfl
      simp at hn'
    rw [update_of_ne hn'c] at hn'
    rw [update_of_ne,h.closed hn' hj]
    intro hcon
    obtain ⟨rfl,rfl⟩ := Node.child_inj hcon hj
    simp [hn] at hn'
  · by_cases hc : (⟨o,j::js⟩ : Node)=n.child S i
    · exact h.child_label hn hi hns hc.symm
    · rw [update_of_ne hc] at hn'
      exact h.label hn'
  · by_cases hc₁ : n₁=n.child S i <;> by_cases hc₂ : n₂=n.child S i
    · rw [hc₁,hc₂]
    · rw [hc₁,update_self,some.injEq] at h₁
      rw [update_of_ne hc₂] at h₂
      exact absurd (h₁ ▸ h₂) (hfresh n₂)
    · rw [hc₂,update_self,some.injEq] at h₂
      rw [update_of_ne hc₁] at h₁
      exact absurd (h₂ ▸ h₁) (hfresh n₁)
    · rw [update_of_ne hc₁] at h₁
      rw [update_of_ne hc₂] at h₂
      exact h.inj h₁ h₂
  · by_cases hc : n'=n.child S i
    · subst hc
      rw [update_self,some.injEq] at hn'
      subst hn'
      rw [setFrame_self,hzero] at hp
      exact absurd hp (by decide)
    · rw [update_of_ne hc] at hn'
      rw [hentry hn'] at hp ⊢
      split_ifs at hp ⊢
      · exact hwritable
      · exact h.writable hn' hj hp
  · rw [update_of_ne Node.child_ne_root.symm] at hr
    obtain rfl := h.root hr
    have hpos : ¬ (Node.root g=n ∧ S.self=i) := by
      rintro ⟨rfl,hself⟩
      exact hi.2 ⟨rfl,hself.symm⟩
    rw [hentry hr,if_neg hpos]
    exact h.self hr
  · obtain ⟨g,hg⟩ := h.common hs hj
    exact ⟨g,by rwa [update_of_ne (hold hg)]⟩

end

theorem Forest.newRoot (hfresh : ∀ n', T n'≠some r)
    (hself : isPresent (m' r S.self)=true ∧ isWritable (m' r S.self)=true ∧
      target (m' r S.self)=r)
    (hshared : ∀ {i f}, S.shared i=true → i≠S.self → T ⟨none, [i]⟩=some f →
      isPresent (m' r i)=true ∧ isWritable (m' r i)=true ∧ target (m' r i)=f)
    (hown : ∀ {i}, S.shared i=false → i≠S.self → isPresent (m' r i)=false)
    (hrest : ∀ {f}, f≠r → m' f=m f) :
    Forest S m' (update T (.root r) (some r)) := by
  have habsent : T (.root r)=none := by
    cases hr : T (.root r) with
    | none => rfl
    | some f => exact absurd (h.root hr ▸ hr) (hfresh _)
  have hold {n : Node} {f : Frame} (hn : T n=some f) : m' f=m f :=
    hrest fun hf => hfresh n (hf ▸ hn)
  have hentries {n : Node} {f : Frame} (hn : T n=some f) : n ≠ .root r := by
    rintro rfl
    simp [habsent] at hn
  refine
    { root := fun {q f} hq => ?_, rootless := ?_, link := fun {n f i} hn hi => ?_,
      closed := fun {n i} hn hi => ?_, label := fun {o i is f} hn => ?_,
      inj := fun {n₁ n₂ f} h₁ h₂ => ?_, writable := fun {n f i} hn hi hp => ?_,
      self := fun {q f} hq => ?_, common := fun {i} hs hi => ?_ }
  · by_cases hqr : q=r
    · subst hqr
      rw [update_self,some.injEq] at hq
      exact hq.symm
    · rw [update_of_ne (by simpa [Node.root] using hqr)] at hq
      exact h.root hq
  · rw [update_of_ne (by simp [Node.root]),h.rootless]
  · rw [update_of_ne Node.child_ne_root]
    by_cases hroot : n = .root r
    · subst hroot
      rw [update_self,some.injEq] at hn
      subst hn
      have hne : i≠S.self := fun hself => hi.2 ⟨rfl,hself⟩
      cases hs : S.shared i with
      | true =>
        obtain ⟨f,hf⟩ := h.common hs hne
        obtain ⟨hp,-,ht⟩ := hshared hs hne hf
        simp [Node.child,Node.root,hs,hf,hp,ht]
      | false =>
        rw [hown hs hne]
        exact h.closed habsent (.inr hs)
    · rw [update_of_ne hroot] at hn
      rw [hold hn,h.link hn hi]
  · rw [update_of_ne Node.child_ne_root]
    refine h.closed ?_ hi
    by_cases hroot : n = .root r
    · simp [hroot] at hn
    · rwa [update_of_ne hroot] at hn
  · rw [update_of_ne (by simp [Node.root])] at hn
    exact h.label hn
  · by_cases hc₁ : n₁ = .root r <;> by_cases hc₂ : n₂ = .root r
    · rw [hc₁,hc₂]
    · rw [hc₁,update_self,some.injEq] at h₁
      rw [update_of_ne hc₂] at h₂
      exact absurd (h₁ ▸ h₂) (hfresh n₂)
    · rw [hc₂,update_self,some.injEq] at h₂
      rw [update_of_ne hc₁] at h₁
      exact absurd (h₂ ▸ h₁) (hfresh n₁)
    · rw [update_of_ne hc₁] at h₁
      rw [update_of_ne hc₂] at h₂
      exact h.inj h₁ h₂
  · by_cases hroot : n = .root r
    · subst hroot
      rw [update_self,some.injEq] at hn
      subst hn
      have hne : i≠S.self := fun hself => hi.2 ⟨rfl,hself⟩
      cases hs : S.shared i with
      | true =>
        obtain ⟨f,hf⟩ := h.common hs hne
        exact (hshared hs hne hf).2.1
      | false =>
        rw [hown hs hne] at hp
        exact absurd hp (by decide)
    · rw [update_of_ne hroot] at hn
      rw [hold hn] at hp ⊢
      exact h.writable hn hi hp
  · by_cases hqr : q=r
    · subst hqr
      exact hself
    · rw [update_of_ne (by simpa [Node.root] using hqr)] at hq
      obtain rfl := h.root hq
      rw [hold hq]
      exact h.self hq
  · obtain ⟨f,hf⟩ := h.common hs hi
    exact ⟨f,by rwa [update_of_ne (hentries hf)]⟩

end

def dropSpace (T : Node → Option Frame) (r : Frame) (n : Node) : Option Frame :=
  if n.space = some r then none else T n

theorem dropSpace_eq_some (h : dropSpace T r n=some f) : T n=some f ∧ n.space≠some r := by
  rw [dropSpace] at h
  split_ifs at h with hr
  exact ⟨h,hr⟩

theorem Forest.dropRoot (h : Forest S m T) (r : Frame) : Forest S m (dropSpace T r) where
  root hq := h.root (dropSpace_eq_some hq).1
  rootless := by simp [dropSpace,h.rootless]
  link {n f i} hn hi := by
    obtain ⟨hn,hr⟩ := dropSpace_eq_some hn
    rw [← h.link hn hi,dropSpace,if_neg]
    simp only [Node.child]
    split_ifs
    · simp
    · exact hr
  closed {n i} hn hi := by
    rw [dropSpace] at hn ⊢
    have hspace : (n.child S i).space=n.space := by
      rw [Node.child]
      refine if_neg fun hshared => ?_
      rcases hi with hi | hi
      · exact hi hshared.1
      · simp [hi] at hshared
    rw [hspace]
    split_ifs at hn ⊢
    · rfl
    · exact h.closed hn hi
  label hn := h.label (dropSpace_eq_some hn).1
  inj h₁ h₂ := h.inj (dropSpace_eq_some h₁).1 (dropSpace_eq_some h₂).1
  writable hn := h.writable (dropSpace_eq_some hn).1
  self hq := h.self (dropSpace_eq_some hq).1
  common hs hi := by
    obtain ⟨f,hf⟩ := h.common hs hi
    exact ⟨f,by simp [dropSpace,hf]⟩

end Hojicha.Framework.Paging
