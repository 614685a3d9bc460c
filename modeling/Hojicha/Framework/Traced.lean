import Mathlib.Tactic

/-!
# Computations that stop and leave a trace

A computation over a state that may stop early, and records the addresses it reads.
-/

namespace Hojicha.Framework

open Except

/-- `A` are the addresses, `ε` the reasons to stop, `σ` the states. -/
def Traced (A ε σ α : Type) := σ → List A × Except ε α × σ

namespace Traced

variable {A ε σ α β : Type}

def bind (x : Traced A ε σ α) (f : α → Traced A ε σ β) : Traced A ε σ β := fun s =>
  match x s with
  | (l, .ok a, s') => (l ++ (f a s').1, (f a s').2)
  | (l, .error e, s') => (l, .error e, s')

instance : Monad (Traced A ε σ) where
  pure a := fun s => ([], .ok a, s)
  bind := bind

def note (a : A) : Traced A ε σ Unit := fun s => ([a], .ok (), s)

def peek (f : σ → α) : Traced A ε σ α := fun s => ([], .ok (f s), s)

def change (f : σ → σ) : Traced A ε σ Unit := fun s => ([], .ok (), f s)

def stop (e : ε) : Traced A ε σ α := fun s => ([], .error e, s)

def Runs (x : Traced A ε σ α) (s : σ) (a : α) (s' : σ) : Prop := (x s).2 = (.ok a, s')

def Stops (x : Traced A ε σ α) (s : σ) (e : ε) : Prop := (x s).2.1 = .error e

def Within (p : A → Prop) (x : Traced A ε σ α) (s : σ) : Prop := ∀ a ∈ (x s).1, p a

variable {p : A → Prop} {s s' : σ} {a a' : α} {e e' : ε}
variable {x : Traced A ε σ α} {f : α → Traced A ε σ β}

theorem runs_bind {b : β} :
    Runs (x >>= f) s b s' ↔ ∃ a t, Runs x s a t ∧ Runs (f a) t b s' := by
  change (bind x f s).2=_ ↔ _
  unfold bind Runs
  rcases hx : x s with ⟨l,r,t⟩
  cases r with
  | error e => simp
  | ok a =>
    constructor
    · intro h
      exact ⟨a,t,rfl,h⟩
    · rintro ⟨a',t',heq,h⟩
      obtain ⟨ha,rfl⟩ : (ok a : Except ε α) = .ok a' ∧ t=t' := by simpa using heq
      obtain rfl := ok.inj ha
      exact h

theorem stops_bind :
    Stops (x >>= f) s e ↔ Stops x s e ∨ ∃ a t, Runs x s a t ∧ Stops (f a) t e := by
  change (bind x f s).2.1=_ ↔ _
  unfold bind Stops Runs
  rcases hx : x s with ⟨l,r,t⟩
  cases r with
  | error e => simp
  | ok a =>
    constructor
    · intro h
      exact .inr ⟨a,t,rfl,h⟩
    · rintro (h | ⟨a',t',heq,h⟩)
      · cases h
      · obtain ⟨ha,rfl⟩ : (ok a : Except ε α) = .ok a' ∧ t=t' := by simpa using heq
        obtain rfl := ok.inj ha
        exact h

theorem within_bind :
    Within p (x >>= f) s ↔ Within p x s ∧ ∀ a t, Runs x s a t → Within p (f a) t := by
  change (∀ a∈(bind x f s).1, p a) ↔ _
  unfold bind Within Runs
  rcases hx : x s with ⟨l,r,t⟩
  cases r with
  | error e => simp
  | ok a =>
    constructor
    · intro h
      refine ⟨fun b hb => h b (List.mem_append_left _ hb),fun a' t' heq => ?_⟩
      obtain ⟨ha,rfl⟩ : (ok a : Except ε α) = .ok a' ∧ t=t' := by simpa using heq
      obtain rfl := ok.inj ha
      exact fun b hb => h b (List.mem_append_right _ hb)
    · rintro ⟨hl,hr⟩ b hb
      rcases List.mem_append.mp hb with hb | hb
      · exact hl b hb
      · exact hr a t rfl b hb

@[simp] theorem runs_pure : Runs (pure a' : Traced A ε σ α) s a s' ↔ a=a' ∧ s'=s := by
  change (ok a', s)=(ok a, s') ↔ _
  rw [Prod.mk.injEq,ok.injEq,eq_comm,eq_comm (a := s)]

@[simp] theorem runs_note (b : A) (u : Unit) :
    Runs (note b : Traced A ε σ Unit) s u s' ↔ s'=s := by
  simp [Runs,note,eq_comm]

@[simp] theorem runs_peek (g : σ → α) : Runs (peek g : Traced A ε σ α) s a s' ↔ a=g s ∧ s'=s := by
  simp only [Runs,peek,Prod.mk.injEq,ok.injEq]
  rw [eq_comm,eq_comm (a := s)]

@[simp] theorem runs_change (g : σ → σ) (u : Unit) :
    Runs (change g : Traced A ε σ Unit) s u s' ↔ s'=g s := by
  simp [Runs,change,eq_comm]

@[simp] theorem not_runs_stop : ¬ Runs (stop e : Traced A ε σ α) s a s' := by
  simp [Runs,stop]

@[simp] theorem not_stops_pure : ¬ Stops (pure a : Traced A ε σ α) s e := by
  intro h
  cases h

@[simp] theorem not_stops_note (b : A) : ¬ Stops (note b : Traced A ε σ Unit) s e := by
  intro h
  cases h

@[simp] theorem not_stops_peek (g : σ → α) : ¬ Stops (peek g : Traced A ε σ α) s e := by
  intro h
  cases h

@[simp] theorem not_stops_change (g : σ → σ) : ¬ Stops (change g : Traced A ε σ Unit) s e := by
  intro h
  cases h

@[simp] theorem stops_stop : Stops (stop e' : Traced A ε σ α) s e ↔ e=e' := by
  change error e'=error e ↔ _
  rw [error.injEq,eq_comm]

@[simp] theorem within_pure : Within p (pure a : Traced A ε σ α) s :=
  fun _ h => nomatch h

@[simp] theorem within_note (b : A) : Within p (note b : Traced A ε σ Unit) s ↔ p b := by
  simp [Within,note]

@[simp] theorem within_peek (g : σ → α) : Within p (peek g : Traced A ε σ α) s :=
  fun _ h => nomatch h

@[simp] theorem within_change (g : σ → σ) : Within p (change g : Traced A ε σ Unit) s :=
  fun _ h => nomatch h

@[simp] theorem within_stop : Within p (stop e : Traced A ε σ α) s :=
  fun _ h => nomatch h

theorem Runs.unique {t t' : σ} (h : Runs x s a t) (h' : Runs x s a' t') : a'=a ∧ t'=t := by
  have heq := h.symm.trans h'
  simp only [Prod.mk.injEq,ok.injEq] at heq
  exact ⟨heq.1.symm,heq.2.symm⟩

theorem Runs.not_stops (h : Runs x s a s') : ¬ Stops x s e := by
  intro hstop
  rw [Stops,h] at hstop
  cases hstop

/-! What a computation returns is known: the rest is what counts. -/

theorem Runs.bind_iff {t : σ} {b : β} (h : Runs x s a t) :
    Runs (x >>= f) s b s' ↔ Runs (f a) t b s' := by
  rw [runs_bind]
  constructor
  · rintro ⟨a',t',hx,hf⟩
    obtain ⟨rfl,rfl⟩ := h.unique hx
    exact hf
  · exact fun hf => ⟨a,t,h,hf⟩

theorem Runs.stops_bind_iff {t : σ} (h : Runs x s a t) :
    Stops (x >>= f) s e ↔ Stops (f a) t e := by
  rw [stops_bind]
  constructor
  · rintro (hx | ⟨a',t',hx,hf⟩)
    · exact absurd hx h.not_stops
    · obtain ⟨rfl,rfl⟩ := h.unique hx
      exact hf
  · exact fun hf => .inr ⟨a,t,h,hf⟩

theorem Runs.within_bind_iff {t : σ} (h : Runs x s a t) :
    Within p (x >>= f) s ↔ Within p x s ∧ Within p (f a) t := by
  rw [within_bind]
  apply and_congr_right
  intro _
  constructor
  · exact fun hf => hf a t h
  · intro hf a' t' hx
    obtain ⟨rfl,rfl⟩ := h.unique hx
    exact hf

theorem runs_or_stops (x : Traced A ε σ α) (s : σ) :
    (∃ a t, Runs x s a t) ∨ ∃ e, Stops x s e := by
  unfold Runs Stops
  rcases x s with ⟨l,r,t⟩
  cases r with
  | ok a => exact .inl ⟨a,t,rfl⟩
  | error e => exact .inr ⟨e,rfl⟩

/-- The computation stops for a reason in `E` or returns a value in `Q`. -/
def Ends (x : Traced A ε σ α) (E : ε → Prop) (Q : α → Prop) : Prop :=
  ∀ s, (∀ e, Stops x s e → E e) ∧ ∀ a t, Runs x s a t → Q a

variable {E : ε → Prop} {Q : α → Prop} {R : β → Prop}

theorem ends_pure (h : Q a) : Ends (pure a : Traced A ε σ α) E Q := by
  intro s
  refine ⟨fun e he => absurd he not_stops_pure,fun a' t hrun => ?_⟩
  rw [(runs_pure.mp hrun).1]
  exact h

theorem Ends.bind (h : Ends x E Q) (hf : ∀ a, Q a → Ends (f a) E R) : Ends (x >>= f) E R := by
  intro s
  constructor
  · intro e he
    rcases stops_bind.mp he with he | ⟨a,t,hrun,he⟩
    · exact (h s).1 e he
    · exact (hf a ((h s).2 a t hrun) t).1 e he
  · intro b t hrun
    obtain ⟨a,t',hx,hb⟩ := runs_bind.mp hrun
    exact (hf a ((h s).2 a t' hx) t').2 b t hb

theorem ends_of_not_stops (h : ∀ s e, Stops x s e → E e) : Ends x E fun _ => True :=
  fun s => ⟨h s,fun _ _ _ => trivial⟩

end Traced

end Hojicha.Framework
