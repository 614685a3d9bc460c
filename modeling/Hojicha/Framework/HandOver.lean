import Mathlib.Data.List.Basic

/-!
# A counting semaphore with direct hand-over

At most `limit` slots are held, those who come later wait in the order in which they came, and a
slot that is given back goes to the one who has waited longest.
-/

namespace Hojicha.Framework

structure HandOver (α : Type*) where
  holders : List α
  waiting : List α

namespace HandOver

variable {α : Type*} (limit : Nat) (g : HandOver α)

def take (p : α) : HandOver α :=
  if g.holders.length < limit then { g with holders := p :: g.holders }
  else { g with waiting := g.waiting ++ [p] }

def tryTake (p : α) : HandOver α :=
  if g.holders.length < limit then { g with holders := p :: g.holders } else g

def give [DecidableEq α] (p : α) : HandOver α :=
  match g.waiting with
  | [] => { g with holders := g.holders.erase p }
  | w :: ws => ⟨w :: g.holders.erase p, ws⟩

structure Fair : Prop where
  bounded : g.holders.length ≤ limit
  busy : g.waiting ≠ [] → g.holders.length = limit

variable {limit g}

theorem Fair.take (h : Fair limit g) (p : α) : Fair limit (g.take limit p) := by
  rw [HandOver.take]
  split_ifs with hfree
  · constructor
    · exact hfree
    · intro hwait
      exact absurd (h.busy hwait) (Nat.ne_of_lt hfree)
  · constructor
    · exact h.bounded
    · intro _
      exact Nat.le_antisymm h.bounded (Nat.le_of_not_lt hfree)

theorem Fair.give [DecidableEq α] (h : Fair limit g) {p : α} (hp : p∈g.holders) :
    Fair limit (g.give p) := by
  have hlen := List.length_erase_of_mem hp
  have hpos := List.length_pos_of_mem hp
  have hbound := h.bounded
  rw [HandOver.give]
  split
  · next hwait =>
    constructor
    · dsimp only
      omega
    · intro hne
      exact absurd hwait hne
  · next w ws hwait =>
    have hfull := h.busy (by rw [hwait]; exact List.cons_ne_nil w ws)
    constructor
    · dsimp only [List.length_cons]
      omega
    · intro _
      dsimp only [List.length_cons]
      omega

end HandOver

end Hojicha.Framework
