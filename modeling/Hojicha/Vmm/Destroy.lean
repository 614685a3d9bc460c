import Hojicha.Vmm.Walk

/-!
# Taking an address space down

`vmm_destroy_mappings` gives back the frame of every present page of the lower half, and every table
after its entries. The tables are still read while they are being given back.
-/

namespace Hojicha.Vmm

open Framework Framework.Paging FramePool

def WalkAction.frame : WalkAction → Frame
  | .visit _ e => target e
  | .release t => t

def FramePool.giveAll (p : FramePool) (fs : List Frame) : FramePool := fs.foldl FramePool.give p

def lowerFrames (m : PhysMem) (r : Frame) : List Frame :=
  (lowerActions m true r).map WalkAction.frame

variable {s : Machine} {σ : Tables} {T : Node → Option Frame} {w r f kr g : Frame} {m : PhysMem}
  {p : FramePool} {fs : List Frame}

theorem giveAll_cons : p.giveAll (f::fs)=(p.give f).giveAll fs := rfl

theorem giveAll_free : (p.giveAll fs).free g=true ↔ p.free g=true ∨ g∈fs := by
  induction fs generalizing p with
  | nil => simp [giveAll]
  | cons f fs ih =>
    rw [giveAll_cons,ih]
    by_cases hg : g=f
    · simp [give,hg]
    · simp [give,hg]

theorem giveAll_held : (p.giveAll fs).held g=true ↔ p.held g=true ∧ g∉fs := by
  induction fs generalizing p with
  | nil => simp [giveAll]
  | cons f fs ih =>
    rw [giveAll_cons,ih]
    by_cases hg : g=f
    · simp [give,hg]
    · simp [give,hg]

theorem giveAll_stray (hfs : fs.Nodup) (hheld : ∀ g∈fs, p.held g=true) :
    (p.giveAll fs).stray=p.stray := by
  induction fs generalizing p with
  | nil => rfl
  | cons f fs ih =>
    obtain ⟨hf,hfs⟩ := List.nodup_cons.mp hfs
    rw [giveAll_cons,ih hfs fun g hg => ?_,give,if_pos (hheld f (by simp))]
    have hgf : g≠f := fun h => hf (h ▸ hg)
    simpa [give,hgf] using hheld g (by simp [hg])

private def giveBack (k : WalkAction) (p : FramePool) : Bool × FramePool := (true, p.give k.frame)

private theorem perform_giveBack (ks : List WalkAction) (p : FramePool) :
    perform giveBack ks p=(true, p.giveAll (ks.map WalkAction.frame)) := by
  induction ks generalizing p with
  | nil => rfl
  | cons k ks ih => exact ih (p.give k.frame)

private def Holds (s₀ : Machine) (w : Frame) (m : PhysMem) (p : FramePool) (s : Machine) : Prop :=
  Windowed s.mem s.cr3 w ∧ Agree w s.mem m ∧ ∃ m' ev, s = s₀.update m' p ev

private theorem Holds.shows {s₀ : Machine} {ptr : Haddr} {k : Index} {t : Frame}
    (hk : IsWindow ptr k) (ht : t≠w) : Shows (Holds s₀ w m) ptr m t := by
  rintro p s ⟨hw,hagree,m',ev',rfl⟩
  obtain ⟨s',ev,rfl,hmap,hread⟩ := scratchMapTable_read hw hk ht
  refine ⟨_,hmap,⟨hw.setWindow hk.small _ _,(agree_setWindow _ hk.small _).trans hagree,_,ev,
    rfl⟩,fun i => ?_⟩
  rw [hread i,hagree.frame ht]

private theorem Holds.give {s₀ : Machine} {k : WalkAction} {addr : Haddr}
    (haddr : target addr=k.frame) :
    Refines (Holds s₀ w m) (do pmmFreeFrame addr; return true) (giveBack k) := by
  rintro p s ⟨hw,hagree,m',ev',rfl⟩
  refine ⟨s₀.update m' (p.give (target addr)) ev',?_,hw,hagree,m',ev',?_⟩
  · rw [bind_run (pmmFreeFrame_run _ _)]
    rfl
  · rw [haddr]
    rfl

theorem vmmDestroyMappings_run (hf : Forest shape m T) (hr : T (.root r)=some r)
    (hwin : T windowNode=some w) (hw : Windowed s.mem s.cr3 w) (hagree : Agree w s.mem m) :
    ∃ m' ev, vmmDestroyMappings (address r) s =
        some ((), s.update m' (s.pool.giveAll (lowerFrames m r)) ev) ∧
      Windowed m' s.cr3 w ∧ Agree w m' m := by
  have hne {n : Node} {t : Frame} (hn : T n=some t) (hspace : n.space=some r) : t≠w := by
    rintro rfl
    rw [hf.inj hn hwin] at hspace
    cases hspace
  have hwalk : Refines (Holds s w m) (walkLowerMappings (address r) destroyMapping true)
      (perform giveBack (lowerActions m true r)) :=
    walkLowerMappings_refines hf hr (fun hn hspace _ _ hk => Holds.shows hk (hne hn hspace))
      (fun _ _ _ => Holds.give (target_entryPhys _)) fun _ t => Holds.give (target_address t)
  obtain ⟨s',hrun,hw',hagree',m',ev,rfl⟩ := hwalk s.pool s ⟨hw,hagree,s.mem,s.events,rfl⟩
  rw [perform_giveBack] at hrun
  exact ⟨m',ev,bind_run hrun,hw',hagree'⟩

def IsLeafFrame (m : PhysMem) (r f : Frame) : Prop :=
  ∃ p : Page, p.i4 < KERNEL_PML4_FIRST ∧ isPresent (leafEntry m r p) = true ∧
    target (leafEntry m r p) = f

section

variable (h : Sound σ T) (hr : T (.root r) = some r)
include h hr

theorem exists_table {q : Page}
    (hq : q.i4≠RECURSIVE_IDX) (hp : isPresent (leafEntry σ.mem r q)=true) :
    ∃ t, T (leafNode r q)=some t ∧ leafEntry σ.mem r q=σ.mem t q.i1 := by
  rw [leafEntry_eq h hr hq] at hp ⊢
  cases ht : T (leafNode r q) with
  | none =>
    rw [ht] at hp
    exact absurd hp (show ¬ isPresent 0=true by decide)
  | some t => exact ⟨t,rfl,rfl⟩

theorem located_visit {q : List Index} {virt : Haddr}
    {e : Word} : Located σ.mem T r q (.visit virt e) ↔
      ∃ p : Page, q=p.path ∧ virt=virtOf p.i4 p.i3 p.i2 p.i1 ∧ p.i4<KERNEL_PML4_FIRST ∧
        leafEntry σ.mem r p=e ∧ isPresent e=true := by
  constructor
  · rintro ⟨p,t,hq,hv,hlow,ht,rfl,hp⟩
    refine ⟨p,hq,hv,hlow,?_,hp⟩
    rw [leafEntry_eq h hr (ne_recursive_of_lower hlow),ht]
  · rintro ⟨p,hq,hv,hlow,rfl,hp⟩
    obtain ⟨t,ht,heq⟩ := exists_table h hr (ne_recursive_of_lower hlow) hp
    exact ⟨p,t,hq,hv,hlow,ht,heq.symm,hp⟩

theorem mem_lowerFrames : f∈lowerFrames σ.mem r ↔
      IsLeafFrame σ.mem r f ∨ ∃ n, T n=some f ∧ n.space=some r ∧ n.path≠[] := by
  rw [lowerFrames,List.mem_map]
  constructor
  · rintro ⟨k,hk,rfl⟩
    obtain ⟨i,q,-,hlocated⟩ := (ordered_lowerActions h.forest hr).below k hk
    cases k with
    | visit virt e =>
      obtain ⟨p,-,-,hlow,rfl,hp⟩ := (located_visit h hr).mp hlocated
      exact .inl ⟨p,hlow,hp,rfl⟩
    | release t =>
      obtain ⟨n,-,hn,hspace,hne⟩ := hlocated
      exact .inr ⟨n,hn,hspace,hne⟩
  · rintro (⟨p,hlow,hp,rfl⟩ | ⟨n,hn,hspace,hne⟩)
    · refine ⟨.visit _ _,visit_mem_lowerActions h.forest hr ((located_visit h hr).mpr
        ⟨p,rfl,rfl,hlow,rfl,hp⟩),rfl⟩
    · exact ⟨.release f,release_mem_lowerActions h.forest hr ⟨n,rfl,hn,hspace,hne⟩,rfl⟩

end

/-- The pages of the lower half have frames of their own, which hold no tables. -/
structure Exclusive (σ : Tables) (T : Node → Option Frame) (r : Frame) : Prop where
  inj {p p' : Page} : p.i4 < KERNEL_PML4_FIRST → p'.i4 < KERNEL_PML4_FIRST →
    isPresent (leafEntry σ.mem r p) = true → isPresent (leafEntry σ.mem r p') = true →
    target (leafEntry σ.mem r p) = target (leafEntry σ.mem r p') → p = p'
  table {f : Frame} : IsLeafFrame σ.mem r f → ∀ n, T n ≠ some f

theorem nodup_lowerFrames (h : Sound σ T) (hr : T (.root r)=some r) (hx : Exclusive σ T r) :
    (lowerFrames σ.mem r).Nodup := by
  have hordered : Ordered σ.mem T r [] (lowerActions σ.mem true r) :=
    ordered_lowerActions h.forest hr
  refine List.Nodup.map_on (fun k hk k' hk' heq => ?_) hordered.nodup
  obtain ⟨i,q,-,hl⟩ := hordered.below k hk
  obtain ⟨i',q',-,hl'⟩ := hordered.below k' hk'
  cases k with
  | visit virt e =>
    obtain ⟨p,-,rfl,hlow,rfl,hp⟩ := (located_visit h hr).mp hl
    cases k' with
    | visit virt' e' =>
      obtain ⟨p',-,rfl,hlow',rfl,hp'⟩ := (located_visit h hr).mp hl'
      rw [hx.inj hlow hlow' hp hp' heq]
    | release t =>
      obtain ⟨n,-,hn,-⟩ := hl'
      exact absurd hn (hx.table ⟨p,hlow,hp,heq⟩ n)
  | release t =>
    cases k' with
    | visit virt' e' =>
      obtain ⟨p',-,rfl,hlow',rfl,hp'⟩ := (located_visit h hr).mp hl'
      obtain ⟨n,-,hn,-⟩ := hl
      exact absurd hn (hx.table ⟨p',hlow',hp',heq.symm⟩ n)
    | release t' => exact congrArg WalkAction.release heq

def FramePool.freed (p : FramePool) (m : PhysMem) (r : Frame) : FramePool :=
  p.giveAll (lowerFrames m r ++ [r])

theorem Sound.dropRoot (h : Sound σ T) (hr : T (.root r)=some r)
    (hleaf : ∀ {f}, IsLeafFrame σ.mem r f → ∀ n, T n≠some f) :
    Sound { σ with pool := σ.pool.freed σ.mem r } (dropSpace T r) := by
  refine ⟨h.forest.dropRoot r,fun {f} hf n hdrop => ?_⟩
  obtain ⟨hn,hspace⟩ := dropSpace_eq_some hdrop
  dsimp only at hf
  rw [freed,giveAll_free,List.mem_append,List.mem_singleton,mem_lowerFrames h hr] at hf
  rcases hf with hf | (hf | ⟨n',hn',hspace',-⟩) | rfl
  · exact h.fresh hf n hn
  · exact hleaf hf n hn
  · rw [h.forest.inj hn hn'] at hspace
    exact hspace hspace'
  · rw [h.forest.inj hn hr] at hspace
    exact hspace rfl

end Hojicha.Vmm
