import Hojicha.Vmm.NewSpace

/-!
# The tables at boot

The kernel image has two pages, the second of which is the kernel's root.
-/

namespace Hojicha.Vmm

open Framework.Paging Node

def pml3Frame (i : Index) : Frame := 1024 + i.setWidth 40

def bootRoot : Frame := 1
def windowPd : Frame := 2
def imagePd : Frame := 3
def windowPt : Frame := 4
def imagePt : Frame := 5

def bootMem (f : Frame) (i : Index) : Word :=
  if f = bootRoot then
    if i = RECURSIVE_IDX then address bootRoot ||| 3
    else if i = 511 then address (pml3Frame i) ||| 3
    else if KERNEL_PML4_FIRST ≤ i then
      address (pml3Frame i) ||| normalizeTableFlags (i.setWidth 64 <<< 39) 0
    else 0
  else if f = pml3Frame 511 then
    if i = 509 then address windowPd ||| 3 else if i = 510 then address imagePd ||| 3 else 0
  else if f = windowPd then if i = 384 then address windowPt ||| 3 else 0
  else if f = imagePd then if i = 0 then address imagePt ||| 3 else 0
  else if f = imagePt then
    if i = 0 then address 6 ||| 3 else if i = 1 then address bootRoot ||| 3 else 0
  else 0

def bootNodes : Node → Option Frame
  | ⟨some r, []⟩ => if r = bootRoot then some bootRoot else none
  | ⟨none, [i]⟩ => if KERNEL_PML4_FIRST ≤ i ∧ i ≠ RECURSIVE_IDX then some (pml3Frame i) else none
  | ⟨none, [i, j]⟩ =>
    if i = 511 ∧ j = 509 then some windowPd else if i = 511 ∧ j = 510 then some imagePd else none
  | ⟨none, [i, j, k]⟩ =>
    if i = 511 ∧ j = 509 ∧ k = 384 then some windowPt
    else if i = 511 ∧ j = 510 ∧ k = 0 then some imagePt else none
  | _ => none

def bootMachine (pool : FramePool) : Machine where
  mem := bootMem
  cr3 := bootRoot
  kernelPml4Phys := address bootRoot
  virtualDirectory := 0xFFFFFFFF80001000
  pool := pool
  events := []

variable {n : Node} {f : Frame} {i : Index} {pool : FramePool}

inductive BootTable : Node → Frame → Prop
  | root : BootTable (.root bootRoot) bootRoot
  | pml3 (i : Index) : KERNEL_PML4_FIRST ≤ i → i ≠ RECURSIVE_IDX →
    BootTable ⟨none, [i]⟩ (pml3Frame i)
  | windowPd : BootTable ⟨none, [511, 509]⟩ windowPd
  | imagePd : BootTable ⟨none, [511, 510]⟩ imagePd
  | windowPt : BootTable windowNode windowPt
  | imagePt : BootTable ⟨none, [511, 510, 0]⟩ imagePt

theorem bootNodes_eq_some : bootNodes n=some f ↔ BootTable n f := by
  constructor
  · intro h
    rw [bootNodes.eq_def] at h
    split at h
    · split at h
      · cases h
        subst_vars
        exact .root
      · cases h
    · split at h
      next hi =>
        cases h
        exact .pml3 _ hi.1 hi.2
      · cases h
    · split at h
      next hi =>
        cases h
        obtain ⟨rfl,rfl⟩ := hi
        exact .windowPd
      · split at h
        next hi =>
          cases h
          obtain ⟨rfl,rfl⟩ := hi
          exact .imagePd
        · cases h
    · split at h
      next hi =>
        cases h
        obtain ⟨rfl,rfl,rfl⟩ := hi
        exact .windowPt
      · split at h
        next hi =>
          cases h
          obtain ⟨rfl,rfl,rfl⟩ := hi
          exact .imagePt
        · cases h
    · cases h
  · intro h
    cases h with
    | pml3 i hi hne => exact if_pos ⟨hi,hne⟩
    | _ => decide

theorem toNat_pml3Frame (i : Index) : (pml3Frame i).toNat=1024 + i.toNat := by
  have hi := i.isLt
  have hbase : (1024 : Frame).toNat=1024 := by decide
  simp only [pml3Frame,BitVec.toNat_add,BitVec.toNat_setWidth,hbase]
  omega

theorem pml3Frame_inj {i j : Index} (h : pml3Frame i=pml3Frame j) : i=j := by
  have hi := toNat_pml3Frame i
  have hj := toNat_pml3Frame j
  rw [h] at hi
  exact BitVec.eq_of_toNat_eq (by omega)

theorem pml3Frame_ne {g : Frame} (hg : g.toNat<1024) : pml3Frame i≠g := by
  rintro rfl
  have := toNat_pml3Frame i
  omega

private theorem bootMem_pml3 (hi : i≠511) (j : Index) : bootMem (pml3Frame i) j=0 := by
  rw [bootMem,if_neg (pml3Frame_ne (by decide)),if_neg fun h => hi (pml3Frame_inj h),
    if_neg (pml3Frame_ne (by decide)),if_neg (pml3Frame_ne (by decide)),
    if_neg (pml3Frame_ne (by decide))]

private theorem leadsTo_three (f : Frame) : LeadsTo (address f ||| 3) f :=
  let h := bits_windowEntry f
  ⟨h.1,h.2.1,h.2.2⟩

private theorem bootMem_root (hi : KERNEL_PML4_FIRST ≤ i) (hne : i≠RECURSIVE_IDX) :
    LeadsTo (bootMem bootRoot i) (pml3Frame i) := by
  rw [bootMem,if_pos rfl,if_neg hne,if_pos hi]
  split_ifs
  · exact leadsTo_three _
  · obtain ⟨hp,hw,ht⟩ := bits_tableEntry (pml3Frame i) (i.setWidth 64 <<< 39) 0
    exact ⟨hp,hw,ht⟩

private theorem bootMem_root_lower (hi : ¬ KERNEL_PML4_FIRST ≤ i) : bootMem bootRoot i=0 := by
  have hne {j : Index} (hj : KERNEL_PML4_FIRST≤j) : i≠j := by
    rintro rfl
    exact hi hj
  rw [bootMem,if_pos rfl,if_neg (hne (by decide)),if_neg (hne (by decide)),if_neg hi]

private theorem bootMem_entry (h : BootTable n f) (hi : n.Links shape i) :
    bootMem f i=0 ∧ (∀ u, ¬ BootTable (n.child shape i) u) ∨
      ∃ u, LeadsTo (bootMem f i) u ∧ BootTable (n.child shape i) u := by
  cases h with
  | root =>
    have hne : i≠RECURSIVE_IDX := fun heq => hi.2 ⟨rfl,heq⟩
    by_cases hup : KERNEL_PML4_FIRST ≤ i
    · refine .inr ⟨_,bootMem_root hup hne,?_⟩
      simpa [child,root,shape,hup] using BootTable.pml3 i hup hne
    · refine .inl ⟨bootMem_root_lower hup,fun u hu => ?_⟩
      simp only [child,root,shape,hup] at hu
      cases hu
  | pml3 j hj hne =>
    rw [child_of_ne_nil (by simp)]
    by_cases h511 : j=511
    · subst h511
      rw [bootMem,if_neg (by decide),if_pos rfl]
      split_ifs with h509 h510
      · subst h509
        exact .inr ⟨_,leadsTo_three _,.windowPd⟩
      · subst h510
        exact .inr ⟨_,leadsTo_three _,.imagePd⟩
      · refine .inl ⟨rfl,fun u hu => ?_⟩
        cases hu <;> contradiction
    · refine .inl ⟨bootMem_pml3 h511 i,fun u hu => ?_⟩
      cases hu <;> contradiction
  | windowPd =>
    rw [child_of_ne_nil (by simp),bootMem,if_neg (by decide),if_neg (by decide),if_pos rfl]
    split_ifs with h384
    · subst h384
      exact .inr ⟨_,leadsTo_three _,.windowPt⟩
    · refine .inl ⟨rfl,fun u hu => ?_⟩
      cases hu
      contradiction
  | imagePd =>
    rw [child_of_ne_nil (by simp),bootMem,if_neg (by decide),if_neg (by decide),
      if_neg (by decide),if_pos rfl]
    split_ifs with h0
    · subst h0
      exact .inr ⟨_,leadsTo_three _,.imagePt⟩
    · refine .inl ⟨rfl,fun u hu => ?_⟩
      cases hu
      contradiction
  | windowPt => exact absurd hi.1 (by decide)
  | imagePt => exact absurd hi.1 (by decide)

theorem bootNodes_eq_none (h : ∀ u, ¬ BootTable n u) : bootNodes n=none := by
  cases hn : bootNodes n with
  | none => rfl
  | some u => exact absurd (bootNodes_eq_some.mp hn) (h u)

theorem BootTable.frame_lt (h : BootTable n f) : f.toNat<2048 := by
  cases h with
  | pml3 i =>
    have hi := i.isLt
    rw [toNat_pml3Frame]
    omega
  | _ => decide

private theorem BootTable.inj {n' : Node} (h : BootTable n f) (h' : BootTable n' f) : n=n' := by
  generalize hg : f=g at h'
  cases h <;> cases h' <;> first
    | rfl
    | exact absurd hg (by decide)
    | exact absurd hg (pml3Frame_ne (by decide))
    | exact absurd hg.symm (pml3Frame_ne (by decide))
    | rw [pml3Frame_inj hg]

private theorem eq_of_child {o : Option Frame} {q : List Index} {j : Index}
    (h : n.child shape i=⟨o, q++[j]⟩) (hq : q≠[]) : n=⟨o, q⟩ := by
  obtain ⟨hpath,-⟩ := List.append_inj' (congrArg path h) rfl
  rw [child_of_ne_nil (hpath ▸ hq)] at h
  obtain ⟨o',q'⟩ := n
  obtain rfl : q'=q := hpath
  obtain rfl : o'=o := congrArg space h
  rfl

private theorem BootTable.parent {c : Node} {u : Frame} (h : BootTable c u) (hc : n.child shape i=c)
    (hi : n.path≠[] ∨ shape.shared i=false) : ∃ f, BootTable n f := by
  cases h with
  | root => exact absurd hc child_ne_root
  | pml3 j hj _ =>
    have hpath : n.path++[i]=[]++[j] := congrArg path hc
    obtain ⟨hnil,hij⟩ := List.append_inj' hpath rfl
    cases hij
    rcases hi with hne | hs
    · exact absurd hnil hne
    · cases hs.symm.trans (decide_eq_true hj)
  | windowPd =>
    rw [eq_of_child (q := [511]) hc (by simp)]
    exact ⟨_,.pml3 511 (by decide) (by decide)⟩
  | imagePd =>
    rw [eq_of_child (q := [511]) hc (by simp)]
    exact ⟨_,.pml3 511 (by decide) (by decide)⟩
  | windowPt =>
    rw [eq_of_child (q := [511,509]) hc (by simp)]
    exact ⟨_,.windowPd⟩
  | imagePt =>
    rw [eq_of_child (q := [511,510]) hc (by simp)]
    exact ⟨_,.imagePd⟩

theorem bootForest : Forest shape bootMem bootNodes where
  root {r f} h := by
    obtain ⟨⟩ := bootNodes_eq_some.mp h
    rfl
  rootless := rfl
  link {n f i} hn hi := by
    rcases bootMem_entry (bootNodes_eq_some.mp hn) hi with ⟨hzero,hnone⟩ | ⟨u,hlead,hu⟩
    · rw [hzero,bootNodes_eq_none hnone]
      rfl
    · rw [hlead.present,hlead.target,bootNodes_eq_some.mpr hu]
      rfl
  closed {n i} hn hi := by
    refine bootNodes_eq_none fun u hu => ?_
    obtain ⟨f,hf⟩ := hu.parent rfl hi
    simp [bootNodes_eq_some.mpr hf] at hn
  label {o i is f} h := by
    cases bootNodes_eq_some.mp h with
    | pml3 i hi hne => exact ⟨by simp,hne,by simpa [shape] using hi⟩
    | _ => decide
  inj h h' := (bootNodes_eq_some.mp h).inj (bootNodes_eq_some.mp h')
  writable {n f i} hn hi hp := by
    rcases bootMem_entry (bootNodes_eq_some.mp hn) hi with ⟨hzero,-⟩ | ⟨u,hlead,-⟩
    · rw [hzero] at hp
      exact absurd hp (by decide)
    · exact hlead.writable
  self {r f} h := by
    obtain ⟨⟩ := bootNodes_eq_some.mp h
    decide
  common {i} hs hi := ⟨_,bootNodes_eq_some.mpr (.pml3 i (of_decide_eq_true hs) hi)⟩

theorem bootSound (hpool : ∀ f, pool.free f=true → 2048≤f.toNat) :
    Sound ⟨bootMem, pool⟩ bootNodes :=
  ⟨bootForest,fun {f} hf n hn => by
    have := (bootNodes_eq_some.mp hn).frame_lt
    have := hpool f hf
    omega⟩

def directoryPage : Page := ⟨511, 510, 0, 1⟩

theorem pageOf_virtualDirectory :
    pageOf (bootMachine pool).virtualDirectory=directoryPage := by
  show pageOf 0xFFFFFFFF80001000=directoryPage
  decide

theorem bootMachine_ready (hpool : ∀ f, pool.free f=true → 2048≤f.toNat) :
    KernelReady (bootMachine pool) ⟨bootMem, pool⟩ bootNodes windowPt bootRoot where
  sound := bootSound hpool
  window := rfl
  current := rfl
  agree := .refl _ _
  pool := rfl
  root := rfl
  phys := rfl
  image := by
    rw [pageOf_virtualDirectory]
    decide
  recursive := by
    rw [pageOf_virtualDirectory]
    decide
  apart := by
    rw [pageOf_virtualDirectory]
    decide
  directory := by
    rw [pageOf_virtualDirectory,leafEntry_eq (bootSound hpool) rfl (by decide)]
    exact leadsTo_three _

private theorem bootPath_image {r t3 t2 t : Frame} {p : Page} (hp : Path bootNodes r p t3 t2 t)
    (hpresent : isPresent (bootMem t p.i1)=true) :
    p.tables=[511, 510, 0] ∧ t3=pml3Frame 511 ∧ t2=imagePd ∧ t=imagePt := by
  have hpt := bootNodes_eq_some.mp hp.pt
  rw [leafNode_eq] at hpt
  generalize hn : mk _ p.tables=n at hpt
  have hpath : p.tables=n.path := congrArg path hn
  cases hpt with
  | root => simp [Page.tables,root] at hpath
  | pml3 => simp [Page.tables] at hpath
  | windowPd => simp [Page.tables] at hpath
  | imagePd => simp [Page.tables] at hpath
  | windowPt => exact absurd hpresent (by simp [bootMem,windowPt,bootRoot,pml3Frame,windowPd,
      imagePd,imagePt,isPresent])
  | imagePt =>
    obtain ⟨h4,h3,h2⟩ : p.i4=511 ∧ p.i3=510 ∧ p.i2=0 := by simpa [Page.tables] using hpath
    have hpml3 := hp.pml3
    have hpd := hp.pd
    rw [h4] at hpml3 hpd
    rw [h3] at hpd
    exact ⟨hpath,(Option.some.inj hpml3).symm,(Option.some.inj hpd).symm,rfl⟩

theorem bootTidy : Tidy ⟨bootMem, pool⟩ bootNodes where
  user {r p t3 t2 t} hp _ hpresent huser := by
    obtain ⟨-,-,-,rfl⟩ := bootPath_image hp hpresent
    have hsystem (i : Index) : isUser (bootMem imagePt i)=false := by
      rw [bootMem,if_neg (by decide),if_neg (by decide),if_neg (by decide),if_neg (by decide),
        if_pos rfl]
      split_ifs <;> decide
    simp [hsystem] at huser
  lower {n f i} hn hlen hlow hpresent := by
    cases bootNodes_eq_some.mp hn with
    | root =>
      dsimp only at hpresent
      rw [bootMem_root_lower (BitVec.not_le.mpr (hlow i rfl))] at hpresent
      exact absurd hpresent (by decide)
    | pml3 j hj => exact absurd hj (BitVec.not_le.mpr (hlow j rfl))
    | windowPd => exact absurd (hlow 511 rfl) (by decide)
    | imagePd => exact absurd (hlow 511 rfl) (by decide)
    | windowPt => exact absurd hlen (by decide)
    | imagePt => exact absurd hlen (by decide)
  upper {r p t3 t2 t} hp _ _ hpresent _ := by
    obtain ⟨htables,rfl,rfl,-⟩ := bootPath_image hp hpresent
    obtain ⟨-,h3,h2⟩ : p.i4=511 ∧ p.i3=510 ∧ p.i2=0 := by simpa [Page.tables] using htables
    dsimp only
    rw [h3,h2]
    decide

def poolOf (n : Nat) : FramePool where
  free f := 2048 ≤ f.toNat && f.toNat < 2048 + n
  held _ := false
  answers := (List.range n).map fun k => some (2048 + BitVec.ofNat 40 k)
  stray := []
  failures := 0

theorem poolOf_free {n : Nat} (f : Frame) (hf : (poolOf n).free f=true) : 2048≤f.toNat := by
  simp only [poolOf,Bool.and_eq_true,decide_eq_true_eq] at hf
  exact hf.1

def samplePool : FramePool := poolOf 8

theorem samplePool_free (f : Frame) (hf : samplePool.free f=true) : 2048≤f.toNat :=
  poolOf_free f hf

end Hojicha.Vmm
