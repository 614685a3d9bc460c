import Hojicha.Framework.LinkedSegment
import Hojicha.Hmalloc.Model

/-!
# Heap layout

A list of blocks tiles the managed range, each with a matching header and footer, and a free list is
threaded through the headers of the free blocks in address order.
-/

namespace Hojicha.Hmalloc

open Framework

/-- A block as the allocator means it: where its header stands, its usable bytes, its state. -/
structure Block where
  addr : Nat
  size : Nat
  free : Bool
deriving DecidableEq

namespace Block

variable (b : Block)

def payload : Nat := b.addr + 25
def foot : Nat := b.addr + 25 + b.size
def stop : Nat := b.addr + 33 + b.size

/-- The bytes of a block other than its list link. -/
def OwnByte (x : Nat) : Prop := InRange b.addr 9 x ∨ InRange (b.addr + 17) (b.size + 16) x

def PayloadByte (x : Nat) : Prop := InRange b.payload b.size x

end Block

/-- The header and footer of `b` in memory agree with each other and with `b`. -/
structure Stored (h : Heap) (b : Block) : Prop where
  isFree : h.isFree b.addr = b.free
  sizeBytes : h.sizeBytes b.addr = b.size
  footer : h.footer b.addr = b.foot
  header : h.header b.foot = b.addr

def Tiles : Nat → List Block → Nat → Prop
  | s, [], e => s = e
  | s, b :: bs, e => b.addr = s ∧ Tiles b.stop bs e

structure Layout (h : Heap) (bs : List Block) : Prop where
  initialized : h.heapInitialized = true
  start_pos : 0 < h.firstAvailableVaddr
  tiles : Tiles h.firstAvailableVaddr bs (h.lastFooter + 8)
  top : h.lastFooter + 8 ≤ 2 ^ 64
  stored : ∀ b ∈ bs, Stored h b

/-- The nodes of the free list, in address order with room for a block between them. -/
structure FreeList (h : Heap) (fs : List Nat) : Prop where
  links : Segment h.next h.freeRegions fs 0
  sorted : fs.Pairwise fun a b => a + 33 ≤ b
  inside : ∀ a ∈ fs, 0 < a ∧ a + 25 ≤ h.lastFooter

def freeAddrs (bs : List Block) : List Nat := (bs.filter (·.free)).map (·.addr)

def liveBlocks (bs : List Block) : List Block := bs.filter (!·.free)

def NoAdjacentFree (bs : List Block) : Prop :=
  bs.IsChain fun b c => ¬ (b.free = true ∧ c.free = true)

structure WellFormed (h : Heap) (bs : List Block) : Prop where
  nonempty : bs ≠ []
  layout : Layout h bs
  freeList : FreeList h (freeAddrs bs)
  coalesced : NoAdjacentFree bs

@[simp] theorem tiles_nil (s e : Nat) : Tiles s [] e ↔ s=e := Iff.rfl

@[simp] theorem tiles_cons (s e : Nat) (b : Block) (bs : List Block) :
    Tiles s (b::bs) e ↔ b.addr=s ∧ Tiles b.stop bs e := Iff.rfl

theorem tiles_append (s e : Nat) (xs ys : List Block) :
    Tiles s (xs++ys) e ↔ ∃ t, Tiles s xs t ∧ Tiles t ys e := by
  induction xs generalizing s with
  | nil => simp
  | cons b xs ih =>
    simp only [List.cons_append,tiles_cons,ih]
    constructor
    · rintro ⟨hb,t,hxs,hys⟩
      exact ⟨t,⟨hb,hxs⟩,hys⟩
    · rintro ⟨t,⟨hb,hxs⟩,hys⟩
      exact ⟨hb,t,hxs,hys⟩

variable {s e : Nat}

theorem Tiles.le {bs : List Block} (h : Tiles s bs e) : s≤e := by
  induction bs generalizing s with
  | nil => exact le_of_eq h
  | cons b bs ih =>
    have hb := h.1
    have hrest := ih h.2
    unfold Block.stop at hrest
    omega

theorem Tiles.bounds {bs : List Block} (h : Tiles s bs e) {b : Block}
    (hb : b∈bs) : s≤b.addr ∧ b.stop≤e := by
  induction bs generalizing s with
  | nil => simp at hb
  | cons c bs ih =>
    obtain ⟨hc,hrest⟩ := h
    rcases List.mem_cons.mp hb with rfl | hb
    · exact ⟨hc.ge,hrest.le⟩
    · have hin := ih hrest hb
      unfold Block.stop at hin ⊢
      omega

theorem Tiles.sorted {bs : List Block} (h : Tiles s bs e) :
    bs.Pairwise fun b c => b.stop≤c.addr := by
  induction bs generalizing s with
  | nil => exact .nil
  | cons b bs ih =>
    refine .cons ?_ (ih h.2)
    intro c hc
    exact (h.2.bounds hc).1

theorem Tiles.apart {bs : List Block} (h : Tiles s bs e) {b c : Block}
    (hb : b∈bs) (hc : c∈bs) (hne : b≠c) : b.stop≤c.addr ∨ c.stop≤b.addr := by
  induction bs generalizing s with
  | nil => simp at hb
  | cons d bs ih =>
    rcases List.mem_cons.mp hb with rfl | hb' <;> rcases List.mem_cons.mp hc with rfl | hc'
    · exact absurd rfl hne
    · exact .inl (h.2.bounds hc').1
    · exact .inr (h.2.bounds hb').1
    · exact ih h.2 hb' hc'

structure SameRegion (h h' : Heap) : Prop where
  initialized : h'.heapInitialized = h.heapInitialized
  first : h'.firstAvailableVaddr = h.firstAvailableVaddr
  last : h'.lastFooter = h.lastFooter

def Untouched (h h' : Heap) (b : Block) : Prop := ∀ x, b.OwnByte x → h'.mem x = h.mem x

def LinkByte (cs : List Nat) (x : Nat) : Prop := ∃ c ∈ cs, InRange (c + 9) 8 x

section Steps

variable {h h' h'' : Heap}

theorem SameRegion.refl (h : Heap) : SameRegion h h := ⟨rfl,rfl,rfl⟩

theorem SameRegion.trans (h₁ : SameRegion h h') (h₂ : SameRegion h' h'') : SameRegion h h'' :=
  ⟨h₂.initialized.trans h₁.initialized,h₂.first.trans h₁.first,h₂.last.trans h₁.last⟩

theorem Untouched.refl (h : Heap) (b : Block) : Untouched h h b := fun _ _ => rfl

theorem Untouched.trans {b : Block} (h₁ : Untouched h h' b) (h₂ : Untouched h' h'' b) :
    Untouched h h'' b := fun x hx => (h₂ x hx).trans (h₁ x hx)

theorem Untouched.of_agree {p : Nat → Prop} {b : Block} (hag : AgreeOff p h.mem h'.mem)
    (hb : ∀ x, p x → ¬ b.OwnByte x) : Untouched h h' b :=
  fun x hx => hag x fun hp => hb x hp hx

theorem Block.PayloadByte.own {b : Block} {x : Nat} (hx : b.PayloadByte x) : b.OwnByte x := by
  unfold Block.PayloadByte Block.payload InRange at hx
  unfold Block.OwnByte InRange
  omega

theorem next_of_agree {p : Nat → Prop} (hag : AgreeOff p h.mem h'.mem) (a : Nat)
    (ha : ∀ x, p x → ¬ InRange (a + 9) 8 x) : h'.next a=h.next a :=
  hag.load64 (a+9) ha

/-- A step that may change a block's flag, but no other byte of it, list link apart. -/
theorem Stored.of_flag {b : Block} {f : Bool} (hs : Stored h b)
    (hu : ∀ x, b.OwnByte x → x≠b.addr → h'.mem x=h.mem x) (hf : h'.isFree b.addr=f) :
    Stored h' { b with free := f } := by
  have hload (a : Nat) (ha : ∀ x, InRange a 8 x → b.OwnByte x ∧ x≠b.addr) :
      load64 h'.mem a=load64 h.mem a :=
    loadBytes_congr a 8 fun x hx => hu x (ha x hx).1 (ha x hx).2
  refine ⟨hf,?_,?_,?_⟩
  · rw [Heap.sizeBytes,hload]
    · exact hs.sizeBytes
    · intro x hx
      simp only [InRange] at hx
      exact ⟨.inl ⟨by omega,by omega⟩,by omega⟩
  · rw [Heap.footer,hload]
    · exact hs.footer
    · intro x hx
      simp only [InRange] at hx
      exact ⟨.inr ⟨by omega,by omega⟩,by omega⟩
  · rw [Heap.header,hload]
    · exact hs.header
    · intro x hx
      simp only [Block.foot,InRange] at hx
      exact ⟨.inr ⟨by omega,by omega⟩,by omega⟩

theorem Stored.of_untouched {b : Block} (hs : Stored h b) (hu : Untouched h h' b) :
    Stored h' b := by
  have hbyte : h'.mem b.addr=h.mem b.addr := hu b.addr (.inl ⟨by omega,by omega⟩)
  exact hs.of_flag (fun x hx _ => hu x hx) (by simpa only [Heap.isFree,hbyte] using hs.isFree)

theorem not_own_of_link {bs : List Block} (ht : Tiles s bs e) {b d : Block}
    (hb : b∈bs) (hd : d∈bs) {x : Nat} (hx : InRange (d.addr + 9) 8 x) : ¬ b.OwnByte x := by
  intro hown
  unfold Block.OwnByte InRange at hown
  unfold InRange at hx
  by_cases hbd : b=d
  · subst hbd
    omega
  · have hap := ht.apart hb hd hbd
    unfold Block.stop at hap
    omega

theorem untouched_of_links {bs : List Block} {cs : List Nat} (ht : Tiles s bs e)
    (hag : AgreeOff (LinkByte cs) h.mem h'.mem) (hcs : ∀ c∈cs, ∃ d∈bs, d.addr=c) {b : Block}
    (hb : b∈bs) : Untouched h h' b := by
  apply Untouched.of_agree hag
  rintro x ⟨c,hc,hx⟩
  obtain ⟨d,hd,rfl⟩ := hcs c hc
  exact not_own_of_link ht hb hd hx

/-- Replace consecutive blocks by others that fill the same range. -/
theorem Layout.replace {xs mid mid' ys : List Block} (hl : Layout h (xs++mid++ys))
    (hsame : SameRegion h h') (htile : ∀ s e, Tiles s mid e → Tiles s mid' e)
    (hmid : ∀ b∈mid', Stored h' b) (hu : ∀ b∈xs++ys, Untouched h h' b) :
    Layout h' (xs++mid'++ys) := by
  refine ⟨hsame.initialized.trans hl.initialized,hsame.first ▸ hl.start_pos,?_,
    hsame.last ▸ hl.top,?_⟩
  · have ht := hl.tiles
    rw [hsame.first,hsame.last]
    simp only [tiles_append] at ht ⊢
    obtain ⟨t,⟨r,hxs,hm⟩,hys⟩ := ht
    exact ⟨t,⟨r,hxs,htile r t hm⟩,hys⟩
  · intro b hb
    simp only [List.mem_append] at hb
    rcases hb with (hb | hb) | hb
    · exact (hl.stored b (by simp [hb])).of_untouched (hu b (by simp [hb]))
    · exact hmid b hb
    · exact (hl.stored b (by simp [hb])).of_untouched (hu b (by simp [hb]))

theorem Layout.of_untouched {bs : List Block} (hl : Layout h bs) (hsame : SameRegion h h')
    (hu : ∀ b∈bs, Untouched h h' b) : Layout h' bs := by
  have hl' : Layout h (bs++[]++[]) := by simpa using hl
  simpa using hl'.replace hsame (fun _ _ ht => ht) (by simp) (by simpa using hu)

end Steps

def Bookkeeping (bs : List Block) (x : Nat) : Prop :=
  ∃ d ∈ bs, InRange d.addr 25 x ∨ InRange d.foot 8 x

theorem Tiles.not_bookkeeping {bs : List Block} (ht : Tiles s bs e) {b : Block}
    (hb : b∈bs) {x : Nat} (hx : b.PayloadByte x) : ¬ Bookkeeping bs x := by
  rintro ⟨d,hd,hin⟩
  unfold Block.PayloadByte Block.payload InRange at hx
  unfold Block.foot InRange at hin
  by_cases hbd : b=d
  · subst hbd
    omega
  · have hap := ht.apart hb hd hbd
    unfold Block.stop at hap
    omega

section Around

variable {h : Heap} {xs ys : List Block} {b : Block}

theorem Layout.bounds (hl : Layout h (xs++b::ys)) :
    h.firstAvailableVaddr≤b.addr ∧ b.stop≤h.lastFooter + 8 :=
  hl.tiles.bounds (by simp)

theorem Layout.before (hl : Layout h (xs++b::ys)) {c : Block} (hc : c∈xs) :
    c.stop≤b.addr := by
  have hs := List.pairwise_append.mp hl.tiles.sorted
  exact hs.2.2 c hc b (by simp)

theorem Layout.behind (hl : Layout h (xs++b::ys)) {c : Block} (hc : c∈ys) :
    b.stop≤c.addr := by
  have hs := List.pairwise_append.mp hl.tiles.sorted
  exact List.rel_of_pairwise_cons hs.2.1 hc

/-- Bytes written inside the middle blocks, and list links, touch no block around them. -/
theorem Layout.untouched_around {h' : Heap} {p : Nat → Prop} {mid : List Block}
    (hl : Layout h (xs++mid++ys)) (cs : List Nat) (hag : AgreeOff p h.mem h'.mem)
    (hp : ∀ x, p x → (∃ b∈mid, InRange b.addr (b.size + 33) x) ∨ LinkByte cs x)
    (hcs : ∀ c∈cs, ∃ d∈xs++mid++ys, d.addr=c) :
    ∀ c∈xs++ys, Untouched h h' c := by
  intro c hc
  apply Untouched.of_agree hag
  intro x hx hown
  rcases hp x hx with ⟨b,hb,hin⟩ | hlink
  · have hapart : c.stop≤b.addr ∨ b.stop≤c.addr := by
      have hs := hl.tiles.sorted
      simp only [List.pairwise_append,List.mem_append] at hs hc
      rcases hc with hc | hc
      · exact .inl (hs.1.2.2 c hc b hb)
      · exact .inr (hs.2.2 b (.inr hb) c hc)
    unfold InRange at hin
    unfold Block.OwnByte InRange at hown
    unfold Block.stop at hapart
    omega
  · obtain ⟨a,ha,hin⟩ := hlink
    obtain ⟨d,hd,rfl⟩ := hcs a ha
    have hc' : c∈xs++mid++ys := by
      simp only [List.mem_append] at hc ⊢
      tauto
    exact not_own_of_link hl.tiles hc' hd hin hown

end Around

theorem mem_freeAddrs {a : Nat} {bs : List Block} :
    a∈freeAddrs bs ↔ ∃ b∈bs, b.free=true ∧ b.addr=a := by
  simp [freeAddrs,and_assoc]

@[simp] theorem freeAddrs_append (xs ys : List Block) :
    freeAddrs (xs++ys)=freeAddrs xs++freeAddrs ys := by
  simp [freeAddrs]

theorem freeAddrs_cons (b : Block) (bs : List Block) :
    freeAddrs (b::bs)=if b.free then b.addr::freeAddrs bs else freeAddrs bs := by
  cases hb : b.free <;> simp [freeAddrs,hb]

@[simp] theorem liveBlocks_append (xs ys : List Block) :
    liveBlocks (xs++ys)=liveBlocks xs++liveBlocks ys := by
  simp [liveBlocks]

theorem liveBlocks_cons (b : Block) (bs : List Block) :
    liveBlocks (b::bs)=if b.free then liveBlocks bs else b::liveBlocks bs := by
  cases hb : b.free <;> simp [liveBlocks,hb]

end Hojicha.Hmalloc
