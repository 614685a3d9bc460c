import Hojicha.Framework.Run
import Mathlib.Data.BitVec

/-!
# The ring buffer

A translation of `kernel/utils/ringbuffer.c`, its locks apart. Positions are 0 before the first
access and between 1 and `size` from then on. An access outside of the allocation is `none`.
-/

namespace Hojicha.Utils

open Framework List

structure Ringbuffer (α : Type) where
  buf : List α
  readPos : Nat
  writePos : Nat
  size : Nat
  deriving DecidableEq

variable {α : Type}

/-- The slots in `(size + 1) * sizeof(void*)` bytes. -/
def ringbufferSlots (size : BitVec 64) : Nat := ((size + 1) * 8).toNat / 8

/-- `granted` says whether there is memory for both allocations. -/
def ringbufferNew [Inhabited α] (size : BitVec 64) (granted : Bool) : Option (Ringbuffer α) :=
  if granted then some ⟨replicate (ringbufferSlots size) default, 0, 0, size.toNat⟩ else none

def ringbufferWrite (r : Ringbuffer α) (value : α) : Option (Ringbuffer α) :=
  let pos := if r.writePos = 0 then 1 else r.writePos
  if pos < r.buf.length then
    some { r with
      buf := r.buf.set pos value
      writePos := if r.size < pos + 1 then 1 else pos + 1 }
  else none

def ringbufferRead (r : Ringbuffer α) : Option (Option α × Ringbuffer α) :=
  if r.readPos = r.writePos then some (none, r)
  else
    let pos := if r.readPos = 0 then 1 else r.readPos
    r.buf[pos]?.map fun value =>
      (some value, { r with readPos := if r.size < pos + 1 then 1 else pos + 1 })

inductive RingOp (α : Type)
  | write (value : α)
  | read

structure RingRun (α : Type) where
  ring : Ringbuffer α
  written : List α
  replies : List (Option α)

def RingRun.step (s : RingRun α) : RingOp α → Option (RingRun α)
  | .write value =>
    (ringbufferWrite s.ring value).map fun ring => ⟨ring, s.written ++ [value], s.replies⟩
  | .read => (ringbufferRead s.ring).map fun (reply, ring) => ⟨ring, s.written, s.replies ++ [reply]⟩

def Ringbuffer.slot (r : Ringbuffer α) (i : Nat) : Nat :=
  if r.readPos - 1 + i < r.size then r.readPos - 1 + i + 1 else r.readPos - 1 + i + 1 - r.size

/-- The values that reads are going to return. All slots can be in use before the first read. -/
structure Ringbuffer.Holds (r : Ringbuffer α) (q : List α) : Prop where
  size : 1 ≤ r.size
  slots : r.buf.length = r.size + 1
  pos : r.readPos ≤ r.size
  write : r.writePos = if r.readPos = 0 ∧ q.length = 0 then 0 else r.slot q.length
  room : q.length < r.size ∨ r.readPos = 0 ∧ q.length = r.size
  values : ∀ i < q.length, r.buf[r.slot i]? = q[i]?

variable {r : Ringbuffer α} {q : List α} {s : RingRun α} {size : BitVec 64} {granted : Bool}

theorem ringbufferSlots_eq (size : BitVec 64) :
    ringbufferSlots size=(size.toNat + 1) % 2 ^ 61 := by
  have h : ((size+1) * 8).toNat=(size.toNat+1) % 2 ^ 64 * 8 % 2 ^ 64 := by
    rw [BitVec.toNat_mul,BitVec.toNat_add]
    rfl
  rw [ringbufferSlots,h]
  omega

theorem holds_new [Inhabited α] (hnew : ringbufferNew size granted=some r)
    (hsize : 1 ≤ size.toNat) (hfit : size.toNat + 1<2 ^ 61) :
    r.Holds [] := by
  have hslots := ringbufferSlots_eq size
  rw [Nat.mod_eq_of_lt hfit] at hslots
  obtain ⟨-,rfl⟩ : granted=true ∧ _=r := by simpa [ringbufferNew] using hnew
  exact ⟨hsize,by simp [hslots],by simp,by simp,.inl hsize,by simp⟩

/-- A write adds a value behind the unread ones, unless all slots are in use or the reader would
not tell that they are: the unread values are then lost. -/
theorem Ringbuffer.Holds.write_spec (h : r.Holds q) (value : α) :
    ∃ r', ringbufferWrite r value=some r' ∧
      (q.length + 1<r.size ∨ r.readPos=0 ∧ q.length<r.size → r'.Holds (q++[value])) ∧
      (r.readPos≠0 ∧ q.length + 1=r.size → r'.Holds []) ∧
      (r.readPos=0 ∧ q.length=r.size → r'.Holds [value]) := by
  obtain ⟨hsize,hslots,hpos,hwrite,hroom,hvalues⟩ := h
  have hat : (if r.writePos=0 then 1 else r.writePos)=r.slot q.length := by grind [slot]
  have hbound : r.slot q.length<r.buf.length := by grind [slot]
  let r' : Ringbuffer α := { r with
    buf := r.buf.set (r.slot q.length) value
    writePos := if r.size<r.slot q.length+1 then 1 else r.slot q.length+1 }
  have hslots' : r'.buf.length=r'.size+1 := by simp [r',hslots]
  refine ⟨r',by rw [ringbufferWrite,hat,if_pos hbound],?_,?_,?_⟩
  · intro hlen
    refine ⟨hsize,hslots',hpos,by grind [slot],by grind,?_⟩
    intro i hi
    change (r.buf.set (r.slot q.length) value)[r.slot i]? = _
    by_cases hlast : i=q.length
    · simp [hlast,hbound]
    · have hlt : i<q.length := by grind
      have hne : r.slot q.length≠r.slot i := by grind [slot]
      rw [getElem?_set_ne hne,hvalues i hlt,getElem?_append_left hlt]
  · intro hlen
    exact ⟨hsize,hslots',hpos,by grind [slot],.inl hsize,by simp⟩
  · intro hlen
    refine ⟨hsize,hslots',hpos,by grind [slot],by grind,?_⟩
    intro i hi
    obtain rfl : i=0 := by simpa using hi
    have hfirst : r.slot 0=r.slot q.length := by grind [slot]
    change (r.buf.set (r.slot q.length) value)[r.slot 0]? = _
    simp [hfirst,hbound]

theorem Ringbuffer.Holds.read_spec (h : r.Holds q) :
    ∃ r', ringbufferRead r=some (q.head?, r') ∧ r'.Holds q.tail := by
  obtain ⟨hsize,hslots,hpos,hwrite,hroom,hvalues⟩ := h
  cases q with
  | nil =>
    have heq : r.readPos=r.writePos := by grind [slot]
    exact ⟨r,by rw [ringbufferRead,if_pos heq]; rfl,hsize,hslots,hpos,hwrite,hroom,hvalues⟩
  | cons value q =>
    have hne : r.readPos≠r.writePos := by grind [slot]
    have hat : (if r.readPos=0 then 1 else r.readPos)=r.slot 0 := by grind [slot]
    have hvalue : r.buf[r.slot 0]? = some value := by simpa using hvalues 0 (by simp)
    let r' : Ringbuffer α := { r with
      readPos := if r.size<r.slot 0+1 then 1 else r.slot 0+1 }
    refine ⟨r',by simp [ringbufferRead,hne,hat,hvalue,r'],hsize,hslots,
      by grind [slot],by grind [slot],by grind [slot],?_⟩
    intro i hi
    have hnext : r'.slot i=r.slot (i+1) := by grind [slot]
    have hlt : i+1<(value::q).length := Nat.succ_lt_succ hi
    rw [hnext,tail_cons]
    exact hvalues (i+1) hlt

/-- Reads returned values in the order in which they were written, and go on with the unread ones. -/
theorem RingRun.step_ordered (h : s.ring.Holds q)
    (hsub : s.replies.filterMap id++q <+ s.written) (op : RingOp α) :
    ∃ s', s.step op=some s' ∧ ∃ q', s'.ring.Holds q' ∧
      s'.replies.filterMap id++q' <+ s'.written := by
  cases op with
  | write value =>
    obtain ⟨r',hrun,hkept,hlost,hfirst⟩ := h.write_spec value
    have hadd := hsub.append_right [value]
    rw [append_assoc] at hadd
    have hstep : s.step (.write value)=some ⟨r',s.written++[value],s.replies⟩ := by
      rw [RingRun.step,hrun]
      rfl
    -- what is unread behind the write ends the list of what could be
    obtain ⟨q',hq',hsuffix⟩ : ∃ q', r'.Holds q' ∧ q' <+ q++[value] := by
      by_cases hpos : s.ring.readPos=0
      · by_cases hfull : q.length=s.ring.size
        · exact ⟨_,hfirst ⟨hpos,hfull⟩,sublist_append_right _ _⟩
        · exact ⟨_,hkept (by have := h.room; omega),Sublist.refl _⟩
      · by_cases hfull : q.length+1=s.ring.size
        · exact ⟨_,hlost ⟨hpos,hfull⟩,nil_sublist _⟩
        · exact ⟨_,hkept (by have := h.room; omega),Sublist.refl _⟩
    exact ⟨_,hstep,q',hq',((Sublist.refl _).append hsuffix).trans hadd⟩
  | read =>
    obtain ⟨r',hrun,hholds⟩ := h.read_spec
    refine ⟨_,by rw [RingRun.step,hrun]; rfl,q.tail,hholds,?_⟩
    cases q <;> simpa using hsub

/-- Writes run out of a buffer that is too small before they come back to its start. -/
theorem writes_overrun (value : α) (k : Nat) (hsmall : s.ring.buf.length ≤ s.ring.size)
    (hpos : s.ring.writePos ≤ s.ring.buf.length) (hk : s.ring.buf.length<s.ring.writePos + k) :
    run RingRun.step s (replicate k (.write value))=none := by
  induction k generalizing s with
  | zero => omega
  | succ k ih =>
    simp only [replicate_succ,run,RingRun.step,ringbufferWrite]
    split_ifs
    all_goals first | rfl | apply ih <;> grind

/-- What the reads return is what was written with values left out, in every run, as long as the
size of the allocation does not wrap around. -/
theorem ring_reads_in_order_iff [Inhabited α] (hnew : ringbufferNew size granted = some r)
    (hsize : 1 ≤ size.toNat) :
    (∀ ops : List (RingOp α), ∃ s, run RingRun.step ⟨r, [], []⟩ ops = some s ∧
      s.replies.filterMap id <+ s.written) ↔ size.toNat + 1 < 2 ^ 61 := by
  constructor
  · intro hall
    by_contra hwrap
    obtain ⟨-,rfl⟩ : granted=true ∧ _=r := by simpa [ringbufferNew] using hnew
    obtain ⟨s,hs,-⟩ := hall (replicate (ringbufferSlots size+1) (.write default))
    have hslots := ringbufferSlots_eq size
    rw [writes_overrun _ _ (by grind) (by simp) (by simp)] at hs
    cases hs
  · intro hfit ops
    obtain ⟨s,hrun,q,-,hsub⟩ := run_invariant (s := ⟨r,[],[]⟩)
      (fun s : RingRun α => ∃ q, s.ring.Holds q ∧ s.replies.filterMap id++q <+ s.written)
      (fun s op ⟨q,hq,hsub⟩ _ => RingRun.step_ordered hq hsub op)
      ⟨[],holds_new hnew hsize hfit,by simp⟩ (permitted_of_forall (fun _ _ => trivial) ops)
    exact ⟨s,hrun,(sublist_append_left _ q).trans hsub⟩

theorem ring_reads_in_order_three : (∀ ops : List (RingOp Nat), ∃ s,
    run RingRun.step ⟨⟨replicate 4 0, 0, 0, 3⟩, [], []⟩ ops = some s ∧
      s.replies.filterMap id <+ s.written) ↔ (3 : BitVec 64).toNat + 1 < 2 ^ 61 :=
  ring_reads_in_order_iff (r := ⟨replicate 4 0,0,0,3⟩) (rfl : ringbufferNew 3 true=_)
    (by decide)

/-- For the largest sizes the allocation wraps around to nothing, and the first write misses it. -/
theorem ring_write_outside : ∃ r : Ringbuffer Nat, ringbufferNew (2 ^ 61 - 1) true = some r ∧
    run RingRun.step ⟨r, [], []⟩ [.write 7] = none :=
  ⟨_,rfl,by decide +kernel⟩

def RingRun.unread (s : RingRun α) : Nat := s.written.length - (s.replies.filterMap id).length

/-- A write finds a slot, and not the last one once a value has been read. -/
def RingRun.HasRoom (s : RingRun α) : RingOp α → Prop
  | .write _ => s.unread + 1 < s.ring.size ∨ s.ring.readPos = 0 ∧ s.unread < s.ring.size
  | .read => True

theorem RingRun.step_lossless (h : s.ring.Holds q)
    (heq : s.replies.filterMap id++q=s.written) (op : RingOp α) (hop : s.HasRoom op) :
    ∃ s', s.step op=some s' ∧ ∃ q', s'.ring.Holds q' ∧
      s'.replies.filterMap id++q'=s'.written := by
  cases op with
  | write value =>
    obtain ⟨r',hrun,hkept,-⟩ := h.write_spec value
    have hunread : s.unread=q.length := by simp [unread,← heq]
    rw [HasRoom,hunread] at hop
    exact ⟨_,by rw [RingRun.step,hrun]; rfl,q++[value],hkept hop,by simp [← heq]⟩
  | read =>
    obtain ⟨r',hrun,hholds⟩ := h.read_spec
    refine ⟨_,by rw [RingRun.step,hrun]; rfl,q.tail,hholds,?_⟩
    cases q <;> simpa using heq

/-- In a run whose writes find room, reads return the written values one by one, and the next read
returns the next one or fails because there is none. -/
theorem ring_lossless [Inhabited α] (hnew : ringbufferNew size granted = some r)
    (hsize : 1 ≤ size.toNat) (hfit : size.toNat + 1 < 2 ^ 61) (ops : List (RingOp α))
    (hroom : Permitted RingRun.step RingRun.HasRoom ⟨r, [], []⟩ ops) :
    ∃ s, run RingRun.step ⟨r, [], []⟩ ops = some s ∧ s.replies.filterMap id <+: s.written ∧
      ∃ r', ringbufferRead s.ring = some (s.written[(s.replies.filterMap id).length]?, r') := by
  obtain ⟨s,hrun,q,hq,heq⟩ := run_invariant
    (fun s : RingRun α => ∃ q, s.ring.Holds q ∧ s.replies.filterMap id++q=s.written)
    (fun s op ⟨q,hq,heq⟩ hop => RingRun.step_lossless hq heq op hop)
    ⟨[],holds_new hnew hsize hfit,by simp⟩ hroom
  obtain ⟨r',hread,-⟩ := hq.read_spec
  refine ⟨s,hrun,⟨q,heq⟩,r',?_⟩
  rw [hread,← heq,getElem?_append_right le_rfl,Nat.sub_self,head?_eq_getElem?]

theorem ring_lossless_full : ∃ s, run RingRun.step ⟨⟨replicate 3 0, 0, 0, 2⟩, [], []⟩
      [.write 1, .write 2, .read] = some s ∧ s.replies.filterMap id <+: s.written ∧
      ∃ r', ringbufferRead s.ring = some (s.written[(s.replies.filterMap id).length]?, r') :=
  ring_lossless (rfl : ringbufferNew 2 true=_) (by decide) (by decide) _ (by
    simp [Permitted,RingRun.step,RingRun.HasRoom,RingRun.unread,ringbufferWrite])

/-- With one slot, a value that is written behind the first read is unread and cannot be read. -/
theorem ring_full_looks_empty : ∃ r : Ringbuffer Nat, ringbufferNew 1 true = some r ∧
    (run RingRun.step ⟨r, [], []⟩ [.write 1, .read, .write 2, .read]).map
      (fun s => (s.written, s.replies)) = some ([1, 2], [some 1, none]) :=
  ⟨_,rfl,by decide⟩

end Hojicha.Utils
