import Mathlib.Tactic

/-!
# The bitmap

A translation of `kernel/utils/bitmap.c`. An access outside of the storage is `none`. The bounds
equal `bit_count` when no bit is clear.
-/

namespace Hojicha.Utils

abbrev Byte := BitVec 8

structure Bitmap where
  /-- `none` for `NULL`. -/
  storage : Option (List Byte)
  bitCount : Nat
  byteCount : Nat
  lowestClearIdx : Nat
  highestClearIdx : Nat
deriving DecidableEq

/-- The sum is a `uint64_t`. -/
def bitmapStorageSize (bitCount : Nat) : Nat := (bitCount + 7) % 2 ^ 64 / 8

def fillPrefix (st : List Byte) (n : Nat) (v : Byte) : Option (List Byte) :=
  if n ≤ st.length then some (List.replicate n v ++ st.drop n) else none

def bitmapInit (storage : Option (List Byte)) (bitCount : Nat) (defaultSet : Bool) :
    Option Bitmap :=
  let bitmap : Bitmap := ⟨storage, bitCount, bitmapStorageSize bitCount, bitCount, bitCount⟩
  match storage with
  | none => some bitmap
  | some st =>
    if bitCount = 0 then some bitmap
    else do
      let st ← fillPrefix st bitmap.byteCount (if defaultSet then 0xFF else 0)
      let bitmap := { bitmap with storage := some st }
      return if !defaultSet then { bitmap with lowestClearIdx := 0, highestClearIdx := bitCount - 1 }
        else bitmap

def bitMask (idx : Nat) : Byte := 1#8 <<< (idx % 8)

def bitmapGet (b : Bitmap) (idx : Nat) : Option Bool :=
  match b.storage with
  | none => some false
  | some st => if idx ≥ b.bitCount then some false else (st[idx / 8]?).map fun byte =>
      byte &&& bitMask idx != 0

/-- The first `idx` from `0` up with `~(num >> idx) & 1`, or `7`. -/
def bitmapGetLowestZeroBit (num : Byte) : Nat :=
  ((List.range 8).find? fun idx => ~~~(num >>> idx) &&& 1#8 != 0).getD 7

/-- The first `idx` from `7` down with `~(num >> idx) & 1`, or `0`. -/
def bitmapGetHighestZeroBit (num : Byte) : Nat :=
  ((List.range 8).reverse.find? fun idx => ~~~(num >>> idx) &&& 1#8 != 0).getD 0

/-- `byte |= (1 << bit) - 1` hides the bits below `bit`. -/
def hideBelow (byte : Byte) (bit : Nat) : Byte := byte ||| ((1#8 <<< bit) - 1#8)

/-- `if (bit < 7) byte |= 0xFF << (bit + 1)` hides the bits above `bit`. -/
def hideAbove (byte : Byte) (bit : Nat) : Byte :=
  if bit < 7 then byte ||| (0xFF#8 <<< (bit + 1)) else byte

/-- The loop of `bitmap_find_clear_forward` over the next `n` bytes. -/
def forwardLoop (st : List Byte) (start end_ : Nat) : Nat → Nat → Option (Option Nat)
  | 0, _ => some none
  | n + 1, byteIdx => do
    let byte ← st[byteIdx]?
    let byte := if byteIdx = start / 8 then hideBelow byte (start % 8) else byte
    let byte := if byteIdx = end_ / 8 then hideAbove byte (end_ % 8) else byte
    if byte ≠ 0xFF then return some (byteIdx * 8 + bitmapGetLowestZeroBit byte)
    else forwardLoop st start end_ n (byteIdx + 1)

/-- The outer `Option` is the access, the inner one the result and `*out`. -/
def bitmapFindClearForward (b : Bitmap) (start end_ : Nat) : Option (Option Nat) :=
  if start > end_ ∨ start ≥ b.bitCount then some none
  else do
    let end_ := if end_ ≥ b.bitCount then b.bitCount - 1 else end_
    let st ← b.storage
    forwardLoop st start end_ (end_ / 8 + 1 - start / 8) (start / 8)

/-- The loop of `bitmap_find_clear_backward` over the next `n` bytes. -/
def backwardLoop (st : List Byte) (start end_ : Nat) : Nat → Nat → Option (Option Nat)
  | 0, _ => some none
  | n + 1, byteIdx => do
    let byte ← st[byteIdx]?
    let byte := if byteIdx = start / 8 then hideAbove byte (start % 8) else byte
    let byte := if byteIdx = end_ / 8 then hideBelow byte (end_ % 8) else byte
    if byte ≠ 0xFF then return some (byteIdx * 8 + bitmapGetHighestZeroBit byte)
    else backwardLoop st start end_ n (byteIdx - 1)

def bitmapFindClearBackward (b : Bitmap) (start end_ : Nat) : Option (Option Nat) :=
  if start < end_ ∨ end_ ≥ b.bitCount then some none
  else do
    let start := if start ≥ b.bitCount then b.bitCount - 1 else start
    let st ← b.storage
    backwardLoop st start end_ (start / 8 + 1 - end_ / 8) (start / 8)

def bitmapFindClear (b : Bitmap) : Option (Option Nat) :=
  if b.storage = none ∨ b.lowestClearIdx ≥ b.bitCount ∨ b.highestClearIdx ≥ b.bitCount then
    some none
  else bitmapFindClearForward b b.lowestClearIdx b.highestClearIdx

def noneClear (b : Bitmap) : Bitmap :=
  { b with lowestClearIdx := b.bitCount, highestClearIdx := b.bitCount }

/-- The second half of `bitmap_refresh_bounds_after_set`. -/
def refreshHighest (b : Bitmap) (idx : Nat) : Option Bitmap :=
  if idx = b.highestClearIdx then
    if idx > 0 then do
      match ← bitmapFindClearBackward b (idx - 1) b.lowestClearIdx with
      | some prev => return { b with highestClearIdx := prev }
      | none => return noneClear b
    else some (noneClear b)
  else some b

def bitmapRefreshBoundsAfterSet (b : Bitmap) (idx : Nat) : Option Bitmap :=
  if b.lowestClearIdx ≥ b.bitCount ∨ b.highestClearIdx ≥ b.bitCount then some b
  else if idx = b.lowestClearIdx then do
    match ← bitmapFindClearForward b ((idx + 1) % 2 ^ 64) b.highestClearIdx with
    | some next => refreshHighest { b with lowestClearIdx := next } idx
    | none => return noneClear b
  else refreshHighest b idx

def modifyByte (b : Bitmap) (i : Nat) (f : Byte → Byte) : Option Bitmap := do
  let st ← b.storage
  let byte ← st[i]?
  return { b with storage := some (st.set i (f byte)) }

def bitmapSet (b : Bitmap) (idx : Nat) : Option (Bool × Bitmap) :=
  if b.storage = none ∨ idx ≥ b.bitCount then some (false, b)
  else do
    if ← bitmapGet b idx then return (true, b)
    let b ← modifyByte b (idx / 8) fun byte => byte ||| bitMask idx
    let b ← bitmapRefreshBoundsAfterSet b idx
    return (true, b)

def bitmapClear (b : Bitmap) (idx : Nat) : Option (Bool × Bitmap) :=
  if b.storage = none ∨ idx ≥ b.bitCount then some (false, b)
  else do
    if !(← bitmapGet b idx) then return (true, b)
    let b ← modifyByte b (idx / 8) fun byte => byte &&& ~~~(bitMask idx)
    if b.lowestClearIdx ≥ b.bitCount ∨ b.highestClearIdx ≥ b.bitCount then
      return (true, { b with lowestClearIdx := idx, highestClearIdx := idx })
    let b := if idx < b.lowestClearIdx then { b with lowestClearIdx := idx } else b
    let b := if idx > b.highestClearIdx then { b with highestClearIdx := idx } else b
    return (true, b)

end Hojicha.Utils
