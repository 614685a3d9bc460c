import Hojicha.Fs.FileContents
import Hojicha.Fs.Getdents

/-!
# Seek positions

`initrd_seek`, `dir_seek` of `kernel/fs/devfs.c` and `fb_seek` of `kernel/dev/fb.c` compute the new
position in their own ways. The first two add in `int64_t`, and their sum can wrap around.
-/

namespace Hojicha.Fs

variable {len pos : Nat} {offset : Int} {whence : Whence} {file : File}

def seekDir (s : Vfs) (offset : Int) (whence : Whence) (dir : OpenDir) : OpenDir :=
  let pos := seekPosition (s.node dir.vnode).len offset whence ⟨0, dir.offset⟩
  { dir with current := followChain s pos (s.node dir.vnode).children.head?, offset := pos }

def seekOffset (origin : Nat) (offset : Int) (limit : Nat) : Nat :=
  if offset < 0 then
    let delta := (-(offset + 1)).toNat + 1
    if delta > origin then 0 else origin - delta
  else if offset.toNat > 2 ^ 64 - 1 - origin then limit
  else if origin + offset.toNat > limit then limit
  else origin + offset.toNat

/-- `size` is `fb_size()`. -/
def fbSeek (size : Nat) (offset : Int) (whence : Whence) (file : File) : Reply × File :=
  let at_ (origin : Nat) : Reply × File :=
    let target := seekOffset origin offset size
    (⟨.ok, [], target⟩, { file with offset := target })
  match whence with
  | .set => at_ 0
  | .cur => at_ file.offset
  | .end_ => at_ size
  | .other => (.fail .invalidArg, file)

private theorem seekOrigin_le (hpos : pos≤len) : seekOrigin len pos whence≤len := by
  cases whence <;> simp [seekOrigin,hpos]

private theorem seekOffset_clamps {origin : Nat} (horigin : origin≤len) (hlen : len<2 ^ 63)
    (hto : offset<2 ^ 63) :
    seekOffset origin offset len=(max 0 (min (origin + offset) len)).toNat := by
  grind [seekOffset]

private theorem fbSeek_clamps (hto : offset<2 ^ 63) (hlen : len<2 ^ 63) (hpos : file.offset≤len)
    (hwhence : whence ≠ .other) :
    (fbSeek len offset whence file).2.offset=clampedPosition len file.offset offset whence := by
  have horigin : seekOrigin len file.offset whence≤len := seekOrigin_le hpos
  have hclamps := seekOffset_clamps horigin hlen hto
  cases whence with
  | other => exact absurd rfl hwhence
  | set => exact hclamps
  | cur => exact hclamps
  | end_ => exact hclamps

/-- The framebuffer clamps every seek; files and directories do unless the sum leaves `int64_t`. -/
theorem seeks_clamp_iff (s : Vfs) (dir : OpenDir) (node : Inode) (hfrom : -2 ^ 63 ≤ offset)
    (hto : offset < 2 ^ 63) (hlen : node.len < 2 ^ 63) (hsame : (s.node dir.vnode).len = node.len)
    (hpos : file.offset ≤ node.len) (hdir : dir.offset = file.offset) (hwhence : whence ≠ .other) :
    (fbSeek node.len offset whence file).2.offset =
        clampedPosition node.len file.offset offset whence ∧
      ((initrdSeek offset whence file node).2.offset =
          clampedPosition node.len file.offset offset whence ∧
        (seekDir s offset whence dir).offset =
          clampedPosition node.len file.offset offset whence ↔
        seekOrigin node.len file.offset whence + offset < 2 ^ 63) := by
  have horigin : seekOrigin node.len file.offset whence≤node.len := seekOrigin_le hpos
  have hiff : seekPosition node.len offset whence file=_ ↔ _ :=
    (seekPosition_clamps_iff hfrom hto hlen (hpos.trans_lt hlen)).trans
      (or_iff_left_of_imp fun hzero => by omega)
  have hsame' : (seekDir s offset whence dir).offset =
      seekPosition node.len offset whence ⟨0,file.offset⟩ := by simp [seekDir,hsame,hdir]
  have hfile : seekPosition node.len offset whence ⟨0,file.offset⟩ =
      seekPosition node.len offset whence file := by cases whence <;> rfl
  refine ⟨fbSeek_clamps hto hlen hpos hwhence,?_⟩
  rw [hsame',hfile,← hiff]
  exact ⟨And.left,fun h => ⟨h,h⟩⟩

theorem seeks_clamp_smallTree :
    (fbSeek 3 (-7) .end_ ⟨0, 2⟩).2.offset = clampedPosition 3 2 (-7) .end_ ∧
      ((initrdSeek (-7) .end_ ⟨0, 2⟩ ⟨[104, 105, 33], 3, ⟨0, 0, 0⟩, ⟨0, 0, 0⟩⟩).2.offset =
          clampedPosition 3 2 (-7) .end_ ∧
        (seekDir smallTree (-7) .end_ ⟨0, none, 2⟩).offset = clampedPosition 3 2 (-7) .end_ ↔
        seekOrigin 3 2 .end_ + (-7 : Int) < 2 ^ 63) :=
  seeks_clamp_iff smallTree ⟨0,none,2⟩ ⟨[104,105,33],3,⟨0,0,0⟩,⟨0,0,0⟩⟩ (by decide)
    (by decide) (by decide) rfl (by decide) rfl (by decide)

/-- A seek far beyond the end of a file leads to its start. -/
theorem seek_wraps_to_start :
    (initrdSeek (2 ^ 63 - 1) .cur ⟨0, 1⟩ ⟨[104], 1, ⟨0, 0, 0⟩, ⟨0, 0, 0⟩⟩).2.offset = 0 ∧
      clampedPosition 1 1 (2 ^ 63 - 1) .cur = 1 := by
  decide

end Hojicha.Fs
