import OSLab.Done.Dir
import OSLab.Optimize.Layout

/-!
# Listing a directory (Lab4_Template_Optimize/dir.c)

`osfs_iterate`. The directory context is the one of the sibling module; a
refused entry ends the loop, and the result is 0 in every case.
-/

namespace OSLab.Optimize
open OSLab.Base OSLab.Kernel
open OSLab.Done (Emitted dirEmitDots)

/- The loop of `dir.c:73-77` over the `n` entries from index `i` on. -/
def osfsIterateLoop : ℕ → ℕ → ℤ → ℕ → List Emitted × ℕ
  | 0, _, _, pos => ([], pos)
  | _ + 1, 0, _, pos => ([], pos)
  | n + 1, room + 1, i, pos =>
    let (es, pos) := osfsIterateLoop n room (i + 1) (pos + 1)
    (.entry i :: es, pos)

/- `dir.c:61-79`; `i` is an `int`, so a position below 2 gives a negative index. -/
def osfsIterate (fs : Fs) (dir : InodePtr) (room pos : ℕ) : List Emitted × ℕ :=
  let ino := (fs.icache.inode dir).iPrivate
  let (dots, pos, ok) := if pos = 0 then dirEmitDots room pos else ([], pos, true)
  if !ok then (dots, pos)
  else
    let i : ℤ := (pos : ℤ) - 2
    let n := ((fs.sb.dirEntryCount ino : ℤ) - i).toNat
    let (es, pos) := osfsIterateLoop n (room - dots.length) i pos
    (dots ++ es, pos)

/- The file name of entry `i`, up to its terminator. -/
def OsfsSbInfo.entryName (sb : OsfsSbInfo) (ino i : ℕ) : Bytes :=
  sb.dataBlocks.load (sb.entryAddr ino i)
    ((strlen sb.dataBlocks DATA_AREA (sb.entryAddr ino i)).getD 0)

/- What `dir_emit` gets for an index of the directory's extent. -/
def OsfsSbInfo.emitted (sb : OsfsSbInfo) (d : ℕ) : Emitted → Option (Bytes × ℕ)
  | .entry i => if 0 ≤ i then some (sb.entryName d i.toNat, sb.entryInodeNo d i.toNat) else none
  | _ => none

/-- The two loops differ only in the result of a refused entry. -/
theorem osfsIterateLoop_done (n room : ℕ) (i : ℤ) (pos : ℕ) :
    osfsIterateLoop n room i pos = (Done.osfsIterateLoop n room i pos).2 := by
  induction n generalizing room i pos with
  | zero => rfl
  | succ n ih =>
    cases room with
    | zero => rfl
    | succ room => simp only [osfsIterateLoop, Done.osfsIterateLoop, ih]

end OSLab.Optimize
