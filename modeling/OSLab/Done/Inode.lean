import OSLab.Done.Layout

/-!
# Inode and block allocation (Lab4_Template_Done/inode.c, super.c:17-22)
-/

namespace OSLab.Done
open OSLab.Base OSLab.Kernel

/- The index of the slot; index 0 and those from `inode_count` on are refused. -/
def osfsGetOsfsInode (sb : OsfsSbInfo) (ino : ℕ) : Option ℕ :=
  if ino = 0 ∨ sb.inodeCount ≤ ino then none else some ino

/- `inode.c:33-46`; `none` is `-ENOSPC`. -/
def osfsGetFreeInode (sb : OsfsSbInfo) : Option (ℕ × OsfsSbInfo) :=
  (sb.inodeBitmap.findClear 1 (sb.inodeCount - 1)).map fun ino =>
    (ino, { sb with inodeBitmap := sb.inodeBitmap.set ino, nrFreeInodes := dec32 sb.nrFreeInodes })

/- `inode.c:108-122`; `none` is `-ENOSPC`. -/
def osfsAllocDataBlock (sb : OsfsSbInfo) : Option (ℕ × OsfsSbInfo) :=
  (sb.blockBitmap.findClear 0 sb.blockCount).map fun i =>
    (i, { sb with blockBitmap := sb.blockBitmap.set i, nrFreeBlocks := dec32 sb.nrFreeBlocks })

/- `inode.c:59-96`. -/
def osfsIget (env : Env) (fs : Fs) (ino : ℕ) : Except Errno InodePtr × Fs :=
  match osfsGetOsfsInode fs.sb ino with
  | none => (.error .EFAULT, fs)
  | some k =>
    match newInode env fs.icache with
    | none => (.error .ENOMEM, fs)
    | some (p, icache) =>
      let oi := fs.sb.inodeTable k
      let inode := { Inode.fresh with
        iIno := ino, iMode := oi.iMode, iUid := oi.iUid, iGid := oi.iGid, iAtime := oi.iAtime,
        iMtime := oi.iMtime, iCtime := oi.iCtime, iSize := oi.iSize, iBlocks := oi.iBlocks,
        iPrivate := k }
      let inode :=
        if sIsDir inode.iMode then { inode with iOp := .osfsDir, iFop := .osfsDir }
        else if sIsReg inode.iMode then { inode with iOp := .osfsFile, iFop := .osfsFile }
        else inode
      (.ok p, { fs with icache := icache.set p inode })

/- `super.c:17-22`. -/
def osfsDestroyInode (inode : Inode) : Inode :=
  if inode.iPrivate ≠ 0 then { inode with iPrivate := 0 } else inode

/- The last reference goes away: `generic_delete_inode` drops the inode at once. -/
def iput (fs : Fs) (p : InodePtr) : Fs :=
  { fs with icache := fs.icache.set p (osfsDestroyInode (fs.icache.inode p)) }

@[simp] theorem osfsDestroyInode_private (inode : Inode) : (osfsDestroyInode inode).iPrivate = 0 := by
  unfold osfsDestroyInode
  split
  · rfl
  · rename_i h
    simpa using h

theorem osfsGetOsfsInode_some {sb : OsfsSbInfo} {ino : ℕ} (h0 : 0 < ino) (h : ino < sb.inodeCount) :
    osfsGetOsfsInode sb ino = some ino := by
  unfold osfsGetOsfsInode
  rw [if_neg (by omega)]

/-- The number handed out is the lowest clear bit of `[1, inode_count)`. -/
theorem osfsGetFreeInode_some {sb sb' : OsfsSbInfo} {ino : ℕ}
    (h : osfsGetFreeInode sb = some (ino, sb')) :
    0 < ino ∧ ino < sb.inodeCount ∧ sb.inodeBitmap ino = false ∧
      sb' = { sb with inodeBitmap := sb.inodeBitmap.set ino,
                      nrFreeInodes := dec32 sb.nrFreeInodes } := by
  unfold osfsGetFreeInode at h
  obtain ⟨i, hi, he⟩ := Option.map_eq_some_iff.mp h
  obtain ⟨rfl, rfl⟩ := Prod.mk.inj he
  obtain ⟨h1, h2, h3, _⟩ := Bitmap.findClear_some hi
  exact ⟨h1, by omega, h3, rfl⟩

theorem osfsAllocDataBlock_isSome {sb : OsfsSbInfo}
    (h : 0 < sb.blockBitmap.clearCount sb.blockCount) :
    ∃ r, osfsAllocDataBlock sb = some r := by
  obtain ⟨i, hi, hb⟩ := Bitmap.clearCount_pos h
  obtain ⟨j, hj⟩ := Bitmap.findClear_isSome (i := 0) (n := sb.blockCount) (Nat.zero_le i) (by omega) hb
  exact ⟨_, by rw [osfsAllocDataBlock, hj]; rfl⟩

end OSLab.Done
