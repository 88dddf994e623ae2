import OSLab.Done.Inode

/-!
# Mounting (Lab4_Template_Done/super.c)
-/

namespace OSLab.Done
open OSLab.Base OSLab.Kernel Errno

/- The superblock information after the `memset`s of `super.c:56-76`. -/
def emptySbInfo : OsfsSbInfo :=
  { magic := OSFS_MAGIC, blockSize := BLOCK_SIZE, inodeCount := INODE_COUNT,
    blockCount := DATA_BLOCK_COUNT, nrFreeInodes := INODE_COUNT - 1,
    nrFreeBlocks := DATA_BLOCK_COUNT, inodeBitmap := Bitmap.empty, blockBitmap := Bitmap.empty,
    inodeTable := fun _ => OsfsInode.zero, dataBlocks := Mem.zero }

/- `super.c:36-130`. `vmallocOk` and `dMakeRootOk` are the outcomes of the two allocations that
are not `new_inode`. -/
def osfsFillSuper (env : Env) (vmallocOk dMakeRootOk : Bool) : Except Errno Fs :=
  if !vmallocOk then .error .ENOMEM
  else
    match newInode env Icache.empty with
    | none => .error .ENOMEM
    | some (p, icache) =>
      let mode := S_IFDIR ||| 0x1ED#16
      let root := simpleInodeInitTs env { Inode.fresh with
        iIno := ROOT_INODE, iOp := .osfsDir, iFop := .osfsDir, iMode := mode, iNlink := 2 }
      match osfsGetOsfsInode emptySbInfo ROOT_INODE with
      | none => .error EIO
      | some k =>
        let oi := { OsfsInode.zero with
          iIno := ROOT_INODE, iMode := root.iMode, iLinksCount := 2, iAtime := env.now,
          iMtime := env.now, iCtime := env.now }
        let sb := emptySbInfo.setOsfsInode k oi
        let sb := { sb with
          inodeBitmap := sb.inodeBitmap.set ROOT_INODE, blockBitmap := sb.blockBitmap.set 0,
          nrFreeBlocks := dec32 sb.nrFreeBlocks }
        let root := inodeInitOwner env { root with iPrivate := k, iSize := 0 } none root.iMode
        if !dMakeRootOk then .error .ENOMEM
        else .ok { sb, icache := icache.set p root }

end OSLab.Done
