import OSLab.Done.Inode

/-!
# File operations (Lab4_Template_Done/file.c)

Positions are `loff_t` values the VFS has checked not to be negative; lengths
are `size_t`.
-/

namespace OSLab.Done
open OSLab.Base OSLab.Kernel

/- `file.c:33-34`. -/
def osfsReadLen (iSize ppos len : ℕ) : ℕ := clipLen iSize ppos len

/- `file.c:18-44`: the bytes delivered, and the position left. The user buffer takes `room`
bytes. -/
def osfsRead (fs : Fs) (inode : InodePtr) (room len ppos : ℕ) : Except Errno Bytes × ℕ :=
  let ino := (fs.icache.inode inode).iPrivate
  let oi := fs.sb.inodeTable ino
  if oi.iBlocks = 0 then (.ok [], ppos)
  else if oi.iSize ≤ ppos then (.ok [], ppos)
  else
    let len := osfsReadLen oi.iSize ppos len
    match copyToUser fs.sb.dataBlocks (fs.sb.blockAddr ino + ppos) room len with
    | (0, bytes) => (.ok bytes, ppos + len)
    | _ => (.error .EFAULT, ppos)

/- `file.c:70-77`: a file without a block gets one. -/
def osfsWriteBlock (sb : OsfsSbInfo) (ino : ℕ) : Option OsfsSbInfo :=
  if (sb.inodeTable ino).iBlocks = 0 then
    (osfsAllocDataBlock sb).map fun (b, sb) =>
      sb.setOsfsInode ino { sb.inodeTable ino with iBlock := b, iBlocks := 1 }
  else some sb

/- `file.c:80-82`. -/
def osfsWriteLen (blockSize ppos len : ℕ) : ℕ := clipLen blockSize ppos len

/- `file.c:91-99`, with the position already advanced. -/
def osfsWriteUpdate (env : Env) (fs : Fs) (inode : InodePtr) (ppos : ℕ) : Fs :=
  let vfs := fs.icache.inode inode
  let oi := fs.sb.inodeTable vfs.iPrivate
  let grow := oi.iSize < ppos
  let vfs' := { vfs with
    iSize := if grow then ppos else vfs.iSize, iMtime := env.now, iAtime := env.now }
  let oi' := { oi with
    iSize := if grow then u32 ppos else oi.iSize, iMtime := env.now, iAtime := env.now,
    iCtime := env.now }
  { sb := fs.sb.setOsfsInode vfs.iPrivate oi', icache := fs.icache.set inode vfs' }

/- `file.c:60-103`: the number of bytes written, the position left, and the file system. -/
def osfsWrite (env : Env) (fs : Fs) (inode : InodePtr) (buf : Bytes) (len ppos : ℕ) :
    Except Errno ℕ × ℕ × Fs :=
  let ino := (fs.icache.inode inode).iPrivate
  match osfsWriteBlock fs.sb ino with
  | none => (.error .ENOSPC, ppos, fs)
  | some sb =>
    let len := osfsWriteLen sb.blockSize ppos len
    let dataBlock := u32 ((sb.inodeTable ino).iBlock * sb.blockSize : ℕ) + ppos
    match copyFromUser sb.dataBlocks dataBlock buf len with
    | (0, data) =>
      let fs := { fs with sb := { sb with dataBlocks := data } }
      (.ok len, ppos + len, osfsWriteUpdate env fs inode (ppos + len))
    | (_, data) => (.error .EFAULT, ppos, { fs with sb := { sb with dataBlocks := data } })

end OSLab.Done
