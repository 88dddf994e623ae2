import OSLab.Optimize.Layout

/-!
# File operations (Lab4_Template_Optimize/file.c)

Positions are `loff_t` values the VFS has checked not to be negative; lengths
are `size_t`. The stores that `osfs_write` makes in the data area are listed
with their addresses.
-/

namespace OSLab.Optimize
open OSLab.Base OSLab.Kernel

/- `file.c:5-20`: the bytes delivered, and the position left. The user buffer takes `room`
bytes. -/
def osfsRead (fs : Fs) (inode : InodePtr) (room len ppos : ℕ) : Except Errno Bytes × ℕ :=
  let ino := (fs.icache.inode inode).iPrivate
  let oi := fs.sb.inodeTable ino
  if oi.iSize ≤ ppos ∨ oi.iExtent.eeLen = 0 then (.ok [], ppos)
  else
    let len := clipLen oi.iSize ppos len
    match copyToUser fs.sb.dataBlocks (fs.sb.extentAddr ino + ppos) room len with
    | (0, bytes) => (.ok bytes, ppos + len)
    | _ => (.error .EFAULT, ppos)

/- `file.c:28-33`: a file without an extent gets one. -/
def osfsWriteExtent (sb : OsfsSbInfo) (ino : ℕ) : Option OsfsSbInfo :=
  if (sb.inodeTable ino).iExtent.eeLen = 0 then
    (osfsAllocExtent sb EXTENT_BLOCKS).map fun (start, sb) =>
      sb.setOsfsInode ino { sb.inodeTable ino with iExtent := ⟨start, EXTENT_BLOCKS⟩ }
  else some sb

/- `file.c:42-46`, with the position already advanced. -/
def osfsWriteUpdate (fs : Fs) (inode : InodePtr) (ppos : ℕ) : Fs :=
  let vfs := fs.icache.inode inode
  let oi := fs.sb.inodeTable vfs.iPrivate
  if oi.iSize < ppos then
    { sb := fs.sb.setOsfsInode vfs.iPrivate { oi with iSize := u32 ppos }
      icache := fs.icache.set inode { vfs with iSize := ppos } }
  else fs

/- `file.c:22-49`: the number of bytes written, the position left, the stores, and the file
system. -/
def osfsWrite (fs : Fs) (inode : InodePtr) (buf : Bytes) (len ppos : ℕ) :
    Except Errno ℕ × ℕ × List ByteStore × Fs :=
  let ino := (fs.icache.inode inode).iPrivate
  match osfsWriteExtent fs.sb ino with
  | none => (.error .ENOSPC, ppos, [], fs)
  | some sb =>
    let len := clipLen (sb.extentBytes ino) ppos len
    let stores := copyFromUserStores (sb.extentAddr ino + ppos) buf len
    match copyFromUser sb.dataBlocks (sb.extentAddr ino + ppos) buf len with
    | (0, data) =>
      let fs := { fs with sb := { sb with dataBlocks := data } }
      (.ok len, ppos + len, stores, osfsWriteUpdate fs inode (ppos + len))
    | (_, data) => (.error .EFAULT, ppos, stores, { fs with sb := { sb with dataBlocks := data } })

end OSLab.Optimize
