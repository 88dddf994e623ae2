import OSLab.Base.Bitmap
import OSLab.Kernel.Vfs

/-!
# The mounted file system (Lab4_Template_Optimize/osfs.h)

An inode owns one extent of consecutive blocks. A directory keeps its entries
of 260 bytes in its extent: the file name at offset 0, a padding byte at 255
and the little-endian inode number at 256. Counters and sizes are `uint32_t`
values kept as naturals.
-/

namespace OSLab.Optimize
open OSLab.Base OSLab.Kernel

def OSFS_MAGIC : ℕ := 0x051AB520
def INODE_COUNT : ℕ := 20
def DATA_BLOCK_COUNT : ℕ := 20
def MAX_FILENAME_LEN : ℕ := 255
def ROOT_INODE : ℕ := 1

/- `sizeof(struct osfs_dir_entry)` and `offsetof(struct osfs_dir_entry, inode_no)`. -/
def DIR_ENTRY_SIZE : ℕ := 260
def INODE_NO_OFFSET : ℕ := 256

/- The blocks of a new extent, in `osfs_create` and `osfs_write`. -/
def EXTENT_BLOCKS : ℕ := 5

def DATA_AREA : ℕ := DATA_BLOCK_COUNT * BLOCK_SIZE

structure OsfsExtent where
  eeStart : ℕ
  eeLen : ℕ
  deriving DecidableEq

structure OsfsInode where
  iIno : ℕ
  iSize : ℕ
  iBlocks : ℕ
  iMode : UMode
  iExtent : OsfsExtent
  deriving DecidableEq

def OsfsInode.zero : OsfsInode :=
  { iIno := 0, iSize := 0, iBlocks := 0, iMode := 0, iExtent := ⟨0, 0⟩ }

structure OsfsSbInfo where
  magic : ℕ
  blockSize : ℕ
  inodeCount : ℕ
  blockCount : ℕ
  nrFreeInodes : ℕ
  nrFreeBlocks : ℕ
  inodeBitmap : Bitmap
  blockBitmap : Bitmap
  inodeTable : ℕ → OsfsInode
  dataBlocks : Mem

def OsfsSbInfo.setOsfsInode (sb : OsfsSbInfo) (ino : ℕ) (oi : OsfsInode) : OsfsSbInfo :=
  { sb with inodeTable := Function.update sb.inodeTable ino oi }

/-- The mounted file system: `s_fs_info` and the VFS inodes of the superblock. -/
structure Fs where
  sb : OsfsSbInfo
  icache : Icache

/-! ### Extents and directory entries -/

/- `i_extent.ee_start * BLOCK_SIZE`, in 32 bits. -/
def OsfsSbInfo.extentAddr (sb : OsfsSbInfo) (ino : ℕ) : ℕ :=
  u32 ((sb.inodeTable ino).iExtent.eeStart * BLOCK_SIZE : ℕ)

/- `i_extent.ee_len * BLOCK_SIZE`, in 32 bits. -/
def OsfsSbInfo.extentBytes (sb : OsfsSbInfo) (ino : ℕ) : ℕ :=
  u32 ((sb.inodeTable ino).iExtent.eeLen * BLOCK_SIZE : ℕ)

def OsfsSbInfo.dirEntryCount (sb : OsfsSbInfo) (ino : ℕ) : ℕ :=
  (sb.inodeTable ino).iSize / DIR_ENTRY_SIZE

/- `&entries[i]` of the directory with inode number `ino`. -/
def OsfsSbInfo.entryAddr (sb : OsfsSbInfo) (ino i : ℕ) : ℕ :=
  sb.extentAddr ino + i * DIR_ENTRY_SIZE

def OsfsSbInfo.entryInodeNo (sb : OsfsSbInfo) (ino i : ℕ) : ℕ :=
  readLe32 sb.dataBlocks (sb.entryAddr ino i + INODE_NO_OFFSET)

/-! ### Allocation (Lab4_Template_Optimize/inode.c) -/

/- The index of the slot; index 0 and those from `inode_count` on are refused. -/
def osfsGetOsfsInode (sb : OsfsSbInfo) (ino : ℕ) : Option ℕ :=
  if ino = 0 ∨ sb.inodeCount ≤ ino then none else some ino

/- `inode.c:10-20`; `none` is `-ENOSPC`. -/
def osfsGetFreeInode (sb : OsfsSbInfo) : Option (ℕ × OsfsSbInfo) :=
  (sb.inodeBitmap.findClear 1 (sb.inodeCount - 1)).map fun ino =>
    (ino, { sb with
      inodeBitmap := sb.inodeBitmap.set ino
      nrFreeInodes := u32 ((sb.nrFreeInodes : ℤ) - 1) })

/- `inode.c:23-40`; `none` is `-ENOSPC`. The last position tried is `block_count - nr_blocks`. -/
def osfsAllocExtent (sb : OsfsSbInfo) (nrBlocks : ℕ) : Option (ℕ × OsfsSbInfo) :=
  (sb.blockBitmap.findRun nrBlocks 0 (u32 ((sb.blockCount : ℤ) - nrBlocks) + 1)).map fun i =>
    (i, { sb with
      blockBitmap := sb.blockBitmap.setRun i nrBlocks
      nrFreeBlocks := u32 ((sb.nrFreeBlocks : ℤ) - nrBlocks) })

/- A new slot, and an extent for it when `n` blocks in a row are free (`dir.c:44-48`,
`super.c:66-69`). -/
def slotWithExtent (sb : OsfsSbInfo) (k : ℕ) (oi : OsfsInode) (n : ℕ) : OsfsSbInfo :=
  match osfsAllocExtent (sb.setOsfsInode k oi) n with
  | none => sb.setOsfsInode k oi
  | some (start, sb) => sb.setOsfsInode k { oi with iExtent := ⟨start, n⟩, iBlocks := n }

/- `inode.c:42-66`. -/
def osfsIget (env : Env) (fs : Fs) (ino : ℕ) : Except Errno InodePtr × Fs :=
  match osfsGetOsfsInode fs.sb ino with
  | none => (.error .EFAULT, fs)
  | some k =>
    match newInode env fs.icache with
    | none => (.error .ENOMEM, fs)
    | some (p, icache) =>
      let oi := fs.sb.inodeTable k
      let inode := { Inode.fresh with
        iIno := ino, iMode := oi.iMode, iSize := oi.iSize, iPrivate := k }
      let inode :=
        if sIsDir inode.iMode then { inode with iOp := .osfsDir, iFop := .osfsDir }
        else { inode with iOp := .osfsFile, iFop := .osfsFile }
      (.ok p, { fs with icache := icache.set p inode })

end OSLab.Optimize
