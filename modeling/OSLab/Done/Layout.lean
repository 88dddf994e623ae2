import OSLab.Base.Bitmap
import OSLab.Kernel.Vfs

/-!
# The mounted file system (Lab4_Template_Done/osfs.h)

The superblock information with its bitmaps, inode table and data area, and
the place of a directory entry in a directory block: 260 bytes, the file name
at offset 0, a padding byte at 255 and the little-endian inode number at 256.
Counters and sizes are `uint32_t` values kept as naturals.
-/

namespace OSLab.Done
open OSLab.Base OSLab.Kernel

def OSFS_MAGIC : ℕ := 0x051AB520
def INODE_COUNT : ℕ := 20
def DATA_BLOCK_COUNT : ℕ := 20
def MAX_FILENAME_LEN : ℕ := 255
def ROOT_INODE : ℕ := 1

/- `sizeof(struct osfs_dir_entry)` and `offsetof(struct osfs_dir_entry, inode_no)`. -/
def DIR_ENTRY_SIZE : ℕ := 260
def INODE_NO_OFFSET : ℕ := 256

def MAX_DIR_ENTRIES : ℕ := BLOCK_SIZE / DIR_ENTRY_SIZE

def DATA_AREA : ℕ := DATA_BLOCK_COUNT * BLOCK_SIZE

structure OsfsInode where
  iIno : ℕ
  iSize : ℕ
  iBlocks : ℕ
  iMode : UMode
  iLinksCount : ℕ
  iUid : ℕ
  iGid : ℕ
  iAtime : Time
  iMtime : Time
  iCtime : Time
  iBlock : ℕ
  deriving DecidableEq

def OsfsInode.zero : OsfsInode :=
  { iIno := 0, iSize := 0, iBlocks := 0, iMode := 0, iLinksCount := 0, iUid := 0, iGid := 0,
    iAtime := 0, iMtime := 0, iCtime := 0, iBlock := 0 }

structure OsfsSbInfo where
  magic : ℕ
  blockSize : ℕ
  inodeCount : ℕ
  blockCount : ℕ
  nrFreeInodes : ℕ
  nrFreeBlocks : ℕ
  inodeBitmap : Bitmap
  blockBitmap : Bitmap
  inodeTable : ℕ → OsfsInode
  dataBlocks : Mem

def OsfsSbInfo.setOsfsInode (sb : OsfsSbInfo) (ino : ℕ) (oi : OsfsInode) : OsfsSbInfo :=
  { sb with inodeTable := Function.update sb.inodeTable ino oi }

/-- The mounted file system: `s_fs_info` and the VFS inodes of the superblock. -/
structure Fs where
  sb : OsfsSbInfo
  icache : Icache

/- A `uint32_t` counter that is decremented: it wraps at zero. -/
def dec32 (n : ℕ) : ℕ := u32 ((n : ℤ) - 1)

theorem dec32_of_pos {n : ℕ} (h : 0 < n) (hn : n < 2 ^ 32) : dec32 n = n - 1 := by
  unfold dec32 u32
  omega

/-! ### Directory entries -/

/- `data_blocks + i_block * BLOCK_SIZE`, with the product in 32 bits. -/
def OsfsSbInfo.blockAddr (sb : OsfsSbInfo) (ino : ℕ) : ℕ :=
  u32 ((sb.inodeTable ino).iBlock * BLOCK_SIZE : ℕ)

def OsfsSbInfo.dirEntryCount (sb : OsfsSbInfo) (ino : ℕ) : ℕ :=
  (sb.inodeTable ino).iSize / DIR_ENTRY_SIZE

/- `&dir_entries[i]` of the directory with inode number `ino`. -/
def OsfsSbInfo.entryAddr (sb : OsfsSbInfo) (ino i : ℕ) : ℕ :=
  sb.blockAddr ino + i * DIR_ENTRY_SIZE

def OsfsSbInfo.entryInodeNo (sb : OsfsSbInfo) (ino i : ℕ) : ℕ :=
  readLe32 sb.dataBlocks (sb.entryAddr ino i + INODE_NO_OFFSET)

/- The file name of entry `i`, up to its terminator. -/
def OsfsSbInfo.entryName (sb : OsfsSbInfo) (ino i : ℕ) : Bytes :=
  sb.dataBlocks.load (sb.entryAddr ino i)
    ((strlen sb.dataBlocks DATA_AREA (sb.entryAddr ino i)).getD 0)

/-- The entries of a directory, in the order of the block. -/
def OsfsSbInfo.dirEntries (sb : OsfsSbInfo) (ino : ℕ) : List (Bytes × ℕ) :=
  (List.range (sb.dirEntryCount ino)).map fun i => (sb.entryName ino i, sb.entryInodeNo ino i)

end OSLab.Done
