import OSLab.Optimize.Layout

/-!
# Directory operations (Lab4_Template_Optimize/dir.c)

`osfs_lookup` and `osfs_create`. The stores that `osfs_create` makes in the
data area are listed with their addresses.
-/

namespace OSLab.Optimize
open OSLab.Base OSLab.Kernel

/-- What `osfs_lookup` hands back: NULL, an error pointer, or the dentry spliced with an inode. -/
inductive LookupResult where
  | null
  | err (e : Errno)
  | found (p : InodePtr)
  deriving DecidableEq

/- `strncmp(entries[i].filename, name, len) == 0 && strlen(entries[i].filename) == len`. -/
def OsfsSbInfo.entryMatches (sb : OsfsSbInfo) (ino : ℕ) (name : Bytes) (i : ℕ) : Bool :=
  strMatches sb.dataBlocks DATA_AREA (sb.entryAddr ino i) name

/- `dir.c:4-22`. -/
def osfsLookup (env : Env) (fs : Fs) (dir : InodePtr) (dentry : Qstr) : LookupResult × Fs :=
  let parent := (fs.icache.inode dir).iPrivate
  if (fs.sb.inodeTable parent).iExtent.eeLen = 0 then (.null, fs)
  else
    match (List.range (fs.sb.dirEntryCount parent)).find?
        (fs.sb.entryMatches parent dentry.name) with
    | none => (.null, fs)
    | some i =>
      match osfsIget env fs (fs.sb.entryInodeNo parent i) with
      | (.error e, fs) => (.err e, fs)
      | (.ok p, fs) => (.found p, fs)

/- `d_instantiate`, `-ENOSPC`, or a dereference of the null pointer that `new_inode` returned. -/
inductive CreateResult where
  | created (p : InodePtr)
  | noSpace
  | oops
  deriving DecidableEq

/- The stores of `dir.c:53-54` to the entry at address `e`: the name without a terminator, and
the inode number. -/
def entryStores (e inodeNo : ℕ) (name : Bytes) : List ByteStore :=
  [⟨e, strncpy name name.length⟩, ⟨e + INODE_NO_OFFSET, le32 inodeNo⟩]

/- The VFS inode of `dir.c:34-42`; `i_op` and `i_fop` stay what `new_inode` made them. -/
def newVfsInode (env : Env) (ino k : ℕ) (mode : UMode) : Inode :=
  { simpleInodeInitTs env { Inode.fresh with iIno := ino, iMode := mode } with iPrivate := k }

/- The slot after `dir.c:39-48`: without five free blocks in a row the file gets no extent. -/
def initSlot (sb : OsfsSbInfo) (k ino : ℕ) (mode : UMode) : OsfsSbInfo :=
  slotWithExtent sb k { OsfsInode.zero with iIno := ino, iMode := mode } EXTENT_BLOCKS

/- `dir.c:50-55`. -/
def appendEntry (sb : OsfsSbInfo) (parent inodeNo : ℕ) (name : Bytes) :
    List ByteStore × OsfsSbInfo :=
  let stores := entryStores (sb.entryAddr parent (sb.dirEntryCount parent)) inodeNo name
  let oi := sb.inodeTable parent
  let sb := { sb with dataBlocks := sb.dataBlocks.apply stores }
  (stores, sb.setOsfsInode parent { oi with iSize := u32 (oi.iSize + DIR_ENTRY_SIZE : ℕ) })

/- `dir.c:24-59`. -/
def osfsCreate (env : Env) (fs : Fs) (dir : InodePtr) (dentry : Qstr) (mode : UMode) :
    CreateResult × List ByteStore × Fs :=
  match osfsGetFreeInode fs.sb with
  | none => (.noSpace, [], fs)
  | some (ino, sb) =>
    match newInode env fs.icache with
    | none => (.oops, [], { fs with sb })
    | some (p, icache) =>
      match osfsGetOsfsInode sb ino with
      | none => (.oops, [], { sb, icache })
      | some k =>
        let icache := icache.set p (newVfsInode env ino k mode)
        let (stores, sb) :=
          appendEntry (initSlot sb k ino mode) (fs.icache.inode dir).iPrivate ino dentry.name
        (.created p, stores, { sb, icache })

end OSLab.Optimize
