import OSLab.Done.Inode

/-!
# Directory operations (Lab4_Template_Done/dir.c)

`osfs_lookup`, `osfs_iterate`, `osfs_new_inode`, `osfs_add_dir_entry` and
`osfs_create`. Every handler returns its result and the file system it leaves.
-/

namespace OSLab.Done
open OSLab.Base OSLab.Kernel Errno

/-- What `osfs_lookup` hands back: NULL, an error pointer, or the dentry spliced with an inode. -/
inductive LookupResult where
  | null
  | err (e : Errno)
  | found (p : InodePtr)
  deriving DecidableEq

/- `strlen(dir_entries[i].filename) == len && strncmp(dir_entries[i].filename, name, len) == 0`. -/
def OsfsSbInfo.entryMatches (sb : OsfsSbInfo) (ino : ℕ) (name : Bytes) (i : ℕ) : Bool :=
  strMatches sb.dataBlocks DATA_AREA (sb.entryAddr ino i) name

/- `dir.c:17-52`. -/
def osfsLookup (env : Env) (fs : Fs) (dir : InodePtr) (dentry : Qstr) : LookupResult × Fs :=
  let parent := (fs.icache.inode dir).iPrivate
  match (List.range (fs.sb.dirEntryCount parent)).find? (fs.sb.entryMatches parent dentry.name) with
  | none => (.null, fs)
  | some i =>
    match osfsIget env fs (fs.sb.entryInodeNo parent i) with
    | (.error e, fs) => (.err e, fs)
    | (.ok p, fs) => (.found p, fs)

/-- What `osfs_iterate` passes to the directory context: the dots, or the entry at an index. -/
inductive Emitted where
  | dot
  | dotDot
  | entry (i : ℤ)
  deriving DecidableEq

/- `dir_emit_dots` with a context that accepts `room` more entries: what it emits, the position
it leaves and whether everything was accepted. -/
def dirEmitDots (room pos : ℕ) : List Emitted × ℕ × Bool :=
  if pos = 0 then
    match room with
    | 0 => ([], 0, false)
    | 1 => ([.dot], 1, false)
    | _ => ([.dot, .dotDot], 2, true)
  else if pos = 1 then
    match room with
    | 0 => ([], 1, false)
    | _ => ([.dotDot], 2, true)
  else ([], pos, true)

/- The loop of `dir.c:86-96` over the `n` entries from index `i` on. -/
def osfsIterateLoop : ℕ → ℕ → ℤ → ℕ → Except Errno Unit × List Emitted × ℕ
  | 0, _, _, pos => (.ok (), [], pos)
  | _ + 1, 0, _, pos => (.error .EINVAL, [], pos)
  | n + 1, room + 1, i, pos =>
    let (ret, es, pos) := osfsIterateLoop n room (i + 1) (pos + 1)
    (ret, .entry i :: es, pos)

/- `dir.c:64-99`; `i` is an `int`, so a position below 2 gives a negative index. -/
def osfsIterate (fs : Fs) (dir : InodePtr) (room pos : ℕ) : Except Errno Unit × List Emitted × ℕ :=
  let ino := (fs.icache.inode dir).iPrivate
  let (dots, pos, ok) := if pos = 0 then dirEmitDots room pos else ([], pos, true)
  if !ok then (.ok (), dots, pos)
  else
    let i : ℤ := (pos : ℤ) - 2
    let n := ((fs.sb.dirEntryCount ino : ℤ) - i).toNat
    let (ret, es, pos) := osfsIterateLoop n (room - dots.length) i pos
    (ret, dots ++ es, pos)

/- The VFS inode of `osfs_new_inode` before it is tied to its slot (`dir.c:142-164`). -/
def newVfsInode (env : Env) (dir : Inode) (ino : ℕ) (mode : UMode) : Inode :=
  let inode := inodeInitOwner env Inode.fresh (some dir) mode
  let inode := simpleInodeInitTs env { inode with iIno := ino, iBlocks := 0 }
  if sIsDir mode then
    { inode with iOp := .osfsDir, iFop := .osfsDir, iNlink := 2, iSize := 0 }
  else if sIsReg mode then
    { inode with iOp := .osfsFile, iFop := .osfsFile, iNlink := 1, iSize := 0 }
  else if sIsLnk mode then { inode with iNlink := 1, iSize := 0 }
  else inode

/- The slot of `osfs_new_inode` before its block is allocated (`dir.c:173-182`); the link count
keeps the zero of the `memset`. -/
def newOsfsInode (env : Env) (inode : Inode) (ino : ℕ) : OsfsInode :=
  { OsfsInode.zero with
    iIno := ino, iMode := inode.iMode, iUid := inode.iUid, iGid := inode.iGid,
    iSize := u32 inode.iSize, iBlocks := 1, iAtime := env.now, iMtime := env.now,
    iCtime := env.now }

def modeSupported (mode : UMode) : Bool := sIsDir mode || sIsReg mode || sIsLnk mode

/- `dir.c:114-200`. -/
def osfsNewInode (env : Env) (fs : Fs) (dir : InodePtr) (mode : UMode) :
    Except Errno InodePtr × Fs :=
  if !modeSupported mode then (.error .EINVAL, fs)
  else if fs.sb.nrFreeInodes = 0 ∨ fs.sb.nrFreeBlocks = 0 then (.error .ENOSPC, fs)
  else
    match osfsGetFreeInode fs.sb with
    | none => (.error .ENOSPC, fs)
    | some (ino, sb) =>
      if sb.inodeCount ≤ ino then (.error .ENOSPC, { fs with sb })
      else
        match newInode env fs.icache with
        | none => (.error .ENOMEM, { fs with sb })
        | some (p, icache) =>
          let inode := newVfsInode env (fs.icache.inode dir) ino mode
          match osfsGetOsfsInode sb ino with
          | none => (.error EIO, iput { sb, icache := icache.set p inode } p)
          | some k =>
            let sb := sb.setOsfsInode k (newOsfsInode env inode ino)
            let icache := icache.set p { inode with iPrivate := k }
            match osfsAllocDataBlock sb with
            | none => (.error .ENOSPC, iput { sb, icache } p)
            | some (blockNo, sb) =>
              let sb := sb.setOsfsInode k { sb.inodeTable k with iBlock := blockNo }
              -- the second decrement for this inode: osfs_get_free_inode made the first
              (.ok p, { sb := { sb with nrFreeInodes := dec32 sb.nrFreeInodes }, icache })

/- The stores of `dir.c:233-235` to the entry at address `e`. -/
def storeEntry (m : Mem) (e inodeNo : ℕ) (name : Bytes) : Mem :=
  ((m.store e (strncpy name name.length)).store (e + name.length) [0]).store
    (e + INODE_NO_OFFSET) (le32 inodeNo)

/- `dir.c:202-241`; an error leaves the superblock information as it was. -/
def osfsAddDirEntry (sb : OsfsSbInfo) (parent inodeNo : ℕ) (name : Bytes) :
    Except Errno OsfsSbInfo :=
  let n := sb.dirEntryCount parent
  if MAX_DIR_ENTRIES ≤ n then .error .ENOSPC
  else if (List.range n).any (sb.entryMatches parent name) then .error .EEXIST
  else
    let oi := sb.inodeTable parent
    let sb := { sb with
      dataBlocks := storeEntry sb.dataBlocks (sb.entryAddr parent n) inodeNo name }
    .ok (sb.setOsfsInode parent { oi with iSize := u32 (oi.iSize + DIR_ENTRY_SIZE : ℕ) })

/- `dir.c:260-299`. After `d_instantiate` the dentry has its inode, so the `-EIO` exit is not
taken. -/
def osfsCreate (env : Env) (fs : Fs) (dir : InodePtr) (dentry : Qstr) (mode : UMode) :
    Except Errno InodePtr × Fs :=
  if MAX_FILENAME_LEN < dentry.len then (.error .ENAMETOOLONG, fs)
  else
    match osfsNewInode env fs dir mode with
    | (.error e, fs) => (.error e, fs)
    | (.ok p, fs) =>
      match osfsAddDirEntry fs.sb (fs.icache.inode dir).iPrivate (fs.icache.inode p).iIno
          dentry.name with
      | .error e => (.error e, iput fs p)
      | .ok sb =>
        let d := fs.icache.inode dir
        (.ok p, { sb, icache := fs.icache.set dir { d with iSize := d.iSize + DIR_ENTRY_SIZE } })

end OSLab.Done
