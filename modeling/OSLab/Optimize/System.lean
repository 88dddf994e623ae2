import OSLab.Base.Machine
import OSLab.Optimize.Dir
import OSLab.Optimize.File

/-!
# Mounting and the handlers as a machine (Lab4_Template_Optimize/super.c)

The handlers are called for any inode that is live, those of a directory for
the inode of a directory and those of a file for any other. A call for another
inode is refused by the VFS.
-/

namespace OSLab.Optimize
open OSLab.Base OSLab.Kernel

/- The superblock information after the `memset` of `super.c:22-36`. -/
def emptySbInfo : OsfsSbInfo :=
  { magic := OSFS_MAGIC, blockSize := BLOCK_SIZE, inodeCount := INODE_COUNT,
    blockCount := DATA_BLOCK_COUNT, nrFreeInodes := INODE_COUNT - 1,
    nrFreeBlocks := DATA_BLOCK_COUNT, inodeBitmap := Bitmap.empty, blockBitmap := Bitmap.empty,
    inodeTable := fun _ => OsfsInode.zero, dataBlocks := Mem.zero }

/- The slot of the root directory with its extent (`super.c:62-69`). -/
def rootSlot (sb : OsfsSbInfo) (k : ℕ) (mode : UMode) : OsfsSbInfo :=
  slotWithExtent sb k { OsfsInode.zero with iIno := ROOT_INODE, iMode := mode } 1

/- The mode of the root directory (`super.c:50`). -/
def ROOT_MODE : UMode := S_IFDIR ||| 0x1ED#16

/- `super.c:6-80`. `vmallocOk` and `dMakeRootOk` are the outcomes of the two allocations that are
not `new_inode`. -/
def osfsFillSuper (env : Env) (vmallocOk dMakeRootOk : Bool) : Except Errno Fs :=
  if !vmallocOk then .error .ENOMEM
  else
    match newInode env Icache.empty with
    | none => .error .ENOMEM
    | some (p, icache) =>
      let root := { Inode.fresh with
        iIno := ROOT_INODE, iMode := ROOT_MODE, iOp := .osfsDir, iFop := .osfsDir,
        iNlink := 2 }
      match osfsGetOsfsInode emptySbInfo ROOT_INODE with
      | none => .error Errno.EIO
      | some k =>
        let sb := rootSlot emptySbInfo k root.iMode
        if !dMakeRootOk then .error .ENOMEM
        else .ok
          { sb := { sb with inodeBitmap := sb.inodeBitmap.set ROOT_INODE }
            icache := icache.set p { root with iPrivate := k } }

/-- A name that `osfs_create` has put into a directory, and the inode number it got. -/
structure Made where
  dir : ℕ
  name : Bytes
  ino : ℕ
  deriving DecidableEq

/- `made` lists the creates that have succeeded so far, oldest first; no handler reads it. -/
structure Sys where
  fs : Fs
  made : List Made

inductive Req where
  | create (dir : InodePtr) (dentry : Qstr) (mode : UMode) (env : Env)
  | lookup (dir : InodePtr) (dentry : Qstr) (env : Env)
  | read (inode : InodePtr) (room len ppos : ℕ)
  | write (inode : InodePtr) (buf : Bytes) (len ppos : ℕ)

inductive Res where
  | invalid
  | create (r : CreateResult) (stores : List ByteStore)
  | lookup (r : LookupResult)
  | read (r : Except Errno Bytes)
  | write (r : Except Errno ℕ) (stores : List ByteStore)

/- The stores in the data area that the answer reports. -/
def Res.stores : Res → List ByteStore
  | .create _ stores => stores
  | .write _ stores => stores
  | _ => []

/- A live inode of a directory. -/
def Fs.isDirInode (fs : Fs) (p : InodePtr) : Bool :=
  (fs.icache.inode p).iPrivate ≠ 0 && sIsDir (fs.icache.inode p).iMode

/- A live inode of anything else. -/
def Fs.isFileInode (fs : Fs) (p : InodePtr) : Bool :=
  (fs.icache.inode p).iPrivate ≠ 0 && !sIsDir (fs.icache.inode p).iMode

/- The entry that the result of a create stands for. -/
def madeBy (fs : Fs) (dir : InodePtr) (dentry : Qstr) :
    CreateResult × List ByteStore × Fs → List Made
  | (.created p, _, fs') =>
    [⟨(fs.icache.inode dir).iPrivate, dentry.name, (fs'.icache.inode p).iIno⟩]
  | _ => []

def sysStep (s : Sys) : Req → Res × Sys
  | .create dir dentry mode env =>
    if s.fs.isDirInode dir then
      let r := osfsCreate env s.fs dir dentry mode
      (.create r.1 r.2.1, ⟨r.2.2, s.made ++ madeBy s.fs dir dentry r⟩)
    else (.invalid, s)
  | .lookup dir dentry env =>
    if s.fs.isDirInode dir then
      let r := osfsLookup env s.fs dir dentry
      (.lookup r.1, { s with fs := r.2 })
    else (.invalid, s)
  | .read inode room len ppos =>
    if s.fs.isFileInode inode && rwVerifyArea ppos len then
      (.read (osfsRead s.fs inode room (rwCount len) ppos).1, s)
    else (.invalid, s)
  | .write inode buf len ppos =>
    if s.fs.isFileInode inode && rwVerifyArea ppos len then
      let r := osfsWrite s.fs inode buf (rwCount len) ppos
      (.write r.1 r.2.2.1, { s with fs := r.2.2.2 })
    else (.invalid, s)

def osfs : Machine Sys Req Res := ⟨sysStep⟩

/- A mount that succeeded. -/
def Mounted (s : Sys) : Prop :=
  ∃ env vmallocOk dMakeRootOk,
    osfsFillSuper env vmallocOk dMakeRootOk = .ok s.fs ∧ s.made = []

/- A fresh mount and a caller whom the kernel refuses nothing. -/
def plainEnv : Env := { newInodeOk := true, fsuid := 0, fsgid := 0, now := 0 }

def freshMount : Sys :=
  match osfsFillSuper plainEnv true true with
  | .ok fs => ⟨fs, []⟩
  | .error _ => ⟨⟨emptySbInfo, Icache.empty⟩, []⟩

theorem freshMount_mounted : Mounted freshMount := ⟨plainEnv, true, true, rfl, rfl⟩

end OSLab.Optimize
