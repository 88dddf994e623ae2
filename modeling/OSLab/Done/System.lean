import OSLab.Base.Machine
import OSLab.Done.Dir
import OSLab.Done.File
import OSLab.Done.Super

/-!
# The mounted file system as a machine

The requests the VFS dispatches to the handlers, over the superblock and a
table of open files. A request on a pointer or descriptor that does not exist
is answered by the VFS itself and changes nothing.
-/

namespace OSLab.Done
open OSLab.Base OSLab.Kernel

/-- `struct file`. -/
structure File where
  fInode : InodePtr
  fPos : ℕ
  deriving DecidableEq

structure Sys where
  fs : Fs
  files : List (Option File)

inductive Req where
  | create (dir : InodePtr) (dentry : Qstr) (mode : UMode) (env : Env)
  | lookup (dir : InodePtr) (dentry : Qstr) (env : Env)
  | open (inode : InodePtr)
  | close (fd : ℕ)
  | seek (fd pos : ℕ)
  | read (fd room len : ℕ)
  | write (fd : ℕ) (buf : Bytes) (len : ℕ) (env : Env)
  | truncate (inode : InodePtr) (env : Env)
  | evict (inode : InodePtr)

inductive Res where
  | invalid
  | created (p : InodePtr) (ino : ℕ)
  | createFailed (e : Errno)
  | negative
  | lookupFailed (e : Errno)
  | found (p : InodePtr) (ino : ℕ)
  | opened (fd : ℕ)
  | done
  | read (r : Except Errno Bytes)
  | written (r : Except Errno ℕ)

/- A live inode whose `i_op` is the directory table. -/
def Fs.isDirInode (fs : Fs) (p : InodePtr) : Bool :=
  (fs.icache.inode p).iPrivate ≠ 0 && (fs.icache.inode p).iOp == .osfsDir

/- A live inode whose `i_fop` is the regular file table. -/
def Fs.isFileInode (fs : Fs) (p : InodePtr) : Bool :=
  (fs.icache.inode p).iPrivate ≠ 0 && (fs.icache.inode p).iFop == .osfsFile

def Sys.file (s : Sys) (fd : ℕ) : Option File := (s.files[fd]?).join

def Sys.setPos (s : Sys) (fd : ℕ) (f : File) (pos : ℕ) : Sys :=
  { s with files := s.files.set fd (some { f with fPos := pos }) }

/- An inode that is not the root and that no descriptor holds can be evicted. -/
def Sys.evictable (s : Sys) (p : InodePtr) : Bool :=
  p ≠ 0 && s.files.all fun f => f.map File.fInode ≠ some p

def sysCreate (s : Sys) (dir : InodePtr) (dentry : Qstr) (mode : UMode) (env : Env) : Res × Sys :=
  if s.fs.isDirInode dir then
    match osfsCreate env s.fs dir dentry mode with
    | (.ok p, fs) => (.created p (fs.icache.inode p).iIno, { s with fs })
    | (.error e, fs) => (.createFailed e, { s with fs })
  else (.invalid, s)

def sysLookup (s : Sys) (dir : InodePtr) (dentry : Qstr) (env : Env) : Res × Sys :=
  if s.fs.isDirInode dir then
    match osfsLookup env s.fs dir dentry with
    | (.null, fs) => (.negative, { s with fs })
    | (.err e, fs) => (.lookupFailed e, { s with fs })
    | (.found p, fs) => (.found p (fs.icache.inode p).iIno, { s with fs })
  else (.invalid, s)

/- `vfs_read` and `ksys_read`: the position of the file moves only when the handler succeeds. -/
def sysRead (s : Sys) (fd room len : ℕ) : Res × Sys :=
  match s.file fd with
  | none => (.invalid, s)
  | some f =>
    if !rwVerifyArea f.fPos len then (.read (.error .EINVAL), s)
    else
      match osfsRead s.fs f.fInode room (rwCount len) f.fPos with
      | (.ok bytes, pos) => (.read (.ok bytes), s.setPos fd f pos)
      | (.error e, _) => (.read (.error e), s)

def sysWrite (s : Sys) (fd : ℕ) (buf : Bytes) (len : ℕ) (env : Env) : Res × Sys :=
  match s.file fd with
  | none => (.invalid, s)
  | some f =>
    if !rwVerifyArea f.fPos len then (.written (.error .EINVAL), s)
    else
      match osfsWrite env s.fs f.fInode buf (rwCount len) f.fPos with
      | (.ok n, pos, fs) => (.written (.ok n), { s with fs }.setPos fd f pos)
      | (.error e, _, fs) => (.written (.error e), { s with fs })

/- `default_llseek` with `SEEK_SET`. -/
def sysSeek (s : Sys) (fd pos : ℕ) : Res × Sys :=
  match s.file fd with
  | none => (.invalid, s)
  | some f => if pos ≤ LLONG_MAX then (.done, s.setPos fd f pos) else (.invalid, s)

def sysStep (s : Sys) : Req → Res × Sys
  | .create dir dentry mode env => sysCreate s dir dentry mode env
  | .lookup dir dentry env => sysLookup s dir dentry env
  | .open p =>
    if s.fs.isFileInode p then
      (.opened s.files.length, { s with files := s.files ++ [some ⟨p, 0⟩] })
    else (.invalid, s)
  | .close fd => (.done, { s with files := s.files.set fd none })
  | .seek fd pos => sysSeek s fd pos
  | .read fd room len => sysRead s fd room len
  | .write fd buf len env => sysWrite s fd buf len env
  | .truncate p env =>
    if s.fs.isFileInode p then
      (.done, { s with fs := { s.fs with
        icache := s.fs.icache.set p (simpleSetattr env (s.fs.icache.inode p)) } })
    else (.invalid, s)
  | .evict p => if s.evictable p then (.done, { s with fs := iput s.fs p }) else (.invalid, s)

def osfs : Machine Sys Req Res := ⟨sysStep⟩

/- A mount that succeeded, and nothing open. -/
def Mounted (s : Sys) : Prop :=
  ∃ env vmallocOk dMakeRootOk,
    osfsFillSuper env vmallocOk dMakeRootOk = .ok s.fs ∧ s.files = []

/- A fresh mount and a caller whom the kernel refuses nothing. -/
def plainEnv : Env := { newInodeOk := true, fsuid := 0, fsgid := 0, now := 0 }

def freshMount : Sys :=
  match osfsFillSuper plainEnv true true with
  | .ok fs => ⟨fs, []⟩
  | .error _ => ⟨⟨emptySbInfo, Icache.empty⟩, []⟩

def nameA : Qstr := Qstr.ofBytes [97]
def nameB : Qstr := Qstr.ofBytes [98]

theorem freshMount_mounted : Mounted freshMount := ⟨plainEnv, true, true, rfl, rfl⟩

end OSLab.Done
