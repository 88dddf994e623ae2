import OSLab.Done.Ledger

/-!
# The file system as a tree

What a mounted file system is to its users: directories with their entries,
files that are a block each, and two counters. There are no bitmaps, slots or
addresses in it, and every request has one answer.
-/

namespace OSLab.Done
open OSLab.Base OSLab.Kernel

/-- A file is a whole block, of which the first `size` bytes can be read. -/
inductive Node where
  | dir (entries : List (Bytes × ℕ))
  | file (block : Bytes) (size : ℕ)
  | symlink

/-- The nodes by their inode numbers, and the live VFS inodes. `taken` inode numbers are gone, the
root's included, and `made` of them have got a slot and a block. -/
structure Tree where
  node : ℕ → Option Node
  inode : InodePtr → Option ℕ
  count : ℕ
  files : List (Option File)
  taken : ℕ
  made : ℕ

namespace Tree

/- A mount: the root directory and its inode. -/
def root : Tree :=
  { node := Function.update (fun _ => none) ROOT_INODE (some (.dir []))
    inode := Function.update (fun _ => none) 0 (some ROOT_INODE)
    count := 1, files := [], taken := 1, made := 0 }

def dirAt (t : Tree) (p : InodePtr) : Option (ℕ × List (Bytes × ℕ)) :=
  (t.inode p).bind fun k =>
    match t.node k with
    | some (.dir entries) => some (k, entries)
    | _ => none

def fileAt (t : Tree) (p : InodePtr) : Option (ℕ × Bytes × ℕ) :=
  (t.inode p).bind fun k =>
    match t.node k with
    | some (.file block size) => some (k, block, size)
    | _ => none

def openFile (t : Tree) (fd : ℕ) : Option File := (t.files[fd]?).join

def setNode (t : Tree) (k : ℕ) (node : Node) : Tree :=
  { t with node := Function.update t.node k (some node) }

def setPos (t : Tree) (fd : ℕ) (f : File) (pos : ℕ) : Tree :=
  { t with files := t.files.set fd (some { f with fPos := pos }) }

/- A new VFS inode for node `k`. -/
def addInode (t : Tree) (k : ℕ) : Tree :=
  { t with inode := Function.update t.inode t.count (some k), count := t.count + 1 }

/- An inode number goes to a slot and a block, and a VFS inode is made for it. -/
def make (t : Tree) : Tree :=
  { t with taken := t.taken + 1, made := t.made + 1, count := t.count + 1 }

end Tree

/- A node as `osfs_new_inode` leaves it. -/
def Node.new (mode : UMode) : Node :=
  if sIsDir mode then .dir []
  else if sIsReg mode then .file (List.replicate BLOCK_SIZE 0) 0
  else .symlink

namespace Tree

/-- A create that fails behind the allocation of its inode keeps the number, and the block if there
is one. -/
def create (t : Tree) (dir : InodePtr) (dentry : Qstr) (mode : UMode) (env : Env) : Res × Tree :=
  match t.dirAt dir with
  | none => (.invalid, t)
  | some (d, entries) =>
    if MAX_FILENAME_LEN < dentry.len then (.createFailed .ENAMETOOLONG, t)
    else if !modeSupported mode then (.createFailed .EINVAL, t)
    else if Exhausted t.taken t.made then (.createFailed .ENOSPC, t)
    else if !env.newInodeOk then (.createFailed .ENOMEM, { t with taken := t.taken + 1 })
    else if MAX_DIR_ENTRIES ≤ entries.length then (.createFailed .ENOSPC, t.make)
    else if entries.any fun e => e.1 = dentry.name then (.createFailed .EEXIST, t.make)
    else
      let ino := t.taken + 1
      (.created t.count ino,
        { t.make with
          node := Function.update (Function.update t.node ino (some (.new mode))) d
            (some (.dir (entries ++ [(dentry.name, ino)])))
          inode := Function.update t.inode t.count (some ino) })

def lookup (t : Tree) (dir : InodePtr) (dentry : Qstr) (env : Env) : Res × Tree :=
  match t.dirAt dir with
  | none => (.invalid, t)
  | some (_, entries) =>
    match entries.find? fun e => e.1 = dentry.name with
    | none => (.negative, t)
    | some (_, ino) =>
      if env.newInodeOk then (.found t.count ino, t.addInode ino) else (.lookupFailed .ENOMEM, t)

/-- A buffer that is too small for what there is to read gets nothing. -/
def read (t : Tree) (fd room len : ℕ) : Res × Tree :=
  match t.openFile fd with
  | none => (.invalid, t)
  | some f =>
    match t.fileAt f.fInode with
    | none => (.invalid, t)
    | some (_, block, size) =>
      if LLONG_MAX < f.fPos + len then (.read (.error .EINVAL), t)
      else
        let bytes := ((block.take size).drop f.fPos).take (rwCount len)
        if bytes.length ≤ room then (.read (.ok bytes), t.setPos fd f (f.fPos + bytes.length))
        else (.read (.error .EFAULT), t)

/-- A copy that faults leaves zeros behind what it has copied, and the size as it is. -/
def write (t : Tree) (fd : ℕ) (buf : Bytes) (len : ℕ) : Res × Tree :=
  match t.openFile fd with
  | none => (.invalid, t)
  | some f =>
    match t.fileAt f.fInode with
    | none => (.invalid, t)
    | some (k, block, size) =>
      if LLONG_MAX < f.fPos + len then (.written (.error .EINVAL), t)
      else if BLOCK_SIZE < f.fPos then (.written (.error .EFAULT), t)
      else
        let n := min (rwCount len) (BLOCK_SIZE - f.fPos)
        if n ≤ buf.length then
          (.written (.ok n),
            (t.setNode k (.file (writeAt block f.fPos (buf.take n)) (max size (f.fPos + n)))).setPos
              fd f (f.fPos + n))
        else
          (.written (.error .EFAULT),
            t.setNode k (.file (writeAt block f.fPos (buf ++ List.replicate (n - buf.length) 0)) size))

def step (t : Tree) : Req → Res × Tree
  | .create dir dentry mode env => t.create dir dentry mode env
  | .lookup dir dentry env => t.lookup dir dentry env
  | .open p =>
    if (t.fileAt p).isSome then
      (.opened t.files.length, { t with files := t.files ++ [some ⟨p, 0⟩] })
    else (.invalid, t)
  | .close fd => (.done, { t with files := t.files.set fd none })
  | .seek fd pos =>
    match t.openFile fd with
    | none => (.invalid, t)
    | some f => if pos ≤ LLONG_MAX then (.done, t.setPos fd f pos) else (.invalid, t)
  | .read fd room len => t.read fd room len
  | .write fd buf len _ => t.write fd buf len
  -- the truncation of the VFS inode does not reach the file
  | .truncate p _ => if (t.fileAt p).isSome then (.done, t) else (.invalid, t)
  | .evict p =>
    if p ≠ 0 ∧ ∀ f ∈ t.files, f.map File.fInode ≠ some p then
      (.done, { t with inode := Function.update t.inode p none })
    else (.invalid, t)

end Tree

def tree : Machine Tree Req Res := ⟨Tree.step⟩

end OSLab.Done
