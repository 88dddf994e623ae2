import OSLab.Optimize.Places

/-!
# The file system as directories and files

What a mounted file system is to its users as long as every entry fits: entries
in directories, and files that are five blocks each, or nothing at all. There
are no bitmaps, extents or addresses in it, and every request has one answer.
-/

namespace OSLab.Optimize
open OSLab.Base OSLab.Kernel

/-- The first `size` bytes of a file can be read; a file without a place has none. -/
inductive Node where
  | dir (entries : List (Bytes × ℕ))
  | file (place : Option Bytes) (size : ℕ)

/-- The nodes by their inode numbers, and the number behind every VFS inode, 0 for a dead one.
`taken` inode numbers are gone, the root's included, and `made` of them are in a directory. -/
structure Volume where
  node : ℕ → Node
  inode : InodePtr → ℕ
  count : ℕ
  taken : ℕ
  made : ℕ

/- An answer without the addresses that the handler has stored to. -/
inductive Reply where
  | invalid
  | create (r : CreateResult)
  | lookup (r : LookupResult)
  | read (r : Except Errno Bytes)
  | write (r : Except Errno ℕ)

def Res.reply : Res → Reply
  | .invalid => .invalid
  | .create r _ => .create r
  | .lookup r => .lookup r
  | .read r => .read r
  | .write r _ => .write r

/- The bytes of a file that has a place. -/
def PLACE_BYTES : ℕ := EXTENT_BLOCKS * BLOCK_SIZE

/- A node as `osfs_create` leaves it. -/
def Node.new (mode : UMode) (placed : Bool) : Node :=
  if sIsDir mode then .dir []
  else .file (if placed then some (List.replicate PLACE_BYTES 0) else none) 0

namespace Volume

/- A mount: the root directory and its inode. -/
def root : Volume :=
  { node := Function.update (fun _ => .file none 0) ROOT_INODE (.dir [])
    inode := Function.update (fun _ => 0) 0 ROOT_INODE
    count := 1, taken := 1, made := 0 }

def dirAt (v : Volume) (p : InodePtr) : Option (ℕ × List (Bytes × ℕ)) :=
  match v.node (v.inode p) with
  | .dir entries => if v.inode p = 0 then none else some (v.inode p, entries)
  | .file _ _ => none

def fileAt (v : Volume) (p : InodePtr) : Option (ℕ × Option Bytes × ℕ) :=
  match v.node (v.inode p) with
  | .dir _ => none
  | .file place size => if v.inode p = 0 then none else some (v.inode p, place, size)

def setNode (v : Volume) (k : ℕ) (node : Node) : Volume :=
  { v with node := Function.update v.node k node }

/- A new VFS inode for node `k`. -/
def addInode (v : Volume) (k : ℕ) : Volume :=
  { v with inode := Function.update v.inode v.count k, count := v.count + 1 }

/-- A create that finds no memory for a VFS inode keeps the number. -/
def create (v : Volume) (dir : InodePtr) (dentry : Qstr) (mode : UMode) (env : Env) :
    Reply × Volume :=
  match v.dirAt dir with
  | none => (.invalid, v)
  | some (d, entries) =>
    let ino := v.taken + 1
    if INODE_COUNT ≤ ino then (.create .noSpace, v)
    else if !env.newInodeOk then (.create .oops, { v with taken := ino })
    else
      let v' := (v.setNode ino (.new mode (v.made < PLACES))).addInode ino
      (.create (.created v.count),
        { v'.setNode d (.dir (entries ++ [(dentry.name, ino)])) with
          taken := ino, made := v.made + 1 })

def lookup (v : Volume) (dir : InodePtr) (dentry : Qstr) (env : Env) : Reply × Volume :=
  match v.dirAt dir with
  | none => (.invalid, v)
  | some (_, entries) =>
    match entries.find? fun e => e.1 = dentry.name with
    | none => (.lookup .null, v)
    | some (_, ino) =>
      if env.newInodeOk then (.lookup (.found v.count), v.addInode ino)
      else (.lookup (.err .ENOMEM), v)

/-- A buffer that is too small for what there is to read gets nothing. -/
def read (v : Volume) (p : InodePtr) (room len ppos : ℕ) : Reply × Volume :=
  match v.fileAt p with
  | none => (.invalid, v)
  | some (_, place, size) =>
    if LLONG_MAX < ppos + len then (.invalid, v)
    else
      let bytes := (((place.getD []).take size).drop ppos).take (rwCount len)
      if bytes.length ≤ room then (.read (.ok bytes), v) else (.read (.error .EFAULT), v)

/-- A copy that faults leaves zeros behind what it has copied, and the size as it is. -/
def write (v : Volume) (p : InodePtr) (buf : Bytes) (len ppos : ℕ) : Reply × Volume :=
  match v.fileAt p with
  | none => (.invalid, v)
  | some (k, place, size) =>
    if LLONG_MAX < ppos + len then (.invalid, v)
    else
      match place with
      | none => (.write (.error .ENOSPC), v)
      | some bytes =>
        if PLACE_BYTES < ppos then (.write (.error .EFAULT), v)
        else
          let n := min (rwCount len) (PLACE_BYTES - ppos)
          if n ≤ buf.length then
            (.write (.ok n),
              v.setNode k (.file (some (writeAt bytes ppos (buf.take n))) (max size (ppos + n))))
          else
            (.write (.error .EFAULT), v.setNode k
              (.file (some (writeAt bytes ppos (buf ++ List.replicate (n - buf.length) 0))) size))

def step (v : Volume) : Req → Reply × Volume
  | .create dir dentry mode env => v.create dir dentry mode env
  | .lookup dir dentry env => v.lookup dir dentry env
  | .read p room len ppos => v.read p room len ppos
  | .write p buf len ppos => v.write p buf len ppos

end Volume

def volume : Machine Volume Req Reply := ⟨Volume.step⟩

end OSLab.Optimize
