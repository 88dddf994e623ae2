import OSLab.Base.CString
import Mathlib.Logic.Function.Basic
import Mathlib.Data.BitVec

/-!
# What the two osfs modules use of the Linux kernel

File modes, VFS inodes and their allocation, directory names, user-space
copies, and the argument checks of the VFS read and write paths. Whether
`new_inode` finds memory, who calls and what time it is are inputs.
-/

namespace OSLab.Kernel
open OSLab.Base

inductive Errno where
  | ENOSPC
  | EEXIST
  | ENAMETOOLONG
  | EINVAL
  | ENOMEM
  | EIO
  | EFAULT
  | ENXIO
  deriving DecidableEq, Repr

/-! ### Integer conversions and limits (x86-64) -/

def u32 (x : ℤ) : ℕ := (x % 2 ^ 32).toNat

def u64 (x : ℤ) : ℕ := (x % 2 ^ 64).toNat

def INT_MAX : ℕ := 2 ^ 31 - 1

def LLONG_MAX : ℕ := 2 ^ 63 - 1

/- `INT_MAX & PAGE_MASK`: the longest transfer the VFS hands to a file system. -/
def MAX_RW_COUNT : ℕ := 0x7ffff000

/- `linux/fs.h`. -/
def BLOCK_SIZE : ℕ := 1024

theorem u32_of_lt {n : ℕ} (h : n < 2 ^ 32) : u32 n = n := by
  unfold u32
  omega

theorem u64_of_lt {n : ℕ} (h : n < 2 ^ 64) : u64 n = n := by
  unfold u64
  omega

/-! ### File modes -/

abbrev UMode := BitVec 16

def S_IFMT : UMode := 0xF000#16
def S_IFDIR : UMode := 0x4000#16
def S_IFREG : UMode := 0x8000#16
def S_IFLNK : UMode := 0xA000#16
def S_ISGID : UMode := 0x0400#16

def sIsDir (mode : UMode) : Bool := mode &&& S_IFMT == S_IFDIR
def sIsReg (mode : UMode) : Bool := mode &&& S_IFMT == S_IFREG
def sIsLnk (mode : UMode) : Bool := mode &&& S_IFMT == S_IFLNK

theorem sIsReg_not_dir {mode : UMode} (h : sIsReg mode = true) : sIsDir mode = false := by
  simp only [sIsReg, sIsDir, beq_iff_eq] at h ⊢
  rw [h]
  rfl

/-! ### VFS inodes -/

abbrev Time := ℕ

/-- Pointer to a VFS inode: its number in the order of the `new_inode` calls. -/
abbrev InodePtr := ℕ

inductive InodeOperations where
  | empty
  | osfsDir
  | osfsFile
  deriving DecidableEq, Repr

inductive FileOperations where
  | noOpen
  | osfsDir
  | osfsFile
  deriving DecidableEq, Repr

/-- `struct inode`, as far as osfs uses it. `iPrivate` is the index of the `osfs_inode` in the
inode table; index 0, which `osfs_get_osfs_inode` never hands out, stands for NULL. -/
structure Inode where
  iIno : ℕ
  iMode : UMode
  iUid : ℕ
  iGid : ℕ
  iNlink : ℕ
  iSize : ℕ
  iBlocks : ℕ
  iAtime : Time
  iMtime : Time
  iCtime : Time
  iOp : InodeOperations
  iFop : FileOperations
  iPrivate : ℕ
  deriving DecidableEq

/- What `new_inode` hands out (`inode_init_always`). -/
def Inode.fresh : Inode :=
  { iIno := 0, iMode := 0, iUid := 0, iGid := 0, iNlink := 1, iSize := 0, iBlocks := 0,
    iAtime := 0, iMtime := 0, iCtime := 0, iOp := .empty, iFop := .noOpen, iPrivate := 0 }

structure Icache where
  inode : InodePtr → Inode
  count : ℕ

def Icache.empty : Icache := ⟨fun _ => Inode.fresh, 0⟩

/-- The kernel's side of one request. -/
structure Env where
  newInodeOk : Bool
  fsuid : ℕ
  fsgid : ℕ
  now : Time
  deriving DecidableEq

def Icache.set (ic : Icache) (p : InodePtr) (inode : Inode) : Icache :=
  { ic with inode := Function.update ic.inode p inode }

def Icache.push (ic : Icache) (inode : Inode) : Icache :=
  { inode := Function.update ic.inode ic.count inode, count := ic.count + 1 }

def newInode (env : Env) (ic : Icache) : Option (InodePtr × Icache) :=
  if env.newInodeOk then some (ic.count, ic.push Inode.fresh) else none

/- `inode_init_owner(&nop_mnt_idmap, inode, dir, mode)`. -/
def inodeInitOwner (env : Env) (inode : Inode) (dir : Option Inode) (mode : UMode) : Inode :=
  let inode := { inode with iUid := env.fsuid }
  match dir with
  | some dir =>
    if dir.iMode &&& S_ISGID ≠ 0 then
      { inode with iGid := dir.iGid, iMode := if sIsDir mode then mode ||| S_ISGID else mode }
    else { inode with iGid := env.fsgid, iMode := mode }
  | none => { inode with iGid := env.fsgid, iMode := mode }

/- `simple_inode_init_ts(inode)`. -/
def simpleInodeInitTs (env : Env) (inode : Inode) : Inode :=
  { inode with iAtime := env.now, iMtime := env.now, iCtime := env.now }

/- `simple_setattr` for the size 0 of an `O_TRUNC` open: only the VFS inode changes. -/
def simpleSetattr (env : Env) (inode : Inode) : Inode :=
  { inode with iSize := 0, iMtime := env.now, iCtime := env.now }

@[simp] theorem Icache.set_same (ic : Icache) (p : InodePtr) (inode : Inode) :
    (ic.set p inode).inode p = inode := Function.update_self ..

theorem Icache.set_ne (ic : Icache) {p q : InodePtr} (inode : Inode) (h : q ≠ p) :
    (ic.set p inode).inode q = ic.inode q := Function.update_of_ne h ..

@[simp] theorem Icache.push_same (ic : Icache) (inode : Inode) :
    (ic.push inode).inode ic.count = inode := Function.update_self ..

theorem Icache.push_ne (ic : Icache) {q : InodePtr} (inode : Inode) (h : q ≠ ic.count) :
    (ic.push inode).inode q = ic.inode q := Function.update_of_ne h ..

@[simp] theorem Icache.push_count (ic : Icache) (inode : Inode) :
    (ic.push inode).count = ic.count + 1 := rfl

theorem newInode_ok {env : Env} (h : env.newInodeOk = true) (ic : Icache) :
    newInode env ic = some (ic.count, ic.push Inode.fresh) := by
  simp only [newInode, h, ite_true]

theorem newInode_fails {env : Env} (h : env.newInodeOk = false) (ic : Icache) :
    newInode env ic = none := by
  simp only [newInode, h, Bool.false_eq_true, ite_false]

@[simp] theorem Icache.push_set (ic : Icache) (a b : Inode) :
    (ic.push a).set ic.count b = ic.push b := by
  unfold Icache.set Icache.push
  rw [Function.update_idem]

/-- The owner is set without touching the file type of the mode. -/
theorem inodeInitOwner_type (env : Env) (inode : Inode) (dir : Option Inode) (mode : UMode) :
    (inodeInitOwner env inode dir mode).iMode &&& S_IFMT = mode &&& S_IFMT := by
  have hor : (mode ||| S_ISGID) &&& S_IFMT = mode &&& S_IFMT := by
    have h0 : S_ISGID &&& S_IFMT = 0#16 := by decide
    rw [BitVec.and_comm, BitVec.and_or_distrib_left, BitVec.and_comm S_IFMT S_ISGID, h0,
      BitVec.or_zero, BitVec.and_comm]
  unfold inodeInitOwner
  split
  · split
    · dsimp only
      split
      · exact hor
      · rfl
    · rfl
  · rfl

theorem inodeInitOwner_keep (env : Env) (inode : Inode) (dir : Option Inode) (mode : UMode) :
    let inode' := inodeInitOwner env inode dir mode
    inode'.iSize = inode.iSize ∧ inode'.iOp = inode.iOp ∧ inode'.iFop = inode.iFop ∧
      inode'.iIno = inode.iIno ∧ inode'.iPrivate = inode.iPrivate := by
  unfold inodeInitOwner
  split
  · dsimp only
    split <;> exact ⟨rfl, rfl, rfl, rfl, rfl⟩
  · exact ⟨rfl, rfl, rfl, rfl, rfl⟩

/-! ### Directory names -/

/-- `struct qstr`: the name of a dentry, a NUL-terminated string with its length. -/
structure Qstr where
  name : Bytes
  noNul : ∀ b ∈ name, b ≠ 0

def Qstr.len (q : Qstr) : ℕ := q.name.length

/- The name that a buffer holds up to its terminator. -/
def Qstr.ofBytes (bs : Bytes) : Qstr := ⟨cstr bs, cstr_noNul bs⟩

/-! ### User-space copies -/

/- `copy_from_user(dst, buf, n)`: `buf` holds the bytes that can be read before the first fault.
What lies behind them is zero-filled in the destination; the result is the number of bytes not
copied. A length above `INT_MAX` is refused by `check_copy_size`. -/
def copyFromUser (m : Mem) (dst : ℕ) (buf : Bytes) (n : ℕ) : ℕ × Mem :=
  if INT_MAX < n then (n, m)
  else
    let k := min n buf.length
    (n - k, m.store dst (buf.take k ++ List.replicate (n - k) 0))

/- `copy_to_user(buf, from, n)`, when the user buffer takes `room` bytes before the first fault:
the number of bytes not copied, and the bytes delivered. -/
def copyToUser (m : Mem) (src : ℕ) (room n : ℕ) : ℕ × Bytes :=
  if INT_MAX < n then (n, [])
  else (n - min n room, m.load src (min n room))

/- The stores of `copy_from_user`. -/
def copyFromUserStores (dst : ℕ) (buf : Bytes) (n : ℕ) : List ByteStore :=
  if INT_MAX < n then []
  else
    let k := min n buf.length
    [⟨dst, buf.take k ++ List.replicate (n - k) 0⟩]

theorem copyFromUser_apply (m : Mem) (dst : ℕ) (buf : Bytes) (n : ℕ) :
    (copyFromUser m dst buf n).2 = m.apply (copyFromUserStores dst buf n) := by
  unfold copyFromUser copyFromUserStores
  split <;> rfl

theorem copyFromUserStores_within {dst n : ℕ} {buf : Bytes} :
    ∀ st ∈ copyFromUserStores dst buf n, ∀ x, st.Covers x → dst ≤ x ∧ x < dst + n := by
  intro st hst x hx
  unfold copyFromUserStores at hst
  split at hst
  · exact absurd hst List.not_mem_nil
  · rw [List.mem_singleton] at hst
    subst hst
    simp only [ByteStore.Covers, List.length_append, List.length_take, List.length_replicate] at hx
    omega

theorem copyFromUser_refused (m : Mem) (dst : ℕ) (buf : Bytes) {n : ℕ} (h : INT_MAX < n) :
    copyFromUser m dst buf n = (n, m) := by
  unfold copyFromUser
  rw [if_pos h]

theorem copyFromUser_full (m : Mem) (dst : ℕ) (buf : Bytes) {n : ℕ} (h : n ≤ INT_MAX)
    (hb : n ≤ buf.length) : copyFromUser m dst buf n = (0, m.store dst (buf.take n)) := by
  have hn : ¬ INT_MAX < n := by omega
  have hk : min n buf.length = n := by omega
  simp only [copyFromUser, hn, ite_false, hk, Nat.sub_self, List.replicate_zero, List.append_nil]

theorem copyToUser_full (m : Mem) (src room : ℕ) {n : ℕ} (h : n ≤ INT_MAX) (hr : n ≤ room) :
    copyToUser m src room n = (0, m.load src n) := by
  have hn : ¬ INT_MAX < n := by omega
  have hk : min n room = n := by omega
  simp only [copyToUser, hn, ite_false, hk, Nat.sub_self]

theorem copyFromUser_short (m : Mem) (dst : ℕ) {buf : Bytes} {n : ℕ} (h : n ≤ INT_MAX)
    (hb : buf.length < n) :
    ∃ c, copyFromUser m dst buf n = (c + 1, (copyFromUser m dst buf n).2) := by
  have hn : ¬ INT_MAX < n := by omega
  refine ⟨n - buf.length - 1, ?_⟩
  simp only [copyFromUser, hn, ite_false, Prod.mk.injEq, and_true]
  omega

theorem copyToUser_short (m : Mem) (src : ℕ) {room n : ℕ} (h : n ≤ INT_MAX) (hr : room < n) :
    ∃ c, copyToUser m src room n = (c + 1, (copyToUser m src room n).2) := by
  have hn : ¬ INT_MAX < n := by omega
  refine ⟨n - room - 1, ?_⟩
  simp only [copyToUser, hn, ite_false, Prod.mk.injEq, and_true]
  omega

/-! ### Clipping a length -/

/- `if (*ppos + len > limit) len = limit - *ppos`, with an unsigned 64-bit sum and a signed 64-bit
difference that is stored in a `size_t`. -/
def clipLen (limit ppos len : ℕ) : ℕ :=
  if limit < u64 (ppos + len : ℕ) then u64 ((limit : ℤ) - ppos) else len

theorem clipLen_eq {limit ppos len : ℕ} (hs : limit < 2 ^ 32) (hp : ppos ≤ limit)
    (hl : ppos + len < 2 ^ 64) : clipLen limit ppos len = min len (limit - ppos) := by
  unfold clipLen
  rw [u64_of_lt hl]
  split
  · have hcast : ((limit : ℤ) - ppos) = ((limit - ppos : ℕ) : ℤ) := by omega
    rw [hcast, u64_of_lt (by omega)]
    omega
  · omega

/-- A position past the limit: the difference is negative, and as a `size_t` larger than anything
`copy_from_user` accepts. -/
theorem clipLen_past {limit ppos len : ℕ} (hp : limit < ppos) (hl : ppos + len ≤ LLONG_MAX) :
    INT_MAX < clipLen limit ppos len := by
  unfold LLONG_MAX at hl
  unfold clipLen
  rw [u64_of_lt (by omega), if_pos (by omega)]
  unfold u64 INT_MAX
  omega

/-! ### The VFS read and write paths -/

/- `rw_verify_area` at a position that is not negative: the end of the area must be a `loff_t`. -/
def rwVerifyArea (pos len : ℕ) : Bool := pos + len ≤ LLONG_MAX

def rwCount (len : ℕ) : ℕ := min len MAX_RW_COUNT

end OSLab.Kernel
