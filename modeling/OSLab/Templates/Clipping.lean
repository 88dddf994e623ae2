import OSLab.Done.System
import OSLab.Optimize.System

/-!
# The length a write copies

Both modules clip the length of a write at the end of the storage of the
file, with an unsigned comparison and a difference that is not checked for
its sign.
-/

namespace OSLab.Templates
open OSLab.Base OSLab.Kernel

/-- A `copy_from_user` of a write: the storage it stores into, the position in it and the length. -/
structure CopyCall where
  base : ℕ
  capacity : ℕ
  ppos : ℕ
  len : ℕ

/-- The length is not longer than the request, and what it addresses lies in the storage. -/
def CopyCall.Within (c : CopyCall) (len : ℕ) : Prop :=
  c.len ≤ len ∧ (0 < c.len → c.ppos + c.len ≤ c.capacity)

/- The call of `Lab4_Template_Done/file.c:85-86`, for a file with a block. -/
def doneCopy (fs : Done.Fs) (inode : InodePtr) (len ppos : ℕ) : CopyCall :=
  let ino := (fs.icache.inode inode).iPrivate
  { base := u32 ((fs.sb.inodeTable ino).iBlock * fs.sb.blockSize : ℕ)
    capacity := fs.sb.blockSize
    ppos
    len := Done.osfsWriteLen fs.sb.blockSize ppos len }

/- The call of `Lab4_Template_Optimize/file.c:38-40`, for a file with an extent. -/
def optimizeCopy (fs : Optimize.Fs) (inode : InodePtr) (len ppos : ℕ) : CopyCall :=
  let ino := (fs.icache.inode inode).iPrivate
  { base := fs.sb.extentAddr ino
    capacity := fs.sb.extentBytes ino
    ppos
    len := clipLen (fs.sb.extentBytes ino) ppos len }

/-! ### The calls are those of `osfs_write` -/

/-- A write to a file with a block makes this copy and, when it succeeds, returns its length. -/
theorem osfsWrite_doneCopy (env : Env) (fs : Done.Fs) (inode : InodePtr) (buf : Bytes)
    (len ppos : ℕ) (hblock : (fs.sb.inodeTable (fs.icache.inode inode).iPrivate).iBlocks ≠ 0) :
    let c := doneCopy fs inode len ppos
    let copied := copyFromUser fs.sb.dataBlocks (c.base + ppos) buf c.len
    (Done.osfsWrite env fs inode buf len ppos).2.2.sb.dataBlocks = copied.2 ∧
      (copied.1 = 0 → (Done.osfsWrite env fs inode buf len ppos).1 = .ok c.len) := by
  simp only [Done.osfsWrite, Done.osfsWriteBlock, hblock, ite_false, doneCopy]
  generalize copyFromUser _ _ _ _ = copied
  obtain ⟨left, data⟩ := copied
  cases left with
  | zero => exact ⟨rfl, fun _ => rfl⟩
  | succ left => exact ⟨rfl, fun h0 => absurd h0 (Nat.succ_ne_zero left)⟩

theorem osfsWriteUpdate_data (fs : Optimize.Fs) (inode : InodePtr) (ppos : ℕ) :
    (Optimize.osfsWriteUpdate fs inode ppos).sb.dataBlocks = fs.sb.dataBlocks := by
  unfold Optimize.osfsWriteUpdate
  dsimp only
  split <;> rfl

theorem osfsWrite_optimizeCopy (fs : Optimize.Fs) (inode : InodePtr) (buf : Bytes) (len ppos : ℕ)
    (hext : (fs.sb.inodeTable (fs.icache.inode inode).iPrivate).iExtent.eeLen ≠ 0) :
    let c := optimizeCopy fs inode len ppos
    let copied := copyFromUser fs.sb.dataBlocks (c.base + ppos) buf c.len
    (Optimize.osfsWrite fs inode buf len ppos).2.2.2.sb.dataBlocks = copied.2 ∧
      (copied.1 = 0 → (Optimize.osfsWrite fs inode buf len ppos).1 = .ok c.len) := by
  simp only [Optimize.osfsWrite, Optimize.osfsWriteExtent, hext, ite_false, optimizeCopy]
  generalize copyFromUser _ _ _ _ = copied
  obtain ⟨left, data⟩ := copied
  cases left with
  | zero => exact ⟨osfsWriteUpdate_data _ inode _, fun _ => rfl⟩
  | succ left => exact ⟨rfl, fun h0 => absurd h0 (Nat.succ_ne_zero left)⟩

/-! ### The clipped length -/

theorem clipped_within_iff {c : CopyCall} {len : ℕ} (hcap : c.capacity < 2 ^ 32)
    (hlen : c.len = clipLen c.capacity c.ppos (rwCount len))
    (harea : rwVerifyArea c.ppos len = true) :
    c.Within (rwCount len) ↔ c.ppos ≤ c.capacity := by
  have hend : c.ppos + len ≤ LLONG_MAX := of_decide_eq_true harea
  have hcount : rwCount len ≤ len ∧ rwCount len ≤ MAX_RW_COUNT := by
    unfold rwCount
    omega
  have hle : c.ppos + rwCount len ≤ LLONG_MAX := by omega
  unfold CopyCall.Within
  constructor
  · intro ⟨hshort, _⟩
    by_contra hpast
    -- the difference is negative: as a `size_t` it is longer than any request
    have hlong := clipLen_past (Nat.lt_of_not_le hpast) hle
    rw [← hlen] at hlong
    have hmax : MAX_RW_COUNT ≤ INT_MAX := by decide
    omega
  · intro hpos
    have hwrap : LLONG_MAX < 2 ^ 64 := by decide
    rw [clipLen_eq hcap hpos (by omega)] at hlen
    omega

/-- For a file with storage, the copy of a write stays within the request and the storage exactly
when the position is not past the end of the storage. -/
theorem osfsWrite_within_iff {len ppos : ℕ} (harea : rwVerifyArea ppos len = true) :
    (∀ (fs : Done.Fs) (inode : InodePtr), fs.sb.blockSize < 2 ^ 32 →
      ((doneCopy fs inode (rwCount len) ppos).Within (rwCount len) ↔ ppos ≤ fs.sb.blockSize)) ∧
    (∀ (fs : Optimize.Fs) (inode : InodePtr),
      (optimizeCopy fs inode (rwCount len) ppos).Within (rwCount len) ↔
        ppos ≤ fs.sb.extentBytes (fs.icache.inode inode).iPrivate) := by
  refine ⟨fun fs inode hsize => ?_, fun fs inode => ?_⟩
  · exact clipped_within_iff (c := doneCopy fs inode (rwCount len) ppos) hsize rfl harea
  · have hcap : fs.sb.extentBytes (fs.icache.inode inode).iPrivate < 2 ^ 32 := by
      unfold Optimize.OsfsSbInfo.extentBytes u32
      omega
    exact clipped_within_iff (c := optimizeCopy fs inode (rwCount len) ppos) hcap rfl harea

/- Fresh mounts with one regular file, which has the VFS inode 1. -/
def doneFile : Done.Fs := (Done.osfsCreate Done.plainEnv Done.freshMount.fs 0 Done.nameA S_IFREG).2

def optimizeFile : Optimize.Fs :=
  (Optimize.osfsCreate Optimize.plainEnv Optimize.freshMount.fs 0 Done.nameA S_IFREG).2.2

theorem osfsWrite_within_iff_start :
    (doneCopy doneFile 1 (rwCount 2000) 1000).Within (rwCount 2000) ∧
      (optimizeCopy optimizeFile 1 (rwCount 2000) 1000).Within (rwCount 2000) :=
  have h := @osfsWrite_within_iff 2000 1000 (by decide)
  ⟨(h.1 doneFile 1 (by decide +kernel)).mpr (by decide +kernel),
    (h.2 optimizeFile 1).mpr (by decide +kernel)⟩

/-- One byte, written one position past the end: the length handed to `copy_from_user` is
2^64 - 1. -/
theorem osfsWrite_past_end :
    ((doneCopy doneFile 1 (rwCount 1) 1025).len = 2 ^ 64 - 1 ∧
      ¬ (doneCopy doneFile 1 (rwCount 1) 1025).Within (rwCount 1)) ∧
    ((optimizeCopy optimizeFile 1 (rwCount 1) 5121).len = 2 ^ 64 - 1 ∧
      ¬ (optimizeCopy optimizeFile 1 (rwCount 1) 5121).Within (rwCount 1)) := by
  have hdone : (doneCopy doneFile 1 (rwCount 1) 1025).len = 2 ^ 64 - 1 := by decide +kernel
  have hoptimize : (optimizeCopy optimizeFile 1 (rwCount 1) 5121).len = 2 ^ 64 - 1 := by
    decide +kernel
  refine ⟨⟨hdone, fun h => ?_⟩, hoptimize, fun h => ?_⟩
  · have hshort := h.1
    rw [hdone] at hshort
    exact absurd hshort (by decide)
  · have hshort := h.1
    rw [hoptimize] at hshort
    exact absurd hshort (by decide)

end OSLab.Templates
