import OSLab.Done.Step

/-!
# The accounting of inodes and blocks

Which part of the bookkeeping every run keeps consistent, when a failing
create leaves no trace, and when the counter of free inodes says the truth.
-/

namespace OSLab.Done
open OSLab.Base OSLab.Kernel

/-! ### Bitmaps, slots and blocks -/

/-- Blocks are counted, named inodes own a block of the data area each, sizes fit. -/
structure Consistent (fs : Fs) : Prop where
  freeBlocks : fs.sb.nrFreeBlocks = fs.sb.blockBitmap.clearCount fs.sb.blockCount
  inoUsed : ∀ d i ino, Names fs.sb d i ino → fs.sb.inodeBitmap ino = true
  blockLt : ∀ d i ino, Names fs.sb d i ino → (fs.sb.inodeTable ino).iBlock < fs.sb.blockCount
  blockPos : ∀ d i ino, Names fs.sb d i ino → (fs.sb.inodeTable ino).iBlock ≠ 0
  blockUsed : ∀ d i ino, Names fs.sb d i ino →
    fs.sb.blockBitmap (fs.sb.inodeTable ino).iBlock = true
  blockInj : ∀ d i ino d' i' ino', Names fs.sb d i ino → Names fs.sb d' i' ino' → ino ≠ ino' →
    (fs.sb.inodeTable ino).iBlock ≠ (fs.sb.inodeTable ino').iBlock
  fileSize : ∀ k, Formatted fs.sb k → sIsDir (fs.sb.inodeTable k).iMode = false →
    (fs.sb.inodeTable k).iSize ≤ fs.sb.blockSize
  dirSize : ∀ d, Formatted fs.sb d → sIsDir (fs.sb.inodeTable d).iMode = true →
    (fs.sb.inodeTable d).iSize ≤ MAX_DIR_ENTRIES * DIR_ENTRY_SIZE
  vfsSize : ∀ p, (fs.icache.inode p).iPrivate ≠ 0 →
    (fs.icache.inode p).iSize ≤ (fs.sb.inodeTable (fs.icache.inode p).iPrivate).iSize

theorem FsInv.consistent {fs : Fs} (h : FsInv fs) : Consistent fs where
  freeBlocks := h.sb.freeBlocks
  inoUsed := fun d i ino hn => h.sb.inoUsed ino (h.sb.named d i ino hn).1
  blockLt := by
    intro d i ino hn
    rw [h.sb.blockCount]
    exact h.sb.blockLt ino (h.sb.named d i ino hn).1
  blockPos := by
    intro d i ino hn h0
    obtain ⟨hf, hr⟩ := h.sb.named d i ino hn
    exact hr (h.sb.blockInj ino ROOT_INODE hf h.sb.root (h0.trans h.sb.rootBlock.symm))
  blockUsed := fun d i ino hn => h.sb.blockUsed ino (h.sb.named d i ino hn).1
  blockInj := by
    intro d i ino d' i' ino' hn hn' hne he
    exact hne (h.sb.blockInj ino ino' (h.sb.named d i ino hn).1 (h.sb.named d' i' ino' hn').1 he)
  fileSize := by
    intro k hk hm
    rw [h.sb.blockSize]
    exact h.sb.fileSize k hk hm
  dirSize := by
    intro d hd hm
    rw [(h.sb.dir d hd hm).size]
    exact Nat.mul_le_mul_right _ (h.sb.dir d hd hm).count
  vfsSize := fun p hp => (h.inodes p hp).2.size

/-- The place of `osfs_new_inode` where the block is allocated: the counter of free blocks is not
zero, an inode number has been taken, and its slot may hold anything. -/
theorem FsInv.alloc_succeeds {fs : Fs} (h : FsInv fs) (hguard : fs.sb.nrFreeBlocks ≠ 0) {ino : ℕ}
    {sb : OsfsSbInfo} (hget : osfsGetFreeInode fs.sb = some (ino, sb)) (oi : OsfsInode) :
    ∃ r, osfsAllocDataBlock (sb.setOsfsInode ino oi) = some r := by
  obtain ⟨_, _, _, rfl⟩ := osfsGetFreeInode_some hget
  apply osfsAllocDataBlock_isSome
  show 0 < fs.sb.blockBitmap.clearCount fs.sb.blockCount
  rw [← h.sb.freeBlocks]
  exact Nat.pos_of_ne_zero hguard

theorem run_consistent {s : Sys} (h : Mounted s) (rs : List Req) :
    Consistent (osfs.run s rs).fs ∧
      ∀ ino sb oi, (osfs.run s rs).fs.sb.nrFreeBlocks ≠ 0 →
        osfsGetFreeInode (osfs.run s rs).fs.sb = some (ino, sb) →
        ∃ r, osfsAllocDataBlock (sb.setOsfsInode ino oi) = some r := by
  have hinv := SysInv.run h rs
  exact ⟨hinv.fs.consistent, fun ino sb oi hguard hget => hinv.fs.alloc_succeeds hguard hget oi⟩

/- Two files, a third create with a name that is there already, and a write to the first file. -/
def createsAndWrite : List Req :=
  [.create 0 nameA S_IFREG plainEnv, .create 0 nameB S_IFREG plainEnv,
    .create 0 nameA S_IFREG plainEnv, .open 1, .write 0 [104, 105] 2 plainEnv]

theorem createsAndWrite_consistent :
    (osfs.trace freshMount createsAndWrite).map Prod.snd =
      [.created 1 2, .created 2 3, .createFailed .EEXIST, .opened 0, .written (.ok 2)] ∧
    Consistent (osfs.run freshMount createsAndWrite).fs ∧
      ∀ ino sb oi, (osfs.run freshMount createsAndWrite).fs.sb.nrFreeBlocks ≠ 0 →
        osfsGetFreeInode (osfs.run freshMount createsAndWrite).fs.sb = some (ino, sb) →
        ∃ r, osfsAllocDataBlock (sb.setOsfsInode ino oi) = some r :=
  ⟨rfl, run_consistent freshMount_mounted createsAndWrite⟩

/-! ### Creates that fail -/

/-- Bitmaps, counters and the parent directory are what they were. -/
structure Unchanged (fs fs' : Fs) (dir : InodePtr) : Prop where
  inodeBitmap : fs'.sb.inodeBitmap = fs.sb.inodeBitmap
  blockBitmap : fs'.sb.blockBitmap = fs.sb.blockBitmap
  nrFreeInodes : fs'.sb.nrFreeInodes = fs.sb.nrFreeInodes
  nrFreeBlocks : fs'.sb.nrFreeBlocks = fs.sb.nrFreeBlocks
  entries : fs'.sb.dirEntries (fs.icache.inode dir).iPrivate =
    fs.sb.dirEntries (fs.icache.inode dir).iPrivate
  size : (fs'.sb.inodeTable (fs.icache.inode dir).iPrivate).iSize =
    (fs.sb.inodeTable (fs.icache.inode dir).iPrivate).iSize
  vfsSize : (fs'.icache.inode dir).iSize = (fs.icache.inode dir).iSize

/-- The create fails after `osfs_get_free_inode` has handed out a number. -/
structure FailsLate (env : Env) (fs : Fs) (dir : InodePtr) (dentry : Qstr) (mode : UMode) : Prop where
  short : dentry.len ≤ MAX_FILENAME_LEN
  allocates : CanAllocate fs.sb mode
  fails : env.newInodeOk = false ∨
    EntryRefused fs.sb (fs.icache.inode dir).iPrivate dentry.name

theorem claimed_changes {sb : OsfsSbInfo} {ino : ℕ} {b : Bitmap} (hfree : sb.inodeBitmap ino = false)
    (h : b ino = true) : b ≠ sb.inodeBitmap := by
  intro he
  rw [he, hfree] at h
  cases h

/-- A late failure keeps the inode number it has taken; an earlier one touches nothing. -/
theorem CreateOutcome.unchanged_iff {fs : Fs} {env : Env} {dir : InodePtr} {dentry : Qstr}
    {mode : UMode} {r : Except Errno InodePtr × Fs}
    (ho : CreateOutcome env fs dir dentry mode r) :
    ((∃ e, r.1 = .error e) → Unchanged fs r.2 dir) ↔ ¬ FailsLate env fs dir dentry mode := by
  cases ho with
  | refused e hno =>
    refine iff_of_true (fun _ => ⟨rfl, rfl, rfl, rfl, rfl, rfl, rfl⟩) ?_
    intro hl
    rcases hno with hlen | hcan
    · exact absurd hl.short (Nat.not_le_of_lt hlen)
    · exact hcan hl.allocates
  | noMemory ino hlen hcan hmem hlt hfree =>
    refine iff_of_false ?_ (fun hn => hn ⟨hlen, hcan, Or.inl hmem⟩)
    intro hu
    have hsame := (hu ⟨_, rfl⟩).inodeBitmap
    exact claimed_changes hfree (fs.sb.inodeBitmap.set_self ino) hsame
  | rejected e ino b hlen hcan hmem hf href =>
    refine iff_of_false ?_ (fun hn => hn ⟨hlen, hcan, Or.inr href⟩)
    intro hu
    have hsame := (hu ⟨_, rfl⟩).inodeBitmap
    exact claimed_changes hf.inoFree (fs.sb.inodeBitmap.set_self ino) hsame
  | created ino b hlen hcan hmem hf hent =>
    refine iff_of_true (fun he => ?_) ?_
    · obtain ⟨e, he⟩ := he
      cases he
    · intro hl
      rcases hl.fails with hno | href
      · rw [hmem] at hno
        cases hno
      · exact hent href

theorem create_unchanged_iff {s : Sys} (h : Mounted s) (rs : List Req) (env : Env) (dir : InodePtr)
    (dentry : Qstr) (mode : UMode) (hdir : (osfs.run s rs).fs.isDirInode dir = true) :
    ((∃ e, (osfsCreate env (osfs.run s rs).fs dir dentry mode).1 = .error e) →
      Unchanged (osfs.run s rs).fs (osfsCreate env (osfs.run s rs).fs dir dentry mode).2 dir) ↔
    ¬ FailsLate env (osfs.run s rs).fs dir dentry mode :=
  (osfsCreate_outcome (SysInv.run h rs).fs env hdir dentry mode).unchanged_iff

/- One regular file in the root directory. -/
def oneFile : List Req := [.create 0 nameA S_IFREG plainEnv]

theorem create_unchanged_iff_oneFile :
    ((∃ e, (osfsCreate plainEnv (osfs.run freshMount oneFile).fs 0 nameA S_IFREG).1 = .error e) →
      Unchanged (osfs.run freshMount oneFile).fs
        (osfsCreate plainEnv (osfs.run freshMount oneFile).fs 0 nameA S_IFREG).2 0) ↔
    ¬ FailsLate plainEnv (osfs.run freshMount oneFile).fs 0 nameA S_IFREG :=
  create_unchanged_iff freshMount_mounted oneFile plainEnv 0 nameA S_IFREG (by decide +kernel)

/-- A second create of the same name is refused and costs a block. -/
theorem create_again_changes :
    ¬ ((∃ e, (osfsCreate plainEnv (osfs.run freshMount oneFile).fs 0 nameA S_IFREG).1 = .error e) →
      Unchanged (osfs.run freshMount oneFile).fs
        (osfsCreate plainEnv (osfs.run freshMount oneFile).fs 0 nameA S_IFREG).2 0) := by
  intro hu
  have herr : (osfsCreate plainEnv (osfs.run freshMount oneFile).fs 0 nameA S_IFREG).1 =
      .error .EEXIST := by decide +kernel
  have hblocks := (hu ⟨_, herr⟩).nrFreeBlocks
  revert hblocks
  decide +kernel

/-! ### The counter of free inodes -/

/-- What the mount establishes: the counter is the number of clear bits. -/
def FreeInodesExact (sb : OsfsSbInfo) : Prop :=
  sb.nrFreeInodes = sb.inodeBitmap.clearCount sb.inodeCount

/-- The counter is exact after the request, and it has not gone up: a decrement that wraps does. -/
def CountsInodes (s : Sys) (r : Req) : Prop :=
  FreeInodesExact (osfs.next s r).fs.sb ∧
    (osfs.next s r).fs.sb.nrFreeInodes ≤ s.fs.sb.nrFreeInodes

/-- The request is a create for which `new_inode` succeeds. -/
def GetsInode (s : Sys) : Req → Prop
  | .create dir dentry mode env =>
    s.fs.isDirInode dir = true ∧ dentry.len ≤ MAX_FILENAME_LEN ∧ CanAllocate s.fs.sb mode ∧
      env.newInodeOk = true
  | _ => False

theorem clearCount_claim {sb : OsfsSbInfo} (h : SbInv sb) {ino : ℕ} (hlt : ino < INODE_COUNT)
    (hfree : sb.inodeBitmap ino = false) :
    (sb.inodeBitmap.set ino).clearCount sb.inodeCount + 1 =
      sb.inodeBitmap.clearCount sb.inodeCount :=
  Bitmap.clearCount_set _ (by rw [h.inodeCount]; exact hlt) hfree

theorem FreeInodesExact.bounds {sb : OsfsSbInfo} (h : SbInv sb) (he : FreeInodesExact sb) :
    sb.nrFreeInodes ≤ 20 := by
  have hle := sb.inodeBitmap.clearCount_le sb.inodeCount
  rw [← he, h.inodeCount] at hle
  exact hle

/-- One decrement for the bit that `osfs_get_free_inode` sets. -/
theorem FreeInodesExact.claim {sb : OsfsSbInfo} (h : SbInv sb) (he : FreeInodesExact sb)
    {ino : ℕ} (hlt : ino < INODE_COUNT) (hfree : sb.inodeBitmap ino = false) :
    FreeInodesExact (sb.claimInode ino) ∧
      (sb.claimInode ino).nrFreeInodes ≤ sb.nrFreeInodes := by
  have hset := clearCount_claim h hlt hfree
  have hbound := he.bounds h
  unfold FreeInodesExact at he ⊢
  show dec32 sb.nrFreeInodes = (sb.inodeBitmap.set ino).clearCount sb.inodeCount ∧
    dec32 sb.nrFreeInodes ≤ sb.nrFreeInodes
  rw [dec32_of_pos (by omega) (by omega)]
  omega

/-- The second decrement makes the counter too small, or wraps it. -/
theorem FreeInodesExact.format {sb : OsfsSbInfo} (h : SbInv sb) (he : FreeInodesExact sb)
    {oi : OsfsInode} (b : ℕ) (hs : NewSlot sb oi) :
    ¬ FreeInodesExact (sb.formatInode oi b) := by
  have hset := clearCount_claim h hs.lt hs.free
  have hbound := he.bounds h
  unfold FreeInodesExact at he ⊢
  show ¬ dec32 (dec32 sb.nrFreeInodes) = (sb.inodeBitmap.set oi.iIno).clearCount sb.inodeCount
  rw [dec32_of_pos (n := sb.nrFreeInodes) (by omega) (by omega)]
  unfold dec32 u32
  omega

theorem StepOutcome.sameInodes {s : Sys} {r : Req} {q : Res × Sys} (ho : StepOutcome s r q)
    (hne : ∀ dir dentry mode env, r ≠ .create dir dentry mode env) :
    q.2.fs.sb.nrFreeInodes = s.fs.sb.nrFreeInodes ∧
      q.2.fs.sb.inodeBitmap = s.fs.sb.inodeBitmap ∧
      q.2.fs.sb.inodeCount = s.fs.sb.inodeCount := by
  cases ho with
  | create dir dentry mode env r hdir ho => exact absurd rfl (hne dir dentry mode env)
  | lookup dir dentry env r hdir ho => cases ho <;> exact ⟨rfl, rfl, rfl⟩
  | _ => exact ⟨rfl, rfl, rfl⟩

theorem countsInodes_create {s : Sys} (h : SysInv s) (he : FreeInodesExact s.fs.sb)
    (dir : InodePtr) (dentry : Qstr) (mode : UMode) (env : Env) :
    CountsInodes s (.create dir dentry mode env) ↔
      ¬ GetsInode s (.create dir dentry mode env) := by
  have ho := osfs_outcome h (.create dir dentry mode env)
  simp only [CountsInodes, GetsInode]
  revert ho
  generalize osfs.resp s (.create dir dentry mode env) = o
  generalize osfs.next s (.create dir dentry mode env) = s'
  intro ho
  cases ho with
  | refused _ hno =>
    refine iff_of_true ⟨he, Nat.le_refl _⟩ fun hg => ?_
    rw [show s.fs.isDirInode dir = false from hno] at hg
    exact Bool.false_ne_true hg.1
  | create _ _ _ _ r hdir hco =>
    cases hco with
    | refused e hno =>
      refine iff_of_true ⟨he, Nat.le_refl _⟩ fun hg => ?_
      rcases hno with hlen | hcan
      · exact absurd hg.2.1 (Nat.not_le_of_lt hlen)
      · exact hcan hg.2.2.1
    | noMemory ino hlen hcan hmem hlt hfree =>
      refine iff_of_true (he.claim h.fs.sb hlt hfree) fun hg => ?_
      rw [hmem] at hg
      exact Bool.false_ne_true hg.2.2.2
    | rejected e ino b hlen hcan hmem hf href =>
      refine iff_of_false (fun hc => ?_) fun hn => hn ⟨hdir, hlen, hcan, hmem⟩
      exact he.format h.fs.sb b (hf.newSlot env dir mode) hc.1
    | created ino b hlen hcan hmem hf hent =>
      refine iff_of_false (fun hc => ?_) fun hn => hn ⟨hdir, hlen, hcan, hmem⟩
      exact he.format h.fs.sb b (hf.newSlot env dir mode) hc.1

theorem countsInodes_iff {s : Sys} (h : SysInv s) (he : FreeInodesExact s.fs.sb) (r : Req) :
    CountsInodes s r ↔ ¬ GetsInode s r := by
  have ho := osfs_outcome h r
  cases r with
  | create dir dentry mode env => exact countsInodes_create h he dir dentry mode env
  | _ =>
    refine iff_of_true ?_ id
    obtain ⟨hnr, hbits, hcount⟩ := ho.sameInodes (fun _ _ _ _ hc => by cases hc)
    refine ⟨?_, Nat.le_of_eq hnr⟩
    unfold FreeInodesExact at he ⊢
    rw [hnr, hbits, hcount]
    exact he

theorem mounted_freeInodes {s : Sys} (h : Mounted s) : FreeInodesExact s.fs.sb := by
  obtain ⟨env, vmallocOk, dMakeRootOk, hfs, _⟩ := h
  obtain ⟨⟨oi, _, _, _, _, hsb⟩, _⟩ := osfsFillSuper_ok hfs
  have hset := Bitmap.empty.clearCount_set (i := ROOT_INODE) (n := INODE_COUNT) (by decide) rfl
  rw [Bitmap.clearCount_empty] at hset
  unfold FreeInodesExact
  rw [hsb]
  show INODE_COUNT - 1 = (Bitmap.empty.set ROOT_INODE).clearCount INODE_COUNT
  omega

/-- Along a run the counter stays exact, and never wraps, as long as no create gets an inode; the
first one that does breaks it. -/
theorem freeInodes_exact_iff {s : Sys} (h : Mounted s) (rs : List Req) :
    osfs.EveryStep CountsInodes s rs ↔ osfs.EveryStep (fun s r => ¬ GetsInode s r) s rs := by
  apply osfs.everyStep_iff_of_invariant (P := fun s => SysInv s ∧ FreeInodesExact s.fs.sb)
    (H := fun _ _ => True)
  · intro s r ⟨hinv, he⟩ _ hg
    have hc := (countsInodes_iff hinv he r).mpr hg
    exact ⟨hc, hinv.next r, hc.1⟩
  · intro s r ⟨hinv, he⟩ _ hc
    exact (countsInodes_iff hinv he r).mp hc
  · exact ⟨(SysInv.mounted h).1, mounted_freeInodes h⟩
  · exact osfs.everyStep_of_forall (fun _ _ => trivial) s rs

theorem freeInodes_exact_iff_oneFile :
    osfs.EveryStep CountsInodes freshMount oneFile ↔
      osfs.EveryStep (fun s r => ¬ GetsInode s r) freshMount oneFile :=
  freeInodes_exact_iff freshMount_mounted oneFile

/-- After a single create the counter is 17 while 18 bits are clear. -/
theorem freeInodes_drift : ¬ osfs.EveryStep CountsInodes freshMount oneFile := by
  intro hc
  have he : FreeInodesExact (osfs.run freshMount oneFile).fs.sb := hc.1.1
  unfold FreeInodesExact at he
  revert he
  decide +kernel

end OSLab.Done
