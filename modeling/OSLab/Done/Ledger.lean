import OSLab.Done.CreateOutcome

/-!
# The inode numbers are handed out in order

No bit is ever cleared, so both bitmaps are prefixes, and two numbers say all
that the create path looks at: how many inode numbers are taken, and how many
of them have got a slot and a block.
-/

namespace OSLab.Done
open OSLab.Base OSLab.Kernel

/-- `taken` inode numbers are gone, the root's included, and `made` of the others have been
formatted, each with the next block. -/
structure Ledger (sb : OsfsSbInfo) (taken made : ℕ) : Prop where
  room : taken < INODE_COUNT
  below : made < taken
  inos : ∀ i, 1 ≤ i → i < INODE_COUNT → sb.inodeBitmap i = decide (i < taken + 1)
  blocks : ∀ i, i < DATA_BLOCK_COUNT → sb.blockBitmap i = decide (i < made + 1)
  credit : sb.nrFreeInodes = u32 ((INODE_COUNT : ℤ) - taken - made)

/-- The numbers run out with the bitmap, or earlier: the counter of free inodes falls by two for
each that is made, and the create path gives up when it hits zero. -/
def Exhausted (taken made : ℕ) : Prop := taken + made = INODE_COUNT ∨ taken + 1 = INODE_COUNT

instance (taken made : ℕ) : Decidable (Exhausted taken made) :=
  inferInstanceAs (Decidable (taken + made = INODE_COUNT ∨ taken + 1 = INODE_COUNT))

theorem dec32_u32 (x : ℤ) : dec32 (u32 x) = u32 (x - 1) := by
  unfold dec32 u32
  omega

section Ledger
variable {fs : Fs} {taken made : ℕ}

theorem Ledger.credit_zero {sb : OsfsSbInfo} (h : Ledger sb taken made) :
    sb.nrFreeInodes = 0 ↔ taken + made = INODE_COUNT := by
  have hlt := h.room
  have hmade := h.below
  rw [h.credit]
  unfold INODE_COUNT u32 at *
  omega

theorem Ledger.claimInode {sb : OsfsSbInfo} (h : Ledger sb taken made)
    (hnot : ¬ Exhausted taken made) : Ledger (sb.claimInode (taken + 1)) (taken + 1) made := by
  have hlt := h.room
  have hmade := h.below
  unfold Exhausted at hnot
  refine ⟨by omega, by omega, ?_, h.blocks, ?_⟩
  · intro i hi hlti
    show sb.inodeBitmap.set (taken + 1) i = _
    rw [Bitmap.set_apply, h.inos i hi hlti]
    by_cases he : i = taken + 1
    · rw [if_pos he, decide_eq_true (by omega)]
    · rw [if_neg he]
      exact decide_eq_decide.mpr (by omega)
  · show dec32 sb.nrFreeInodes = _
    rw [h.credit, dec32_u32]
    congr 1
    omega

theorem Ledger.formatInode {sb : OsfsSbInfo} (h : Ledger sb taken made)
    (hnot : ¬ Exhausted taken made) {oi : OsfsInode} (hino : oi.iIno = taken + 1) :
    Ledger (sb.formatInode oi (made + 1)) (taken + 1) (made + 1) := by
  have hclaim := h.claimInode hnot
  refine ⟨hclaim.room, Nat.succ_lt_succ h.below, ?_, ?_, ?_⟩
  · intro i hi hlti
    have hset := hclaim.inos i hi hlti
    show sb.inodeBitmap.set oi.iIno i = _
    rw [hino]
    exact hset
  · intro i hlti
    show sb.blockBitmap.set (made + 1) i = _
    rw [Bitmap.set_apply, h.blocks i hlti]
    by_cases he : i = made + 1
    · rw [if_pos he, decide_eq_true (by omega)]
    · rw [if_neg he]
      exact decide_eq_decide.mpr (by omega)
  · have hcredit := hclaim.credit
    show dec32 (dec32 sb.nrFreeInodes) = _
    rw [show dec32 sb.nrFreeInodes = _ from hcredit, dec32_u32]
    congr 1
    omega

theorem Ledger.congr {sb sb' : OsfsSbInfo} (h : Ledger sb taken made)
    (hi : sb'.inodeBitmap = sb.inodeBitmap) (hb : sb'.blockBitmap = sb.blockBitmap)
    (hn : sb'.nrFreeInodes = sb.nrFreeInodes) : Ledger sb' taken made where
  room := h.room
  below := h.below
  inos := by rw [hi]; exact h.inos
  blocks := by rw [hb]; exact h.blocks
  credit := by rw [hn]; exact h.credit

theorem Ledger.fresh {sb : OsfsSbInfo} (h : Ledger sb taken made) (hnot : ¬ Exhausted taken made) :
    Fresh sb (taken + 1) (made + 1) := by
  have hlt := h.room
  have hmade := h.below
  unfold Exhausted at hnot
  have hino : taken + 1 < INODE_COUNT := by omega
  have hblock : made + 1 < DATA_BLOCK_COUNT := by
    unfold DATA_BLOCK_COUNT
    unfold INODE_COUNT at hino
    omega
  refine ⟨Nat.succ_pos _, hino, ?_, hblock, ?_⟩
  · rw [h.inos _ (Nat.succ_pos _) hino]
    exact decide_eq_false (Nat.lt_irrefl _)
  · rw [h.blocks _ hblock]
    exact decide_eq_false (Nat.lt_irrefl _)

theorem Ledger.getFreeInode (h : SbInv fs.sb) (hl : Ledger fs.sb taken made) :
    osfsGetFreeInode fs.sb =
      if taken + 1 = INODE_COUNT then none else some (taken + 1, fs.sb.claimInode (taken + 1)) := by
  have hlt := hl.room
  have hfind : fs.sb.inodeBitmap.findClear 1 (fs.sb.inodeCount - 1) =
      if taken + 1 < 1 + (fs.sb.inodeCount - 1) then some (taken + 1) else none := by
    apply Bitmap.findClear_prefix
    · intro j hj hlast
      rw [h.inodeCount] at hlast
      exact hl.inos j hj (by omega)
    · omega
  have hcount := h.inodeCount
  unfold osfsGetFreeInode
  rw [hfind]
  by_cases he : taken + 1 = INODE_COUNT
  · rw [if_pos he, if_neg (by omega)]
    rfl
  · rw [if_neg he, if_pos (by omega)]
    rfl

/-- The block is the next one as well, and it is there: no more blocks than numbers are gone. -/
theorem Ledger.findBlock (h : SbInv fs.sb) (hl : Ledger fs.sb taken made)
    (hnot : ¬ Exhausted taken made) :
    fs.sb.blockBitmap.findClear 0 fs.sb.blockCount = some (made + 1) := by
  have hlt := (hl.fresh hnot).blockLt
  rw [h.blockCount, Bitmap.findClear_prefix (m := made + 1)
    (fun j _ hj => hl.blocks j (by omega)) (Nat.zero_le _), if_pos (by omega)]

theorem Ledger.freeBlocks_pos (h : SbInv fs.sb) (hl : Ledger fs.sb taken made) :
    fs.sb.nrFreeBlocks ≠ 0 := by
  have hlt := hl.room
  have hmade := hl.below
  have hblock : made + 1 < DATA_BLOCK_COUNT := by
    unfold DATA_BLOCK_COUNT
    unfold INODE_COUNT at hlt
    omega
  have hset := fs.sb.blockBitmap.clearCount_set (i := made + 1) (n := fs.sb.blockCount)
    (by rw [h.blockCount]; exact hblock)
    (by rw [hl.blocks _ hblock]; exact decide_eq_false (Nat.lt_irrefl _))
  rw [h.freeBlocks]
  omega

/-- What `osfs_new_inode` answers, going by the ledger. -/
theorem Ledger.newInode (h : SbInv fs.sb) (hl : Ledger fs.sb taken made) (env : Env)
    (dir : InodePtr) (mode : UMode) :
    osfsNewInode env fs dir mode =
      if !modeSupported mode then (.error .EINVAL, fs)
      else if Exhausted taken made then (.error .ENOSPC, fs)
      else if !env.newInodeOk then
        (.error .ENOMEM, { fs with sb := fs.sb.claimInode (taken + 1) })
      else (.ok fs.icache.count, fs.withNewInode env dir mode (taken + 1) (made + 1)) := by
  have hblocks := hl.freeBlocks_pos h
  have hcredit := hl.credit_zero
  unfold osfsNewInode
  by_cases hmode : (!modeSupported mode) = true
  · rw [if_pos hmode, if_pos hmode]
  rw [if_neg hmode, if_neg hmode]
  by_cases hsum : taken + made = INODE_COUNT
  · rw [if_pos (.inl (hcredit.mpr hsum)), if_pos (.inl hsum)]
  rw [if_neg (not_or.mpr ⟨fun h0 => hsum (hcredit.mp h0), hblocks⟩), hl.getFreeInode h]
  by_cases hlast : taken + 1 = INODE_COUNT
  · rw [if_pos hlast, if_pos (.inr hlast)]
  have hnot : ¬ Exhausted taken made := not_or.mpr ⟨hsum, hlast⟩
  have hlt := hl.room
  have hslot : osfsGetOsfsInode (fs.sb.claimInode (taken + 1)) (taken + 1) = some (taken + 1) :=
    osfsGetOsfsInode_some (Nat.succ_pos _) (by
      rw [show (fs.sb.claimInode (taken + 1)).inodeCount = fs.sb.inodeCount from rfl, h.inodeCount]
      omega)
  have hbound : ¬ (fs.sb.claimInode (taken + 1)).inodeCount ≤ taken + 1 := by
    rw [show (fs.sb.claimInode (taken + 1)).inodeCount = fs.sb.inodeCount from rfl, h.inodeCount]
    omega
  rw [if_neg hlast, if_neg hnot]
  dsimp only
  rw [if_neg hbound]
  cases henv : env.newInodeOk with
  | false => simp only [newInode_fails henv, Bool.not_false, ite_true]
  | true =>
    have hfind : (fs.sb.claimInode (taken + 1)).blockBitmap.findClear 0
        (fs.sb.claimInode (taken + 1)).blockCount = some (made + 1) := hl.findBlock h hnot
    simp only [newInode_ok henv, hslot, osfsAllocDataBlock, OsfsSbInfo.setOsfsInode, hfind,
      Option.map_some, Icache.push_set, Function.update_self, Function.update_idem, Bool.not_true,
      Bool.false_eq_true, ite_false]
    rfl

/-- What `osfs_create` answers, going by the ledger and by the entries of the directory. -/
theorem Ledger.create (h : FsInv fs) (hl : Ledger fs.sb taken made) (env : Env) {dir : InodePtr}
    (hdir : fs.isDirInode dir = true) (dentry : Qstr) (mode : UMode) :
    osfsCreate env fs dir dentry mode =
      if MAX_FILENAME_LEN < dentry.len then (.error .ENAMETOOLONG, fs)
      else if !modeSupported mode then (.error .EINVAL, fs)
      else if Exhausted taken made then (.error .ENOSPC, fs)
      else if !env.newInodeOk then
        (.error .ENOMEM, { fs with sb := fs.sb.claimInode (taken + 1) })
      else if MAX_DIR_ENTRIES ≤ fs.sb.dirEntryCount (fs.icache.inode dir).iPrivate then
        (.error .ENOSPC, iput (fs.withNewInode env dir mode (taken + 1) (made + 1)) fs.icache.count)
      else if dentry.name ∈ fs.sb.dirNames (fs.icache.inode dir).iPrivate then
        (.error .EEXIST, iput (fs.withNewInode env dir mode (taken + 1) (made + 1)) fs.icache.count)
      else (.ok fs.icache.count,
        (fs.withNewInode env dir mode (taken + 1) (made + 1)).withEntry dir (taken + 1)
          dentry.name) := by
  obtain ⟨hlt, hd, hmode⟩ := h.isDir hdir
  unfold osfsCreate
  by_cases hlen : MAX_FILENAME_LEN < dentry.len
  · rw [if_pos hlen, if_pos hlen]
  rw [if_neg hlen, if_neg hlen, hl.newInode h.sb]
  by_cases hm : (!modeSupported mode) = true
  · rw [if_pos hm, if_pos hm]
  rw [if_neg hm, if_neg hm]
  by_cases hex : Exhausted taken made
  · rw [if_pos hex, if_pos hex]
  rw [if_neg hex, if_neg hex]
  by_cases henv : (!env.newInodeOk) = true
  · rw [if_pos henv, if_pos henv]
  rw [if_neg henv, if_neg henv]
  have hf := hl.fresh hex
  have hinv := h.withNewInode env dir mode hf
  obtain ⟨htab, hents, hcnt⟩ := withNewInode_dir env dir mode h hf hd hmode
  have hnames : (fs.withNewInode env dir mode (taken + 1) (made + 1)).sb.dirNames
      (fs.icache.inode dir).iPrivate = fs.sb.dirNames (fs.icache.inode dir).iPrivate :=
    congrArg (List.map Prod.fst) hents
  have hpriv := withNewInode_inode_ne env dir mode (taken + 1) (made + 1) (Nat.ne_of_lt hlt)
  have hnew := withNewInode_inode_new env dir mode fs (taken + 1) (made + 1)
  have hino : (createdInode env (fs.icache.inode dir) (taken + 1) mode).iIno = taken + 1 :=
    (newVfsInode_spec env (fs.icache.inode dir) (taken + 1) mode).2.1
  have hok := hinv.sb.dir (fs.icache.inode dir).iPrivate
    ((formatInode_formatted_ne fs.sb _ _ (h.sb.format_ne (hf.newSlot env dir mode) hd)).mpr hd)
    (by rw [htab]; exact hmode)
  dsimp only
  rw [hpriv, hnew, hino]
  rcases osfsAddDirEntry_cases hok dentry.noNul (taken + 1) with
    ⟨hfull, ha⟩ | ⟨hroom, hin, ha⟩ | ⟨hroom, hnin, ha⟩
  · rw [hcnt] at hfull
    rw [ha, if_pos hfull]
  · rw [hcnt] at hroom
    rw [hnames] at hin
    rw [ha, if_neg (Nat.not_le_of_lt hroom), if_pos hin]
  · rw [hcnt] at hroom
    rw [hnames] at hnin
    rw [ha, if_neg (Nat.not_le_of_lt hroom), if_neg hnin]
    unfold Fs.withEntry
    rw [hpriv]

end Ledger

end OSLab.Done
