import OSLab.Done.Step

/-!
# The attributes of a file that is loaded again

A new file has its attributes twice, in the VFS inode and in the slot of the
inode table. `osfs_new_inode` and `osfs_write` keep the two, and `osfs_iget`
reads the slot when the VFS inode has been evicted.
-/

namespace OSLab.Done
open OSLab.Base OSLab.Kernel

/-- What the VFS and its callers see of an inode, apart from its number. -/
structure SameAttrs (a b : Inode) : Prop where
  mode : a.iMode = b.iMode
  uid : a.iUid = b.iUid
  gid : a.iGid = b.iGid
  nlink : a.iNlink = b.iNlink
  size : a.iSize = b.iSize
  blocks : a.iBlocks = b.iBlocks
  atime : a.iAtime = b.iAtime
  mtime : a.iMtime = b.iMtime
  ctime : a.iCtime = b.iCtime
  op : a.iOp = b.iOp
  fop : a.iFop = b.iFop

/-- One call of `osfs_write`, for which the VFS has checked position and length. -/
structure WriteCall where
  buf : Bytes
  len : ℕ
  ppos : ℕ
  env : Env
  area : ppos + len ≤ LLONG_MAX

def Fs.write (fs : Fs) (p : InodePtr) (w : WriteCall) : Fs :=
  (osfsWrite w.env fs p w.buf w.len w.ppos).2.2

def Fs.writes (fs : Fs) (p : InodePtr) (ws : List WriteCall) : Fs :=
  ws.foldl (fun fs w => fs.write p w) fs

/- The VFS inode is evicted and the file loaded again, with the attributes the evicted one had. -/
def ReloadsSame (env : Env) (fs : Fs) (p : InodePtr) : Prop :=
  ∃ q fs', osfsIget env (iput fs p) (fs.icache.inode p).iIno = (.ok q, fs') ∧
    SameAttrs (fs.icache.inode p) (fs'.icache.inode q)

/-! ### What `osfs_iget` reads -/

theorem igetInode_reg {oi : OsfsInode} (h : sIsReg oi.iMode = true) (ino : ℕ) :
    igetInode oi ino =
      { iIno := ino, iMode := oi.iMode, iUid := oi.iUid, iGid := oi.iGid, iNlink := 1,
        iSize := oi.iSize, iBlocks := oi.iBlocks, iAtime := oi.iAtime, iMtime := oi.iMtime,
        iCtime := oi.iCtime, iOp := .osfsFile, iFop := .osfsFile, iPrivate := ino } := by
  unfold igetInode
  dsimp only
  rw [sIsReg_not_dir h, if_neg Bool.false_ne_true, if_pos h]
  rfl

theorem newVfsInode_reg (env : Env) (dir : Inode) (ino : ℕ) {mode : UMode}
    (h : sIsReg mode = true) :
    newVfsInode env dir ino mode =
      { simpleInodeInitTs env
          { inodeInitOwner env Inode.fresh (some dir) mode with iIno := ino, iBlocks := 0 } with
        iOp := .osfsFile, iFop := .osfsFile, iNlink := 1, iSize := 0 } := by
  unfold newVfsInode
  dsimp only
  rw [sIsReg_not_dir h, if_neg Bool.false_ne_true, if_pos h]

/-- A write changes what `osfs_iget` will read as it changes the slot. -/
theorem igetInode_written (env : Env) {oi : OsfsInode} (h : sIsReg oi.iMode = true) (ino : ℕ)
    {ppos : ℕ} (hpos : ppos ≤ BLOCK_SIZE) :
    igetInode (writtenSlot env oi ppos) ino =
      { igetInode oi ino with
        iSize := if oi.iSize < ppos then ppos else oi.iSize, iMtime := env.now,
        iAtime := env.now, iCtime := env.now } := by
  unfold BLOCK_SIZE at hpos
  have hreg : sIsReg (writtenSlot env oi ppos).iMode = true := h
  rw [igetInode_reg h, igetInode_reg hreg]
  unfold writtenSlot
  dsimp only
  rw [u32_of_lt (by omega)]

/-! ### What the slot says of a file in use -/

/-- The VFS inode `p` of a new file: a load would give it a block, and its modification time for
the change time. -/
structure Cached (fs : Fs) (p : InodePtr) : Prop where
  inv : FsInv fs
  file : fs.isFileInode p = true
  slot : igetInode (fs.sb.inodeTable (fs.icache.inode p).iPrivate) (fs.icache.inode p).iPrivate =
    { fs.icache.inode p with iBlocks := 1, iCtime := (fs.icache.inode p).iMtime }
  noBlocks : (fs.icache.inode p).iBlocks = 0

theorem Cached.size {fs : Fs} {p : InodePtr} (h : Cached fs p) :
    (fs.sb.inodeTable (fs.icache.inode p).iPrivate).iSize = (fs.icache.inode p).iSize := by
  have hsize := congrArg Inode.iSize h.slot
  rw [(igetInode_fields _ _).2.2.1] at hsize
  exact hsize

section NewFile
variable {fs : Fs} (env : Env) (dir : InodePtr) {mode : UMode} {ino b : ℕ}

theorem created_slot (d : Inode) (hreg : sIsReg mode = true) (ino b : ℕ) :
    igetInode { createdSlot env d ino mode with iBlock := b } ino =
      { createdInode env d ino mode with
        iBlocks := 1, iCtime := (createdInode env d ino mode).iMtime } := by
  have hmode : sIsReg { createdSlot env d ino mode with iBlock := b }.iMode = true :=
    (createdSlot_dir env d ino mode).2.trans hreg
  rw [igetInode_reg hmode]
  unfold createdSlot createdInode newOsfsInode
  rw [newVfsInode_reg env d ino hreg]
  rfl

theorem Cached.created {dentry : Qstr} (h : FsInv fs) (hdir : fs.isDirInode dir = true)
    (hreg : sIsReg mode = true) (hlen : dentry.len ≤ MAX_FILENAME_LEN) (hf : Fresh fs.sb ino b)
    (hent : ¬ EntryRefused fs.sb (fs.icache.inode dir).iPrivate dentry.name) :
    Cached ((fs.withNewInode env dir mode ino b).withEntry dir ino dentry.name)
      fs.icache.count := by
  obtain ⟨hd, hdir', hc⟩ := withNewInode_canEnter h env mode hdir hlen hf hent
  have hinode : ((fs.withNewInode env dir mode ino b).withEntry dir ino dentry.name).icache.inode
      fs.icache.count = createdInode env (fs.icache.inode dir) ino mode :=
    (Icache.set_ne _ _ (Nat.ne_of_gt (h.isDir hdir).1)).trans
      (withNewInode_inode_new env dir mode fs ino b)
  have hne : ino ≠ (fs.icache.inode dir).iPrivate :=
    (h.sb.format_ne (hf.newSlot env dir mode) (h.isDir hdir).2.1).symm
  -- the entry goes to the slot of the directory
  have hslot : ((fs.withNewInode env dir mode ino b).withEntry dir ino dentry.name).sb.inodeTable
      ino = { createdSlot env (fs.icache.inode dir) ino mode with iBlock := b } := by
    rw [← congrArg Inode.iPrivate hd] at hne
    exact (setSlot_table_ne _ _ _ hne).trans (formatInode_table_self fs.sb _ b)
  have hnew := newVfsInode_reg env (fs.icache.inode dir) ino hreg
  refine ⟨(h.withNewInode env dir mode hf).withEntry hdir' hc, ?_, ?_, ?_⟩
  · rw [isFileInode_iff, hinode]
    exact ⟨Nat.ne_of_gt hf.inoPos, congrArg Inode.iFop hnew⟩
  · rw [hinode]
    have hpriv : (createdInode env (fs.icache.inode dir) ino mode).iPrivate = ino := rfl
    rw [hpriv, hslot]
    exact created_slot env (fs.icache.inode dir) hreg ino b
  · rw [hinode]
    exact congrArg Inode.iBlocks hnew

end NewFile

/-- A write keeps the two copies as they were to each other. -/
theorem Cached.write {fs : Fs} {p : InodePtr} (h : Cached fs p) (w : WriteCall) :
    Cached (fs.write p w) p := by
  have ho := osfsWrite_outcome h.inv w.env h.file w.buf w.len w.ppos w.area
  have hinv := h.inv.write h.file ho
  unfold Fs.write
  revert hinv ho
  generalize osfsWrite w.env fs p w.buf w.len w.ppos = r
  intro ho hinv
  cases ho with
  | past _ => exact h
  | fault data hle hbuf hdata =>
    refine ⟨hinv, h.file, ?_, h.noBlocks⟩
    have hsb : (fs.withFault p data).sb = { fs.sb with dataBlocks := data } := setSlot_same ..
    dsimp only
    rw [hsb]
    exact h.slot
  | written n hle hn hbuf =>
    have hend : w.ppos + (w.buf.take n).length ≤ BLOCK_SIZE := by
      rw [List.length_take_of_le hbuf]
      omega
    have hself : (fs.withWrite w.env p w.ppos (w.buf.take n)).icache.inode p =
        { fs.icache.inode p with
          iSize := if (fs.sb.inodeTable (fs.icache.inode p).iPrivate).iSize <
              w.ppos + (w.buf.take n).length then w.ppos + (w.buf.take n).length
            else (fs.icache.inode p).iSize,
          iMtime := w.env.now, iAtime := w.env.now } := Icache.set_same ..
    refine ⟨hinv, ?_, ?_, ?_⟩
    · rw [isFileInode_iff, hself]
      exact isFileInode_iff.mp h.file
    · dsimp only
      rw [hself, withWrite_sb, setSlot_table_self,
        igetInode_written w.env (h.inv.isFile h.file).2.2 _ hend, h.slot, h.size]
    · dsimp only
      rw [hself]
      exact h.noBlocks

theorem Cached.writes {fs : Fs} {p : InodePtr} (h : Cached fs p) (ws : List WriteCall) :
    Cached (fs.writes p ws) p := by
  induction ws generalizing fs with
  | nil => exact h
  | cons w ws ih => exact ih (h.write w)

/-- The inode a load makes is the evicted one, but for the blocks and the change time. -/
theorem Cached.reload {fs : Fs} {p q : InodePtr} (h : Cached fs p) {env : Env} {fs' : Fs}
    (hget : osfsIget env (iput fs p) (fs.icache.inode p).iIno = (.ok q, fs')) :
    fs'.icache.inode q =
      { fs.icache.inode p with iBlocks := 1, iCtime := (fs.icache.inode p).iMtime } := by
  obtain ⟨h0, -⟩ := isFileInode_iff.mp h.file
  obtain ⟨-, hok⟩ := h.inv.inodes p h0
  have hsb : SbInv (iput fs p).sb := h.inv.sb
  rw [hok.ino, osfsIget_eq hsb env hok.formatted] at hget
  cases henv : env.newInodeOk with
  | false =>
    rw [henv, if_neg Bool.false_ne_true] at hget
    cases (Prod.mk.inj hget).1
  | true =>
    rw [henv, if_pos rfl] at hget
    obtain ⟨hq, rfl⟩ := Prod.mk.inj hget
    obtain rfl := Except.ok.inj hq
    rw [← h.slot]
    exact Icache.push_same ..

theorem Cached.not_reloadsSame {fs : Fs} {p : InodePtr} (h : Cached fs p) (env : Env) :
    ¬ ReloadsSame env fs p := by
  rintro ⟨q, fs', hget, hsame⟩
  have hblocks := hsame.blocks
  rw [h.reload hget, h.noBlocks] at hblocks
  cases hblocks

/-- No regular file has the same attributes when it is loaded again, however it was created and
whatever was written to it. -/
theorem create_not_reloadsSame {s : Sys} (h : Mounted s) (rs : List Req) {dir p : InodePtr}
    {dentry : Qstr} {mode : UMode} {env : Env} {fs : Fs}
    (hdir : (osfs.run s rs).fs.isDirInode dir = true) (hreg : sIsReg mode = true)
    (hc : osfsCreate env (osfs.run s rs).fs dir dentry mode = (.ok p, fs)) (ws : List WriteCall)
    (env' : Env) : ¬ ReloadsSame env' (fs.writes p ws) p := by
  have hinv := (SysInv.run h rs).fs
  have ho := osfsCreate_outcome hinv env hdir dentry mode
  rw [hc] at ho
  cases ho with
  | created ino b hlen _ _ hf hent =>
    exact ((Cached.created env dir hinv hdir hreg hlen hf hent).writes ws).not_reloadsSame env'

/- A file that plainEnv creates on a fresh mount; its inode is the second after the root's. -/
def freshFile : Fs := (osfsCreate plainEnv freshMount.fs 0 nameA S_IFREG).2

theorem create_not_reloadsSame_written :
    ¬ ReloadsSame plainEnv (freshFile.writes 1 [⟨[104, 105], 2, 0, plainEnv, by decide⟩]) 1 :=
  have hc : osfsCreate plainEnv (osfs.run freshMount []).fs 0 nameA S_IFREG = (.ok 1, freshFile) :=
    Prod.ext (by rfl) rfl
  create_not_reloadsSame freshMount_mounted [] rfl rfl hc _ plainEnv

/-- Without any write: the load succeeds, with one block where the evicted inode had none. -/
theorem freshFile_reload :
    (osfsIget plainEnv (iput freshFile 1) (freshFile.icache.inode 1).iIno).1 = .ok 2 ∧
      ¬ ReloadsSame plainEnv freshFile 1 := by
  refine ⟨by rfl, ?_⟩
  rintro ⟨q, fs', hget, hsame⟩
  have hblocks := hsame.blocks
  have hq : q = 2 := (Except.ok.inj (congrArg Prod.fst hget)).symm
  have hfs : fs' = (osfsIget plainEnv (iput freshFile 1) (freshFile.icache.inode 1).iIno).2 :=
    (congrArg Prod.snd hget).symm
  rw [hq, hfs] at hblocks
  exact absurd hblocks (by decide +kernel)

end OSLab.Done
