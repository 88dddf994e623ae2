import OSLab.Done.CreateOutcome

/-!
# What the file operations do

The bytes `osfs_read` delivers and the outcomes of `osfs_write`, for a file
of a file system in which the invariant holds.
-/

namespace OSLab.Done
open OSLab.Base OSLab.Kernel

/-- The text of a file: the first `i_size` bytes of its block. -/
def OsfsSbInfo.fileBytes (sb : OsfsSbInfo) (k : ℕ) : Bytes :=
  sb.dataBlocks.load (sb.blockAddr k) (sb.inodeTable k).iSize

/-- The slot of a regular file. -/
structure FileSlot (sb : OsfsSbInfo) (k : ℕ) : Prop where
  formatted : Formatted sb k
  reg : sIsReg (sb.inodeTable k).iMode = true
  notDir : sIsDir (sb.inodeTable k).iMode = false
  blocks : (sb.inodeTable k).iBlocks = 1
  size : (sb.inodeTable k).iSize ≤ BLOCK_SIZE
  addr : sb.blockAddr k = (sb.inodeTable k).iBlock * BLOCK_SIZE

theorem SbInv.fileSlot {sb : OsfsSbInfo} (h : SbInv sb) {k : ℕ} (hf : Formatted sb k)
    (hreg : sIsReg (sb.inodeTable k).iMode = true) : FileSlot sb k := by
  have hnd := sIsReg_not_dir hreg
  have hroot : k ≠ ROOT_INODE := by
    rintro rfl
    rw [h.rootDir] at hnd
    cases hnd
  exact ⟨hf, hreg, hnd, h.blocksOne k hf hroot, h.fileSize k hf hnd, blockAddr_eq (h.blockLt k hf)⟩

theorem FsInv.fileSlot {fs : Fs} (h : FsInv fs) {p : InodePtr} (hp : fs.isFileInode p = true) :
    FileSlot fs.sb (fs.icache.inode p).iPrivate :=
  h.sb.fileSlot (h.isFile hp).2.1 (h.isFile hp).2.2

theorem fileBytes_length (sb : OsfsSbInfo) (k : ℕ) :
    (sb.fileBytes k).length = (sb.inodeTable k).iSize := Mem.load_length ..

/-! ### `osfs_read` -/

/-- A read delivers the bytes from the position on, cut at the length asked for and at the end of
the file, when the user buffer takes them. -/
theorem osfsRead_eq {fs : Fs} (h : FsInv fs) {p : InodePtr} (hp : fs.isFileInode p = true)
    (room len ppos : ℕ) (hpos : ppos + len ≤ LLONG_MAX) :
    let bytes := ((fs.sb.fileBytes (fs.icache.inode p).iPrivate).drop ppos).take len
    osfsRead fs p room len ppos =
      if bytes.length ≤ room then (.ok bytes, ppos + bytes.length) else (.error .EFAULT, ppos) := by
  have hs := h.fileSlot hp
  have hsize := hs.size
  unfold BLOCK_SIZE at hsize
  unfold LLONG_MAX at hpos
  unfold osfsRead
  have hblocks : ¬ (fs.sb.inodeTable (fs.icache.inode p).iPrivate).iBlocks = 0 := by
    rw [hs.blocks]
    decide
  dsimp only
  rw [if_neg hblocks]
  by_cases hend : (fs.sb.inodeTable (fs.icache.inode p).iPrivate).iSize ≤ ppos
  · have hdrop : (fs.sb.fileBytes (fs.icache.inode p).iPrivate).drop ppos = [] :=
      List.drop_eq_nil_of_le (by rw [fileBytes_length]; exact hend)
    rw [if_pos hend, hdrop, List.take_nil, List.length_nil, if_pos (Nat.zero_le room)]
    rfl
  · have hlen : osfsReadLen _ ppos len = _ :=
      clipLen_eq (by omega) (Nat.le_of_not_le hend) (by omega)
    have hbytes : ((fs.sb.fileBytes (fs.icache.inode p).iPrivate).drop ppos).take len =
        fs.sb.dataBlocks.load (fs.sb.blockAddr (fs.icache.inode p).iPrivate + ppos)
          (min len ((fs.sb.inodeTable (fs.icache.inode p).iPrivate).iSize - ppos)) := by
      unfold OsfsSbInfo.fileBytes
      rw [Mem.load_drop _ _ _ _ (by omega),
        ← Mem.load_take _ _ _ _ (Nat.min_le_right len _), List.take_eq_take_iff, Mem.load_length]
      omega
    have hmax : min len ((fs.sb.inodeTable (fs.icache.inode p).iPrivate).iSize - ppos) ≤ INT_MAX := by
      unfold INT_MAX
      omega
    rw [if_neg hend, hbytes, hlen, Mem.load_length]
    by_cases hroom : min len ((fs.sb.inodeTable (fs.icache.inode p).iPrivate).iSize - ppos) ≤ room
    · rw [if_pos hroom, copyToUser_full _ _ _ hmax hroom]
      rfl
    · obtain ⟨c, hc⟩ := copyToUser_short fs.sb.dataBlocks
        (fs.sb.blockAddr (fs.icache.inode p).iPrivate + ppos) hmax (Nat.lt_of_not_le hroom)
      rw [if_neg hroom, hc]
      rfl

/-! ### `osfs_write` -/

/- The slot after a write that ends at `ppos`. -/
def writtenSlot (env : Env) (oi : OsfsInode) (ppos : ℕ) : OsfsInode :=
  { oi with
    iSize := if oi.iSize < ppos then u32 ppos else oi.iSize, iMtime := env.now, iAtime := env.now,
    iCtime := env.now }

/- The file system after `bs` has been written at `ppos`. -/
def Fs.withWrite (fs : Fs) (env : Env) (inode : InodePtr) (ppos : ℕ) (bs : Bytes) : Fs :=
  let k := (fs.icache.inode inode).iPrivate
  let data := fs.sb.dataBlocks.store (fs.sb.blockAddr k + ppos) bs
  osfsWriteUpdate env { fs with sb := { fs.sb with dataBlocks := data } } inode
    (ppos + bs.length)

/- The file system after a copy from user space that faulted. -/
def Fs.withFault (fs : Fs) (inode : InodePtr) (data : Mem) : Fs :=
  let k := (fs.icache.inode inode).iPrivate
  { fs with sb := fs.sb.setSlot k (fs.sb.inodeTable k) data }

/-- A write past the block is refused, a copy that faults leaves what it stored before the fault,
and any other write stores what fits into the block. -/
inductive WriteOutcome (env : Env) (fs : Fs) (inode : InodePtr) (buf : Bytes) (len ppos : ℕ) :
    Except Errno ℕ × ℕ × Fs → Prop where
  | past (h : BLOCK_SIZE < ppos) : WriteOutcome env fs inode buf len ppos (.error .EFAULT, ppos, fs)
  | fault (data : Mem) (h : ppos ≤ BLOCK_SIZE) (hbuf : buf.length < min len (BLOCK_SIZE - ppos))
      (hdata : ∀ x, ¬ InBlock fs.sb (fs.icache.inode inode).iPrivate x →
        data x = fs.sb.dataBlocks x) :
      WriteOutcome env fs inode buf len ppos (.error .EFAULT, ppos, fs.withFault inode data)
  | written (n : ℕ) (h : ppos ≤ BLOCK_SIZE) (hn : n = min len (BLOCK_SIZE - ppos))
      (hbuf : n ≤ buf.length) :
      WriteOutcome env fs inode buf len ppos
        (.ok n, ppos + n, fs.withWrite env inode ppos (buf.take n))

theorem setSlot_same (sb : OsfsSbInfo) (k : ℕ) (data : Mem) :
    sb.setSlot k (sb.inodeTable k) data = { sb with dataBlocks := data } := by
  unfold OsfsSbInfo.setSlot
  rw [Function.update_eq_self]

theorem osfsWrite_eq {fs : Fs} (h : FsInv fs) (env : Env) {p : InodePtr}
    (hp : fs.isFileInode p = true) (buf : Bytes) (len ppos : ℕ) :
    osfsWrite env fs p buf len ppos =
      match copyFromUser fs.sb.dataBlocks (fs.sb.blockAddr (fs.icache.inode p).iPrivate + ppos) buf
        (osfsWriteLen BLOCK_SIZE ppos len) with
      | (0, data) =>
        (.ok (osfsWriteLen BLOCK_SIZE ppos len), ppos + osfsWriteLen BLOCK_SIZE ppos len,
          osfsWriteUpdate env { fs with sb := { fs.sb with dataBlocks := data } } p
            (ppos + osfsWriteLen BLOCK_SIZE ppos len))
      | (_, data) =>
        (.error .EFAULT, ppos, { fs with sb := { fs.sb with dataBlocks := data } }) := by
  have hs := h.fileSlot hp
  have hblocks : ¬ (fs.sb.inodeTable (fs.icache.inode p).iPrivate).iBlocks = 0 := by
    rw [hs.blocks]
    decide
  have hbs : fs.sb.blockSize = BLOCK_SIZE := h.sb.blockSize
  unfold osfsWrite osfsWriteBlock
  dsimp only
  rw [if_neg hblocks]
  dsimp only
  rw [hbs]
  rfl

theorem osfsWriteLen_eq {len ppos : ℕ} (hle : ppos ≤ BLOCK_SIZE) (hpos : ppos + len ≤ LLONG_MAX) :
    osfsWriteLen BLOCK_SIZE ppos len = min len (BLOCK_SIZE - ppos) := by
  unfold LLONG_MAX at hpos
  exact clipLen_eq (by decide) hle (by omega)

theorem writeLen_le_intMax (len ppos : ℕ) : min len (BLOCK_SIZE - ppos) ≤ INT_MAX := by
  unfold INT_MAX BLOCK_SIZE
  omega

/-- A copy that faults has stored the bytes before the fault, with zeros behind them. -/
theorem osfsWrite_fault {fs : Fs} (h : FsInv fs) (env : Env) {p : InodePtr}
    (hp : fs.isFileInode p = true) {buf : Bytes} {len ppos : ℕ} (hle : ppos ≤ BLOCK_SIZE)
    (hpos : ppos + len ≤ LLONG_MAX) (hshort : buf.length < min len (BLOCK_SIZE - ppos)) :
    osfsWrite env fs p buf len ppos = (.error .EFAULT, ppos,
      fs.withFault p (fs.sb.dataBlocks.store
        (fs.sb.blockAddr (fs.icache.inode p).iPrivate + ppos)
        (buf ++ List.replicate (min len (BLOCK_SIZE - ppos) - buf.length) 0))) := by
  have hmax := writeLen_le_intMax len ppos
  have hdata : (copyFromUser fs.sb.dataBlocks
      (fs.sb.blockAddr (fs.icache.inode p).iPrivate + ppos) buf (min len (BLOCK_SIZE - ppos))).2 =
        fs.sb.dataBlocks.store (fs.sb.blockAddr (fs.icache.inode p).iPrivate + ppos)
          (buf ++ List.replicate (min len (BLOCK_SIZE - ppos) - buf.length) 0) := by
    unfold copyFromUser
    rw [if_neg (Nat.not_lt.mpr hmax)]
    dsimp only
    rw [Nat.min_eq_right (Nat.le_of_lt hshort), List.take_length]
  obtain ⟨c, hc⟩ := copyFromUser_short fs.sb.dataBlocks
    (fs.sb.blockAddr (fs.icache.inode p).iPrivate + ppos) hmax hshort
  rw [osfsWrite_eq h env hp, osfsWriteLen_eq hle hpos, hc, ← hdata]
  unfold Fs.withFault
  dsimp only
  rw [setSlot_same]
  rfl

theorem osfsWrite_outcome {fs : Fs} (h : FsInv fs) (env : Env) {p : InodePtr}
    (hp : fs.isFileInode p = true) (buf : Bytes) (len ppos : ℕ) (hpos : ppos + len ≤ LLONG_MAX) :
    WriteOutcome env fs p buf len ppos (osfsWrite env fs p buf len ppos) := by
  by_cases hpast : BLOCK_SIZE < ppos
  · have hlen : INT_MAX < osfsWriteLen BLOCK_SIZE ppos len := clipLen_past hpast hpos
    obtain ⟨c, hc⟩ := Nat.exists_eq_succ_of_ne_zero
      (show osfsWriteLen BLOCK_SIZE ppos len ≠ 0 by omega)
    rw [osfsWrite_eq h env hp, copyFromUser_refused _ _ _ hlen, hc]
    exact .past hpast
  · have hle : ppos ≤ BLOCK_SIZE := Nat.le_of_not_lt hpast
    by_cases hbuf : min len (BLOCK_SIZE - ppos) ≤ buf.length
    · rw [osfsWrite_eq h env hp, osfsWriteLen_eq hle hpos,
        copyFromUser_full _ _ _ (writeLen_le_intMax len ppos) hbuf]
      have hout : WriteOutcome env fs p buf len ppos _ := .written _ hle rfl hbuf
      unfold Fs.withWrite at hout
      rw [List.length_take_of_le hbuf] at hout
      exact hout
    · have hshort : buf.length < min len (BLOCK_SIZE - ppos) := Nat.lt_of_not_le hbuf
      rw [osfsWrite_fault h env hp hle hpos hshort]
      refine .fault _ hle hshort fun x hx => ?_
      rw [InBlock, ← (h.fileSlot hp).addr] at hx
      apply Mem.store_outside
      rw [List.length_append, List.length_replicate]
      omega

section Write
variable {fs : Fs} {env : Env} {p : InodePtr} {ppos : ℕ} {bs : Bytes}

theorem writtenSlot_size (env : Env) (oi : OsfsInode) (hpos : ppos ≤ BLOCK_SIZE) :
    (writtenSlot env oi ppos).iSize = max oi.iSize ppos := by
  unfold BLOCK_SIZE at hpos
  unfold writtenSlot
  dsimp only
  rw [u32_of_lt (by omega)]
  split <;> omega

theorem withWrite_sb : (fs.withWrite env p ppos bs).sb =
    fs.sb.setSlot (fs.icache.inode p).iPrivate
      (writtenSlot env (fs.sb.inodeTable (fs.icache.inode p).iPrivate) (ppos + bs.length))
      (fs.sb.dataBlocks.store (fs.sb.blockAddr (fs.icache.inode p).iPrivate + ppos) bs) := rfl

theorem withWrite_private :
    ((fs.withWrite env p ppos bs).icache.inode p).iPrivate = (fs.icache.inode p).iPrivate := by
  unfold Fs.withWrite osfsWriteUpdate
  dsimp only
  rw [Icache.set_same]

theorem FileSlot.writeChange (env : Env) (hs : FileSlot fs.sb (fs.icache.inode p).iPrivate)
    (hend : ppos + bs.length ≤ BLOCK_SIZE) :
    SlotChange fs.sb (fs.icache.inode p).iPrivate
      (writtenSlot env (fs.sb.inodeTable (fs.icache.inode p).iPrivate) (ppos + bs.length))
      (fs.sb.dataBlocks.store (fs.sb.blockAddr (fs.icache.inode p).iPrivate + ppos) bs) where
  formatted := hs.formatted
  ino := hs.formatted.2
  block := rfl
  blocks := rfl
  mode := rfl
  data := by
    intro x hx
    apply Mem.store_outside
    rw [hs.addr]
    unfold InBlock at hx
    omega

theorem FileSlot.faultChange {data : Mem} (hs : FileSlot fs.sb (fs.icache.inode p).iPrivate)
    (hdata : ∀ x, ¬ InBlock fs.sb (fs.icache.inode p).iPrivate x → data x = fs.sb.dataBlocks x) :
    SlotChange fs.sb (fs.icache.inode p).iPrivate
      (fs.sb.inodeTable (fs.icache.inode p).iPrivate) data :=
  ⟨hs.formatted, hs.formatted.2, rfl, rfl, rfl, hdata⟩

theorem SbInv.setFile {sb : OsfsSbInfo} (h : SbInv sb) {k : ℕ} (hs : FileSlot sb k)
    {oi : OsfsInode} {data : Mem} (hc : SlotChange sb k oi data) (hsize : oi.iSize ≤ BLOCK_SIZE) :
    SbInv (sb.setSlot k oi data) := by
  have hdir : sIsDir oi.iMode = false := by
    rw [hc.mode]
    exact hs.notDir
  apply h.setSlot hc
  · intro _
    exact hsize
  · intro ht
    rw [hdir] at ht
    cases ht
  · intro i ino hn
    have ht := hn.dir
    rw [setSlot_table_self, hdir] at ht
    cases ht

theorem FsInv.withWrite (h : FsInv fs) (hp : fs.isFileInode p = true)
    (hend : ppos + bs.length ≤ BLOCK_SIZE) : FsInv (fs.withWrite env p ppos bs) := by
  have hs := h.fileSlot hp
  have hc := hs.writeChange env hend
  have hsize := writtenSlot_size env (fs.sb.inodeTable (fs.icache.inode p).iPrivate) hend
  have hbound := hs.size
  have hinode {inode : Inode} (hi : InodeOk fs.sb inode) :
      InodeOk (fs.withWrite env p ppos bs).sb inode := by
    apply hi.congr (hc.formatted_iff.mpr hi.formatted)
    · exact (hc.keep _).2.2.1
    · by_cases he : inode.iPrivate = (fs.icache.inode p).iPrivate
      · rw [he, setSlot_table_self, hsize]
        exact Nat.le_max_left ..
      · rw [setSlot_table_ne _ _ _ he]
  refine ⟨?_, ?_, ?_⟩
  · rw [withWrite_sb]
    exact h.sb.setFile hs hc (by rw [hsize]; omega)
  · intro q hq
    by_cases he : q = p
    · subst he
      obtain ⟨hlt, hi⟩ := h.inodes q (isFileInode_iff.mp hp).1
      have hi' := hinode hi
      have hget : (fs.withWrite env q ppos bs).icache.inode q =
          { fs.icache.inode q with
            iSize := if (fs.sb.inodeTable (fs.icache.inode q).iPrivate).iSize < ppos + bs.length then
                ppos + bs.length else (fs.icache.inode q).iSize,
            iMtime := env.now, iAtime := env.now } := Icache.set_same ..
      rw [hget]
      refine ⟨hlt, hi'.formatted, hi'.ino, hi'.dir, hi'.file, ?_⟩
      have hle := hi.size
      dsimp only
      rw [withWrite_sb, setSlot_table_self, hsize]
      split <;> omega
    · have hget : (fs.withWrite env p ppos bs).icache.inode q = fs.icache.inode q :=
        fs.icache.set_ne _ he
      rw [hget] at hq ⊢
      obtain ⟨hlt, hi⟩ := h.inodes q hq
      exact ⟨hlt, hinode hi⟩
  · by_cases he : 0 = p
    · subst he
      exact ⟨(congrArg Inode.iPrivate (Icache.set_same ..)).trans h.root.1,
        (congrArg Inode.iOp (Icache.set_same ..)).trans h.root.2⟩
    · have hget : (fs.withWrite env p ppos bs).icache.inode 0 = fs.icache.inode 0 :=
        fs.icache.set_ne _ he
      rw [hget]
      exact h.root

theorem FsInv.withFault (h : FsInv fs) (hp : fs.isFileInode p = true) {data : Mem}
    (hdata : ∀ x, ¬ InBlock fs.sb (fs.icache.inode p).iPrivate x → data x = fs.sb.dataBlocks x) :
    FsInv (fs.withFault p data) := by
  have hs := h.fileSlot hp
  have hc := hs.faultChange hdata
  refine ⟨h.sb.setFile hs hc hs.size, ?_, h.root⟩
  intro q hq
  obtain ⟨hlt, hi⟩ := h.inodes q hq
  refine ⟨hlt, hi.congr (hc.formatted_iff.mpr hi.formatted) (hc.keep _).2.2.1 ?_⟩
  show _ ≤ ((fs.sb.setSlot _ _ data).inodeTable (fs.icache.inode q).iPrivate).iSize
  by_cases he : (fs.icache.inode q).iPrivate = (fs.icache.inode p).iPrivate
  · rw [he, setSlot_table_self]
  · rw [setSlot_table_ne _ _ _ he]

theorem FsInv.write (h : FsInv fs) (hp : fs.isFileInode p = true) {buf : Bytes} {len : ℕ}
    {r : Except Errno ℕ × ℕ × Fs} (ho : WriteOutcome env fs p buf len ppos r) : FsInv r.2.2 := by
  cases ho with
  | past _ => exact h
  | fault data _ _ hdata => exact h.withFault hp hdata
  | written n hpos hn hbuf =>
    apply h.withWrite hp
    rw [List.length_take_of_le hbuf]
    omega

/-! ### The text of the files -/

/-- The file written reads as the old text overwritten at the position, if there is no hole in it
but zeros. -/
theorem fileBytes_write (env : Env) (hs : FileSlot fs.sb (fs.icache.inode p).iPrivate)
    (hend : ppos + bs.length ≤ BLOCK_SIZE)
    (hz : ∀ i, (fs.sb.inodeTable (fs.icache.inode p).iPrivate).iSize ≤ i → i < ppos →
      fs.sb.dataBlocks (fs.sb.blockAddr (fs.icache.inode p).iPrivate + i) = 0) :
    (fs.withWrite env p ppos bs).sb.fileBytes (fs.icache.inode p).iPrivate =
      writeAt (fs.sb.fileBytes (fs.icache.inode p).iPrivate) ppos bs := by
  have hc := hs.writeChange env hend
  unfold OsfsSbInfo.fileBytes
  rw [withWrite_sb, setSlot_table_self, writtenSlot_size env _ hend,
    blockAddr_congr (hc.keep (fs.icache.inode p).iPrivate).1]
  exact Mem.load_store_writeAt _ _ _ _ _ hz

theorem fileBytes_setSlot_ne {sb : OsfsSbInfo} (h : SbInv sb) {j k : ℕ} {oi : OsfsInode}
    {data : Mem} (hc : SlotChange sb k oi data) (hs : FileSlot sb j) (hne : j ≠ k) :
    (sb.setSlot k oi data).fileBytes j = sb.fileBytes j := by
  have hsize := hs.size
  unfold OsfsSbInfo.fileBytes
  rw [setSlot_table_ne sb oi data hne, blockAddr_congr (hc.keep j).1]
  apply Mem.load_congr
  intro i hi
  apply h.setSlot_data_ne hc hs.formatted hne
  rw [hs.addr]
  unfold InBlock
  omega

theorem ZeroTails.withWrite (h : FsInv fs) (hz : ZeroTails fs.sb) (hp : fs.isFileInode p = true)
    (hend : ppos + bs.length ≤ BLOCK_SIZE) : ZeroTails (fs.withWrite env p ppos bs).sb := by
  have hs := h.fileSlot hp
  rw [withWrite_sb]
  apply hz.setSlot h.sb (hs.writeChange env hend)
  intro _ i hi hlt
  rw [writtenSlot_size env _ hend] at hi
  have haddr : (writtenSlot env (fs.sb.inodeTable (fs.icache.inode p).iPrivate)
      (ppos + bs.length)).iBlock * BLOCK_SIZE = fs.sb.blockAddr (fs.icache.inode p).iPrivate :=
    hs.addr.symm
  rw [haddr, Mem.store_outside _ (by omega), hs.addr]
  exact hz _ hs.formatted hs.notDir i (by omega) hlt

end Write

end OSLab.Done
