import OSLab.Optimize.Invariant
import OSLab.Optimize.Iterate

/-!
# Small files in one directory

What the handlers do as long as every file is made in the root directory and
written inside its extent: each create finds five blocks in a row behind those
given out before, and a file keeps zeros behind its end.
-/

namespace OSLab.Optimize
open OSLab.Base OSLab.Kernel

variable {s : Sys} {fs : Fs} {sb sb' : OsfsSbInfo} {k : ℕ}

/-- The extent of a slot is still zero behind `i_size`. -/
def ZeroTail (sb : OsfsSbInfo) (k : ℕ) : Prop :=
  ∀ i, (sb.inodeTable k).iSize ≤ i → i < sb.extentBytes k → sb.dataBlocks (sb.extentAddr k + i) = 0

/-- A file with an extent of five blocks, zero behind its end. -/
structure SmallFile (sb : OsfsSbInfo) (k : ℕ) : Prop where
  notDir : sb.isDir k = false
  extent : (sb.inodeTable k).iExtent.eeLen = EXTENT_BLOCKS
  tail : ZeroTail sb k

theorem Changes.zeroTail (hc : Changes sb sb' k) {j : ℕ} (hj : j ≠ k) (h : ZeroTail sb j) :
    ZeroTail sb' j := by
  intro i hi hlt
  rw [hc.table j hj] at hi
  rw [hc.extentBytes hj] at hlt
  rw [hc.extentAddr hj, hc.data_ne hj (by unfold OsfsSbInfo.InExtent; omega)]
  exact h i hi hlt

theorem Changes.smallFile (hc : Changes sb sb' k) {j : ℕ} (hj : j ≠ k) (h : SmallFile sb j) :
    SmallFile sb' j where
  notDir := (hc.isDir hj).trans h.notDir
  extent := by
    rw [hc.table j hj]
    exact h.extent
  tail := hc.zeroTail hj h.tail

theorem SmallFile.bytes (h : SmallFile sb k) (hl : Layout sb) :
    sb.extentBytes k = EXTENT_BLOCKS * BLOCK_SIZE := by
  rw [hl.extentBytes_eq, h.extent]

/-! ### Reading -/

theorem osfsRead_eq (h : Layout fs.sb) {p : InodePtr}
    (hext : (fs.sb.inodeTable (fs.icache.inode p).iPrivate).iExtent.eeLen ≠ 0) (len : ℕ) {ppos : ℕ}
    (hpos : ppos + len ≤ LLONG_MAX) :
    (osfsRead fs p len len ppos).1 =
      .ok (((fs.sb.content (fs.icache.inode p).iPrivate).drop ppos).take len) := by
  have hsize := Nat.le_trans (h.size_le (fs.icache.inode p).iPrivate) (h.extentBytes_le _)
  unfold DATA_AREA DATA_BLOCK_COUNT BLOCK_SIZE at hsize
  unfold LLONG_MAX at hpos
  by_cases hend : (fs.sb.inodeTable (fs.icache.inode p).iPrivate).iSize ≤ ppos
  · have hdrop : (fs.sb.content (fs.icache.inode p).iPrivate).drop ppos = [] :=
      List.drop_eq_nil_of_le (by unfold OsfsSbInfo.content; rw [Mem.load_length]; exact hend)
    simp only [osfsRead, hend, true_or, ite_true, hdrop, List.take_nil]
  · have hlen : clipLen (fs.sb.inodeTable (fs.icache.inode p).iPrivate).iSize ppos len =
        min len ((fs.sb.inodeTable (fs.icache.inode p).iPrivate).iSize - ppos) :=
      clipLen_eq (by omega) (Nat.le_of_not_le hend) (by omega)
    have hbytes : ((fs.sb.content (fs.icache.inode p).iPrivate).drop ppos).take len =
        fs.sb.dataBlocks.load (fs.sb.extentAddr (fs.icache.inode p).iPrivate + ppos)
          (min len ((fs.sb.inodeTable (fs.icache.inode p).iPrivate).iSize - ppos)) := by
      unfold OsfsSbInfo.content
      rw [Mem.load_drop _ _ _ _ (by omega), ← Mem.load_take _ _ _ _ (Nat.min_le_right len _),
        List.take_eq_take_iff, Mem.load_length]
      omega
    have hfull := copyToUser_full fs.sb.dataBlocks
      (fs.sb.extentAddr (fs.icache.inode p).iPrivate + ppos) len
      (show min len ((fs.sb.inodeTable (fs.icache.inode p).iPrivate).iSize - ppos) ≤ INT_MAX by
        unfold INT_MAX; omega) (Nat.min_le_left ..)
    simp only [osfsRead, hend, hext, or_self, ite_false, hlen, hfull, hbytes]

/-! ### Writing -/

/- The superblock after `data` has been stored at `ppos` in the extent of slot `k`. -/
def OsfsSbInfo.written (sb : OsfsSbInfo) (k ppos : ℕ) (data : Bytes) : OsfsSbInfo :=
  { sb with dataBlocks := sb.dataBlocks.store (sb.extentAddr k + ppos) data }.setOsfsInode k
    { sb.inodeTable k with iSize := max (sb.inodeTable k).iSize (ppos + data.length) }

theorem osfsWrite_inside (h : Layout fs.sb) {p : InodePtr} {data : Bytes} {ppos : ℕ}
    (hext : (fs.sb.inodeTable (fs.icache.inode p).iPrivate).iExtent.eeLen ≠ 0)
    (hend : ppos + data.length ≤ fs.sb.extentBytes (fs.icache.inode p).iPrivate) :
    (osfsWrite fs p data data.length ppos).1 = .ok data.length ∧
    (osfsWrite fs p data data.length ppos).2.2.2.sb =
      fs.sb.written (fs.icache.inode p).iPrivate ppos data := by
  have hle := h.extentBytes_le (fs.icache.inode p).iPrivate
  unfold DATA_AREA DATA_BLOCK_COUNT BLOCK_SIZE at hle
  have hclip : clipLen (fs.sb.extentBytes (fs.icache.inode p).iPrivate) ppos data.length =
      data.length := by
    rw [clipLen_eq (by omega) (by omega) (by omega)]
    omega
  have hcopy := copyFromUser_full fs.sb.dataBlocks
    (fs.sb.extentAddr (fs.icache.inode p).iPrivate + ppos) data
    (show data.length ≤ INT_MAX by unfold INT_MAX; omega) (Nat.le_refl _)
  rw [List.take_length] at hcopy
  simp only [osfsWrite, osfsWriteExtent, hext, ite_false, hclip, hcopy, true_and]
  unfold osfsWriteUpdate OsfsSbInfo.written
  dsimp only
  by_cases hgrow : (fs.sb.inodeTable (fs.icache.inode p).iPrivate).iSize < ppos + data.length
  · rw [if_pos hgrow, u32_of_lt (by omega), Nat.max_eq_right (Nat.le_of_lt hgrow)]
  · rw [if_neg hgrow, Nat.max_eq_left (Nat.le_of_not_lt hgrow)]
    exact (setOsfsInode_same { fs.sb with dataBlocks := _ } _).symm

theorem written_content {data : Bytes} {ppos : ℕ} (h : ZeroTail sb k)
    (hend : ppos + data.length ≤ sb.extentBytes k) :
    (sb.written k ppos data).content k = writeAt (sb.content k) ppos data := by
  have haddr : (sb.written k ppos data).extentAddr k = sb.extentAddr k := by
    simp only [OsfsSbInfo.written, OsfsSbInfo.extentAddr, setOsfsInode_self]
  unfold OsfsSbInfo.content
  rw [haddr]
  simp only [OsfsSbInfo.written, setOsfsInode_self]
  exact Mem.load_store_writeAt _ _ _ _ _ fun i hi hlt => h i hi (by omega)

theorem written_zeroTail {data : Bytes} {ppos : ℕ} (h : ZeroTail sb k) :
    ZeroTail (sb.written k ppos data) k := by
  intro i hi hlt
  simp only [OsfsSbInfo.written, OsfsSbInfo.extentAddr, OsfsSbInfo.extentBytes,
    setOsfsInode_self] at hi hlt ⊢
  have hout : sb.extentAddr k + i < sb.extentAddr k + ppos ∨
      sb.extentAddr k + ppos + data.length ≤ sb.extentAddr k + i := by omega
  exact (sb.dataBlocks.store_outside hout).trans (h i (by omega) hlt)

theorem written_smallFile {data : Bytes} {ppos : ℕ} (h : SmallFile sb k) :
    SmallFile (sb.written k ppos data) k where
  notDir := by
    simp only [OsfsSbInfo.written, OsfsSbInfo.isDir, setOsfsInode_self]
    exact h.notDir
  extent := by
    simp only [OsfsSbInfo.written, setOsfsInode_self]
    exact h.extent
  tail := written_zeroTail h.tail

/-! ### Listing -/

theorem EntryAt.entryName {d i : ℕ} {m : Made} (h : EntryAt sb d i m) : sb.entryName d i = m.name := by
  have hshort := h.short
  unfold DIR_ENTRY_SIZE at hshort
  unfold OsfsSbInfo.entryName
  rw [h.name.strlen_eq (by unfold DATA_AREA DATA_BLOCK_COUNT BLOCK_SIZE; omega)]
  exact h.name.text

/-- The entries of the extent are the creates, in their order. -/
theorem DirOk.listed {d : ℕ} {l : List Made} (h : DirOk sb d l) :
    (List.range (sb.dirEntryCount d)).map (fun i => (sb.entryName d i, sb.entryInodeNo d i)) =
      l.map fun m => (m.name, m.ino) := by
  rw [h.count]
  apply List.ext_getElem
  · rw [List.length_map, List.length_map, List.length_range]
  · intro i h1 h2
    rw [List.length_map] at h2
    have he := h.entry i l[i] (List.getElem?_eq_getElem h2)
    simp only [List.getElem_map, List.getElem_range, he.entryName, he.ino]

/-! ### The extent of a new file -/

/-- An extent of free blocks is found, or one that starts before it. -/
theorem osfsAllocExtent_le (sb : OsfsSbInfo) (h : sb.blockCount = DATA_BLOCK_COUNT) {n i : ℕ}
    (hle : i + n ≤ DATA_BLOCK_COUNT) (hfree : ∀ b, i ≤ b → b < i + n → sb.blockBitmap b = false) :
    ∃ j, osfsAllocExtent sb n = some (j, sb.claimBlocks j n) ∧ j ≤ i := by
  unfold DATA_BLOCK_COUNT at hle
  have hlast : u32 ((sb.blockCount : ℤ) - n) + 1 = 20 - n + 1 := by
    have hcast : ((20 : ℕ) : ℤ) - n = ((20 - n : ℕ) : ℤ) := by omega
    rw [h, DATA_BLOCK_COUNT, hcast, u32_of_lt (by omega)]
  obtain ⟨j, hj, hji⟩ := Bitmap.findRun_le (i := 0) (k := 20 - n + 1) (Nat.zero_le i) (by omega) hfree
  refine ⟨j, ?_, hji⟩
  unfold osfsAllocExtent
  rw [hlast, hj]
  rfl

theorem withFile_extent (h : sb.blockCount = DATA_BLOCK_COUNT) (ino : ℕ) (mode : UMode) {i : ℕ}
    (hle : i + EXTENT_BLOCKS ≤ DATA_BLOCK_COUNT) (hfree : ∀ b, i ≤ b → sb.blockBitmap b = false) :
    ((sb.withFile ino mode).inodeTable ino).iExtent.eeLen = EXTENT_BLOCKS ∧
    ∀ b, i + EXTENT_BLOCKS ≤ b → (sb.withFile ino mode).blockBitmap b = false := by
  let oi : OsfsInode := { OsfsInode.zero with iIno := ino, iMode := mode }
  obtain ⟨j, hj, hji⟩ := osfsAllocExtent_le ((sb.claimInode ino).setOsfsInode ino oi) h hle
    fun b hb _ => hfree b hb
  simp only [OsfsSbInfo.withFile, initSlot, slotWithExtent, oi] at hj ⊢
  rw [hj]
  dsimp only
  rw [setOsfsInode_self]
  refine ⟨rfl, fun b hb => ?_⟩
  change sb.blockBitmap.setRun j EXTENT_BLOCKS b = false
  rw [Bitmap.setRun_apply, if_neg (by omega)]
  exact hfree b (by omega)

theorem DirOk.hasRoom {d : ℕ} {l : List Made} (h : DirOk sb d l) (hl : Layout sb)
    (hext : (sb.inodeTable d).iExtent.eeLen = 1) (hlen : l.length < 3) : sb.HasRoom d := by
  unfold OsfsSbInfo.HasRoom
  rw [h.count, hl.extentBytes_eq, hext]
  unfold DIR_ENTRY_SIZE BLOCK_SIZE
  omega

/-- What a create in a directory with room leaves, when five blocks are free from block `i` on:
the new file is small, and so are the others. -/
theorem FileMade.smallFile {d ino i : ℕ} {name : Bytes} {mode : UMode}
    (hm : FileMade s d ino name mode (appendEntry (s.fs.sb.withFile ino mode) d ino name).2)
    (hl : Layout s.fs.sb) (hmode : sIsReg mode = true) (hle : i + EXTENT_BLOCKS ≤ DATA_BLOCK_COUNT)
    (hfree : ∀ b, i ≤ b → s.fs.sb.blockBitmap b = false) :
    SmallFile (appendEntry (s.fs.sb.withFile ino mode) d ino name).2 ino ∧
      (∀ j, j ≠ d → j ≠ ino → SmallFile s.fs.sb j →
        SmallFile (appendEntry (s.fs.sb.withFile ino mode) d ino name).2 j) ∧
      (∀ b, i + EXTENT_BLOCKS ≤ b →
        (appendEntry (s.fs.sb.withFile ino mode) d ino name).2.blockBitmap b = false) := by
  obtain ⟨hlen, hbits⟩ := withFile_extent hl.blocks ino mode hle hfree
  have hnew : SmallFile (s.fs.sb.withFile ino mode) ino := by
    refine ⟨?_, hlen, fun x hx hlt => hm.slot.zero _ ?_⟩
    · unfold OsfsSbInfo.isDir
      rw [hm.slot.mode]
      exact sIsReg_not_dir hmode
    · unfold OsfsSbInfo.InExtent
      omega
  exact ⟨hm.entry.smallFile hm.ne hnew,
    fun j hd hi hj => hm.entry.smallFile hd (hm.file.smallFile hi hj), hbits⟩

theorem FileMade.dirExtent {d ino : ℕ} {name : Bytes} {mode : UMode}
    (hm : FileMade s d ino name mode (appendEntry (s.fs.sb.withFile ino mode) d ino name).2) :
    ((appendEntry (s.fs.sb.withFile ino mode) d ino name).2.inodeTable d).iExtent =
      (s.fs.sb.inodeTable d).iExtent := by
  unfold appendEntry
  dsimp only
  rw [setOsfsInode_self, hm.file.table d (Ne.symm hm.ne)]

end OSLab.Optimize
