import OSLab.Done.System

/-!
# The representation invariant

What the bitmaps, the counters, the inode table and the data area have to do
with each other, and the three ways in which a handler may change them: it
claims an inode number, it formats a slot with a fresh block, or it changes
one formatted slot together with the bytes of that slot's own block.
-/

namespace OSLab.Done
open OSLab.Base OSLab.Kernel

/-- The slot of `ino` has been initialised: every slot starts zeroed, and initialising it stores
its own number in it. -/
def Formatted (sb : OsfsSbInfo) (ino : ℕ) : Prop := ino ≠ 0 ∧ (sb.inodeTable ino).iIno = ino

instance (sb : OsfsSbInfo) (ino : ℕ) : Decidable (Formatted sb ino) :=
  inferInstanceAs (Decidable (ino ≠ 0 ∧ (sb.inodeTable ino).iIno = ino))

/-- The `iBlock`-th kilobyte of the data area, as the handlers address it. -/
def InBlock (sb : OsfsSbInfo) (ino x : ℕ) : Prop :=
  (sb.inodeTable ino).iBlock * BLOCK_SIZE ≤ x ∧ x < (sb.inodeTable ino).iBlock * BLOCK_SIZE + BLOCK_SIZE

/-- The bytes of a directory block are the entries the size speaks of, with distinct names. -/
structure DirOk (sb : OsfsSbInfo) (d : ℕ) : Prop where
  size : (sb.inodeTable d).iSize = sb.dirEntryCount d * DIR_ENTRY_SIZE
  count : sb.dirEntryCount d ≤ MAX_DIR_ENTRIES
  name : ∀ i, i < sb.dirEntryCount d → CStrAt sb.dataBlocks (sb.entryAddr d i) (sb.entryName d i)
  short : ∀ i, i < sb.dirEntryCount d → (sb.entryName d i).length ≤ MAX_FILENAME_LEN
  distinct : ∀ i j, i < sb.dirEntryCount d → j < sb.dirEntryCount d →
    sb.entryName d i = sb.entryName d j → i = j

/-- The block of a file is still zero behind the end of the file. A write that faults breaks
this, so it is not part of the representation invariant. -/
def ZeroTails (sb : OsfsSbInfo) : Prop :=
  ∀ k, Formatted sb k → sIsDir (sb.inodeTable k).iMode = false →
    ∀ i, (sb.inodeTable k).iSize ≤ i → i < BLOCK_SIZE →
      sb.dataBlocks ((sb.inodeTable k).iBlock * BLOCK_SIZE + i) = 0

/-- Entry `i` of directory `d` names inode `ino`. -/
structure Names (sb : OsfsSbInfo) (d i ino : ℕ) : Prop where
  formatted : Formatted sb d
  dir : sIsDir (sb.inodeTable d).iMode = true
  index : i < sb.dirEntryCount d
  ino : sb.entryInodeNo d i = ino

structure SbInv (sb : OsfsSbInfo) : Prop where
  blockSize : sb.blockSize = BLOCK_SIZE
  inodeCount : sb.inodeCount = INODE_COUNT
  blockCount : sb.blockCount = DATA_BLOCK_COUNT
  freeBlocks : sb.nrFreeBlocks = sb.blockBitmap.clearCount sb.blockCount
  rootIno : (sb.inodeTable ROOT_INODE).iIno = ROOT_INODE
  rootBlock : (sb.inodeTable ROOT_INODE).iBlock = 0
  rootDir : sIsDir (sb.inodeTable ROOT_INODE).iMode = true
  inoLt : ∀ k, Formatted sb k → k < INODE_COUNT
  inoUsed : ∀ k, Formatted sb k → sb.inodeBitmap k = true
  blockLt : ∀ k, Formatted sb k → (sb.inodeTable k).iBlock < DATA_BLOCK_COUNT
  blockUsed : ∀ k, Formatted sb k → sb.blockBitmap (sb.inodeTable k).iBlock = true
  blockInj : ∀ j k, Formatted sb j → Formatted sb k →
    (sb.inodeTable j).iBlock = (sb.inodeTable k).iBlock → j = k
  blocksOne : ∀ k, Formatted sb k → k ≠ ROOT_INODE → (sb.inodeTable k).iBlocks = 1
  freeZero : ∀ b, sb.blockBitmap b = false → ∀ i, i < BLOCK_SIZE →
    sb.dataBlocks (b * BLOCK_SIZE + i) = 0
  fileSize : ∀ k, Formatted sb k → sIsDir (sb.inodeTable k).iMode = false →
    (sb.inodeTable k).iSize ≤ BLOCK_SIZE
  dir : ∀ d, Formatted sb d → sIsDir (sb.inodeTable d).iMode = true → DirOk sb d
  named : ∀ d i ino, Names sb d i ino → Formatted sb ino ∧ ino ≠ ROOT_INODE
  owner : ∀ d d' i j ino, Names sb d i ino → Names sb d' j ino → d = d' ∧ i = j

theorem SbInv.root {sb : OsfsSbInfo} (h : SbInv sb) : Formatted sb ROOT_INODE :=
  ⟨by decide, h.rootIno⟩

/-! ### Addresses -/

theorem blockAddr_eq {sb : OsfsSbInfo} {k : ℕ} (h : (sb.inodeTable k).iBlock < DATA_BLOCK_COUNT) :
    sb.blockAddr k = (sb.inodeTable k).iBlock * BLOCK_SIZE := by
  unfold OsfsSbInfo.blockAddr
  apply u32_of_lt
  unfold DATA_BLOCK_COUNT at h
  unfold BLOCK_SIZE
  omega

theorem blockAddr_congr {sb sb' : OsfsSbInfo} {k : ℕ}
    (h : (sb'.inodeTable k).iBlock = (sb.inodeTable k).iBlock) :
    sb'.blockAddr k = sb.blockAddr k := by
  unfold OsfsSbInfo.blockAddr
  rw [h]

theorem SbInv.inBlock_disjoint {sb : OsfsSbInfo} (h : SbInv sb) {j k x : ℕ} (hj : Formatted sb j)
    (hk : Formatted sb k) (hjk : j ≠ k) (hx : InBlock sb j x) : ¬ InBlock sb k x := by
  intro hy
  unfold InBlock BLOCK_SIZE at hx hy
  have hb : (sb.inodeTable j).iBlock = (sb.inodeTable k).iBlock := by omega
  exact hjk (h.blockInj j k hj hk hb)

theorem SbInv.not_formatted {sb : OsfsSbInfo} (h : SbInv sb) {k : ℕ}
    (hk : sb.inodeBitmap k = false) : ¬ Formatted sb k := by
  intro hf
  have hu := h.inoUsed k hf
  rw [hk] at hu
  cases hu

/-! ### Directory blocks -/

theorem entryName_of_cstr {sb : OsfsSbInfo} {d i : ℕ} {s : Bytes}
    (h : CStrAt sb.dataBlocks (sb.entryAddr d i) s) (hs : s.length ≤ MAX_FILENAME_LEN) :
    sb.entryName d i = s := by
  unfold MAX_FILENAME_LEN at hs
  unfold OsfsSbInfo.entryName
  rw [h.strlen_eq (by unfold DATA_AREA DATA_BLOCK_COUNT BLOCK_SIZE; omega)]
  exact h.text

theorem DirOk.of_empty {sb : OsfsSbInfo} {d : ℕ} (hsize : (sb.inodeTable d).iSize = 0) :
    DirOk sb d := by
  have hcnt : sb.dirEntryCount d = 0 := by
    unfold OsfsSbInfo.dirEntryCount
    rw [hsize]
    rfl
  constructor
  · rw [hcnt, hsize, Nat.zero_mul]
  · rw [hcnt]
    exact Nat.zero_le _
  all_goals
    rw [hcnt]
    intro i
  · exact fun hi => absurd hi (Nat.not_lt_zero i)
  · exact fun hi => absurd hi (Nat.not_lt_zero i)
  · exact fun _ hi => absurd hi (Nat.not_lt_zero i)

theorem DirOk.entryMatches_iff {sb : OsfsSbInfo} {d : ℕ} (h : DirOk sb d) {name : Bytes}
    (hname : ∀ b ∈ name, b ≠ 0) {i : ℕ} (hi : i < sb.dirEntryCount d) :
    sb.entryMatches d name i = true ↔ sb.entryName d i = name := by
  have hs := h.short i hi
  unfold MAX_FILENAME_LEN at hs
  exact (h.name i hi).strMatches_iff
    (by unfold DATA_AREA DATA_BLOCK_COUNT BLOCK_SIZE; omega) hname

theorem DirOk.count_eq {sb : OsfsSbInfo} {d : ℕ} (h : DirOk sb d) :
    (sb.inodeTable d).iSize = sb.dirEntryCount d * 260 ∧ sb.dirEntryCount d ≤ 3 :=
  ⟨h.size, h.count⟩

theorem DirOk.entry_inBlock {sb : OsfsSbInfo} {d i o : ℕ} (h : DirOk sb d)
    (hlt : (sb.inodeTable d).iBlock < DATA_BLOCK_COUNT) (hi : i < sb.dirEntryCount d)
    (ho : o < DIR_ENTRY_SIZE) : InBlock sb d (sb.entryAddr d i + o) := by
  have hcount := h.count_eq.2
  unfold DIR_ENTRY_SIZE at ho
  unfold InBlock OsfsSbInfo.entryAddr
  rw [blockAddr_eq hlt]
  unfold BLOCK_SIZE DIR_ENTRY_SIZE
  omega

/-- An entry keeps its name and inode number as long as its 260 bytes stay what they are. -/
theorem DirOk.entry_frame {sb : OsfsSbInfo} {d i : ℕ} (h : DirOk sb d) (sb' : OsfsSbInfo)
    (hblock : (sb'.inodeTable d).iBlock = (sb.inodeTable d).iBlock) (hi : i < sb.dirEntryCount d)
    (hdata : ∀ o, o < DIR_ENTRY_SIZE →
      sb'.dataBlocks (sb.entryAddr d i + o) = sb.dataBlocks (sb.entryAddr d i + o)) :
    CStrAt sb'.dataBlocks (sb'.entryAddr d i) (sb.entryName d i) ∧
      sb'.entryName d i = sb.entryName d i ∧ sb'.entryInodeNo d i = sb.entryInodeNo d i := by
  have hshort := h.short i hi
  unfold MAX_FILENAME_LEN at hshort
  have haddr : sb'.entryAddr d i = sb.entryAddr d i := by
    unfold OsfsSbInfo.entryAddr
    rw [blockAddr_congr hblock]
  have hstr : CStrAt sb'.dataBlocks (sb'.entryAddr d i) (sb.entryName d i) := by
    rw [haddr]
    exact (h.name i hi).congr fun o ho => hdata o (by unfold DIR_ENTRY_SIZE; omega)
  refine ⟨hstr, entryName_of_cstr hstr (h.short i hi), ?_⟩
  unfold OsfsSbInfo.entryInodeNo
  rw [haddr]
  apply readLe32_congr
  intro o ho
  rw [Nat.add_assoc]
  exact hdata _ (by unfold INODE_NO_OFFSET DIR_ENTRY_SIZE; omega)

/-- A directory is the same list of entries as long as its size, its block number and the bytes
of its block are. -/
theorem DirOk.frame {sb sb' : OsfsSbInfo} {d : ℕ} (h : DirOk sb d)
    (hsize : (sb'.inodeTable d).iSize = (sb.inodeTable d).iSize)
    (hblock : (sb'.inodeTable d).iBlock = (sb.inodeTable d).iBlock)
    (hlt : (sb.inodeTable d).iBlock < DATA_BLOCK_COUNT)
    (hdata : ∀ x, InBlock sb d x → sb'.dataBlocks x = sb.dataBlocks x) :
    DirOk sb' d ∧ sb'.dirEntries d = sb.dirEntries d := by
  have hcnt : sb'.dirEntryCount d = sb.dirEntryCount d := by
    unfold OsfsSbInfo.dirEntryCount
    rw [hsize]
  have hentry {i : ℕ} (hi : i < sb.dirEntryCount d) :=
    h.entry_frame sb' hblock hi fun o ho => hdata _ (h.entry_inBlock hlt hi ho)
  constructor
  · constructor
    · rw [hsize, hcnt]
      exact h.size
    · rw [hcnt]
      exact h.count
    · intro i hi
      rw [hcnt] at hi
      rw [(hentry hi).2.1]
      exact (hentry hi).1
    · intro i hi
      rw [hcnt] at hi
      rw [(hentry hi).2.1]
      exact h.short i hi
    · intro i j hi hj he
      rw [hcnt] at hi hj
      rw [(hentry hi).2.1, (hentry hj).2.1] at he
      exact h.distinct i j hi hj he
  · unfold OsfsSbInfo.dirEntries
    rw [hcnt]
    apply List.map_congr_left
    intro i hi
    have hlt := List.mem_range.mp hi
    rw [(hentry hlt).2.1, (hentry hlt).2.2]

/-- The entries of a directory whose slot and block have not changed are the old ones. -/
theorem SbInv.names_frame {sb sb' : OsfsSbInfo} (h : SbInv sb) {d i ino : ℕ} (hf : Formatted sb d)
    (htab : sb'.inodeTable d = sb.inodeTable d)
    (hdata : ∀ x, InBlock sb d x → sb'.dataBlocks x = sb.dataBlocks x) (hn : Names sb' d i ino) :
    Names sb d i ino := by
  have hdir : sIsDir (sb.inodeTable d).iMode = true := by
    rw [← htab]
    exact hn.dir
  have hi : i < sb.dirEntryCount d := by
    have hcnt := hn.index
    unfold OsfsSbInfo.dirEntryCount at hcnt ⊢
    rw [htab] at hcnt
    exact hcnt
  have hok := h.dir d hf hdir
  have hentry := (hok.entry_frame sb' (by rw [htab]) hi fun o ho =>
    hdata _ (hok.entry_inBlock (h.blockLt d hf) hi ho)).2.2
  exact ⟨hf, hdir, hi, by rw [← hentry]; exact hn.ino⟩

/-! ### Claiming an inode number -/

def OsfsSbInfo.claimInode (sb : OsfsSbInfo) (ino : ℕ) : OsfsSbInfo :=
  { sb with inodeBitmap := sb.inodeBitmap.set ino, nrFreeInodes := dec32 sb.nrFreeInodes }

theorem claimInode_names {sb : OsfsSbInfo} {ino d i n : ℕ} (h : Names (sb.claimInode ino) d i n) :
    Names sb d i n := ⟨h.formatted, h.dir, h.index, h.ino⟩

theorem SbInv.claimInode {sb : OsfsSbInfo} (h : SbInv sb) (ino : ℕ) : SbInv (sb.claimInode ino) :=
  { h with
    inoUsed := fun k hk => Bitmap.set_of_true _ _ (h.inoUsed k hk)
    dir := fun d hd hm =>
      have ok := h.dir d hd hm
      ⟨ok.size, ok.count, ok.name, ok.short, ok.distinct⟩
    named := fun d i n hn => h.named d i n (claimInode_names hn)
    owner := fun d d' i j n hn hn' =>
      h.owner d d' i j n (claimInode_names hn) (claimInode_names hn') }

/-! ### Formatting a slot -/

def OsfsSbInfo.formatInode (sb : OsfsSbInfo) (oi : OsfsInode) (b : ℕ) : OsfsSbInfo :=
  { sb with
    inodeBitmap := sb.inodeBitmap.set oi.iIno
    nrFreeInodes := dec32 (dec32 sb.nrFreeInodes)
    inodeTable := Function.update sb.inodeTable oi.iIno { oi with iBlock := b }
    blockBitmap := sb.blockBitmap.set b
    nrFreeBlocks := dec32 sb.nrFreeBlocks }

/-- A new slot: an inode number that is not in use, an empty file or directory. -/
structure NewSlot (sb : OsfsSbInfo) (oi : OsfsInode) : Prop where
  pos : oi.iIno ≠ 0
  lt : oi.iIno < INODE_COUNT
  free : sb.inodeBitmap oi.iIno = false
  size : oi.iSize = 0
  blocks : oi.iBlocks = 1

section Format
variable {sb : OsfsSbInfo} {oi : OsfsInode} {b : ℕ}

@[simp] theorem formatInode_table_self (sb : OsfsSbInfo) (oi : OsfsInode) (b : ℕ) :
    (sb.formatInode oi b).inodeTable oi.iIno = { oi with iBlock := b } := Function.update_self ..

theorem formatInode_table_ne (sb : OsfsSbInfo) (oi : OsfsInode) (b : ℕ) {k : ℕ} (h : k ≠ oi.iIno) :
    (sb.formatInode oi b).inodeTable k = sb.inodeTable k := Function.update_of_ne h ..

theorem formatInode_formatted (sb : OsfsSbInfo) {oi : OsfsInode} (b : ℕ) (h : oi.iIno ≠ 0) : Formatted (sb.formatInode oi b) oi.iIno :=
  ⟨h, by rw [formatInode_table_self]⟩

theorem formatInode_formatted_ne (sb : OsfsSbInfo) (oi : OsfsInode) (b : ℕ) {k : ℕ} (h : k ≠ oi.iIno) :
    Formatted (sb.formatInode oi b) k ↔ Formatted sb k := by
  unfold Formatted
  rw [formatInode_table_ne sb oi b h]

theorem formatInode_cases {k : ℕ} (hk : Formatted (sb.formatInode oi b) k) :
    (k = oi.iIno ∧ (sb.formatInode oi b).inodeTable k = { oi with iBlock := b }) ∨
      (Formatted sb k ∧ (sb.formatInode oi b).inodeTable k = sb.inodeTable k) := by
  by_cases he : k = oi.iIno
  · subst he
    exact Or.inl ⟨rfl, formatInode_table_self sb oi b⟩
  · exact Or.inr ⟨(formatInode_formatted_ne sb oi b he).mp hk, formatInode_table_ne sb oi b he⟩

theorem SbInv.format_ne (h : SbInv sb) (hs : NewSlot sb oi) {k : ℕ} (hk : Formatted sb k) :
    k ≠ oi.iIno := by
  intro he
  exact h.not_formatted hs.free (he ▸ hk)

theorem SbInv.format_dir (h : SbInv sb) (hs : NewSlot sb oi) {d : ℕ} (hd : Formatted sb d)
    (hdir : sIsDir (sb.inodeTable d).iMode = true) :
    DirOk (sb.formatInode oi b) d ∧
      (sb.formatInode oi b).dirEntries d = sb.dirEntries d := by
  have hne := formatInode_table_ne sb oi b (h.format_ne hs hd)
  exact (h.dir d hd hdir).frame (by rw [hne]) (by rw [hne]) (h.blockLt d hd) fun _ _ => rfl

theorem format_dirEntryCount_self (hs : NewSlot sb oi) :
    (sb.formatInode oi b).dirEntryCount oi.iIno = 0 := by
  unfold OsfsSbInfo.dirEntryCount
  rw [formatInode_table_self]
  simp only [hs.size, Nat.zero_div]

theorem format_names (h : SbInv sb) (hs : NewSlot sb oi) {d i ino : ℕ}
    (hn : Names (sb.formatInode oi b) d i ino) : Names sb d i ino := by
  have hd : d ≠ oi.iIno := by
    rintro rfl
    have hi := hn.index
    rw [format_dirEntryCount_self hs] at hi
    omega
  have hf : Formatted sb d := (formatInode_formatted_ne sb oi b hd).mp hn.formatted
  exact h.names_frame hf (formatInode_table_ne sb oi b hd) (fun _ _ => rfl) hn

theorem format_free (h : SbInv sb) (hb : b < DATA_BLOCK_COUNT) (hfree : sb.blockBitmap b = false) :
    (sb.formatInode oi b).nrFreeBlocks =
      (sb.formatInode oi b).blockBitmap.clearCount sb.blockCount := by
  have hset := sb.blockBitmap.clearCount_set (i := b) (n := sb.blockCount)
    (by rw [h.blockCount]; exact hb) hfree
  have hle := sb.blockBitmap.clearCount_le sb.blockCount
  have hcount := h.blockCount
  unfold DATA_BLOCK_COUNT at hcount
  show dec32 sb.nrFreeBlocks = (sb.blockBitmap.set b).clearCount sb.blockCount
  rw [h.freeBlocks, dec32_of_pos (by omega) (by omega)]
  omega

theorem SbInv.formatInode (h : SbInv sb) (hs : NewSlot sb oi) (hb : b < DATA_BLOCK_COUNT)
    (hfree : sb.blockBitmap b = false) : SbInv (sb.formatInode oi b) := by
  have hroot : ROOT_INODE ≠ oi.iIno := h.format_ne hs h.root
  have hnew {k : ℕ} (hk : Formatted sb k) : (sb.inodeTable k).iBlock ≠ b := by
    intro he
    have hu := h.blockUsed k hk
    rw [he, hfree] at hu
    cases hu
  exact {
    blockSize := h.blockSize
    inodeCount := h.inodeCount
    blockCount := h.blockCount
    freeBlocks := format_free h hb hfree
    rootIno := by rw [formatInode_table_ne sb oi b hroot]; exact h.rootIno
    rootBlock := by rw [formatInode_table_ne sb oi b hroot]; exact h.rootBlock
    rootDir := by rw [formatInode_table_ne sb oi b hroot]; exact h.rootDir
    inoLt := by
      intro k hk
      rcases formatInode_cases hk with ⟨rfl, -⟩ | ⟨hf, -⟩
      · exact hs.lt
      · exact h.inoLt k hf
    inoUsed := by
      intro k hk
      rcases formatInode_cases hk with ⟨rfl, -⟩ | ⟨hf, -⟩
      · exact Bitmap.set_self ..
      · exact Bitmap.set_of_true _ _ (h.inoUsed k hf)
    blockLt := by
      intro k hk
      rcases formatInode_cases hk with ⟨-, htab⟩ | ⟨hf, htab⟩
      · rw [htab]
        exact hb
      · rw [htab]
        exact h.blockLt k hf
    blockUsed := by
      intro k hk
      rcases formatInode_cases hk with ⟨-, htab⟩ | ⟨hf, htab⟩
      · rw [htab]
        exact Bitmap.set_self ..
      · rw [htab]
        exact Bitmap.set_of_true _ _ (h.blockUsed k hf)
    blockInj := by
      intro j k hj hk heq
      rcases formatInode_cases hj with ⟨hej, hj⟩ | ⟨hfj, hj⟩
      · rcases formatInode_cases hk with ⟨hek, hk⟩ | ⟨hfk, hk⟩
        · rw [hej, hek]
        · rw [hj, hk] at heq
          exact absurd heq.symm (hnew hfk)
      · rcases formatInode_cases hk with ⟨hek, hk⟩ | ⟨hfk, hk⟩
        · rw [hj, hk] at heq
          exact absurd heq (hnew hfj)
        · rw [hj, hk] at heq
          exact h.blockInj j k hfj hfk heq
    blocksOne := by
      intro k hk hr
      rcases formatInode_cases hk with ⟨-, htab⟩ | ⟨hf, htab⟩
      · rw [htab]
        exact hs.blocks
      · rw [htab]
        exact h.blocksOne k hf hr
    freeZero := by
      intro c hc
      have hcb : c ≠ b := by
        rintro rfl
        have hset : (sb.formatInode oi c).blockBitmap c = true := Bitmap.set_self ..
        rw [hc] at hset
        cases hset
      have hclear : sb.blockBitmap c = false := by
        rw [← hc]
        exact (sb.blockBitmap.set_ne hcb).symm
      exact h.freeZero c hclear
    fileSize := by
      intro k hk hm
      rcases formatInode_cases hk with ⟨-, htab⟩ | ⟨hf, htab⟩
      · rw [htab, hs.size]
        exact Nat.zero_le _
      · rw [htab] at hm ⊢
        exact h.fileSize k hf hm
    dir := by
      intro d hd hm
      rcases formatInode_cases hd with ⟨rfl, htab⟩ | ⟨hf, htab⟩
      · exact DirOk.of_empty (by rw [htab, hs.size])
      · rw [htab] at hm
        exact (h.format_dir hs hf hm).1
    named := by
      intro d i ino hn
      obtain ⟨hf, hr⟩ := h.named d i ino (format_names h hs hn)
      exact ⟨(formatInode_formatted_ne sb oi b (h.format_ne hs hf)).mpr hf, hr⟩
    owner := by
      intro d d' i j ino hn hn'
      exact h.owner d d' i j ino (format_names h hs hn) (format_names h hs hn') }

theorem ZeroTails.formatInode (h : SbInv sb) (hz : ZeroTails sb)
    (hfree : sb.blockBitmap b = false) : ZeroTails (sb.formatInode oi b) := by
  intro k hk hm i hsize hi
  by_cases he : k = oi.iIno
  · rw [he, formatInode_table_self]
    exact h.freeZero b hfree i hi
  · rw [formatInode_table_ne sb oi b he] at hm hsize ⊢
    exact hz k ((formatInode_formatted_ne sb oi b he).mp hk) hm i hsize hi

end Format

/-! ### Changing one slot and its block -/

def OsfsSbInfo.setSlot (sb : OsfsSbInfo) (k : ℕ) (oi : OsfsInode) (data : Mem) : OsfsSbInfo :=
  { sb with inodeTable := Function.update sb.inodeTable k oi, dataBlocks := data }

/-- The slot keeps its number, mode and block, and no byte outside the block changes. -/
structure SlotChange (sb : OsfsSbInfo) (k : ℕ) (oi : OsfsInode) (data : Mem) : Prop where
  formatted : Formatted sb k
  ino : oi.iIno = k
  block : oi.iBlock = (sb.inodeTable k).iBlock
  blocks : oi.iBlocks = (sb.inodeTable k).iBlocks
  mode : oi.iMode = (sb.inodeTable k).iMode
  data : ∀ x, ¬ InBlock sb k x → data x = sb.dataBlocks x

section SetSlot
variable {sb : OsfsSbInfo} {k : ℕ} {oi : OsfsInode} {data : Mem}

@[simp] theorem setSlot_table_self : (sb.setSlot k oi data).inodeTable k = oi :=
  Function.update_self ..

theorem setSlot_table_ne (sb : OsfsSbInfo) (oi : OsfsInode) (data : Mem) {j : ℕ} (h : j ≠ k) :
    (sb.setSlot k oi data).inodeTable j = sb.inodeTable j := Function.update_of_ne h ..

/-- The fields a slot change keeps, for every slot at once. -/
theorem SlotChange.keep (hc : SlotChange sb k oi data) (j : ℕ) :
    ((sb.setSlot k oi data).inodeTable j).iBlock = (sb.inodeTable j).iBlock ∧
      ((sb.setSlot k oi data).inodeTable j).iBlocks = (sb.inodeTable j).iBlocks ∧
      ((sb.setSlot k oi data).inodeTable j).iMode = (sb.inodeTable j).iMode ∧
      ((sb.setSlot k oi data).inodeTable j).iIno = (sb.inodeTable j).iIno := by
  by_cases hj : j = k
  · subst hj
    rw [setSlot_table_self]
    exact ⟨hc.block, hc.blocks, hc.mode, hc.ino.trans hc.formatted.2.symm⟩
  · rw [setSlot_table_ne sb oi data hj]
    exact ⟨rfl, rfl, rfl, rfl⟩

theorem SlotChange.formatted_iff (hc : SlotChange sb k oi data) {j : ℕ} :
    Formatted (sb.setSlot k oi data) j ↔ Formatted sb j := by
  unfold Formatted
  rw [(hc.keep j).2.2.2]

theorem SbInv.setSlot_data_ne (h : SbInv sb) (hc : SlotChange sb k oi data) {j : ℕ}
    (hj : Formatted sb j) (hne : j ≠ k) (x : ℕ) (hx : InBlock sb j x) :
    data x = sb.dataBlocks x :=
  hc.data x (h.inBlock_disjoint hj hc.formatted hne hx)

theorem SbInv.setSlot_dir_ne (h : SbInv sb) (hc : SlotChange sb k oi data) {d : ℕ}
    (hd : Formatted sb d) (hdir : sIsDir (sb.inodeTable d).iMode = true) (hne : d ≠ k) :
    DirOk (sb.setSlot k oi data) d ∧
      (sb.setSlot k oi data).dirEntries d = sb.dirEntries d := by
  have htab := setSlot_table_ne sb oi data hne
  exact (h.dir d hd hdir).frame (by rw [htab]) (by rw [htab]) (h.blockLt d hd)
    (h.setSlot_data_ne hc hd hne)

theorem SbInv.setSlot_names_ne (h : SbInv sb) (hc : SlotChange sb k oi data) {d i ino : ℕ}
    (hne : d ≠ k) (hn : Names (sb.setSlot k oi data) d i ino) : Names sb d i ino := by
  have hf := hc.formatted_iff.mp hn.formatted
  exact h.names_frame hf (setSlot_table_ne sb oi data hne) (h.setSlot_data_ne hc hf hne) hn

/-- Every entry after the change is an old one, or the one entry that was appended to `k`. -/
theorem SbInv.setSlot_names (h : SbInv sb) (hc : SlotChange sb k oi data)
    (hnamed : ∀ i ino, Names (sb.setSlot k oi data) k i ino → Names sb k i ino ∨
      (i = sb.dirEntryCount k ∧ Formatted sb ino ∧ ino ≠ ROOT_INODE ∧ ∀ d j, ¬ Names sb d j ino))
    {d i ino : ℕ} (hn : Names (sb.setSlot k oi data) d i ino) :
    Names sb d i ino ∨ (d = k ∧ i = sb.dirEntryCount k ∧ Formatted sb ino ∧ ino ≠ ROOT_INODE ∧
      ∀ d j, ¬ Names sb d j ino) := by
  by_cases he : d = k
  · subst he
    rcases hnamed i ino hn with hold | hnew
    · exact Or.inl hold
    · exact Or.inr ⟨rfl, hnew⟩
  · exact Or.inl (h.setSlot_names_ne hc he hn)

/-- What a change of slot `k` has to show for the invariant to survive: the size of a file still
fits, a directory is still well formed, and every entry of it is an old one or the one entry that
was appended, naming an inode nothing named before. -/
theorem SbInv.setSlot (h : SbInv sb) (hc : SlotChange sb k oi data)
    (hfile : sIsDir oi.iMode = false → oi.iSize ≤ BLOCK_SIZE)
    (hdir : sIsDir oi.iMode = true → DirOk (sb.setSlot k oi data) k)
    (hnamed : ∀ i ino, Names (sb.setSlot k oi data) k i ino → Names sb k i ino ∨
      (i = sb.dirEntryCount k ∧ Formatted sb ino ∧ ino ≠ ROOT_INODE ∧ ∀ d j, ¬ Names sb d j ino)) :
    SbInv (sb.setSlot k oi data) where
  blockSize := h.blockSize
  inodeCount := h.inodeCount
  blockCount := h.blockCount
  freeBlocks := h.freeBlocks
  rootIno := by rw [(hc.keep _).2.2.2]; exact h.rootIno
  rootBlock := by rw [(hc.keep _).1]; exact h.rootBlock
  rootDir := by rw [(hc.keep _).2.2.1]; exact h.rootDir
  inoLt := fun j hj => h.inoLt j (hc.formatted_iff.mp hj)
  inoUsed := fun j hj => h.inoUsed j (hc.formatted_iff.mp hj)
  blockLt := by
    intro j hj
    rw [(hc.keep j).1]
    exact h.blockLt j (hc.formatted_iff.mp hj)
  blockUsed := by
    intro j hj
    rw [(hc.keep j).1]
    exact h.blockUsed j (hc.formatted_iff.mp hj)
  blockInj := by
    intro i j hi hj he
    rw [(hc.keep i).1, (hc.keep j).1] at he
    exact h.blockInj i j (hc.formatted_iff.mp hi) (hc.formatted_iff.mp hj) he
  blocksOne := by
    intro j hj hr
    rw [(hc.keep j).2.1]
    exact h.blocksOne j (hc.formatted_iff.mp hj) hr
  freeZero := by
    intro b hb i hi
    have hne : b ≠ (sb.inodeTable k).iBlock := by
      rintro rfl
      have hu := h.blockUsed k hc.formatted
      rw [show sb.blockBitmap _ = false from hb] at hu
      cases hu
    have hout : ¬ InBlock sb k (b * BLOCK_SIZE + i) := by
      unfold InBlock BLOCK_SIZE
      unfold BLOCK_SIZE at hi
      omega
    show data _ = 0
    rw [hc.data _ hout]
    exact h.freeZero b hb i hi
  fileSize := by
    intro j hj hm
    by_cases he : j = k
    · rw [he, setSlot_table_self] at hm ⊢
      exact hfile hm
    · rw [setSlot_table_ne sb oi data he] at hm ⊢
      exact h.fileSize j (hc.formatted_iff.mp hj) hm
  dir := by
    intro d hd hm
    by_cases he : d = k
    · rw [he, setSlot_table_self] at hm
      rw [he]
      exact hdir hm
    · rw [setSlot_table_ne sb oi data he] at hm
      exact (h.setSlot_dir_ne hc (hc.formatted_iff.mp hd) hm he).1
  named := by
    intro d i ino hn
    rw [hc.formatted_iff]
    rcases h.setSlot_names hc hnamed hn with hold | ⟨-, -, hf, hr, -⟩
    · exact h.named d i ino hold
    · exact ⟨hf, hr⟩
  owner := by
    intro d d' i j ino hn hn'
    rcases h.setSlot_names hc hnamed hn with hold | ⟨hd, hi, -, -, hfresh⟩
    · rcases h.setSlot_names hc hnamed hn' with hold' | ⟨-, -, -, -, hfresh'⟩
      · exact h.owner d d' i j ino hold hold'
      · exact absurd hold (hfresh' d i)
    · rcases h.setSlot_names hc hnamed hn' with hold' | ⟨hd', hj, -, -, -⟩
      · exact absurd hold' (hfresh d' j)
      · exact ⟨hd.trans hd'.symm, hi.trans hj.symm⟩

theorem ZeroTails.setSlot (h : SbInv sb) (hz : ZeroTails sb) (hc : SlotChange sb k oi data)
    (htail : sIsDir oi.iMode = false → ∀ i, oi.iSize ≤ i → i < BLOCK_SIZE →
      data (oi.iBlock * BLOCK_SIZE + i) = 0) : ZeroTails (sb.setSlot k oi data) := by
  intro j hj hm i hsize hi
  by_cases he : j = k
  · rw [he, setSlot_table_self] at hm hsize ⊢
    exact htail hm i hsize hi
  · rw [setSlot_table_ne sb oi data he] at hm hsize ⊢
    have hf := hc.formatted_iff.mp hj
    have hin : InBlock sb j ((sb.inodeTable j).iBlock * BLOCK_SIZE + i) := by
      unfold InBlock
      omega
    show data _ = 0
    rw [h.setSlot_data_ne hc hf he _ hin]
    exact hz j hf hm i hsize hi

end SetSlot

end OSLab.Done
