import OSLab.Done.Invariant

/-!
# What the create path does

One lemma per function of `dir.c` on the way from `osfs_create` to the entry
in the directory block, from a state in which the representation invariant
holds.
-/

namespace OSLab.Done
open OSLab.Base OSLab.Kernel

/-! ### The bytes of a new entry -/

theorem storeEntry_outside (m : Mem) {e inodeNo x : ℕ} {name : Bytes}
    (hlen : name.length ≤ MAX_FILENAME_LEN) (hx : x < e ∨ e + DIR_ENTRY_SIZE ≤ x) :
    storeEntry m e inodeNo name x = m x := by
  unfold MAX_FILENAME_LEN at hlen
  unfold DIR_ENTRY_SIZE at hx
  unfold storeEntry INODE_NO_OFFSET
  rw [Mem.store_outside _ (by simp only [le32_length]; omega),
    Mem.store_outside _ (by simp only [List.length_cons, List.length_nil]; omega),
    Mem.store_outside _ (by rw [strncpy_length]; omega)]

theorem storeEntry_name (m : Mem) (e inodeNo : ℕ) {name : Bytes} (hname : ∀ b ∈ name, b ≠ 0)
    (hlen : name.length ≤ MAX_FILENAME_LEN) : CStrAt (storeEntry m e inodeNo name) e name := by
  unfold MAX_FILENAME_LEN at hlen
  unfold storeEntry INODE_NO_OFFSET
  rw [strncpy_of_noNul hname]
  refine ⟨?_, ?_, hname⟩
  · rw [Mem.load_store_disjoint _ (by omega), Mem.load_store_disjoint _ (by omega),
      Mem.load_store_self]
  · rw [Mem.store_outside _ (by omega)]
    have hlt : 0 < ([0] : Bytes).length := by simp
    exact Mem.store_inside _ _ hlt

theorem storeEntry_ino (m : Mem) (e : ℕ) {inodeNo : ℕ} (name : Bytes) (h : inodeNo < 2 ^ 32) :
    readLe32 (storeEntry m e inodeNo name) (e + INODE_NO_OFFSET) = inodeNo :=
  readLe32_store _ _ h

/-! ### `osfs_add_dir_entry` -/

/- The names a directory holds. -/
def OsfsSbInfo.dirNames (sb : OsfsSbInfo) (d : ℕ) : List Bytes := (sb.dirEntries d).map Prod.fst

theorem dirEntries_length (sb : OsfsSbInfo) (d : ℕ) :
    (sb.dirEntries d).length = sb.dirEntryCount d := by
  simp only [OsfsSbInfo.dirEntries, List.length_map, List.length_range]

theorem mem_dirNames {sb : OsfsSbInfo} {d : ℕ} {name : Bytes} :
    name ∈ sb.dirNames d ↔ ∃ i, i < sb.dirEntryCount d ∧ sb.entryName d i = name := by
  simp only [OsfsSbInfo.dirNames, OsfsSbInfo.dirEntries, List.map_map, List.mem_map,
    List.mem_range, Function.comp_apply]

theorem DirOk.any_matches {sb : OsfsSbInfo} {d : ℕ} (h : DirOk sb d) {name : Bytes}
    (hname : ∀ b ∈ name, b ≠ 0) :
    (List.range (sb.dirEntryCount d)).any (sb.entryMatches d name) = true ↔
      name ∈ sb.dirNames d := by
  rw [List.any_eq_true, mem_dirNames]
  constructor
  · intro ⟨i, hi, hm⟩
    have hlt := List.mem_range.mp hi
    exact ⟨i, hlt, (h.entryMatches_iff hname hlt).mp hm⟩
  · intro ⟨i, hi, he⟩
    exact ⟨i, List.mem_range.mpr hi, (h.entryMatches_iff hname hi).mpr he⟩

/- The superblock information after a successful `osfs_add_dir_entry`. -/
def OsfsSbInfo.addEntry (sb : OsfsSbInfo) (d inodeNo : ℕ) (name : Bytes) : OsfsSbInfo :=
  sb.setSlot d { sb.inodeTable d with iSize := u32 ((sb.inodeTable d).iSize + DIR_ENTRY_SIZE : ℕ) }
    (storeEntry sb.dataBlocks (sb.entryAddr d (sb.dirEntryCount d)) inodeNo name)

/-- The three outcomes: the directory is full, the name is there, or the entry is appended. -/
theorem osfsAddDirEntry_cases {sb : OsfsSbInfo} {d : ℕ} (h : DirOk sb d) {name : Bytes}
    (hname : ∀ b ∈ name, b ≠ 0) (inodeNo : ℕ) :
    (MAX_DIR_ENTRIES ≤ sb.dirEntryCount d ∧
      osfsAddDirEntry sb d inodeNo name = .error .ENOSPC) ∨
    (sb.dirEntryCount d < MAX_DIR_ENTRIES ∧ name ∈ sb.dirNames d ∧
      osfsAddDirEntry sb d inodeNo name = .error .EEXIST) ∨
    (sb.dirEntryCount d < MAX_DIR_ENTRIES ∧ name ∉ sb.dirNames d ∧
      osfsAddDirEntry sb d inodeNo name = .ok (sb.addEntry d inodeNo name)) := by
  unfold osfsAddDirEntry
  by_cases hfull : MAX_DIR_ENTRIES ≤ sb.dirEntryCount d
  · exact Or.inl ⟨hfull, by simp only [hfull, ite_true]⟩
  · have hroom : sb.dirEntryCount d < MAX_DIR_ENTRIES := Nat.lt_of_not_le hfull
    by_cases hin : name ∈ sb.dirNames d
    · have hany := (h.any_matches hname).mpr hin
      exact Or.inr (Or.inl ⟨hroom, hin, by simp only [hfull, ite_false, hany, ite_true]⟩)
    · have hany : ¬ (List.range (sb.dirEntryCount d)).any (sb.entryMatches d name) = true :=
        fun ht => hin ((h.any_matches hname).mp ht)
      refine Or.inr (Or.inr ⟨hroom, hin, ?_⟩)
      simp only [hfull, ite_false, hany]
      rfl

section AddEntry
variable {sb : OsfsSbInfo} {d inodeNo : ℕ} {name : Bytes}

theorem addEntry_count (inodeNo : ℕ) (name : Bytes) (h : DirOk sb d) (hroom : sb.dirEntryCount d < MAX_DIR_ENTRIES) :
    (sb.addEntry d inodeNo name).dirEntryCount d = sb.dirEntryCount d + 1 ∧
      ((sb.addEntry d inodeNo name).inodeTable d).iSize =
        (sb.dirEntryCount d + 1) * DIR_ENTRY_SIZE := by
  have hsize := h.size
  have hlt : sb.dirEntryCount d < 3 := hroom
  have hu : u32 ((sb.inodeTable d).iSize + DIR_ENTRY_SIZE : ℕ) =
      (sb.dirEntryCount d + 1) * DIR_ENTRY_SIZE := by
    unfold DIR_ENTRY_SIZE at hsize ⊢
    rw [u32_of_lt (by omega)]
    omega
  have htab : ((sb.addEntry d inodeNo name).inodeTable d).iSize =
      (sb.dirEntryCount d + 1) * DIR_ENTRY_SIZE := by
    unfold OsfsSbInfo.addEntry
    rw [setSlot_table_self]
    exact hu
  refine ⟨?_, htab⟩
  show ((sb.addEntry d inodeNo name).inodeTable d).iSize / DIR_ENTRY_SIZE = _
  rw [htab]
  exact Nat.mul_div_cancel _ (by decide)

theorem addEntry_addr (i : ℕ) : (sb.addEntry d inodeNo name).entryAddr d i = sb.entryAddr d i := by
  unfold OsfsSbInfo.entryAddr
  rw [blockAddr_congr]
  unfold OsfsSbInfo.addEntry
  rw [setSlot_table_self]

theorem addEntry_change (inodeNo : ℕ) (h : SbInv sb) (hd : Formatted sb d)
    (hlen : name.length ≤ MAX_FILENAME_LEN) (hroom : sb.dirEntryCount d < MAX_DIR_ENTRIES) :
    SlotChange sb d
      { sb.inodeTable d with iSize := u32 ((sb.inodeTable d).iSize + DIR_ENTRY_SIZE : ℕ) }
      (storeEntry sb.dataBlocks (sb.entryAddr d (sb.dirEntryCount d)) inodeNo name) where
  formatted := hd
  ino := hd.2
  block := rfl
  blocks := rfl
  mode := rfl
  data := by
    intro x hx
    apply storeEntry_outside _ hlen
    have hlt : sb.dirEntryCount d < 3 := hroom
    have haddr := blockAddr_eq (h.blockLt d hd)
    unfold InBlock at hx
    unfold BLOCK_SIZE at hx haddr
    unfold OsfsSbInfo.entryAddr DIR_ENTRY_SIZE
    omega

theorem addEntry_entries (inodeNo : ℕ) (h : DirOk sb d)
    (hname : ∀ b ∈ name, b ≠ 0) (hlen : name.length ≤ MAX_FILENAME_LEN) (hino : inodeNo < 2 ^ 32) :
    (∀ i, i < sb.dirEntryCount d →
      CStrAt (sb.addEntry d inodeNo name).dataBlocks
        ((sb.addEntry d inodeNo name).entryAddr d i) (sb.entryName d i) ∧
      (sb.addEntry d inodeNo name).entryName d i = sb.entryName d i ∧
      (sb.addEntry d inodeNo name).entryInodeNo d i = sb.entryInodeNo d i) ∧
    CStrAt (sb.addEntry d inodeNo name).dataBlocks
      ((sb.addEntry d inodeNo name).entryAddr d (sb.dirEntryCount d)) name ∧
    (sb.addEntry d inodeNo name).entryName d (sb.dirEntryCount d) = name ∧
    (sb.addEntry d inodeNo name).entryInodeNo d (sb.dirEntryCount d) = inodeNo := by
  have hnew : CStrAt (sb.addEntry d inodeNo name).dataBlocks
      ((sb.addEntry d inodeNo name).entryAddr d (sb.dirEntryCount d)) name := by
    rw [addEntry_addr]
    exact storeEntry_name _ _ _ hname hlen
  refine ⟨?_, hnew, entryName_of_cstr hnew hlen, ?_⟩
  · intro i hi
    apply h.entry_frame _ _ hi
    · intro o ho
      apply storeEntry_outside _ hlen
      unfold OsfsSbInfo.entryAddr
      unfold DIR_ENTRY_SIZE at ho ⊢
      omega
    · unfold OsfsSbInfo.addEntry
      rw [setSlot_table_self]
  · unfold OsfsSbInfo.entryInodeNo
    rw [addEntry_addr]
    exact storeEntry_ino _ _ _ hino

theorem addEntry_dirOk (h : DirOk sb d) (hroom : sb.dirEntryCount d < MAX_DIR_ENTRIES)
    (hname : ∀ b ∈ name, b ≠ 0) (hlen : name.length ≤ MAX_FILENAME_LEN) (hino : inodeNo < 2 ^ 32)
    (hnot : name ∉ sb.dirNames d) : DirOk (sb.addEntry d inodeNo name) d := by
  obtain ⟨hcnt, hsize⟩ := addEntry_count inodeNo name h hroom
  obtain ⟨hold, hstr, hnm, _⟩ := addEntry_entries inodeNo h hname hlen hino
  have hcases {i : ℕ} (hi : i < sb.dirEntryCount d + 1) :
      i < sb.dirEntryCount d ∨ i = sb.dirEntryCount d := by omega
  constructor
  · rw [hsize, hcnt]
  · rw [hcnt]
    exact hroom
  · intro i hi
    rw [hcnt] at hi
    rcases hcases hi with hi | rfl
    · rw [(hold i hi).2.1]
      exact (hold i hi).1
    · rw [hnm]
      exact hstr
  · intro i hi
    rw [hcnt] at hi
    rcases hcases hi with hi | rfl
    · rw [(hold i hi).2.1]
      exact h.short i hi
    · rw [hnm]
      exact hlen
  · intro i j hi hj he
    rw [hcnt] at hi hj
    rcases hcases hi with hi | rfl <;> rcases hcases hj with hj | rfl
    · rw [(hold i hi).2.1, (hold j hj).2.1] at he
      exact h.distinct i j hi hj he
    · rw [(hold i hi).2.1, hnm] at he
      exact absurd (mem_dirNames.mpr ⟨i, hi, he⟩) hnot
    · rw [(hold j hj).2.1, hnm] at he
      exact absurd (mem_dirNames.mpr ⟨j, hj, he.symm⟩) hnot
    · rfl

theorem addEntry_dirEntries (h : DirOk sb d) (hroom : sb.dirEntryCount d < MAX_DIR_ENTRIES)
    (hname : ∀ b ∈ name, b ≠ 0) (hlen : name.length ≤ MAX_FILENAME_LEN) (hino : inodeNo < 2 ^ 32) :
    (sb.addEntry d inodeNo name).dirEntries d = sb.dirEntries d ++ [(name, inodeNo)] := by
  obtain ⟨hold, _, hnm, hin⟩ := addEntry_entries inodeNo h hname hlen hino
  have hsame : (List.range (sb.dirEntryCount d)).map (fun i =>
      ((sb.addEntry d inodeNo name).entryName d i, (sb.addEntry d inodeNo name).entryInodeNo d i)) =
        sb.dirEntries d := by
    apply List.map_congr_left
    intro i hi
    have hlt := List.mem_range.mp hi
    rw [(hold i hlt).2.1, (hold i hlt).2.2]
  rw [OsfsSbInfo.dirEntries, (addEntry_count inodeNo name h hroom).1, List.range_succ,
    List.map_append, List.map_singleton, hnm, hin, hsame]

theorem SbInv.addEntry (h : SbInv sb) (hd : Formatted sb d)
    (hdir : sIsDir (sb.inodeTable d).iMode = true)
    (hroom : sb.dirEntryCount d < MAX_DIR_ENTRIES) (hname : ∀ b ∈ name, b ≠ 0)
    (hlen : name.length ≤ MAX_FILENAME_LEN) (hnot : name ∉ sb.dirNames d)
    (hino : Formatted sb inodeNo) (hroot : inodeNo ≠ ROOT_INODE)
    (hfresh : ∀ d' j, ¬ Names sb d' j inodeNo) : SbInv (sb.addEntry d inodeNo name) := by
  have hlt := h.inoLt inodeNo hino
  unfold INODE_COUNT at hlt
  have hok := h.dir d hd hdir
  have hc := addEntry_change inodeNo h hd hlen hroom
  obtain ⟨hold, _, _, hin⟩ :=
    addEntry_entries inodeNo hok hname hlen (by omega)
  apply h.setSlot hc
  · intro hm
    exact absurd hdir (by rw [show sIsDir (sb.inodeTable d).iMode = false from hm]; decide)
  · intro _
    exact addEntry_dirOk hok hroom hname hlen (by omega) hnot
  · intro i ino hn
    have hi := hn.index
    rw [show (sb.setSlot d _ _).dirEntryCount d = sb.dirEntryCount d + 1 from
      (addEntry_count inodeNo name hok hroom).1] at hi
    by_cases he : i < sb.dirEntryCount d
    · left
      exact ⟨hd, hdir, he, by rw [← (hold i he).2.2]; exact hn.ino⟩
    · right
      have hie : i = sb.dirEntryCount d := by omega
      have hine : inodeNo = ino := by
        rw [← hn.ino, hie]
        exact hin.symm
      subst hine
      exact ⟨hie, hino, hroot, hfresh⟩

end AddEntry

/-! ### `osfs_new_inode` -/

/-- Every check of `osfs_new_inode` before its first change passes, and an inode number is free. -/
structure CanAllocate (sb : OsfsSbInfo) (mode : UMode) : Prop where
  mode : modeSupported mode = true
  inodes : sb.nrFreeInodes ≠ 0
  blocks : sb.nrFreeBlocks ≠ 0
  free : ∃ i, 0 < i ∧ i < sb.inodeCount ∧ sb.inodeBitmap i = false

/- The VFS inode of a successful `osfs_new_inode`. -/
def createdInode (env : Env) (dir : Inode) (ino : ℕ) (mode : UMode) : Inode :=
  { newVfsInode env dir ino mode with iPrivate := ino }

/- The slot of a successful `osfs_new_inode`, apart from its block. -/
def createdSlot (env : Env) (dir : Inode) (ino : ℕ) (mode : UMode) : OsfsInode :=
  newOsfsInode env (newVfsInode env dir ino mode) ino

def Fs.withNewInode (fs : Fs) (env : Env) (dir : InodePtr) (mode : UMode) (ino b : ℕ) : Fs :=
  { sb := fs.sb.formatInode (createdSlot env (fs.icache.inode dir) ino mode) b
    icache := fs.icache.push (createdInode env (fs.icache.inode dir) ino mode) }

/-- What the branches of `osfs_new_inode` on the file type leave in the VFS inode. -/
theorem newVfsInode_spec (env : Env) (dir : Inode) (ino : ℕ) (mode : UMode) :
    let inode := newVfsInode env dir ino mode
    inode.iSize = 0 ∧ inode.iIno = ino ∧ inode.iMode &&& S_IFMT = mode &&& S_IFMT ∧
      (inode.iOp = .osfsDir ↔ sIsDir mode = true) ∧
      (inode.iFop = .osfsFile ↔ sIsReg mode = true) := by
  have htype := inodeInitOwner_type env Inode.fresh (some dir) mode
  obtain ⟨hsize, hop, hfop, _, _⟩ := inodeInitOwner_keep env Inode.fresh (some dir) mode
  unfold newVfsInode simpleInodeInitTs
  dsimp only
  by_cases hdir : sIsDir mode = true
  · have hreg : ¬ sIsReg mode = true := by
      intro hr
      rw [sIsReg_not_dir hr] at hdir
      cases hdir
    rw [if_pos hdir]
    exact ⟨rfl, rfl, htype, iff_of_true rfl hdir, iff_of_false (fun hf => by cases hf) hreg⟩
  · rw [if_neg hdir]
    by_cases hreg : sIsReg mode = true
    · rw [if_pos hreg]
      exact ⟨rfl, rfl, htype, iff_of_false (fun hf => by cases hf) hdir, iff_of_true rfl hreg⟩
    · rw [if_neg hreg]
      have hop' : ¬ (inodeInitOwner env Inode.fresh (some dir) mode).iOp = .osfsDir := by
        rw [hop]
        decide
      have hfop' : ¬ (inodeInitOwner env Inode.fresh (some dir) mode).iFop = .osfsFile := by
        rw [hfop]
        decide
      split
      · exact ⟨rfl, rfl, htype, iff_of_false hop' hdir, iff_of_false hfop' hreg⟩
      · exact ⟨hsize, rfl, htype, iff_of_false hop' hdir, iff_of_false hfop' hreg⟩

theorem createdSlot_dir (env : Env) (dir : Inode) (ino : ℕ) (mode : UMode) :
    sIsDir (createdSlot env dir ino mode).iMode = sIsDir mode ∧
      sIsReg (createdSlot env dir ino mode).iMode = sIsReg mode := by
  have h := (newVfsInode_spec env dir ino mode).2.2.1
  unfold sIsDir sIsReg
  rw [show (createdSlot env dir ino mode).iMode = (newVfsInode env dir ino mode).iMode from rfl, h]
  exact ⟨rfl, rfl⟩

theorem createdSlot_new {sb : OsfsSbInfo} {ino : ℕ} (h0 : 0 < ino) (hlt : ino < INODE_COUNT)
    (hfree : sb.inodeBitmap ino = false) (env : Env) (dir : Inode) (mode : UMode) :
    NewSlot sb (createdSlot env dir ino mode) where
  pos := Nat.ne_of_gt h0
  lt := hlt
  free := hfree
  size := by
    show u32 (newVfsInode env dir ino mode).iSize = 0
    rw [(newVfsInode_spec env dir ino mode).1]
    rfl
  blocks := rfl

/-- The three outcomes of `osfs_new_inode`: a check fails and nothing changes, `new_inode` fails
when the inode number is already taken, or the inode is formatted. The exit for a failing block
allocation is not among them: the free block counter the checks look at is exact. -/
theorem osfsNewInode_cases {fs : Fs} (h : SbInv fs.sb) (env : Env) (dir : InodePtr)
    (mode : UMode) :
    (¬ CanAllocate fs.sb mode ∧ ∃ e, osfsNewInode env fs dir mode = (.error e, fs)) ∨
    (CanAllocate fs.sb mode ∧ ∃ ino, 0 < ino ∧ ino < INODE_COUNT ∧ fs.sb.inodeBitmap ino = false ∧
      ((env.newInodeOk = false ∧ osfsNewInode env fs dir mode =
          (.error .ENOMEM, { fs with sb := fs.sb.claimInode ino })) ∨
       (env.newInodeOk = true ∧ ∃ b, b < DATA_BLOCK_COUNT ∧ fs.sb.blockBitmap b = false ∧
          osfsNewInode env fs dir mode =
            (.ok fs.icache.count, fs.withNewInode env dir mode ino b)))) := by
  unfold osfsNewInode
  by_cases hmode : modeSupported mode = true
  · by_cases hguard : fs.sb.nrFreeInodes = 0 ∨ fs.sb.nrFreeBlocks = 0
    · left
      refine ⟨?_, .ENOSPC, by simp only [hmode, Bool.not_true, Bool.false_eq_true, ite_false,
        hguard, ite_true]⟩
      intro hc
      rcases hguard with h0 | h0
      · exact hc.inodes h0
      · exact hc.blocks h0
    · simp only [hmode, Bool.not_true, Bool.false_eq_true, ite_false, hguard]
      cases hget : osfsGetFreeInode fs.sb with
      | none =>
        left
        refine ⟨?_, .ENOSPC, rfl⟩
        intro hc
        obtain ⟨i, hi, hlt, hb⟩ := hc.free
        obtain ⟨j, hj⟩ := Bitmap.findClear_isSome (i := 1) (n := fs.sb.inodeCount - 1) hi
          (by omega) hb
        rw [osfsGetFreeInode, hj] at hget
        cases hget
      | some r =>
        obtain ⟨ino, sb⟩ := r
        obtain ⟨h0, hlt, hfree, rfl⟩ := osfsGetFreeInode_some hget
        right
        have hcan : CanAllocate fs.sb mode := by
          rw [not_or] at hguard
          exact ⟨hmode, hguard.1, hguard.2, ino, h0, hlt, hfree⟩
        have hltc : ino < INODE_COUNT := by
          rw [← h.inodeCount]
          exact hlt
        refine ⟨hcan, ino, h0, hltc, hfree, ?_⟩
        have hnle : ¬ fs.sb.inodeCount ≤ ino := Nat.not_le_of_lt hlt
        simp only [hnle, ite_false]
        cases henv : env.newInodeOk with
        | false =>
          left
          exact ⟨rfl, by simp only [newInode_fails henv]; rfl⟩
        | true =>
          right
          refine ⟨rfl, ?_⟩
          have hpos : 0 < fs.sb.blockBitmap.clearCount fs.sb.blockCount := by
            rw [← h.freeBlocks]
            exact Nat.pos_of_ne_zero hcan.blocks
          obtain ⟨i, hi, hib⟩ := Bitmap.clearCount_pos hpos
          obtain ⟨b, hb⟩ := Bitmap.findClear_isSome (i := 0) (n := fs.sb.blockCount)
            (Nat.zero_le i) (by omega) hib
          obtain ⟨_, hb2, hb3, _⟩ := Bitmap.findClear_some hb
          have hbc := h.blockCount
          refine ⟨b, by omega, hb3, ?_⟩
          have hslot : osfsGetOsfsInode { fs.sb with
              inodeBitmap := fs.sb.inodeBitmap.set ino,
              nrFreeInodes := dec32 fs.sb.nrFreeInodes } ino = some ino :=
            osfsGetOsfsInode_some h0 hlt
          simp only [newInode_ok henv, hslot, osfsAllocDataBlock,
            OsfsSbInfo.setOsfsInode, hb, Option.map_some, Icache.push_set, Function.update_self,
            Function.update_idem]
          rfl
  · left
    refine ⟨fun hc => hmode hc.mode, .EINVAL, ?_⟩
    have hm : modeSupported mode = false := by simpa using hmode
    simp only [hm, Bool.not_false, ite_true]

end OSLab.Done
