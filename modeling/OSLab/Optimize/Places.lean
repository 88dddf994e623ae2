import OSLab.Optimize.Isolation
import OSLab.Optimize.OneDirectory

/-!
# Which files have an extent

The root directory has one block, and nineteen are left: three creates find
five of them in a row. What is created later has no extent, and `osfs_write`
never finds one for it either.
-/

namespace OSLab.Optimize
open OSLab.Base OSLab.Kernel

/- How often five blocks in a row are found behind the root directory. -/
def PLACES : ℕ := 3

variable {s : Sys} {fs : Fs} {sb sb' : OsfsSbInfo} {k : ℕ}

/- The blocks in use after `n` creates. -/
def OsfsSbInfo.Filled (sb : OsfsSbInfo) (n : ℕ) : Prop :=
  ∀ b, sb.blockBitmap b = decide (b < 1 + EXTENT_BLOCKS * min PLACES n)

/-- The creates of a run are served in their order. -/
structure Placed (s : Sys) : Prop where
  root : s.fs.sb.isDir ROOT_INODE = true
  rootLen : (s.fs.sb.inodeTable ROOT_INODE).iExtent.eeLen = 1
  known : ∀ p, (s.fs.icache.inode p).iPrivate ≠ 0 →
    (s.fs.icache.inode p).iPrivate = ROOT_INODE ∨
      (s.fs.icache.inode p).iPrivate ∈ s.made.map Made.ino
  filled : s.fs.sb.Filled s.made.length
  extent : ∀ i m, s.made[i]? = some m →
    (s.fs.sb.inodeTable m.ino).iExtent.eeLen = if i < PLACES then EXTENT_BLOCKS else 0

/-! ### Allocation -/

theorem OsfsSbInfo.Filled.alloc (h : sb.blockCount = DATA_BLOCK_COUNT) {n : ℕ} (hf : sb.Filled n) :
    osfsAllocExtent sb EXTENT_BLOCKS = if n < PLACES then
      some (1 + EXTENT_BLOCKS * n, sb.claimBlocks (1 + EXTENT_BLOCKS * n) EXTENT_BLOCKS)
    else none := by
  have hused (b : ℕ) (hb : sb.blockBitmap b = false) : 1 + 5 * min 3 n ≤ b := by
    rw [hf b, decide_eq_false_iff_not] at hb
    exact Nat.le_of_not_lt hb
  by_cases hn : n < PLACES
  · have hlt : n < 3 := hn
    have hfree (b : ℕ) (h1 : 1 + EXTENT_BLOCKS * n ≤ b) (_ : b < 1 + EXTENT_BLOCKS * n + EXTENT_BLOCKS) :
        sb.blockBitmap b = false := by
      rw [hf b, decide_eq_false_iff_not, PLACES, Nat.min_eq_right (Nat.le_of_lt hlt)]
      omega
    obtain ⟨j, hj, hle⟩ := osfsAllocExtent_le sb h
      (show 1 + EXTENT_BLOCKS * n + EXTENT_BLOCKS ≤ DATA_BLOCK_COUNT by
        unfold EXTENT_BLOCKS DATA_BLOCK_COUNT; omega) hfree
    have hfirst := hused j ((osfsAllocExtent_some h (by decide) hj).2.2 j (Nat.le_refl j)
      (Nat.lt_add_of_pos_right (by decide)))
    obtain rfl : j = 1 + EXTENT_BLOCKS * n := by
      unfold EXTENT_BLOCKS at hle ⊢
      omega
    rw [if_pos hn]
    exact hj
  · have hge : 3 ≤ n := Nat.le_of_not_lt hn
    rw [if_neg hn]
    cases halloc : osfsAllocExtent sb EXTENT_BLOCKS with
    | none => rfl
    | some r =>
      obtain ⟨-, hend, hfree⟩ := osfsAllocExtent_some h (by decide) halloc
      have hfirst := hused r.1 (hfree r.1 (Nat.le_refl _) (Nat.lt_add_of_pos_right (by decide)))
      unfold EXTENT_BLOCKS DATA_BLOCK_COUNT at hend
      omega

/-- The extent of the next file, and the blocks in use behind it. -/
theorem OsfsSbInfo.Filled.withFile (h : sb.blockCount = DATA_BLOCK_COUNT) {n : ℕ} (hf : sb.Filled n) (ino : ℕ)
    (mode : UMode) :
    ((sb.withFile ino mode).inodeTable ino).iExtent.eeLen = (if n < PLACES then EXTENT_BLOCKS else 0) ∧
      (sb.withFile ino mode).Filled (n + 1) := by
  let oi : OsfsInode := { OsfsInode.zero with iIno := ino, iMode := mode }
  have hslot : ((sb.claimInode ino).setOsfsInode ino oi).Filled n := hf
  have hcount : ((sb.claimInode ino).setOsfsInode ino oi).blockCount = DATA_BLOCK_COUNT := h
  have halloc := hslot.alloc hcount
  simp only [OsfsSbInfo.withFile, initSlot, slotWithExtent, oi] at halloc ⊢
  rw [halloc]
  by_cases hn : n < PLACES
  · have hlt : n < 3 := hn
    rw [if_pos hn, if_pos hn]
    dsimp only
    rw [setOsfsInode_self]
    refine ⟨rfl, fun b => ?_⟩
    change sb.blockBitmap.setRun (1 + EXTENT_BLOCKS * n) EXTENT_BLOCKS b = _
    rw [Bitmap.setRun_apply, hf b]
    unfold EXTENT_BLOCKS PLACES
    by_cases hb : 1 + 5 * n ≤ b ∧ b < 1 + 5 * n + 5
    · rw [if_pos hb]
      exact (decide_eq_true (by omega)).symm
    · rw [if_neg hb, decide_eq_decide]
      omega
  · have hge : 3 ≤ n := Nat.le_of_not_lt hn
    rw [if_neg hn, if_neg hn]
    dsimp only
    rw [setOsfsInode_self]
    refine ⟨rfl, fun b => ?_⟩
    have hmin : min PLACES (n + 1) = min PLACES n := by
      unfold PLACES
      omega
    rw [hmin]
    exact hf b

/-! ### Reading and writing -/

theorem osfsWrite_noPlace {p : InodePtr}
    (hext : (fs.sb.inodeTable (fs.icache.inode p).iPrivate).iExtent.eeLen = 0)
    (halloc : osfsAllocExtent fs.sb EXTENT_BLOCKS = none) (buf : Bytes) (len ppos : ℕ) :
    osfsWrite fs p buf len ppos = (.error .ENOSPC, ppos, [], fs) := by
  have hnone : osfsWriteExtent fs.sb (fs.icache.inode p).iPrivate = none := by
    unfold osfsWriteExtent
    rw [if_pos hext, halloc]
    rfl
  simp only [osfsWrite, hnone]

theorem osfsWriteExtent_placed (hext : (sb.inodeTable k).iExtent.eeLen ≠ 0) :
    osfsWriteExtent sb k = some sb := by
  unfold osfsWriteExtent
  rw [if_neg hext]

theorem osfsWrite_past {p : InodePtr} {len ppos : ℕ}
    (hext : (fs.sb.inodeTable (fs.icache.inode p).iPrivate).iExtent.eeLen ≠ 0)
    (hpast : fs.sb.extentBytes (fs.icache.inode p).iPrivate < ppos) (hpos : ppos + len ≤ LLONG_MAX)
    (buf : Bytes) : osfsWrite fs p buf len ppos = (.error .EFAULT, ppos, [], fs) := by
  have hclip : INT_MAX < clipLen (fs.sb.extentBytes (fs.icache.inode p).iPrivate) ppos len :=
    clipLen_past hpast hpos
  generalize hn : clipLen (fs.sb.extentBytes (fs.icache.inode p).iPrivate) ppos len = n at hclip
  have hstores : copyFromUserStores (fs.sb.extentAddr (fs.icache.inode p).iPrivate + ppos) buf n = [] := by
    unfold copyFromUserStores
    rw [if_pos hclip]
  have hcopy := copyFromUser_refused fs.sb.dataBlocks
    (fs.sb.extentAddr (fs.icache.inode p).iPrivate + ppos) buf hclip
  obtain ⟨c, rfl⟩ : ∃ c, n = c + 1 := ⟨n - 1, by omega⟩
  simp only [osfsWrite, osfsWriteExtent_placed hext, hn, hstores, hcopy]

theorem osfsWrite_full (h : Layout fs.sb) {p : InodePtr} {buf : Bytes} {len ppos : ℕ}
    (hext : (fs.sb.inodeTable (fs.icache.inode p).iPrivate).iExtent.eeLen ≠ 0)
    (hin : ppos ≤ fs.sb.extentBytes (fs.icache.inode p).iPrivate) (hpos : ppos + len ≤ LLONG_MAX)
    (hbuf : min len (fs.sb.extentBytes (fs.icache.inode p).iPrivate - ppos) ≤ buf.length) :
    (osfsWrite fs p buf len ppos).1 =
        .ok (min len (fs.sb.extentBytes (fs.icache.inode p).iPrivate - ppos)) ∧
      (osfsWrite fs p buf len ppos).2.2.2.sb = fs.sb.written (fs.icache.inode p).iPrivate ppos
        (buf.take (min len (fs.sb.extentBytes (fs.icache.inode p).iPrivate - ppos))) := by
  have hle := h.extentBytes_le (fs.icache.inode p).iPrivate
  unfold DATA_AREA DATA_BLOCK_COUNT BLOCK_SIZE at hle
  unfold LLONG_MAX at hpos
  have hclip := clipLen_eq (show fs.sb.extentBytes (fs.icache.inode p).iPrivate < 2 ^ 32 by omega)
    hin (show ppos + len < 2 ^ 64 by omega)
  generalize hn : min len (fs.sb.extentBytes (fs.icache.inode p).iPrivate - ppos) = n at hclip hbuf ⊢
  have hcopy := copyFromUser_full fs.sb.dataBlocks
    (fs.sb.extentAddr (fs.icache.inode p).iPrivate + ppos) buf
    (show n ≤ INT_MAX by unfold INT_MAX; omega) hbuf
  have hlen : (buf.take n).length = n := List.length_take_of_le hbuf
  simp only [osfsWrite, osfsWriteExtent_placed hext, hclip, hcopy, true_and]
  unfold osfsWriteUpdate OsfsSbInfo.written
  dsimp only
  rw [hlen]
  by_cases hgrow : (fs.sb.inodeTable (fs.icache.inode p).iPrivate).iSize < ppos + n
  · rw [if_pos hgrow, u32_of_lt (by omega), Nat.max_eq_right (Nat.le_of_lt hgrow)]
  · rw [if_neg hgrow, Nat.max_eq_left (Nat.le_of_not_lt hgrow)]
    exact (setOsfsInode_same { fs.sb with dataBlocks := _ } _).symm

/-- A copy that faults stores what it has copied, and zeros behind it. -/
theorem osfsWrite_short (h : Layout fs.sb) {p : InodePtr} {buf : Bytes} {len ppos : ℕ}
    (hext : (fs.sb.inodeTable (fs.icache.inode p).iPrivate).iExtent.eeLen ≠ 0)
    (hin : ppos ≤ fs.sb.extentBytes (fs.icache.inode p).iPrivate) (hpos : ppos + len ≤ LLONG_MAX)
    (hbuf : buf.length < min len (fs.sb.extentBytes (fs.icache.inode p).iPrivate - ppos)) :
    (osfsWrite fs p buf len ppos).1 = .error .EFAULT ∧
      (osfsWrite fs p buf len ppos).2.2.2 = { fs with sb := { fs.sb with
        dataBlocks := fs.sb.dataBlocks.store (fs.sb.extentAddr (fs.icache.inode p).iPrivate + ppos)
          (buf ++ List.replicate
            (min len (fs.sb.extentBytes (fs.icache.inode p).iPrivate - ppos) - buf.length) 0) } } := by
  have hle := h.extentBytes_le (fs.icache.inode p).iPrivate
  unfold DATA_AREA DATA_BLOCK_COUNT BLOCK_SIZE at hle
  unfold LLONG_MAX at hpos
  have hclip := clipLen_eq (show fs.sb.extentBytes (fs.icache.inode p).iPrivate < 2 ^ 32 by omega)
    hin (show ppos + len < 2 ^ 64 by omega)
  generalize hn : min len (fs.sb.extentBytes (fs.icache.inode p).iPrivate - ppos) = n at hclip hbuf ⊢
  have hmax : ¬ INT_MAX < n := by
    unfold INT_MAX
    omega
  have hmin : min n buf.length = buf.length := Nat.min_eq_right (Nat.le_of_lt hbuf)
  obtain ⟨c, hc⟩ : ∃ c, n - buf.length = c + 1 := ⟨n - buf.length - 1, by omega⟩
  simp only [osfsWrite, osfsWriteExtent_placed hext, hclip, copyFromUser, hmax, ite_false, hmin,
    List.take_length, hc, and_self]

/-- A buffer that is too small for what there is to read gets nothing. -/
theorem osfsRead_room (h : Layout fs.sb) (p : InodePtr) (room : ℕ) {len ppos : ℕ}
    (hpos : ppos + len ≤ LLONG_MAX) :
    (osfsRead fs p room len ppos).1 =
      if (((fs.sb.content (fs.icache.inode p).iPrivate).drop ppos).take len).length ≤ room then
        .ok (((fs.sb.content (fs.icache.inode p).iPrivate).drop ppos).take len)
      else .error .EFAULT := by
  have hsize := h.size (fs.icache.inode p).iPrivate
  have hle := Nat.le_trans (h.size_le (fs.icache.inode p).iPrivate) (h.extentBytes_le _)
  unfold DATA_AREA DATA_BLOCK_COUNT BLOCK_SIZE at hle
  unfold LLONG_MAX at hpos
  by_cases hend : (fs.sb.inodeTable (fs.icache.inode p).iPrivate).iSize ≤ ppos
  · have hdrop : (fs.sb.content (fs.icache.inode p).iPrivate).drop ppos = [] :=
      List.drop_eq_nil_of_le (by unfold OsfsSbInfo.content; rw [Mem.load_length]; exact hend)
    rw [hdrop, List.take_nil, List.length_nil, if_pos (Nat.zero_le room)]
    simp only [osfsRead, hend, true_or, ite_true]
  · have hext : (fs.sb.inodeTable (fs.icache.inode p).iPrivate).iExtent.eeLen ≠ 0 := by
      intro h0
      rw [h0] at hsize
      omega
    have hclip := clipLen_eq (show (fs.sb.inodeTable (fs.icache.inode p).iPrivate).iSize < 2 ^ 32 by
      omega) (Nat.le_of_not_le hend) (show ppos + len < 2 ^ 64 by omega)
    have hbytes : ((fs.sb.content (fs.icache.inode p).iPrivate).drop ppos).take len =
        fs.sb.dataBlocks.load (fs.sb.extentAddr (fs.icache.inode p).iPrivate + ppos)
          (min len ((fs.sb.inodeTable (fs.icache.inode p).iPrivate).iSize - ppos)) := by
      unfold OsfsSbInfo.content
      rw [Mem.load_drop _ _ _ _ (by omega), ← Mem.load_take _ _ _ _ (Nat.min_le_right len _),
        List.take_eq_take_iff, Mem.load_length]
      omega
    rw [hbytes, Mem.load_length]
    generalize hn : min len ((fs.sb.inodeTable (fs.icache.inode p).iPrivate).iSize - ppos) = n
      at hclip ⊢
    have hmax : n ≤ INT_MAX := by
      unfold INT_MAX
      omega
    by_cases hroom : n ≤ room
    · have hcopy := copyToUser_full fs.sb.dataBlocks
        (fs.sb.extentAddr (fs.icache.inode p).iPrivate + ppos) room hmax hroom
      rw [if_pos hroom]
      simp only [osfsRead, hend, hext, or_self, ite_false, hclip, hcopy]
    · obtain ⟨c, hcopy⟩ := copyToUser_short fs.sb.dataBlocks
        (fs.sb.extentAddr (fs.icache.inode p).iPrivate + ppos) hmax (Nat.lt_of_not_le hroom)
      rw [if_neg hroom]
      simp only [osfsRead, hend, hext, or_self, ite_false, hclip]
      rw [hcopy]
      rfl

/-! ### Every step that fits -/

theorem appendEntry_extent (sb : OsfsSbInfo) (parent ino : ℕ) (name : Bytes) (j : ℕ) :
    ((appendEntry sb parent ino name).2.inodeTable j).iExtent = (sb.inodeTable j).iExtent := by
  by_cases he : j = parent
  · subst he
    unfold appendEntry
    rw [setOsfsInode_self]
  · exact congrArg OsfsInode.iExtent (setOsfsInode_ne _ _ he)

/-- The new file is the next that is served. -/
theorem Placed.create (h : Placed s) (hinv : SysInv s) {d ino : ℕ} {name : Bytes} {mode : UMode}
    (hm : FileMade s d ino name mode (appendEntry (s.fs.sb.withFile ino mode) d ino name).2)
    (env : Env) :
    Placed ⟨⟨(appendEntry (s.fs.sb.withFile ino mode) d ino name).2,
      s.fs.icache.push (newVfsInode env ino ino mode)⟩, s.made ++ [⟨d, name, ino⟩]⟩ := by
  obtain ⟨hlen, hfilled⟩ := h.filled.withFile hinv.layout.blocks ino mode
  have hinos : (s.made ++ [(⟨d, name, ino⟩ : Made)]).map Made.ino = s.made.map Made.ino ++ [ino] :=
    List.map_append
  refine ⟨?_, ?_, fun p hp => ?_, ?_, fun i m hi => ?_⟩
  · exact hm.entry.isDir_used hm.slot.layout (hm.file.isDir_used hinv.layout h.root)
  · dsimp only
    rw [appendEntry_extent, hm.file.table ROOT_INODE (hinv.layout.dir_ne h.root hm.fresh)]
    exact h.rootLen
  · dsimp only at hp ⊢
    rw [hinos, List.mem_append, List.mem_singleton]
    by_cases he : p = s.fs.icache.count
    · rw [he, Icache.push_same]
      exact Or.inr (Or.inr rfl)
    · rw [Icache.push_ne _ _ he] at hp ⊢
      rcases h.known p hp with hroot | hmade
      · exact Or.inl hroot
      · exact Or.inr (Or.inl hmade)
  · dsimp only
    rw [List.length_append, List.length_singleton]
    exact hfilled
  · dsimp only at hi ⊢
    rw [appendEntry_extent]
    by_cases hlt : i < s.made.length
    · rw [List.getElem?_append_left hlt] at hi
      have hold := (hinv.ino m (List.mem_of_getElem? hi)).2.2
      have hne : m.ino ≠ ino := by
        intro he
        rw [he, hm.fresh] at hold
        cases hold
      rw [hm.file.table m.ino hne]
      exact h.extent i m hi
    · rw [List.getElem?_append_right (Nat.le_of_not_lt hlt)] at hi
      obtain ⟨hpos, rfl⟩ : i - s.made.length = 0 ∧ (⟨d, name, ino⟩ : Made) = m := by
        cases hsub : i - s.made.length with
        | zero =>
          rw [hsub] at hi
          exact ⟨rfl, Option.some.inj hi⟩
        | succ j =>
          rw [hsub] at hi
          cases hi
      obtain rfl : i = s.made.length := by omega
      exact hlen

theorem Placed.claimInode (h : Placed s) (ino : ℕ) :
    Placed ⟨{ s.fs with sb := s.fs.sb.claimInode ino }, s.made⟩ := 
  ⟨h.root, h.rootLen, h.known, h.filled, h.extent⟩

/-- A lookup makes a VFS inode for a file that has been created. -/
theorem Placed.push (h : Placed s) {inode : Inode} (hin : inode.iPrivate ∈ s.made.map Made.ino) :
    Placed ⟨{ s.fs with icache := s.fs.icache.push inode }, s.made⟩ := by
  refine ⟨h.root, h.rootLen, fun p hp => ?_, h.filled, h.extent⟩
  dsimp only at hp ⊢
  by_cases he : p = s.fs.icache.count
  · rw [he, Icache.push_same]
    exact Or.inr hin
  · rw [Icache.push_ne _ _ he] at hp ⊢
    exact h.known p hp

theorem Placed.file (h : Placed s) (hinv : SysInv s) {p : InodePtr}
    (hp : s.fs.isFileInode p = true) :
    ∃ (i : ℕ) (m : Made), s.made[i]? = some m ∧ m.ino = (s.fs.icache.inode p).iPrivate := by
  have hfile := (hinv.icache.isFile hp).2
  simp only [Fs.isFileInode, Bool.and_eq_true, decide_eq_true_eq] at hp
  rcases h.known p hp.1 with hroot | hmade
  · rw [hroot, h.root] at hfile
    cases hfile
  · obtain ⟨m, hm, hino⟩ := List.mem_map.mp hmade
    obtain ⟨i, hi⟩ := List.mem_iff_getElem?.mp hm
    exact ⟨i, m, hi, hino⟩

/-- A file without an extent was created when no five blocks in a row were left. -/
theorem Placed.alloc_none (h : Placed s) (hinv : SysInv s) {p : InodePtr}
    (hp : s.fs.isFileInode p = true)
    (hext : (s.fs.sb.inodeTable (s.fs.icache.inode p).iPrivate).iExtent.eeLen = 0) :
    osfsAllocExtent s.fs.sb EXTENT_BLOCKS = none := by
  obtain ⟨i, m, hi, hino⟩ := h.file hinv hp
  have hlen := h.extent i m hi
  rw [hino, hext] at hlen
  have hlate : ¬ i < PLACES := by
    intro hlt
    rw [if_pos hlt] at hlen
    cases hlen
  have hlt : i < s.made.length := (List.getElem?_eq_some_iff.mp hi).1
  rw [h.filled.alloc hinv.layout.blocks, if_neg (by omega)]

theorem Placed.extentBytes (h : Placed s) (hinv : SysInv s) {p : InodePtr}
    (hp : s.fs.isFileInode p = true)
    (hext : (s.fs.sb.inodeTable (s.fs.icache.inode p).iPrivate).iExtent.eeLen ≠ 0) :
    s.fs.sb.extentBytes (s.fs.icache.inode p).iPrivate = EXTENT_BLOCKS * BLOCK_SIZE := by
  obtain ⟨i, m, hi, hino⟩ := h.file hinv hp
  have hlen := h.extent i m hi
  rw [hino] at hlen
  have hearly : i < PLACES := by
    by_contra hlate
    rw [if_neg hlate] at hlen
    exact hext hlen
  rw [if_pos hearly] at hlen
  rw [hinv.layout.extentBytes_eq, hlen]

theorem osfsWriteUpdate_extents (fs : Fs) (p : InodePtr) (ppos : ℕ) :
    (osfsWriteUpdate fs p ppos).sb.blockBitmap = fs.sb.blockBitmap ∧
      ∀ j, ((osfsWriteUpdate fs p ppos).sb.inodeTable j).iExtent = (fs.sb.inodeTable j).iExtent := by
  unfold osfsWriteUpdate
  dsimp only
  split
  · refine ⟨rfl, fun j => ?_⟩
    by_cases he : j = (fs.icache.inode p).iPrivate
    · subst he
      rw [setOsfsInode_self]
    · exact congrArg OsfsInode.iExtent (setOsfsInode_ne _ _ he)
  · exact ⟨rfl, fun _ => rfl⟩

/-- A write to a file with an extent allocates nothing. -/
theorem osfsWrite_extents {p : InodePtr}
    (hext : (fs.sb.inodeTable (fs.icache.inode p).iPrivate).iExtent.eeLen ≠ 0) (buf : Bytes)
    (len ppos : ℕ) :
    (osfsWrite fs p buf len ppos).2.2.2.sb.blockBitmap = fs.sb.blockBitmap ∧
      ∀ j, ((osfsWrite fs p buf len ppos).2.2.2.sb.inodeTable j).iExtent =
        (fs.sb.inodeTable j).iExtent := by
  simp only [osfsWrite, osfsWriteExtent_placed hext]
  generalize copyFromUser fs.sb.dataBlocks _ buf _ = r
  obtain ⟨left, data⟩ := r
  cases left with
  | succ left => exact ⟨rfl, fun _ => rfl⟩
  | zero => exact osfsWriteUpdate_extents { fs with sb := { fs.sb with dataBlocks := data } } p _

theorem Placed.write (h : Placed s) (hinv : SysInv s) {p : InodePtr}
    (hp : s.fs.isFileInode p = true) (buf : Bytes) {len ppos : ℕ}
    (hpos : rwVerifyArea ppos len = true) :
    Placed ⟨(osfsWrite s.fs p buf (rwCount len) ppos).2.2.2, s.made⟩ := by
  by_cases hext : (s.fs.sb.inodeTable (s.fs.icache.inode p).iPrivate).iExtent.eeLen = 0
  · rw [osfsWrite_noPlace hext (h.alloc_none hinv hp hext)]
    exact h
  · have hused := (hinv.icache.isFile hp).1
    have hw := (osfsWrite_writes hinv.layout hused buf hpos).1
    obtain ⟨hbits, hextents⟩ := osfsWrite_extents hext buf (rwCount len) ppos
    refine ⟨hw.changes.isDir_used hinv.layout h.root, ?_, fun q hq => ?_, fun b => ?_,
      fun i m hi => ?_⟩
    · dsimp only
      rw [hextents]
      exact h.rootLen
    · dsimp only at hq ⊢
      rw [hw.slot q] at hq ⊢
      exact h.known q hq
    · dsimp only
      rw [hbits]
      exact h.filled b
    · dsimp only
      rw [hextents]
      exact h.extent i m hi

theorem Mounted.placed (hm : Mounted s) : Placed s := by
  obtain ⟨env, vmallocOk, dMakeRootOk, hfill, hmade⟩ := hm
  obtain ⟨hsb, root, hpriv, -, hicache⟩ := osfsFillSuper_ok hfill
  have hblocks : s.fs.sb.blockBitmap = Bitmap.empty.setRun 0 1 := by
    rw [hsb]
    rfl
  refine ⟨?_, ?_, fun p hp => ?_, fun b => ?_, fun i m hi => ?_⟩
  · rw [hsb]
    rfl
  · rw [hsb]
    rfl
  · rw [hicache] at hp ⊢
    by_cases he : p = 0
    · subst he
      exact Or.inl ((congrArg Inode.iPrivate (Icache.push_same Icache.empty root)).trans hpriv)
    · exact absurd rfl (Icache.push_ne Icache.empty root he ▸ hp)
  · rw [hblocks, Bitmap.setRun_apply, hmade]
    by_cases hb : b < 1
    · rw [if_pos ⟨Nat.zero_le b, hb⟩]
      exact (decide_eq_true hb).symm
    · rw [if_neg fun h => hb h.2]
      exact (decide_eq_false hb).symm
  · rw [hmade] at hi
    cases hi

end OSLab.Optimize
