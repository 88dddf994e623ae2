import OSLab.Done.CreateSpec

/-!
# The ways in which a create ends

The invariant of the mounted file system, which also ties the VFS inodes to
their slots, and the four outcomes of `osfs_create` from a state that has it.
-/

namespace OSLab.Done
open OSLab.Base OSLab.Kernel

/-- A VFS inode that points to a slot: the slot is formatted and of the same type. The size of the
VFS inode lags behind that of the slot after a truncation. -/
structure InodeOk (sb : OsfsSbInfo) (inode : Inode) : Prop where
  formatted : Formatted sb inode.iPrivate
  ino : inode.iIno = inode.iPrivate
  dir : inode.iOp = .osfsDir ↔ sIsDir (sb.inodeTable inode.iPrivate).iMode = true
  file : inode.iFop = .osfsFile ↔ sIsReg (sb.inodeTable inode.iPrivate).iMode = true
  size : inode.iSize ≤ (sb.inodeTable inode.iPrivate).iSize

structure FsInv (fs : Fs) : Prop where
  sb : SbInv fs.sb
  inodes : ∀ p, (fs.icache.inode p).iPrivate ≠ 0 →
    p < fs.icache.count ∧ InodeOk fs.sb (fs.icache.inode p)
  root : (fs.icache.inode 0).iPrivate = ROOT_INODE ∧ (fs.icache.inode 0).iOp = .osfsDir

theorem InodeOk.congr {sb sb' : OsfsSbInfo} {inode : Inode} (h : InodeOk sb inode)
    (hf : Formatted sb' inode.iPrivate)
    (hmode : (sb'.inodeTable inode.iPrivate).iMode = (sb.inodeTable inode.iPrivate).iMode)
    (hsize : (sb.inodeTable inode.iPrivate).iSize ≤ (sb'.inodeTable inode.iPrivate).iSize) :
    InodeOk sb' inode where
  formatted := hf
  ino := h.ino
  dir := by rw [hmode]; exact h.dir
  file := by rw [hmode]; exact h.file
  size := h.size.trans hsize

theorem isDirInode_iff {fs : Fs} {p : InodePtr} :
    fs.isDirInode p = true ↔
      (fs.icache.inode p).iPrivate ≠ 0 ∧ (fs.icache.inode p).iOp = .osfsDir := by
  simp only [Fs.isDirInode, Bool.and_eq_true, decide_eq_true_eq, beq_iff_eq]

theorem isFileInode_iff {fs : Fs} {p : InodePtr} :
    fs.isFileInode p = true ↔
      (fs.icache.inode p).iPrivate ≠ 0 ∧ (fs.icache.inode p).iFop = .osfsFile := by
  simp only [Fs.isFileInode, Bool.and_eq_true, decide_eq_true_eq, beq_iff_eq]

theorem FsInv.isDir {fs : Fs} (h : FsInv fs) {p : InodePtr} (hp : fs.isDirInode p = true) :
    p < fs.icache.count ∧ Formatted fs.sb (fs.icache.inode p).iPrivate ∧
      sIsDir (fs.sb.inodeTable (fs.icache.inode p).iPrivate).iMode = true := by
  obtain ⟨h0, hop⟩ := isDirInode_iff.mp hp
  obtain ⟨hlt, hok⟩ := h.inodes p h0
  exact ⟨hlt, hok.formatted, hok.dir.mp hop⟩

theorem FsInv.isFile {fs : Fs} (h : FsInv fs) {p : InodePtr} (hp : fs.isFileInode p = true) :
    p < fs.icache.count ∧ Formatted fs.sb (fs.icache.inode p).iPrivate ∧
      sIsReg (fs.sb.inodeTable (fs.icache.inode p).iPrivate).iMode = true := by
  obtain ⟨h0, hop⟩ := isFileInode_iff.mp hp
  obtain ⟨hlt, hok⟩ := h.inodes p h0
  exact ⟨hlt, hok.formatted, hok.file.mp hop⟩

/-! ### The steps of the create path -/

theorem FsInv.claimInode {fs : Fs} (h : FsInv fs) (ino : ℕ) :
    FsInv { fs with sb := fs.sb.claimInode ino } where
  sb := h.sb.claimInode ino
  inodes := by
    intro p hp
    obtain ⟨hlt, hok⟩ := h.inodes p hp
    exact ⟨hlt, hok.congr hok.formatted rfl (Nat.le_refl _)⟩
  root := h.root

theorem FsInv.iput {fs : Fs} (h : FsInv fs) {p : InodePtr} (hp : p ≠ 0) : FsInv (iput fs p) where
  sb := h.sb
  inodes := by
    intro q hq
    have hne : q ≠ p := by
      intro he
      rw [he] at hq
      simp only [Done.iput, Icache.set_same, osfsDestroyInode_private, ne_eq,
        not_true_eq_false] at hq
    have hget : ((Done.iput fs p).icache.inode q) = fs.icache.inode q :=
      fs.icache.set_ne _ hne
    rw [hget] at hq ⊢
    exact h.inodes q hq
  root := by
    have hget : ((Done.iput fs p).icache.inode 0) = fs.icache.inode 0 :=
      fs.icache.set_ne _ (Ne.symm hp)
    rw [hget]
    exact h.root

/-- The inode number, the block and the slot that a successful `osfs_new_inode` takes. -/
structure Fresh (sb : OsfsSbInfo) (ino b : ℕ) : Prop where
  inoPos : 0 < ino
  inoLt : ino < INODE_COUNT
  inoFree : sb.inodeBitmap ino = false
  blockLt : b < DATA_BLOCK_COUNT
  blockFree : sb.blockBitmap b = false

section NewInode
variable {fs : Fs} (env : Env) (dir : InodePtr) (mode : UMode) {ino b : ℕ}

theorem withNewInode_inode_ne (ino b : ℕ) {p : InodePtr} (hp : p ≠ fs.icache.count) :
    (fs.withNewInode env dir mode ino b).icache.inode p = fs.icache.inode p :=
  fs.icache.push_ne _ hp

theorem withNewInode_inode_new (fs : Fs) (ino b : ℕ) :
    (fs.withNewInode env dir mode ino b).icache.inode fs.icache.count =
      createdInode env (fs.icache.inode dir) ino mode := fs.icache.push_same _

theorem Fresh.newSlot (hf : Fresh fs.sb ino b) :
    NewSlot fs.sb (createdSlot env (fs.icache.inode dir) ino mode) :=
  createdSlot_new hf.inoPos hf.inoLt hf.inoFree env (fs.icache.inode dir) mode

theorem createdInode_ok (hf : Fresh fs.sb ino b) :
    InodeOk (fs.withNewInode env dir mode ino b).sb
      (createdInode env (fs.icache.inode dir) ino mode) := by
  obtain ⟨hsize, hino, _, hop, hfop⟩ := newVfsInode_spec env (fs.icache.inode dir) ino mode
  obtain ⟨hdir, hreg⟩ := createdSlot_dir env (fs.icache.inode dir) ino mode
  have htab : (fs.withNewInode env dir mode ino b).sb.inodeTable ino =
      { createdSlot env (fs.icache.inode dir) ino mode with iBlock := b } :=
    formatInode_table_self fs.sb (createdSlot env (fs.icache.inode dir) ino mode) b
  refine ⟨formatInode_formatted fs.sb b (hf.newSlot env dir mode).pos, hino, ?_, ?_, ?_⟩
  · show (newVfsInode env (fs.icache.inode dir) ino mode).iOp = _ ↔
      sIsDir ((fs.withNewInode env dir mode ino b).sb.inodeTable ino).iMode = true
    rw [htab, hop, ← hdir]
  · show (newVfsInode env (fs.icache.inode dir) ino mode).iFop = _ ↔
      sIsReg ((fs.withNewInode env dir mode ino b).sb.inodeTable ino).iMode = true
    rw [htab, hfop, ← hreg]
  · show (newVfsInode env (fs.icache.inode dir) ino mode).iSize ≤ _
    rw [hsize]
    exact Nat.zero_le _

theorem FsInv.withNewInode (h : FsInv fs) (hf : Fresh fs.sb ino b) :
    FsInv (fs.withNewInode env dir mode ino b) where
  sb := h.sb.formatInode (hf.newSlot env dir mode) hf.blockLt hf.blockFree
  inodes := by
    intro p hp
    by_cases he : p = fs.icache.count
    · rw [he, withNewInode_inode_new]
      exact ⟨Nat.lt_succ_self _, createdInode_ok env dir mode hf⟩
    · rw [withNewInode_inode_ne env dir mode ino b he] at hp ⊢
      obtain ⟨hlt, hok⟩ := h.inodes p hp
      have hne := h.sb.format_ne (hf.newSlot env dir mode) hok.formatted
      have htab := formatInode_table_ne fs.sb _ b hne
      have hform := (formatInode_formatted_ne fs.sb _ b hne).mpr hok.formatted
      refine ⟨Nat.lt_succ_of_lt hlt, hok.congr hform ?_ ?_⟩
      · exact congrArg OsfsInode.iMode htab
      · exact Nat.le_of_eq (congrArg OsfsInode.iSize htab).symm
  root := by
    have hr : (fs.icache.inode 0).iPrivate ≠ 0 := by
      rw [h.root.1]
      decide
    rw [withNewInode_inode_ne env dir mode ino b (Nat.ne_of_lt (h.inodes 0 hr).1)]
    exact h.root

theorem withNewInode_dir (h : FsInv fs) (hf : Fresh fs.sb ino b) {d : ℕ} (hd : Formatted fs.sb d)
    (hdir : sIsDir (fs.sb.inodeTable d).iMode = true) :
    (fs.withNewInode env dir mode ino b).sb.inodeTable d = fs.sb.inodeTable d ∧
      (fs.withNewInode env dir mode ino b).sb.dirEntries d = fs.sb.dirEntries d ∧
      (fs.withNewInode env dir mode ino b).sb.dirEntryCount d = fs.sb.dirEntryCount d := by
  have hs := hf.newSlot env dir mode
  have htab := formatInode_table_ne fs.sb _ b (h.sb.format_ne hs hd)
  refine ⟨htab, (h.sb.format_dir hs hd hdir).2, ?_⟩
  rw [← dirEntries_length, ← dirEntries_length]
  exact congrArg List.length (h.sb.format_dir hs hd hdir).2

theorem withNewInode_unnamed (h : FsInv fs) (hf : Fresh fs.sb ino b) (d i : ℕ) :
    ¬ Names (fs.withNewInode env dir mode ino b).sb d i ino := by
  intro hn
  have hold := format_names h.sb (hf.newSlot env dir mode) hn
  exact h.sb.not_formatted hf.inoFree (h.sb.named d i ino hold).1

end NewInode

/- The file system after the entry has been appended and the VFS size of the directory raised. -/
def Fs.withEntry (fs : Fs) (dir : InodePtr) (ino : ℕ) (name : Bytes) : Fs :=
  let d := fs.icache.inode dir
  { sb := fs.sb.addEntry d.iPrivate ino name
    icache := fs.icache.set dir { d with iSize := d.iSize + DIR_ENTRY_SIZE } }

/-- What `osfs_add_dir_entry` needs to append an entry for `ino`. -/
structure CanEnter (sb : OsfsSbInfo) (d ino : ℕ) (name : Bytes) : Prop where
  formatted : Formatted sb d
  dir : sIsDir (sb.inodeTable d).iMode = true
  room : sb.dirEntryCount d < MAX_DIR_ENTRIES
  noNul : ∀ b ∈ name, b ≠ 0
  short : name.length ≤ MAX_FILENAME_LEN
  absent : name ∉ sb.dirNames d
  target : Formatted sb ino
  notRoot : ino ≠ ROOT_INODE
  unnamed : ∀ d' j, ¬ Names sb d' j ino

theorem SbInv.enter {sb : OsfsSbInfo} (h : SbInv sb) {d ino : ℕ} {name : Bytes}
    (hc : CanEnter sb d ino name) : SbInv (sb.addEntry d ino name) :=
  h.addEntry hc.formatted hc.dir hc.room hc.noNul hc.short hc.absent hc.target hc.notRoot hc.unnamed

theorem FsInv.withEntry {fs : Fs} (h : FsInv fs) {dir : InodePtr} {ino : ℕ} {name : Bytes}
    (hdir : fs.isDirInode dir = true)
    (hc : CanEnter fs.sb (fs.icache.inode dir).iPrivate ino name) :
    FsInv (fs.withEntry dir ino name) := by
  have hchange := addEntry_change ino h.sb hc.formatted hc.short hc.room
  have hok := h.sb.dir _ hc.formatted hc.dir
  have hsize := (addEntry_count ino name hok hc.room).2
  have hslot := hok.size
  have hinode {inode : Inode} (hi : InodeOk fs.sb inode) :
      InodeOk (fs.withEntry dir ino name).sb inode := by
    apply hi.congr (hchange.formatted_iff.mpr hi.formatted)
    · exact (hchange.keep _).2.2.1
    · by_cases he : inode.iPrivate = (fs.icache.inode dir).iPrivate
      · rw [he]
        show _ ≤ ((fs.sb.addEntry _ ino name).inodeTable _).iSize
        rw [hsize, hslot]
        exact Nat.mul_le_mul_right _ (Nat.le_succ _)
      · exact Nat.le_of_eq (congrArg OsfsInode.iSize (setSlot_table_ne _ _ _ he)).symm
  refine ⟨h.sb.enter hc, ?_, ?_⟩
  · intro p hp
    by_cases he : p = dir
    · subst he
      have hget : (fs.withEntry p ino name).icache.inode p =
          { fs.icache.inode p with iSize := (fs.icache.inode p).iSize + DIR_ENTRY_SIZE } :=
        Icache.set_same ..
      obtain ⟨hlt, hi⟩ := h.inodes p (isDirInode_iff.mp hdir).1
      have hi' := hinode hi
      rw [hget]
      refine ⟨hlt, hi'.formatted, hi'.ino, hi'.dir, hi'.file, ?_⟩
      have hle := hi.size
      show (fs.icache.inode p).iSize + DIR_ENTRY_SIZE ≤
        ((fs.sb.addEntry _ ino name).inodeTable _).iSize
      rw [hsize, Nat.succ_mul]
      omega
    · have hget : (fs.withEntry dir ino name).icache.inode p = fs.icache.inode p :=
        fs.icache.set_ne _ he
      rw [hget] at hp ⊢
      obtain ⟨hlt, hi⟩ := h.inodes p hp
      exact ⟨hlt, hinode hi⟩
  · by_cases he : 0 = dir
    · subst he
      have hget : (fs.withEntry 0 ino name).icache.inode 0 =
          { fs.icache.inode 0 with iSize := (fs.icache.inode 0).iSize + DIR_ENTRY_SIZE } :=
        Icache.set_same ..
      rw [hget]
      exact h.root
    · have hget : (fs.withEntry dir ino name).icache.inode 0 = fs.icache.inode 0 :=
        fs.icache.set_ne _ he
      rw [hget]
      exact h.root

/-! ### The inode number of a new file -/

/-- The number is the lowest that is free, whatever else the file system holds. -/
theorem osfsNewInode_lowest {fs fs' : Fs} {env : Env} {dir p : InodePtr} {mode : UMode}
    (h : osfsNewInode env fs dir mode = (.ok p, fs')) :
    fs.sb.inodeBitmap.findClear 1 (fs.sb.inodeCount - 1) = some (fs'.icache.inode p).iIno := by
  unfold osfsNewInode at h
  split at h
  · cases h
  split at h
  · cases h
  cases hget : osfsGetFreeInode fs.sb with
  | none => simp only [hget, Prod.mk.injEq, reduceCtorEq, false_and] at h
  | some r =>
    obtain ⟨ino, sb⟩ := r
    obtain ⟨i, hi, he⟩ := Option.map_eq_some_iff.mp hget
    obtain ⟨rfl, -⟩ := Prod.mk.inj he
    simp only [hget] at h
    split at h
    · cases h
    split at h
    · cases h
    split at h
    · cases h
    split at h
    · cases h
    obtain ⟨hp, rfl⟩ := Prod.mk.inj h
    obtain rfl := Except.ok.inj hp
    rw [hi, Icache.set_same]
    exact congrArg some (newVfsInode_spec env (fs.icache.inode dir) i mode).2.1.symm

theorem osfsCreate_lowest {fs fs' : Fs} {env : Env} {dir p : InodePtr} {dentry : Qstr} {mode : UMode}
    (h : osfsCreate env fs dir dentry mode = (.ok p, fs')) :
    fs.sb.inodeBitmap.findClear 1 (fs.sb.inodeCount - 1) = some (fs'.icache.inode p).iIno := by
  unfold osfsCreate at h
  split at h
  · cases h
  split at h
  · cases h
  rename_i q fs₁ hnew
  split at h
  · cases h
  obtain ⟨hp, rfl⟩ := Prod.mk.inj h
  obtain rfl := Except.ok.inj hp
  rw [osfsNewInode_lowest hnew]
  dsimp only
  -- the update of the parent keeps the number, even if parent and file were one inode
  by_cases he : q = dir
  · subst he
    rw [Icache.set_same]
  · rw [Icache.set_ne _ _ he]

/-! ### The outcomes of `osfs_create` -/

/-- Whether the entry will be refused once the inode exists. -/
def EntryRefused (sb : OsfsSbInfo) (d : ℕ) (name : Bytes) : Prop :=
  MAX_DIR_ENTRIES ≤ sb.dirEntryCount d ∨ name ∈ sb.dirNames d

/-- Nothing happens; or `new_inode` fails when an inode number has been taken; or the entry is
refused when inode and block have been taken; or the file exists afterwards. -/
inductive CreateOutcome (env : Env) (fs : Fs) (dir : InodePtr) (dentry : Qstr) (mode : UMode) :
    Except Errno InodePtr × Fs → Prop where
  | refused (e : Errno) (h : MAX_FILENAME_LEN < dentry.len ∨ ¬ CanAllocate fs.sb mode) :
      CreateOutcome env fs dir dentry mode (.error e, fs)
  | noMemory (ino : ℕ) (hlen : dentry.len ≤ MAX_FILENAME_LEN) (hcan : CanAllocate fs.sb mode)
      (hmem : env.newInodeOk = false) (hlt : ino < INODE_COUNT)
      (hfree : fs.sb.inodeBitmap ino = false) :
      CreateOutcome env fs dir dentry mode (.error .ENOMEM, { fs with sb := fs.sb.claimInode ino })
  | rejected (e : Errno) (ino b : ℕ) (hlen : dentry.len ≤ MAX_FILENAME_LEN)
      (hcan : CanAllocate fs.sb mode) (hmem : env.newInodeOk = true) (hf : Fresh fs.sb ino b)
      (href : EntryRefused fs.sb (fs.icache.inode dir).iPrivate dentry.name) :
      CreateOutcome env fs dir dentry mode
        (.error e, iput (fs.withNewInode env dir mode ino b) fs.icache.count)
  | created (ino b : ℕ) (hlen : dentry.len ≤ MAX_FILENAME_LEN)
      (hcan : CanAllocate fs.sb mode) (hmem : env.newInodeOk = true) (hf : Fresh fs.sb ino b)
      (hent : ¬ EntryRefused fs.sb (fs.icache.inode dir).iPrivate dentry.name) :
      CreateOutcome env fs dir dentry mode
        (.ok fs.icache.count, (fs.withNewInode env dir mode ino b).withEntry dir ino dentry.name)

theorem osfsCreate_outcome {fs : Fs} (h : FsInv fs) (env : Env) {dir : InodePtr}
    (hdir : fs.isDirInode dir = true) (dentry : Qstr) (mode : UMode) :
    CreateOutcome env fs dir dentry mode (osfsCreate env fs dir dentry mode) := by
  obtain ⟨hlt, hd, hmode⟩ := h.isDir hdir
  unfold osfsCreate
  by_cases hlen : MAX_FILENAME_LEN < dentry.len
  · rw [if_pos hlen]
    exact .refused _ (Or.inl hlen)
  · have hle : dentry.len ≤ MAX_FILENAME_LEN := Nat.le_of_not_lt hlen
    rw [if_neg hlen]
    rcases osfsNewInode_cases h.sb env dir mode with ⟨hno, e, he⟩ | ⟨hcan, ino, h0, hi, hfree, hrest⟩
    · rw [he]
      exact .refused e (Or.inr hno)
    · rcases hrest with ⟨hmem, he⟩ | ⟨hmem, b, hb, hbfree, he⟩
      · rw [he]
        exact .noMemory ino hle hcan hmem hi hfree
      · rw [he]
        have hf : Fresh fs.sb ino b := ⟨h0, hi, hfree, hb, hbfree⟩
        have hinv := h.withNewInode env dir mode hf
        obtain ⟨htab, hents, hcnt⟩ := withNewInode_dir env dir mode h hf hd hmode
        have hnames : (fs.withNewInode env dir mode ino b).sb.dirNames (fs.icache.inode dir).iPrivate =
            fs.sb.dirNames (fs.icache.inode dir).iPrivate := congrArg (List.map Prod.fst) hents
        have hpriv := withNewInode_inode_ne env dir mode ino b (Nat.ne_of_lt hlt)
        have hnew := withNewInode_inode_new env dir mode fs ino b
        have hino : (createdInode env (fs.icache.inode dir) ino mode).iIno = ino :=
          (newVfsInode_spec env (fs.icache.inode dir) ino mode).2.1
        have hok := hinv.sb.dir (fs.icache.inode dir).iPrivate
          ((formatInode_formatted_ne fs.sb _ b (h.sb.format_ne (hf.newSlot env dir mode) hd)).mpr hd)
          (by rw [htab]; exact hmode)
        dsimp only
        rw [hpriv, hnew, hino]
        rcases osfsAddDirEntry_cases hok dentry.noNul ino with
          ⟨hfull, ha⟩ | ⟨_, hin, ha⟩ | ⟨hroom, hnin, ha⟩
        · rw [ha]
          rw [hcnt] at hfull
          exact .rejected .ENOSPC ino b hle hcan hmem hf (Or.inl hfull)
        · rw [ha]
          rw [hnames] at hin
          exact .rejected .EEXIST ino b hle hcan hmem hf (Or.inr hin)
        · rw [ha]
          rw [hcnt] at hroom
          rw [hnames] at hnin
          have hent : ¬ EntryRefused fs.sb (fs.icache.inode dir).iPrivate dentry.name := by
            intro hr
            rcases hr with hr | hr
            · omega
            · exact hnin hr
          have hout : CreateOutcome env fs dir dentry mode _ :=
            .created ino b hle hcan hmem hf hent
          unfold Fs.withEntry at hout
          rw [hpriv] at hout
          exact hout

theorem withNewInode_canEnter {fs : Fs} (h : FsInv fs) (env : Env) (mode : UMode) {dir : InodePtr}
    (hdir : fs.isDirInode dir = true) {dentry : Qstr} {ino b : ℕ}
    (hlen : dentry.len ≤ MAX_FILENAME_LEN) (hf : Fresh fs.sb ino b)
    (hent : ¬ EntryRefused fs.sb (fs.icache.inode dir).iPrivate dentry.name) :
    let fs' := fs.withNewInode env dir mode ino b
    fs'.icache.inode dir = fs.icache.inode dir ∧ fs'.isDirInode dir = true ∧
      CanEnter fs'.sb (fs'.icache.inode dir).iPrivate ino dentry.name := by
  obtain ⟨hlt, hd, hmode⟩ := h.isDir hdir
  obtain ⟨htab, hents, hcnt⟩ := withNewInode_dir env dir mode h hf hd hmode
  have hnames : (fs.withNewInode env dir mode ino b).sb.dirNames (fs.icache.inode dir).iPrivate =
      fs.sb.dirNames (fs.icache.inode dir).iPrivate := congrArg (List.map Prod.fst) hents
  have hpriv := withNewInode_inode_ne env dir mode ino b (Nat.ne_of_lt hlt)
  have hs := hf.newSlot env dir mode
  unfold EntryRefused at hent
  rw [not_or, ← hcnt, ← hnames] at hent
  dsimp only
  rw [hpriv]
  refine ⟨rfl, ?_, ?_⟩
  · rw [isDirInode_iff, hpriv]
    exact isDirInode_iff.mp hdir
  · exact {
      formatted := (formatInode_formatted_ne fs.sb _ b (h.sb.format_ne hs hd)).mpr hd
      dir := by rw [htab]; exact hmode
      room := Nat.lt_of_not_le hent.1
      noNul := dentry.noNul
      short := hlen
      absent := hent.2
      target := formatInode_formatted fs.sb b hs.pos
      notRoot := by
        rintro rfl
        exact h.sb.not_formatted hf.inoFree h.sb.root
      unnamed := withNewInode_unnamed env dir mode h hf }

theorem FsInv.create {fs : Fs} (h : FsInv fs) {env : Env} {dir : InodePtr}
    (hdir : fs.isDirInode dir = true) {dentry : Qstr} {mode : UMode}
    {r : Except Errno InodePtr × Fs} (ho : CreateOutcome env fs dir dentry mode r) : FsInv r.2 := by
  cases ho with
  | refused e _ => exact h
  | noMemory ino _ _ _ _ _ => exact h.claimInode ino
  | rejected e ino b _ _ _ hf _ =>
    have hlt := (h.isDir hdir).1
    exact (h.withNewInode env dir mode hf).iput (Nat.ne_of_gt (Nat.lt_of_le_of_lt (Nat.zero_le dir) hlt))
  | created ino b hlen _ _ hf hent =>
    obtain ⟨_, hd, hc⟩ := withNewInode_canEnter h env mode hdir hlen hf hent
    exact (h.withNewInode env dir mode hf).withEntry hd hc

end OSLab.Done
