import OSLab.Done.FileSpec

/-!
# The reachable states

Looking names up, mounting, and the invariant of the whole machine: it holds
after a mount and every request keeps it, whatever the kernel answers.
-/

namespace OSLab.Done
open OSLab.Base OSLab.Kernel

/-! ### `osfs_lookup` -/

/- The VFS inode that `osfs_iget` fills from a slot. -/
def igetInode (oi : OsfsInode) (ino : ℕ) : Inode :=
  let inode := { Inode.fresh with
    iIno := ino, iMode := oi.iMode, iUid := oi.iUid, iGid := oi.iGid, iAtime := oi.iAtime,
    iMtime := oi.iMtime, iCtime := oi.iCtime, iSize := oi.iSize, iBlocks := oi.iBlocks,
    iPrivate := ino }
  if sIsDir oi.iMode then { inode with iOp := .osfsDir, iFop := .osfsDir }
  else if sIsReg oi.iMode then { inode with iOp := .osfsFile, iFop := .osfsFile }
  else inode

def Fs.withIget (fs : Fs) (ino : ℕ) : Fs :=
  { fs with icache := fs.icache.push (igetInode (fs.sb.inodeTable ino) ino) }

theorem igetInode_fields (oi : OsfsInode) (ino : ℕ) :
    (igetInode oi ino).iIno = ino ∧ (igetInode oi ino).iPrivate = ino ∧
      (igetInode oi ino).iSize = oi.iSize ∧
      ((igetInode oi ino).iOp = .osfsDir ↔ sIsDir oi.iMode = true) ∧
      ((igetInode oi ino).iFop = .osfsFile ↔ sIsReg oi.iMode = true) := by
  unfold igetInode
  dsimp only
  by_cases hdir : sIsDir oi.iMode = true
  · have hreg : ¬ sIsReg oi.iMode = true := by
      intro hr
      rw [sIsReg_not_dir hr] at hdir
      cases hdir
    rw [if_pos hdir]
    exact ⟨rfl, rfl, rfl, iff_of_true rfl hdir, iff_of_false (fun hf => by cases hf) hreg⟩
  · rw [if_neg hdir]
    by_cases hreg : sIsReg oi.iMode = true
    · rw [if_pos hreg]
      exact ⟨rfl, rfl, rfl, iff_of_false (fun hf => by cases hf) hdir, iff_of_true rfl hreg⟩
    · rw [if_neg hreg]
      exact ⟨rfl, rfl, rfl, iff_of_false (fun hf => by cases hf) hdir,
        iff_of_false (fun hf => by cases hf) hreg⟩

theorem osfsIget_eq {fs : Fs} (h : SbInv fs.sb) (env : Env) {ino : ℕ} (hf : Formatted fs.sb ino) :
    osfsIget env fs ino =
      if env.newInodeOk then (.ok fs.icache.count, fs.withIget ino) else (.error .ENOMEM, fs) := by
  have hlt := h.inoLt ino hf
  rw [← h.inodeCount] at hlt
  unfold osfsIget
  rw [osfsGetOsfsInode_some (Nat.pos_of_ne_zero hf.1) hlt]
  cases henv : env.newInodeOk with
  | false => simp only [newInode_fails henv, Bool.false_eq_true, ite_false]
  | true =>
    simp only [newInode_ok henv, ite_true, Icache.push_set]
    rfl

theorem FsInv.withIget {fs : Fs} (h : FsInv fs) {ino : ℕ} (hf : Formatted fs.sb ino) :
    FsInv (fs.withIget ino) where
  sb := h.sb
  inodes := by
    intro p hp
    by_cases he : p = fs.icache.count
    · have hget : (fs.withIget ino).icache.inode p = igetInode (fs.sb.inodeTable ino) ino := by
        rw [he]
        exact fs.icache.push_same _
      obtain ⟨hino, hpriv, hsize, hop, hfop⟩ := igetInode_fields (fs.sb.inodeTable ino) ino
      rw [hget, he]
      refine ⟨Nat.lt_succ_self _, ?_, ?_, ?_, ?_, ?_⟩
      · rw [hpriv]
        exact hf
      · rw [hino, hpriv]
      · rw [hpriv]
        exact hop
      · rw [hpriv]
        exact hfop
      · rw [hpriv]
        exact Nat.le_of_eq hsize
    · have hget : (fs.withIget ino).icache.inode p = fs.icache.inode p := fs.icache.push_ne _ he
      rw [hget] at hp ⊢
      obtain ⟨hlt, hok⟩ := h.inodes p hp
      exact ⟨Nat.lt_succ_of_lt hlt, hok⟩
  root := by
    have hr : (fs.icache.inode 0).iPrivate ≠ 0 := by
      rw [h.root.1]
      decide
    have hget : (fs.withIget ino).icache.inode 0 = fs.icache.inode 0 :=
      fs.icache.push_ne _ (Nat.ne_of_lt (h.inodes 0 hr).1)
    rw [hget]
    exact h.root

theorem mem_dirEntries {sb : OsfsSbInfo} {d ino : ℕ} {name : Bytes} :
    (name, ino) ∈ sb.dirEntries d ↔
      ∃ i, i < sb.dirEntryCount d ∧ sb.entryName d i = name ∧ sb.entryInodeNo d i = ino := by
  simp only [OsfsSbInfo.dirEntries, List.mem_map, List.mem_range, Prod.mk.injEq]

/-- The name is not there; or it is, and then the inode is spliced in unless memory is short. -/
inductive LookupOutcome (env : Env) (fs : Fs) (dir : InodePtr) (dentry : Qstr) :
    LookupResult × Fs → Prop where
  | absent (h : dentry.name ∉ fs.sb.dirNames (fs.icache.inode dir).iPrivate) :
      LookupOutcome env fs dir dentry (.null, fs)
  | noMemory (ino : ℕ) (h : (dentry.name, ino) ∈ fs.sb.dirEntries (fs.icache.inode dir).iPrivate)
      (hmem : env.newInodeOk = false) : LookupOutcome env fs dir dentry (.err .ENOMEM, fs)
  | found (ino : ℕ) (h : (dentry.name, ino) ∈ fs.sb.dirEntries (fs.icache.inode dir).iPrivate)
      (hmem : env.newInodeOk = true) (hf : Formatted fs.sb ino) :
      LookupOutcome env fs dir dentry (.found fs.icache.count, fs.withIget ino)

theorem osfsLookup_outcome {fs : Fs} (h : FsInv fs) (env : Env) {dir : InodePtr}
    (hdir : fs.isDirInode dir = true) (dentry : Qstr) :
    LookupOutcome env fs dir dentry (osfsLookup env fs dir dentry) := by
  obtain ⟨_, hd, hmode⟩ := h.isDir hdir
  have hok := h.sb.dir _ hd hmode
  unfold osfsLookup
  dsimp only
  cases hfind : (List.range (fs.sb.dirEntryCount (fs.icache.inode dir).iPrivate)).find?
      (fs.sb.entryMatches (fs.icache.inode dir).iPrivate dentry.name) with
  | none =>
    apply LookupOutcome.absent
    intro hin
    obtain ⟨i, hi, he⟩ := mem_dirNames.mp hin
    have hm := (hok.entryMatches_iff dentry.noNul hi).mpr he
    exact List.find?_eq_none.mp hfind i (List.mem_range.mpr hi) hm
  | some i =>
    have hi := List.mem_range.mp (List.mem_of_find?_eq_some hfind)
    have hname := (hok.entryMatches_iff dentry.noNul hi).mp (List.find?_some hfind)
    have hmem : (dentry.name, fs.sb.entryInodeNo (fs.icache.inode dir).iPrivate i) ∈
        fs.sb.dirEntries (fs.icache.inode dir).iPrivate := mem_dirEntries.mpr ⟨i, hi, hname, rfl⟩
    have hf := (h.sb.named _ i _ ⟨hd, hmode, hi, rfl⟩).1
    dsimp only
    rw [osfsIget_eq h.sb env hf]
    cases henv : env.newInodeOk with
    | false => exact .noMemory _ hmem henv
    | true => exact .found _ hmem henv hf

theorem FsInv.lookup {fs : Fs} (h : FsInv fs) {env : Env} {dir : InodePtr} {dentry : Qstr}
    {r : LookupResult × Fs} (ho : LookupOutcome env fs dir dentry r) : FsInv r.2 := by
  cases ho with
  | absent _ => exact h
  | noMemory _ _ _ => exact h
  | found ino _ _ hf => exact h.withIget hf

/-! ### Mounting -/

/- The superblock information after a mount; `oi` is the slot of the root directory. -/
def mountedSb (oi : OsfsInode) : OsfsSbInfo :=
  { emptySbInfo with
    inodeTable := Function.update emptySbInfo.inodeTable ROOT_INODE oi
    inodeBitmap := Bitmap.empty.set ROOT_INODE
    blockBitmap := Bitmap.empty.set 0
    nrFreeBlocks := dec32 DATA_BLOCK_COUNT }

theorem osfsFillSuper_ok {env : Env} {vmallocOk dMakeRootOk : Bool} {fs : Fs}
    (h : osfsFillSuper env vmallocOk dMakeRootOk = .ok fs) :
    (∃ oi, oi.iIno = ROOT_INODE ∧ oi.iSize = 0 ∧ oi.iBlock = 0 ∧ sIsDir oi.iMode = true ∧
      fs.sb = mountedSb oi) ∧
      ∃ root, fs.icache = Icache.empty.push root ∧ root.iPrivate = ROOT_INODE ∧
        root.iIno = ROOT_INODE ∧ root.iSize = 0 ∧ root.iOp = .osfsDir ∧ root.iFop = .osfsDir := by
  unfold osfsFillSuper at h
  cases hv : vmallocOk with
  | false =>
    rw [hv] at h
    cases h
  | true =>
    simp only [hv, Bool.not_true, Bool.false_eq_true, ite_false] at h
    cases hm : env.newInodeOk with
    | false =>
      simp only [newInode_fails hm] at h
      cases h
    | true =>
      have hslot : osfsGetOsfsInode emptySbInfo ROOT_INODE = some ROOT_INODE := by decide
      simp only [newInode_ok hm, hslot] at h
      cases hr : dMakeRootOk with
      | false =>
        rw [hr] at h
        cases h
      | true =>
        rw [hr] at h
        have he := Except.ok.inj h
        have hmode : sIsDir (S_IFDIR ||| 0x1ED#16) = true := by decide
        exact ⟨⟨_, rfl, rfl, rfl, hmode, (congrArg Fs.sb he).symm⟩, _,
          (congrArg Fs.icache he).symm.trans (Icache.push_set _ _ _), rfl, rfl, rfl, rfl, rfl⟩

theorem mounted_only {oi : OsfsInode} {k : ℕ} (hk : Formatted (mountedSb oi) k) :
    k = ROOT_INODE := by
  by_cases he : k = ROOT_INODE
  · exact he
  · have hk0 : (mountedSb oi).inodeTable k = OsfsInode.zero := by
      unfold mountedSb
      dsimp only
      rw [Function.update_of_ne he]
      rfl
    have hino := hk.2
    rw [hk0] at hino
    exact absurd hino.symm hk.1

theorem mounted_root (oi : OsfsInode) : (mountedSb oi).inodeTable ROOT_INODE = oi := by
  unfold mountedSb
  dsimp only
  rw [Function.update_self]

theorem mounted_count {oi : OsfsInode} (hsize : oi.iSize = 0) :
    (mountedSb oi).dirEntryCount ROOT_INODE = 0 := by
  unfold OsfsSbInfo.dirEntryCount
  rw [mounted_root, hsize]
  rfl

theorem mounted_sbInv {oi : OsfsInode} (hino : oi.iIno = ROOT_INODE) (hsize : oi.iSize = 0)
    (hblock : oi.iBlock = 0) (hdir : sIsDir oi.iMode = true) : SbInv (mountedSb oi) := by
  have hroot := mounted_root oi
  have hnames {d i ino : ℕ} (hn : Names (mountedSb oi) d i ino) : False := by
    have hi := hn.index
    rw [mounted_only hn.formatted, mounted_count hsize] at hi
    exact Nat.not_lt_zero i hi
  exact {
    blockSize := rfl
    inodeCount := rfl
    blockCount := rfl
    freeBlocks := by
      have hset := Bitmap.empty.clearCount_set (i := 0) (n := DATA_BLOCK_COUNT) (by decide) rfl
      rw [Bitmap.clearCount_empty] at hset
      show dec32 DATA_BLOCK_COUNT = (Bitmap.empty.set 0).clearCount DATA_BLOCK_COUNT
      rw [dec32_of_pos (by decide) (by decide)]
      omega
    rootIno := by rw [hroot]; exact hino
    rootBlock := by rw [hroot]; exact hblock
    rootDir := by rw [hroot]; exact hdir
    inoLt := by
      intro k hk
      rw [mounted_only hk]
      decide
    inoUsed := by
      intro k hk
      rw [mounted_only hk]
      exact Bitmap.empty.set_self ROOT_INODE
    blockLt := by
      intro k hk
      rw [mounted_only hk, hroot, hblock]
      decide
    blockUsed := by
      intro k hk
      rw [mounted_only hk, hroot, hblock]
      exact Bitmap.empty.set_self 0
    blockInj := by
      intro j k hj hk _
      rw [mounted_only hj, mounted_only hk]
    blocksOne := by
      intro k hk hr
      exact absurd (mounted_only hk) hr
    freeZero := fun _ _ _ _ => rfl
    fileSize := by
      intro k hk hm
      rw [mounted_only hk, hroot, hdir] at hm
      cases hm
    dir := by
      intro d hd _
      rw [mounted_only hd]
      exact DirOk.of_empty (by rw [hroot, hsize])
    named := fun d i ino hn => (hnames hn).elim
    owner := fun d d' i j ino hn _ => (hnames hn).elim }

theorem FsInv.mounted {env : Env} {vmallocOk dMakeRootOk : Bool} {fs : Fs}
    (h : osfsFillSuper env vmallocOk dMakeRootOk = .ok fs) : FsInv fs ∧ ZeroTails fs.sb := by
  obtain ⟨⟨oi, hino, hsize, hblock, hdir, hsb⟩, root, hic, hpriv, hiino, hisize, hiop, hifop⟩ :=
    osfsFillSuper_ok h
  have hroot : fs.sb.inodeTable ROOT_INODE = oi := by
    rw [hsb]
    exact mounted_root oi
  have hinv : SbInv fs.sb := by
    rw [hsb]
    exact mounted_sbInv hino hsize hblock hdir
  have hget0 : fs.icache.inode 0 = root := by
    rw [hic]
    exact Icache.empty.push_same _
  have hrootOk : InodeOk fs.sb root := by
    refine ⟨?_, ?_, ?_, ?_, ?_⟩
    · rw [hpriv]
      exact hinv.root
    · rw [hpriv, hiino]
    · rw [hpriv, hroot]
      exact iff_of_true hiop hdir
    · rw [hpriv, hroot, hifop]
      apply iff_of_false (fun hf => by cases hf)
      intro hr
      rw [sIsReg_not_dir hr] at hdir
      cases hdir
    · rw [hisize]
      exact Nat.zero_le _
  refine ⟨⟨hinv, fun p hp => ?_, ?_⟩, fun k _ _ i _ _ => ?_⟩
  · by_cases he : p = 0
    · subst he
      rw [hget0]
      exact ⟨by rw [hic]; exact Nat.lt_succ_self 0, hrootOk⟩
    · have hget : fs.icache.inode p = Inode.fresh := by
        rw [hic]
        exact Icache.empty.push_ne _ he
      rw [hget] at hp
      exact absurd rfl hp
  · rw [hget0]
    exact ⟨hpriv, hiop⟩
  · rw [hsb]
    rfl

/-! ### The machine -/

structure SysInv (s : Sys) : Prop where
  fs : FsInv s.fs
  files : ∀ fd f, s.file fd = some f → s.fs.isFileInode f.fInode = true ∧ f.fPos ≤ LLONG_MAX

/-- The live VFS inodes of `fs` are alive in `fs'`, for the same slots and of the same type. -/
def Keeps (fs fs' : Fs) : Prop :=
  ∀ p, (fs.icache.inode p).iPrivate ≠ 0 →
    (fs'.icache.inode p).iPrivate = (fs.icache.inode p).iPrivate ∧
    (fs'.icache.inode p).iOp = (fs.icache.inode p).iOp ∧
    (fs'.icache.inode p).iFop = (fs.icache.inode p).iFop

theorem Keeps.refl (fs : Fs) : Keeps fs fs := fun _ _ => ⟨rfl, rfl, rfl⟩

theorem Keeps.isFile {fs fs' : Fs} (h : Keeps fs fs') {p : InodePtr}
    (hp : fs.isFileInode p = true) : fs'.isFileInode p = true := by
  obtain ⟨h0, hfop⟩ := isFileInode_iff.mp hp
  obtain ⟨h1, _, h3⟩ := h p h0
  exact isFileInode_iff.mpr ⟨by rw [h1]; exact h0, by rw [h3]; exact hfop⟩

theorem Keeps.isDir {fs fs' : Fs} (h : Keeps fs fs') {p : InodePtr}
    (hp : fs.isDirInode p = true) : fs'.isDirInode p = true := by
  obtain ⟨h0, hop⟩ := isDirInode_iff.mp hp
  obtain ⟨h1, h2, _⟩ := h p h0
  exact isDirInode_iff.mpr ⟨by rw [h1]; exact h0, by rw [h2]; exact hop⟩

theorem CreateOutcome.keeps {fs : Fs} (h : FsInv fs) {env : Env} {dir : InodePtr} {dentry : Qstr}
    {mode : UMode} {r : Except Errno InodePtr × Fs} (ho : CreateOutcome env fs dir dentry mode r) :
    Keeps fs r.2 := by
  intro p hp
  have hlt := (h.inodes p hp).1
  cases ho with
  | refused _ _ => exact ⟨rfl, rfl, rfl⟩
  | noMemory _ _ _ _ _ _ => exact ⟨rfl, rfl, rfl⟩
  | rejected e ino b _ _ _ _ _ =>
    have hget : (iput (fs.withNewInode env dir mode ino b) fs.icache.count).icache.inode p =
        fs.icache.inode p := by
      exact (Icache.set_ne _ _ (Nat.ne_of_lt hlt)).trans (withNewInode_inode_ne env dir mode ino b (Nat.ne_of_lt hlt))
    rw [hget]
    exact ⟨rfl, rfl, rfl⟩
  | created ino b _ _ _ _ _ =>
    have hold := withNewInode_inode_ne env dir mode ino b (Nat.ne_of_lt hlt)
    by_cases he : p = dir
    · subst he
      have hget : ((fs.withNewInode env p mode ino b).withEntry p ino dentry.name).icache.inode p =
          { (fs.withNewInode env p mode ino b).icache.inode p with
            iSize := ((fs.withNewInode env p mode ino b).icache.inode p).iSize + DIR_ENTRY_SIZE } :=
        Icache.set_same ..
      rw [hget, hold]
      exact ⟨rfl, rfl, rfl⟩
    · have hget : ((fs.withNewInode env dir mode ino b).withEntry dir ino dentry.name).icache.inode p =
          fs.icache.inode p := (Icache.set_ne _ _ he).trans hold
      rw [hget]
      exact ⟨rfl, rfl, rfl⟩

theorem LookupOutcome.keeps {fs : Fs} (h : FsInv fs) {env : Env} {dir : InodePtr} {dentry : Qstr}
    {r : LookupResult × Fs} (ho : LookupOutcome env fs dir dentry r) : Keeps fs r.2 := by
  intro p hp
  have hlt := (h.inodes p hp).1
  cases ho with
  | absent _ => exact ⟨rfl, rfl, rfl⟩
  | noMemory _ _ _ => exact ⟨rfl, rfl, rfl⟩
  | found ino _ _ _ =>
    have hget : (fs.withIget ino).icache.inode p = fs.icache.inode p :=
      fs.icache.push_ne _ (Nat.ne_of_lt hlt)
    rw [hget]
    exact ⟨rfl, rfl, rfl⟩

/-- A change of one VFS inode that leaves its slot and type alone. -/
theorem keeps_set {fs : Fs} {p : InodePtr} {inode : Inode} {sb : OsfsSbInfo}
    (hpriv : inode.iPrivate = (fs.icache.inode p).iPrivate)
    (hop : inode.iOp = (fs.icache.inode p).iOp) (hfop : inode.iFop = (fs.icache.inode p).iFop) :
    Keeps fs ⟨sb, fs.icache.set p inode⟩ := by
  intro q _
  by_cases he : q = p
  · subst he
    rw [show (fs.icache.set q inode).inode q = inode from Icache.set_same ..]
    exact ⟨hpriv, hop, hfop⟩
  · rw [show (fs.icache.set p inode).inode q = fs.icache.inode q from fs.icache.set_ne _ he]
    exact ⟨rfl, rfl, rfl⟩

theorem WriteOutcome.keeps {fs : Fs} {env : Env} {p : InodePtr} {buf : Bytes} {len ppos : ℕ}
    {r : Except Errno ℕ × ℕ × Fs} (ho : WriteOutcome env fs p buf len ppos r) :
    Keeps fs r.2.2 := by
  cases ho with
  | past _ => exact Keeps.refl fs
  | fault _ _ _ _ => exact Keeps.refl fs
  | written n _ _ _ => exact keeps_set rfl rfl rfl

theorem FsInv.truncate {fs : Fs} (h : FsInv fs) (env : Env) {p : InodePtr}
    (hp : fs.isFileInode p = true) :
    FsInv { fs with icache := fs.icache.set p (simpleSetattr env (fs.icache.inode p)) } := by
  obtain ⟨h0, hfop⟩ := isFileInode_iff.mp hp
  refine ⟨h.sb, ?_, ?_⟩
  · intro q hq
    by_cases he : q = p
    · subst he
      obtain ⟨hlt, hi⟩ := h.inodes q h0
      dsimp only
      rw [Icache.set_same]
      exact ⟨hlt, hi.formatted, hi.ino, hi.dir, hi.file, Nat.zero_le _⟩
    · dsimp only at hq ⊢
      rw [fs.icache.set_ne _ he] at hq ⊢
      exact h.inodes q hq
  · by_cases he : 0 = p
    · subst he
      dsimp only
      rw [Icache.set_same]
      exact h.root
    · dsimp only
      rw [fs.icache.set_ne _ he]
      exact h.root

/-! ### Descriptors -/

theorem setPos_file {s : Sys} {fd : ℕ} {f : File} {pos : ℕ} {fd' : ℕ} {f' : File}
    (h : (s.setPos fd f pos).file fd' = some f') :
    (f' = { f with fPos := pos }) ∨ s.file fd' = some f' := by
  unfold Sys.file Sys.setPos at h
  by_cases he : fd = fd'
  · subst he
    rw [List.getElem?_set_self'] at h
    cases hx : s.files[fd]? with
    | none =>
      rw [hx] at h
      cases h
    | some g =>
      rw [hx] at h
      left
      exact (Option.some.inj h).symm
  · rw [List.getElem?_set_ne he] at h
    exact Or.inr h

theorem SysInv.setFs {s : Sys} (h : SysInv s) {fs : Fs} (hfs : FsInv fs) (hk : Keeps s.fs fs) :
    SysInv { s with fs } :=
  ⟨hfs, fun fd f hf => ⟨hk.isFile (h.files fd f hf).1, (h.files fd f hf).2⟩⟩

theorem SysInv.setPos {s : Sys} (h : SysInv s) {fd : ℕ} {f : File} (hf : s.file fd = some f)
    {pos : ℕ} (hpos : pos ≤ LLONG_MAX) : SysInv (s.setPos fd f pos) := by
  refine ⟨h.fs, fun fd' f' hf' => ?_⟩
  rcases setPos_file hf' with rfl | hold
  · exact ⟨(h.files fd f hf).1, hpos⟩
  · exact h.files fd' f' hold

theorem close_file {s : Sys} {fd fd' : ℕ} {f : File}
    (h : ({ s with files := s.files.set fd none } : Sys).file fd' = some f) :
    s.file fd' = some f := by
  unfold Sys.file at h ⊢
  by_cases he : fd = fd'
  · subst he
    rw [List.getElem?_set_self'] at h
    cases hx : s.files[fd]? with
    | none =>
      rw [hx] at h
      cases h
    | some g =>
      rw [hx] at h
      cases h
  · rw [List.getElem?_set_ne he] at h
    exact h

theorem open_file {s : Sys} {f : File} {fd' : ℕ} {f' : File}
    (h : ({ s with files := s.files ++ [some f] } : Sys).file fd' = some f') :
    f' = f ∨ s.file fd' = some f' := by
  unfold Sys.file at h ⊢
  rw [List.getElem?_append] at h
  split at h
  · exact Or.inr h
  · rename_i hlt
    left
    cases hx : fd' - s.files.length with
    | zero =>
      rw [hx] at h
      exact (Option.some.inj h).symm
    | succ n =>
      rw [hx] at h
      cases h

/-- No descriptor holds an inode that can be evicted. -/
theorem evictable_file {s : Sys} {p : InodePtr} (h : s.evictable p = true) :
    p ≠ 0 ∧ ∀ fd f, s.file fd = some f → f.fInode ≠ p := by
  simp only [Sys.evictable, Bool.and_eq_true, decide_eq_true_eq, List.all_eq_true] at h
  refine ⟨h.1, fun fd f hf he => ?_⟩
  have hmem := List.mem_of_getElem? (Option.join_eq_some_iff.mp hf)
  have hne := h.2 (some f) hmem
  rw [← he] at hne
  exact hne rfl

end OSLab.Done
