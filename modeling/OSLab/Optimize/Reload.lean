import OSLab.Optimize.Invariant

/-!
# The two VFS inodes of a file (Lab4_Template_Optimize)

`osfs_create` leaves `i_op` and `i_fop` as `new_inode` set them, `osfs_iget`
sets both. A process opens a file through one VFS inode and reads and writes
it through the descriptors it got.
-/

namespace OSLab.Optimize
open OSLab.Base OSLab.Kernel

/-- `struct file`: `do_dentry_open` takes `f_op` from the `i_fop` of the inode. -/
structure File where
  fOp : FileOperations
  fPos : ℕ
  deriving DecidableEq

structure Session where
  fs : Fs
  inode : InodePtr
  files : List File

inductive FileReq where
  | open
  | read (fd room len : ℕ)
  | write (fd : ℕ) (buf : Bytes) (len : ℕ)
  deriving DecidableEq

inductive FileRes where
  | opened (fd : ℕ)
  | openFailed (e : Errno)
  | badFd
  | read (r : Except Errno Bytes)
  | written (r : Except Errno ℕ)

def Session.setPos (s : Session) (fd : ℕ) (f : File) (pos : ℕ) : Session :=
  { s with files := s.files.set fd { f with fPos := pos } }

/- The `open` of the table that `new_inode` sets is `no_open`; the tables of osfs have none. -/
def fileOpen (s : Session) : FileRes × Session :=
  match (s.fs.icache.inode s.inode).iFop with
  | .noOpen => (.openFailed Errno.ENXIO, s)
  | fop => (.opened s.files.length, { s with files := s.files ++ [⟨fop, 0⟩] })

/- `vfs_read`: of the tables only that of the files has a `read` and a `write`. -/
def fileRead (s : Session) (fd room len : ℕ) : FileRes × Session :=
  match s.files[fd]? with
  | none => (.badFd, s)
  | some f =>
    if f.fOp ≠ .osfsFile || !rwVerifyArea f.fPos len then (.read (.error .EINVAL), s)
    else
      match osfsRead s.fs s.inode room (rwCount len) f.fPos with
      | (.ok bytes, pos) => (.read (.ok bytes), s.setPos fd f pos)
      | (.error e, _) => (.read (.error e), s)

def fileWrite (s : Session) (fd : ℕ) (buf : Bytes) (len : ℕ) : FileRes × Session :=
  match s.files[fd]? with
  | none => (.badFd, s)
  | some f =>
    if f.fOp ≠ .osfsFile || !rwVerifyArea f.fPos len then (.written (.error .EINVAL), s)
    else
      match osfsWrite s.fs s.inode buf (rwCount len) f.fPos with
      | (.ok n, pos, _, fs) => (.written (.ok n), { s with fs }.setPos fd f pos)
      | (.error e, _, _, fs) => (.written (.error e), { s with fs })

def fileStep (s : Session) : FileReq → FileRes × Session
  | .open => fileOpen s
  | .read fd room len => fileRead s fd room len
  | .write fd buf len => fileWrite s fd buf len

def session : Machine Session FileReq FileRes := ⟨fileStep⟩

/- `osfs_destroy_inode` is empty; the VFS inode is gone. -/
def iput (fs : Fs) (p : InodePtr) : Fs :=
  { fs with icache := fs.icache.set p { fs.icache.inode p with iPrivate := 0 } }

variable {fs : Fs} {sb : OsfsSbInfo} {ic ic' : Icache} {p q : InodePtr}

/-! ### Only the slot matters to the handlers -/

theorem osfsWrite_inode (fs : Fs) (p : InodePtr) (buf : Bytes) (len ppos : ℕ) :
    ∃ n, (osfsWrite fs p buf len ppos).2.2.2.icache.inode p =
      { fs.icache.inode p with iSize := n } := by
  have hupdate (fs : Fs) (ppos : ℕ) : ∃ n, (osfsWriteUpdate fs p ppos).icache.inode p =
      { fs.icache.inode p with iSize := n } := by
    unfold osfsWriteUpdate
    dsimp only
    split
    · exact ⟨ppos, Icache.set_same ..⟩
    · exact ⟨(fs.icache.inode p).iSize, rfl⟩
  unfold osfsWrite
  dsimp only
  split
  · exact ⟨(fs.icache.inode p).iSize, rfl⟩
  · split
    · exact hupdate _ _
    · exact ⟨(fs.icache.inode p).iSize, rfl⟩

theorem osfsRead_same (hslot : (ic'.inode q).iPrivate = (ic.inode p).iPrivate)
    (room len ppos : ℕ) : osfsRead ⟨sb, ic'⟩ q room len ppos = osfsRead ⟨sb, ic⟩ p room len ppos := by
  unfold osfsRead
  dsimp only
  rw [hslot]

theorem osfsWriteUpdate_same (hslot : (ic'.inode q).iPrivate = (ic.inode p).iPrivate) (ppos : ℕ) :
    (osfsWriteUpdate ⟨sb, ic'⟩ q ppos).sb = (osfsWriteUpdate ⟨sb, ic⟩ p ppos).sb := by
  unfold osfsWriteUpdate
  dsimp only
  rw [hslot]
  split <;> rfl

theorem osfsWrite_same (sb : OsfsSbInfo) (hslot : (ic'.inode q).iPrivate = (ic.inode p).iPrivate)
    (buf : Bytes) (len ppos : ℕ) :
    (osfsWrite ⟨sb, ic'⟩ q buf len ppos).1 = (osfsWrite ⟨sb, ic⟩ p buf len ppos).1 ∧
      (osfsWrite ⟨sb, ic'⟩ q buf len ppos).2.1 = (osfsWrite ⟨sb, ic⟩ p buf len ppos).2.1 ∧
      (osfsWrite ⟨sb, ic'⟩ q buf len ppos).2.2.2.sb =
        (osfsWrite ⟨sb, ic⟩ p buf len ppos).2.2.2.sb := by
  unfold osfsWrite
  dsimp only
  rw [hslot]
  split
  · exact ⟨rfl, rfl, rfl⟩
  · split
    · exact ⟨rfl, rfl, osfsWriteUpdate_same hslot _⟩
    · exact ⟨rfl, rfl, rfl⟩

/-- Two sessions on one slot of the same file system, with the same descriptors. -/
structure SameFile (s t : Session) : Prop where
  sb : t.fs.sb = s.fs.sb
  slot : (t.fs.icache.inode t.inode).iPrivate = (s.fs.icache.inode s.inode).iPrivate
  files : t.files = s.files

/-- Every request but an open gets the same answer, and so does an open when the two VFS inodes have
the same table. -/
theorem SameFile.step {s t : Session} (h : SameFile s t) {r : FileReq}
    (hopen : r = .open → (t.fs.icache.inode t.inode).iFop = (s.fs.icache.inode s.inode).iFop) :
    (fileStep t r).1 = (fileStep s r).1 ∧ SameFile (fileStep s r).2 (fileStep t r).2 := by
  obtain ⟨⟨sb, ic⟩, p, files⟩ := s
  obtain ⟨⟨sb', ic'⟩, q, files'⟩ := t
  obtain ⟨hsb, hslot, hfiles⟩ := h
  dsimp only at hsb hslot hfiles hopen
  subst hsb hfiles
  cases r with
  | «open» =>
    simp only [fileStep, fileOpen]
    rw [hopen rfl]
    split
    · exact ⟨rfl, rfl, hslot, rfl⟩
    · exact ⟨rfl, rfl, hslot, rfl⟩
  | read fd room len =>
    simp only [fileStep, fileRead]
    split
    · exact ⟨rfl, rfl, hslot, rfl⟩
    · split
      · exact ⟨rfl, rfl, hslot, rfl⟩
      · rw [osfsRead_same hslot]
        split
        · exact ⟨rfl, rfl, hslot, rfl⟩
        · exact ⟨rfl, rfl, hslot, rfl⟩
  | write fd buf len =>
    simp only [fileStep, fileWrite]
    split
    · exact ⟨rfl, rfl, hslot, rfl⟩
    · rename_i f _
      split
      · exact ⟨rfl, rfl, hslot, rfl⟩
      · have hsame := osfsWrite_same sb' hslot buf (rwCount len) f.fPos
        have hp := osfsWrite_inode ⟨sb', ic⟩ p buf (rwCount len) f.fPos
        have hq := osfsWrite_inode ⟨sb', ic'⟩ q buf (rwCount len) f.fPos
        generalize osfsWrite ⟨sb', ic⟩ p buf (rwCount len) f.fPos = a at hsame hp ⊢
        generalize osfsWrite ⟨sb', ic'⟩ q buf (rwCount len) f.fPos = b at hsame hq ⊢
        obtain ⟨res, pos, st, gs⟩ := a
        obtain ⟨res', pos', st', gs'⟩ := b
        obtain ⟨hres, hpos, hsb⟩ := hsame
        obtain ⟨n, hn⟩ := hp
        obtain ⟨n', hn'⟩ := hq
        dsimp only at hres hpos hsb hn hn'
        have hslot' : (gs'.icache.inode q).iPrivate = (gs.icache.inode p).iPrivate := by
          rw [hn, hn']
          exact hslot
        subst hres hpos
        cases res' with
        | ok n => exact ⟨rfl, hsb, hslot', rfl⟩
        | error e => exact ⟨rfl, hsb, hslot', rfl⟩

theorem fileStep_fop (s : Session) (r : FileReq) :
    ((fileStep s r).2.fs.icache.inode (fileStep s r).2.inode).iFop =
      (s.fs.icache.inode s.inode).iFop := by
  cases r with
  | «open» =>
    simp only [fileStep, fileOpen]
    split <;> rfl
  | read fd room len =>
    simp only [fileStep, fileRead]
    split
    · rfl
    · split
      · rfl
      · split <;> rfl
  | write fd buf len =>
    simp only [fileStep, fileWrite]
    split
    · rfl
    · rename_i f _
      split
      · rfl
      · obtain ⟨n, hn⟩ := osfsWrite_inode s.fs s.inode buf (rwCount len) f.fPos
        have hfop := congrArg Inode.iFop hn
        generalize osfsWrite s.fs s.inode buf (rwCount len) f.fPos = a at hfop
        obtain ⟨res, pos, st, gs⟩ := a
        cases res with
        | ok n => exact hfop
        | error e => exact hfop

/-! ### What requests leave of the inodes there are -/

/-- The slots in use keep their modes, and the VFS inodes everything but their sizes. -/
structure KeepsInodes (fs fs' : Fs) : Prop where
  inodes : fs'.sb.inodeCount = fs.sb.inodeCount
  bits : ∀ k, fs.sb.inodeBitmap k = true → fs'.sb.inodeBitmap k = true
  mode : ∀ k, fs.sb.inodeBitmap k = true →
    (fs'.sb.inodeTable k).iMode = (fs.sb.inodeTable k).iMode
  count : fs.icache.count ≤ fs'.icache.count
  inode : ∀ p, p < fs.icache.count →
    ∃ n, fs'.icache.inode p = { fs.icache.inode p with iSize := n }

theorem KeepsInodes.refl (fs : Fs) : KeepsInodes fs fs :=
  ⟨rfl, fun _ h => h, fun _ _ => rfl, Nat.le_refl _, fun p _ => ⟨(fs.icache.inode p).iSize, rfl⟩⟩

theorem KeepsInodes.push (fs : Fs) (inode : Inode) :
    KeepsInodes fs { fs with icache := fs.icache.push inode } :=
  ⟨rfl, fun _ h => h, fun _ _ => rfl, Nat.le_succ _, fun p hp =>
    ⟨(fs.icache.inode p).iSize, Icache.push_ne _ _ (Nat.ne_of_lt hp)⟩⟩

/-- A new value with the same mode for a slot, in any bitmap that keeps the bits. -/
theorem setOsfsInode_mode (sb : OsfsSbInfo) {k : ℕ} {oi : OsfsInode}
    (h : oi.iMode = (sb.inodeTable k).iMode) (j : ℕ) :
    ((sb.setOsfsInode k oi).inodeTable j).iMode = (sb.inodeTable j).iMode := by
  by_cases hj : j = k
  · rw [hj, setOsfsInode_self, h]
  · rw [setOsfsInode_ne _ _ hj]

theorem slotWithExtent_ne (sb : OsfsSbInfo) (oi : OsfsInode) (n : ℕ) {j k : ℕ} (h : j ≠ k) :
    (slotWithExtent sb k oi n).inodeTable j = sb.inodeTable j := by
  unfold slotWithExtent osfsAllocExtent
  cases (sb.setOsfsInode k oi).blockBitmap.findRun n 0 _ with
  | none => exact setOsfsInode_ne _ _ h
  | some i => exact (setOsfsInode_ne _ _ h).trans (setOsfsInode_ne _ _ h)

theorem slotWithExtent_keeps (sb : OsfsSbInfo) (k : ℕ) (oi : OsfsInode) (n : ℕ) :
    (slotWithExtent sb k oi n).inodeCount = sb.inodeCount ∧
      (slotWithExtent sb k oi n).inodeBitmap = sb.inodeBitmap ∧
      ((slotWithExtent sb k oi n).inodeTable k).iMode = oi.iMode := by
  unfold slotWithExtent osfsAllocExtent
  cases (sb.setOsfsInode k oi).blockBitmap.findRun n 0 _ with
  | none => exact ⟨rfl, rfl, congrArg OsfsInode.iMode (setOsfsInode_self ..)⟩
  | some i =>
    refine ⟨rfl, rfl, ?_⟩
    dsimp only [Option.map]
    rw [setOsfsInode_self]

theorem osfsWriteUpdate_keepsInodes (fs : Fs) (q : InodePtr) (ppos : ℕ) :
    KeepsInodes fs (osfsWriteUpdate fs q ppos) := by
  unfold osfsWriteUpdate
  dsimp only
  split
  · refine ⟨rfl, fun _ h => h, fun k _ => setOsfsInode_mode _ (by rfl) k, Nat.le_refl _, fun p _ => ?_⟩
    by_cases hp : p = q
    · subst hp
      exact ⟨ppos, Icache.set_same ..⟩
    · exact ⟨(fs.icache.inode p).iSize, Icache.set_ne _ _ hp⟩
  · exact .refl fs

theorem osfsWriteExtent_keeps {sb sb' : OsfsSbInfo} {k : ℕ}
    (h : osfsWriteExtent sb k = some sb') : sb'.inodeCount = sb.inodeCount ∧
      sb'.inodeBitmap = sb.inodeBitmap ∧
      ∀ j, (sb'.inodeTable j).iMode = (sb.inodeTable j).iMode := by
  unfold osfsWriteExtent at h
  split at h
  · unfold osfsAllocExtent at h
    rw [Option.map_eq_some_iff] at h
    obtain ⟨⟨start, sb₁⟩, halloc, rfl⟩ := h
    rw [Option.map_eq_some_iff] at halloc
    obtain ⟨i, -, he⟩ := halloc
    obtain ⟨rfl, rfl⟩ := Prod.mk.inj he
    exact ⟨rfl, rfl, fun j => setOsfsInode_mode _ (by rfl) j⟩
  · obtain rfl := Option.some.inj h
    exact ⟨rfl, rfl, fun _ => rfl⟩

theorem osfsWrite_keepsInodes (fs : Fs) (q : InodePtr) (buf : Bytes) (len ppos : ℕ) :
    KeepsInodes fs (osfsWrite fs q buf len ppos).2.2.2 := by
  unfold osfsWrite
  dsimp only
  cases hext : osfsWriteExtent fs.sb (fs.icache.inode q).iPrivate with
  | none => exact .refl fs
  | some sb =>
    obtain ⟨hcount, hbits, hmode⟩ := osfsWriteExtent_keeps hext
    dsimp only
    split
    · rename_i data _
      have hu := osfsWriteUpdate_keepsInodes ⟨{ sb with dataBlocks := data }, fs.icache⟩ q
        (ppos + clipLen (sb.extentBytes (fs.icache.inode q).iPrivate) ppos len)
      have hbits' (k : ℕ) (hk : fs.sb.inodeBitmap k = true) : sb.inodeBitmap k = true := by
        rw [hbits]
        exact hk
      exact ⟨hu.inodes.trans hcount, fun k hk => hu.bits k (hbits' k hk),
        fun k hk => (hu.mode k (hbits' k hk)).trans (hmode k), hu.count, hu.inode⟩
    · refine ⟨hcount, fun k hk => ?_, fun k _ => hmode k, Nat.le_refl _,
        fun p _ => ⟨(fs.icache.inode p).iSize, rfl⟩⟩
      change sb.inodeBitmap k = true
      rw [hbits]
      exact hk

theorem osfsIget_keepsInodes (env : Env) (fs : Fs) (ino : ℕ) :
    KeepsInodes fs (osfsIget env fs ino).2 := by
  unfold osfsIget
  split
  · exact .refl fs
  · cases hok : env.newInodeOk with
    | false =>
      rw [newInode_fails hok]
      exact .refl fs
    | true =>
      rw [newInode_ok hok]
      dsimp only
      rw [Icache.push_set]
      exact .push fs _

theorem osfsLookup_keepsInodes (env : Env) (fs : Fs) (dir : InodePtr) (dentry : Qstr) :
    KeepsInodes fs (osfsLookup env fs dir dentry).2 := by
  unfold osfsLookup
  dsimp only
  split
  · exact .refl fs
  · split
    · exact .refl fs
    · rename_i i _
      have h := osfsIget_keepsInodes env fs
        (fs.sb.entryInodeNo (fs.icache.inode dir).iPrivate i)
      split
      · rename_i heq
        rw [heq] at h
        exact h
      · rename_i heq
        rw [heq] at h
        exact h

theorem claimInode_keepsInodes (fs : Fs) (ino : ℕ) :
    KeepsInodes fs { fs with sb := fs.sb.claimInode ino } :=
  ⟨rfl, fun _ hk => fs.sb.inodeBitmap.set_of_true ino hk, fun _ _ => rfl, Nat.le_refl _,
    fun p _ => ⟨(fs.icache.inode p).iSize, rfl⟩⟩

theorem KeepsInodes.trans {fs₁ fs₂ : Fs} (h : KeepsInodes fs fs₁) (h' : KeepsInodes fs₁ fs₂) :
    KeepsInodes fs fs₂ := by
  refine ⟨h'.inodes.trans h.inodes, fun k hk => h'.bits k (h.bits k hk),
    fun k hk => (h'.mode k (h.bits k hk)).trans (h.mode k hk), h.count.trans h'.count,
    fun p hp => ?_⟩
  obtain ⟨n, hn⟩ := h.inode p hp
  obtain ⟨n', hn'⟩ := h'.inode p (Nat.lt_of_lt_of_le hp h.count)
  exact ⟨n', by rw [hn', hn]⟩

theorem withFile_keepsInodes (fs : Fs) {ino : ℕ} (hfree : fs.sb.inodeBitmap ino = false)
    (mode : UMode) : KeepsInodes fs { fs with sb := fs.sb.withFile ino mode } := by
  obtain ⟨hcount, hbits, -⟩ := slotWithExtent_keeps (fs.sb.claimInode ino) ino
    { OsfsInode.zero with iIno := ino, iMode := mode } EXTENT_BLOCKS
  refine ⟨hcount, fun k hk => ?_, fun k hk => ?_, Nat.le_refl _,
    fun p _ => ⟨(fs.icache.inode p).iSize, rfl⟩⟩
  · exact (congrFun hbits k).trans (fs.sb.inodeBitmap.set_of_true ino hk)
  · have hne : k ≠ ino := by
      rintro rfl
      rw [hfree] at hk
      cases hk
    exact congrArg OsfsInode.iMode (slotWithExtent_ne (fs.sb.claimInode ino) _ _ hne)

theorem appendEntry_keepsInodes (fs : Fs) (parent ino : ℕ) (name : Bytes) :
    KeepsInodes fs { fs with sb := (appendEntry fs.sb parent ino name).2 } :=
  ⟨rfl, fun _ hk => hk, fun k _ => setOsfsInode_mode _ (by rfl) k, Nat.le_refl _,
    fun p _ => ⟨(fs.icache.inode p).iSize, rfl⟩⟩

theorem osfsCreate_keepsInodes (h : fs.sb.inodeCount = INODE_COUNT) (env : Env) (dir : InodePtr)
    (dentry : Qstr) (mode : UMode) : KeepsInodes fs (osfsCreate env fs dir dentry mode).2.2 := by
  have hout := osfsCreate_outcome h env dir dentry mode
  generalize osfsCreate env fs dir dentry mode = r at hout
  cases hout with
  | full _ => exact .refl fs
  | oops ino _ _ => exact claimInode_keepsInodes fs ino
  | created ino hnext _ =>
    have hfile := withFile_keepsInodes fs (nextInode_some h hnext).2.2 mode
    have hentry := appendEntry_keepsInodes { fs with sb := fs.sb.withFile ino mode }
      (fs.icache.inode dir).iPrivate ino dentry.name
    exact (hfile.trans hentry).trans (.push _ (newVfsInode env ino ino mode))

theorem sysStep_keepsInodes {s : Sys} (h : s.fs.sb.inodeCount = INODE_COUNT) (r : Req) :
    KeepsInodes s.fs (osfs.next s r).fs := by
  cases r with
  | create dir dentry mode env =>
    simp only [osfs, Machine.next, sysStep]
    split
    · exact osfsCreate_keepsInodes h env dir dentry mode
    · exact .refl s.fs
  | lookup dir dentry env =>
    simp only [osfs, Machine.next, sysStep]
    split
    · exact osfsLookup_keepsInodes env s.fs dir dentry
    · exact .refl s.fs
  | read inode room len ppos =>
    simp only [osfs, Machine.next, sysStep]
    split <;> exact .refl s.fs
  | write inode buf len ppos =>
    simp only [osfs, Machine.next, sysStep]
    split
    · exact osfsWrite_keepsInodes s.fs inode buf (rwCount len) ppos
    · exact .refl s.fs

/-! ### The created file -/

/-- `p` is the VFS inode that `osfs_create` has made for the file with number `ino`. -/
structure CreatedFile (fs : Fs) (p : InodePtr) (ino : ℕ) : Prop where
  inodes : fs.sb.inodeCount = INODE_COUNT
  pos : 0 < ino
  lt : ino < INODE_COUNT
  used : fs.sb.inodeBitmap ino = true
  file : sIsDir (fs.sb.inodeTable ino).iMode = false
  count : p < fs.icache.count
  iIno : (fs.icache.inode p).iIno = ino
  iPrivate : (fs.icache.inode p).iPrivate = ino
  iFop : (fs.icache.inode p).iFop = .noOpen

theorem osfsCreate_created (h : fs.sb.inodeCount = INODE_COUNT) {env : Env} {dir : InodePtr}
    {dentry : Qstr} {mode : UMode} (hreg : sIsReg mode = true)
    (hc : (osfsCreate env fs dir dentry mode).1 = .created p) :
    ∃ ino, CreatedFile (osfsCreate env fs dir dentry mode).2.2 p ino := by
  have hout := osfsCreate_outcome h env dir dentry mode
  generalize osfsCreate env fs dir dentry mode = r at hout hc
  cases hout with
  | full _ => cases hc
  | oops _ _ _ => cases hc
  | created ino hnext _ =>
    obtain ⟨h0, hlt, hfree⟩ := nextInode_some h hnext
    obtain ⟨hcount, hbits, hmode⟩ := slotWithExtent_keeps (fs.sb.claimInode ino) ino
      { OsfsInode.zero with iIno := ino, iMode := mode } EXTENT_BLOCKS
    have hentry := appendEntry_keepsInodes { fs with sb := fs.sb.withFile ino mode }
      (fs.icache.inode dir).iPrivate ino dentry.name
    have hused : (fs.sb.withFile ino mode).inodeBitmap ino = true :=
      (congrFun hbits ino).trans (claimInode_used fs.sb ino)
    obtain rfl := CreateResult.created.inj hc
    refine ⟨ino, (hentry.inodes.trans hcount).trans h, h0, hlt, hentry.bits ino hused, ?_,
      Nat.lt_succ_self _, ?_, ?_, ?_⟩
    · have hm := (hentry.mode ino hused).trans hmode
      rw [hm]
      exact sIsReg_not_dir hreg
    all_goals
      dsimp only
      rw [Icache.push_same]
      rfl

theorem CreatedFile.keeps {ino : ℕ} {fs' : Fs} (h : CreatedFile fs p ino)
    (hk : KeepsInodes fs fs') : CreatedFile fs' p ino := by
  obtain ⟨n, hn⟩ := hk.inode p h.count
  refine ⟨hk.inodes.trans h.inodes, h.pos, h.lt, hk.bits ino h.used, ?_,
    Nat.lt_of_lt_of_le h.count hk.count, ?_, ?_, ?_⟩
  · rw [hk.mode ino h.used]
    exact h.file
  all_goals rw [hn]
  · exact h.iIno
  · exact h.iPrivate
  · exact h.iFop

theorem CreatedFile.run {s : Sys} {ino : ℕ} (h : CreatedFile s.fs p ino) (rs : List Req) :
    CreatedFile (osfs.run s rs).fs p ino :=
  osfs.run_invariant_all (P := fun s => CreatedFile s.fs p ino)
    (fun _ r hs => hs.keeps (sysStep_keepsInodes hs.inodes r)) rs h

theorem run_inodeCount {s : Sys} (hm : Mounted s) (rs : List Req) :
    (osfs.run s rs).fs.sb.inodeCount = INODE_COUNT :=
  osfs.run_invariant_all (P := fun s => s.fs.sb.inodeCount = INODE_COUNT)
    (fun _ r hs => (sysStep_keepsInodes hs r).inodes.trans hs) rs hm.sysInv.layout.inodes

/-- What `osfs_iget` builds for the file afterwards: the same slot, with the tables of a file. -/
theorem CreatedFile.reloaded {ino : ℕ} {fs' : Fs} {env : Env} (h : CreatedFile fs p ino)
    (hget : osfsIget env (iput fs p) (fs.icache.inode p).iIno = (.ok q, fs')) :
    SameFile ⟨fs, p, []⟩ ⟨fs', q, []⟩ ∧ (fs'.icache.inode q).iFop = .osfsFile := by
  have hslot : osfsGetOsfsInode (iput fs p).sb ino = some ino :=
    osfsGetOsfsInode_eq h.inodes h.pos h.lt
  rw [h.iIno] at hget
  unfold osfsIget at hget
  rw [hslot] at hget
  cases hok : env.newInodeOk with
  | false => simp only [newInode_fails hok, Prod.mk.injEq, reduceCtorEq, false_and] at hget
  | true =>
    have hfile : sIsDir ((iput fs p).sb.inodeTable ino).iMode = false := h.file
    simp only [newInode_ok hok, hfile, Bool.false_eq_true, ite_false, Icache.push_set,
      Prod.mk.injEq, Except.ok.injEq] at hget
    obtain ⟨rfl, rfl⟩ := hget
    refine ⟨⟨rfl, ?_, rfl⟩, ?_⟩
    · dsimp only
      rw [Icache.push_same]
      exact h.iPrivate.symm
    · dsimp only
      rw [Icache.push_same]

/-- With the table assigned in `osfs_create` every sequence of requests would get the same
results. -/
theorem SameFile.trace {s t : Session} (h : SameFile s t)
    (hfop : (t.fs.icache.inode t.inode).iFop = (s.fs.icache.inode s.inode).iFop)
    (rs : List FileReq) : session.trace t rs = session.trace s rs := by
  refine session.trace_eq session
    (R := fun s t => SameFile s t ∧
      (t.fs.icache.inode t.inode).iFop = (s.fs.icache.inode s.inode).iFop)
    (G := fun _ => True) (W := fun _ => True) ?_ ⟨h, hfop⟩ (fun _ _ => trivial)
    (fun _ _ => trivial)
  rintro s t r ⟨h, hfop⟩ - -
  obtain ⟨hres, hnext⟩ := h.step fun _ => hfop
  refine ⟨hres, hnext, ?_⟩
  have hs := fileStep_fop s r
  have ht := fileStep_fop t r
  exact (ht.trans hfop).trans hs.symm

/-- Without the table only an open tells the two VFS inodes apart. -/
theorem SameFile.trace_iff {s t : Session} (h : SameFile s t)
    (hs : (s.fs.icache.inode s.inode).iFop = .noOpen)
    (ht : (t.fs.icache.inode t.inode).iFop = .osfsFile) (rs : List FileReq) :
    session.trace t rs = session.trace s rs ↔ FileReq.open ∉ rs := by
  have hiff := session.trace_eq_iff session
    (R := fun s t => SameFile s t ∧ (s.fs.icache.inode s.inode).iFop = .noOpen ∧
      (t.fs.icache.inode t.inode).iFop = .osfsFile)
    (G := fun r => r ≠ .open) ?_ ?_ ⟨h, hs, ht⟩ rs
  · rw [hiff]
    exact ⟨fun hno hmem => hno _ hmem rfl, fun hno r hr he => hno (he ▸ hr)⟩
  · rintro s t r ⟨h, hs, ht⟩ hr
    obtain ⟨hres, hnext⟩ := h.step fun he => absurd he hr
    exact ⟨hres, hnext, (fileStep_fop s r).trans hs, (fileStep_fop t r).trans ht⟩
  · rintro s t r ⟨-, hs, ht⟩ hr
    obtain rfl := not_not.mp hr
    change (fileOpen t).1 ≠ (fileOpen s).1
    unfold fileOpen
    rw [hs, ht]
    exact fun h => nomatch h

/-- For every regular file created in a run, and whatever has happened since: through the VFS inode of
`osfs_create` a sequence of requests gets the results that it gets through the one `osfs_iget`
builds after eviction iff it opens the file nowhere. -/
theorem session_reloaded_iff {s : Sys} (hm : Mounted s) (before after : List Req) {dir : InodePtr}
    {dentry : Qstr} {mode : UMode} {env env' : Env} {stores : List ByteStore} {fs fs' : Fs}
    (hreg : sIsReg mode = true)
    (hc : osfs.resp (osfs.run s before) (.create dir dentry mode env) =
      .create (.created p) stores)
    (hfs : fs = (osfs.run s (before ++ .create dir dentry mode env :: after)).fs)
    (hget : osfsIget env' (iput fs p) (fs.icache.inode p).iIno = (.ok q, fs'))
    (rs : List FileReq) :
    session.trace ⟨fs', q, []⟩ rs = session.trace ⟨fs, p, []⟩ rs ↔ FileReq.open ∉ rs := by
  have hinodes := run_inodeCount hm before
  have hfile : ∃ ino, CreatedFile fs p ino := by
    rw [hfs, Machine.run_append, Machine.run_cons]
    simp only [osfs, Machine.resp, sysStep] at hc
    split at hc
    · rename_i hd
      rw [Res.create.injEq] at hc
      obtain ⟨ino, hnew⟩ := osfsCreate_created hinodes hreg hc.1
      have hnext : (osfs.next (osfs.run s before) (.create dir dentry mode env)).fs =
          (osfsCreate env (osfs.run s before).fs dir dentry mode).2.2 := by
        simp only [osfs, Machine.next, sysStep]
        exact congrArg (fun r : Res × Sys => r.2.fs) (if_pos hd)
      exact ⟨ino, CreatedFile.run (hnext ▸ hnew) after⟩
    · cases hc
  obtain ⟨ino, hfile⟩ := hfile
  obtain ⟨hsame, hfop⟩ := hfile.reloaded hget
  exact hsame.trace_iff hfile.iFop hfop rs

/- A file with two bytes in it, and the file system after its inode is evicted and built again. -/
def twoBytes : Fs :=
  (osfs.run freshMount
    [.create 0 (Qstr.ofBytes [97]) S_IFREG plainEnv, .write 1 [104, 105] 2 0]).fs

def twoBytesReloaded : Fs := (osfsIget plainEnv (iput twoBytes 1) 2).2

theorem session_reloaded_two :
    session.trace ⟨twoBytesReloaded, 2, []⟩ [.read 0 2 2] =
      session.trace ⟨twoBytes, 1, []⟩ [.read 0 2 2] :=
  have hc : osfs.resp (osfs.run freshMount [])
      (.create 0 (Qstr.ofBytes [97]) S_IFREG plainEnv) =
        .create (.created 1) (entryStores 0 2 [97]) := rfl
  have hget : osfsIget plainEnv (iput twoBytes 1) (twoBytes.icache.inode 1).iIno =
      (.ok 2, twoBytesReloaded) := rfl
  (session_reloaded_iff freshMount_mounted [] [.write 1 [104, 105] 2 0] rfl hc rfl hget
    [.read 0 2 2]).mpr (by decide)

/- The file that was just created cannot be opened; once its inode is evicted and built again it
can. -/
theorem session_reloaded_open :
    osfs.resp freshMount (.create 0 (Qstr.ofBytes [97]) S_IFREG plainEnv) =
        .create (.created 1) (entryStores 0 2 [97]) ∧
      (twoBytes.icache.inode 1).iIno = 2 ∧
      osfsIget plainEnv (iput twoBytes 1) 2 = (.ok 2, twoBytesReloaded) ∧
      session.trace ⟨twoBytes, 1, []⟩ [.open] = [(.open, .openFailed Errno.ENXIO)] ∧
      session.trace ⟨twoBytesReloaded, 2, []⟩ [.open] = [(.open, .opened 0)] ∧
      session.trace ⟨twoBytesReloaded, 2, []⟩ [.open] ≠
        session.trace ⟨twoBytes, 1, []⟩ [.open] := by
  have h1 : session.trace ⟨twoBytes, 1, []⟩ [.open] = [(.open, .openFailed Errno.ENXIO)] := rfl
  have h2 : session.trace ⟨twoBytesReloaded, 2, []⟩ [.open] = [(.open, .opened 0)] := rfl
  refine ⟨rfl, rfl, rfl, h1, h2, fun h => ?_⟩
  rw [h1, h2] at h
  cases h

end OSLab.Optimize
