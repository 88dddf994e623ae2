import OSLab.Optimize.OneDirectory
import OSLab.Templates.Flat

/-!
# The extent handlers on small files (Lab4_Template_Optimize)

A request that the directory of files does not fail is answered alike by the
handlers: three files and the root directory take sixteen of the twenty
blocks, so every file gets its extent, and the unchecked insertion has room.
-/

namespace OSLab.Templates
open OSLab.Base OSLab.Kernel
open OSLab.Optimize (ROOT_INODE EXTENT_BLOCKS Made)
open OSLab.Done (Emitted)

/- The item for what `osfs_iterate` emits from directory `d`. -/
def optimizeItem (sb : Optimize.OsfsSbInfo) (d : ℕ) : Emitted → Item :=
  itemOf fun i => (sb.entryName d i, sb.entryInodeNo d i)

def optimizeStep (fs : Optimize.Fs) : Req → Res × Optimize.Fs
  | .create dir dentry mode env =>
    if fs.isDirInode dir then
      match Optimize.osfsCreate env fs dir dentry mode with
      | (.created p, _, fs) => (.created p (fs.icache.inode p).iIno, fs)
      | (_, _, fs) => (.failed, fs)
    else (.invalid, fs)
  | .lookup dir dentry env =>
    if fs.isDirInode dir then
      match Optimize.osfsLookup env fs dir dentry with
      | (.null, fs) => (.absent, fs)
      | (.err _, fs) => (.failed, fs)
      | (.found p, fs) => (.found p (fs.icache.inode p).iIno, fs)
    else (.invalid, fs)
  | .write inode buf ppos _ =>
    if fs.isFileInode inode then
      match Optimize.osfsWrite fs inode buf buf.length ppos with
      | (.ok n, _, _, fs) => (.written n, fs)
      | (.error _, _, _, fs) => (.failed, fs)
    else (.invalid, fs)
  | .read inode len ppos =>
    if fs.isFileInode inode then
      match Optimize.osfsRead fs inode len len ppos with
      | (.ok bytes, _) => (.read bytes, fs)
      | (.error _, _) => (.failed, fs)
    else (.invalid, fs)
  | .list dir room =>
    if fs.isDirInode dir then
      (.listed ((Optimize.osfsIterate fs dir room 0).1.map
        (optimizeItem fs.sb (fs.icache.inode dir).iPrivate)), fs)
    else (.invalid, fs)

def optimize : Machine Optimize.Fs Req Res := ⟨optimizeStep⟩

def madeOf (files : List (Bytes × ℕ)) : List Made :=
  files.map fun e => ⟨ROOT_INODE, e.1, e.2⟩

structure OptimizeShows (fs : Optimize.Fs) (t : Flat) : Prop where
  inv : Optimize.SysInv ⟨fs, madeOf t.files⟩
  rootDir : fs.sb.isDir ROOT_INODE = true
  rootExtent : (fs.sb.inodeTable ROOT_INODE).iExtent.eeLen = 1
  file : ∀ ino ∈ t.files.map Prod.snd, Optimize.SmallFile fs.sb ino
  text : ∀ ino ∈ t.files.map Prod.snd, fs.sb.content ino = t.text ino
  free : ∀ b, 1 + EXTENT_BLOCKS * t.files.length ≤ b → fs.sb.blockBitmap b = false
  slot : ∀ p, (fs.icache.inode p).iPrivate = t.slot p
  count : fs.icache.count = t.count
  used : fs.sb.inodeBitmap = t.used
  live : t.Live

variable {fs fs' : Optimize.Fs} {t : Flat}

/-! ### What the relation says about one state -/

theorem madeOf_entries (fs : Optimize.Fs) (files : List (Bytes × ℕ)) :
    Optimize.Sys.entriesOf ⟨fs, madeOf files⟩ ROOT_INODE = madeOf files := by
  unfold Optimize.Sys.entriesOf
  rw [List.filter_eq_self]
  intro m hm
  obtain ⟨e, -, rfl⟩ := List.mem_map.mp hm
  rfl

theorem OptimizeShows.dirOk (h : OptimizeShows fs t) :
    Optimize.DirOk fs.sb ROOT_INODE (madeOf t.files) := by
  have hdir := h.inv.dir ROOT_INODE h.rootDir
  rwa [madeOf_entries] at hdir

theorem OptimizeShows.number (h : OptimizeShows fs t) {ino : ℕ} (hi : ino ∈ t.files.map Prod.snd) :
    ino ≠ 0 ∧ ino ≠ ROOT_INODE ∧ fs.sb.inodeBitmap ino = true := by
  obtain ⟨e, he, rfl⟩ := List.mem_map.mp hi
  obtain ⟨h0, -, hused⟩ := h.inv.ino ⟨ROOT_INODE, e.1, e.2⟩ (List.mem_map_of_mem he)
  refine ⟨Nat.ne_of_gt h0, fun hroot => ?_, hused⟩
  have hdir := (h.file e.2 hi).notDir
  rw [hroot, h.rootDir] at hdir
  cases hdir

theorem OptimizeShows.isDir (h : OptimizeShows fs t) (p : InodePtr) :
    fs.isDirInode p = t.isDir p := by
  rw [Bool.eq_iff_iff, Flat.isDir, decide_eq_true_eq]
  constructor
  · intro hp
    have hdir := h.inv.icache.isDir hp
    rw [h.slot p] at hdir
    rcases h.live p with hz | hroot | hfile
    · simp only [Optimize.Fs.isDirInode, h.slot p, hz, ne_eq, not_true_eq_false, decide_false,
        Bool.false_and, Bool.false_eq_true] at hp
    · exact hroot
    · rw [(h.file _ hfile).notDir] at hdir
      cases hdir
  · intro hroot
    have h0 : (fs.icache.inode p).iPrivate ≠ 0 := by
      rw [h.slot p, hroot]
      decide
    have hmode : sIsDir (fs.icache.inode p).iMode = true := by
      rw [h.inv.icache.mode p h0, h.slot p, hroot]
      exact h.rootDir
    simp only [Optimize.Fs.isDirInode, h0, hmode, ne_eq, not_false_eq_true, decide_true,
      Bool.and_self]

theorem OptimizeShows.root (h : OptimizeShows fs t) {dir : InodePtr}
    (hdir : fs.isDirInode dir = true) : (fs.icache.inode dir).iPrivate = ROOT_INODE :=
  (h.slot dir).trans (of_decide_eq_true ((h.isDir dir).symm.trans hdir))

theorem OptimizeShows.isFile (h : OptimizeShows fs t) (p : InodePtr) :
    fs.isFileInode p = t.isFile p := by
  rw [Bool.eq_iff_iff]
  constructor
  · intro hp
    have hfile := (h.inv.icache.isFile hp).2
    rw [h.slot p] at hfile
    have hroot : t.slot p ≠ ROOT_INODE := by
      intro he
      rw [he, h.rootDir] at hfile
      cases hfile
    simp only [Optimize.Fs.isFileInode, h.slot p, Bool.and_eq_true] at hp
    have hne : decide (t.slot p ≠ Done.ROOT_INODE) = true := decide_eq_true hroot
    unfold Flat.isFile
    rw [hp.1, hne]
    rfl
  · intro hp
    have hfile := h.live.isFile hp
    have h0 : (fs.icache.inode p).iPrivate ≠ 0 := by
      rw [h.slot p]
      exact (h.number hfile).1
    have hmode : sIsDir (fs.icache.inode p).iMode = false := by
      rw [h.inv.icache.mode p h0, h.slot p]
      exact (h.file _ hfile).notDir
    simp only [Optimize.Fs.isFileInode, h0, hmode, ne_eq, not_false_eq_true, decide_true,
      Bool.not_false, Bool.and_self]

/-! ### Creating a file -/

theorem OptimizeShows.fileMade (h : OptimizeShows fs t) {dentry : Qstr} (mode : UMode) {ino : ℕ}
    (hlen : dentry.len ≤ Done.MAX_FILENAME_LEN) (hroom : t.files.length < Done.MAX_DIR_ENTRIES)
    (hnext : fs.sb.nextInode = some ino) :
    Optimize.FileMade ⟨fs, madeOf t.files⟩ ROOT_INODE ino dentry.name mode
      (Optimize.appendEntry (fs.sb.withFile ino mode) ROOT_INODE ino dentry.name).2 := by
  have hmade : (madeOf t.files).length = t.files.length := List.length_map ..
  have hthree : t.files.length < 3 := hroom
  have hshort : dentry.name.length ≤ 255 := hlen
  exact h.inv.fileMade mode h.rootDir hnext dentry.noNul (Nat.le_trans hshort (by decide))
    (h.dirOk.hasRoom h.inv.layout h.rootExtent (hmade.trans_lt hthree))

/-- With a new name the entry is the next file: five blocks are free behind the others. -/
theorem OptimizeShows.add (h : OptimizeShows fs t) {dentry : Qstr} {mode : UMode} {ino : ℕ}
    (hmode : sIsReg mode = true) (hlen : dentry.len ≤ Done.MAX_FILENAME_LEN)
    (hroom : t.files.length < Done.MAX_DIR_ENTRIES) (hnew : dentry.name ∉ t.files.map Prod.fst)
    (hnext : fs.sb.nextInode = some ino) (env : Env) :
    OptimizeShows
      ⟨(Optimize.appendEntry (fs.sb.withFile ino mode) ROOT_INODE ino dentry.name).2,
        fs.icache.push (Optimize.newVfsInode env ino ino mode)⟩ (t.add dentry.name ino) := by
  have hm := h.fileMade mode hlen hroom hnext
  have htext : Optimize.entryText dentry.name ino = dentry.name :=
    Optimize.entryText_eq_iff.mpr (Or.inl hlen)
  have hnames : ∀ m ∈ madeOf t.files, m.dir = ROOT_INODE → m.name ≠ dentry.name := by
    intro m hin _ he
    obtain ⟨e, hin', rfl⟩ := List.mem_map.mp hin
    exact hnew (List.mem_map.mpr ⟨e, hin', he⟩)
  have hinv := h.inv.create h.rootDir hnext hm htext hnames env
  have hmadeOf : madeOf (t.add dentry.name ino).files =
      madeOf t.files ++ [⟨ROOT_INODE, dentry.name, ino⟩] := List.map_append ..
  have hthree : t.files.length < 3 := hroom
  have hblocks : 1 + EXTENT_BLOCKS * t.files.length + EXTENT_BLOCKS ≤ Optimize.DATA_BLOCK_COUNT := by
    unfold EXTENT_BLOCKS Optimize.DATA_BLOCK_COUNT
    omega
  obtain ⟨hfile, hothers, hfree⟩ := hm.smallFile h.inv.layout hmode hblocks h.free
  refine ⟨?_, ?_, ?_, fun k hk => ?_, fun k hk => ?_, fun b hb => hfree b ?_, ?_, ?_, ?_,
    h.live.add _ _⟩
  · rw [hmadeOf]
    exact hinv
  · exact hm.entry.isDir_used hm.slot.layout (hm.file.isDir_used h.inv.layout h.rootDir)
  · rw [hm.dirExtent]
    exact h.rootExtent
  · rw [Flat.add_numbers, List.mem_append, List.mem_singleton] at hk
    by_cases he : k = ino
    · subst he
      exact hfile
    · have hold := hk.resolve_right he
      exact hothers k (h.number hold).2.1 he (h.file k hold)
  · rw [Flat.add_numbers, List.mem_append, List.mem_singleton] at hk
    rw [Flat.add_text]
    by_cases he : k = ino
    · subst he
      rw [Function.update_self]
      exact (hm.entry.content hm.ne).trans hm.slot.content
    · have hold := hk.resolve_right he
      rw [Function.update_of_ne he, hm.content h.inv.layout (h.number hold).2.1]
      exact h.text k hold
  · have hcount : (t.add dentry.name ino).files.length = t.files.length + 1 := List.length_append ..
    rw [hcount, Nat.mul_add] at hb
    omega
  · exact push_slot h.slot h.count (Optimize.newVfsInode env ino ino mode)
  · exact congrArg (· + 1) h.count
  · exact hm.slot.bits.trans (congrArg (fun b : Bitmap => b.set ino) h.used)

theorem OptimizeShows.create (h : OptimizeShows fs t) {env : Env} {dir : InodePtr} {dentry : Qstr}
    {mode : UMode} (hdir : fs.isDirInode dir = true) (hmode : sIsReg mode = true)
    (hok : (t.create dentry env).1 ≠ .failed) :
    ∃ p stores fs', Optimize.osfsCreate env fs dir dentry mode = (.created p, stores, fs') ∧
      t.create dentry env =
        (.created p (fs'.icache.inode p).iIno, t.add dentry.name (fs'.icache.inode p).iIno) ∧
      OptimizeShows fs' (t.add dentry.name (fs'.icache.inode p).iIno) := by
  obtain ⟨hmem, hlen, hroom, hnew, ino, hlow, hcreate⟩ := Flat.create_ok hok
  have hnext : fs.sb.nextInode = some ino := by
    unfold Optimize.OsfsSbInfo.nextInode
    rw [h.inv.layout.inodes, h.used]
    exact hlow
  have ho := Optimize.osfsCreate_outcome h.inv.layout.inodes env dir dentry mode
  generalize Optimize.osfsCreate env fs dir dentry mode = r at ho ⊢
  cases ho with
  | full hnone =>
    rw [hnext] at hnone
    cases hnone
  | oops ino' _ hfail =>
    rw [hmem] at hfail
    cases hfail
  | created ino' hnext' _ =>
    obtain rfl : ino = ino' := Option.some.inj (hnext.symm.trans hnext')
    rw [h.root hdir]
    have hino : ((fs.icache.push (Optimize.newVfsInode env ino ino mode)).inode
        fs.icache.count).iIno = ino := congrArg Inode.iIno (Icache.push_same ..)
    refine ⟨_, _, _, rfl, ?_⟩
    rw [hino, hcreate, h.count]
    exact ⟨rfl, h.add hmode hlen hroom hnew hnext env⟩

/-! ### Looking up a name -/

theorem OptimizeShows.find (h : OptimizeShows fs t) {m : Made} (hin : m ∈ madeOf t.files) :
    ∃ e ∈ t.files, t.files.find? (fun e => e.1 = m.name) = some e ∧ e.2 = m.ino := by
  obtain ⟨e₀, he₀, rfl⟩ := List.mem_map.mp hin
  obtain ⟨e, he, hfind, hname⟩ := Flat.find_some he₀
  have hone := h.inv.unique ⟨ROOT_INODE, e.1, e.2⟩ (List.mem_map_of_mem he) ⟨ROOT_INODE, e₀.1, e₀.2⟩
    hin rfl hname
  exact ⟨e, he, hfind, congrArg Made.ino hone⟩

theorem OptimizeShows.lookup (h : OptimizeShows fs t) {env : Env} {dir : InodePtr}
    (hdir : fs.isDirInode dir = true) {dentry : Qstr} (hok : (t.lookup dentry env).1 ≠ .failed) :
    (Optimize.osfsLookup env fs dir dentry = (.null, fs) ∧ t.lookup dentry env = (.absent, t)) ∨
    (∃ p fs', Optimize.osfsLookup env fs dir dentry = (.found p, fs') ∧
      t.lookup dentry env =
        (.found p (fs'.icache.inode p).iIno, t.push (fs'.icache.inode p).iIno) ∧
      OptimizeShows fs' (t.push (fs'.icache.inode p).iIno)) := by
  have hinv := h.inv.lookup env hdir dentry
  have ho := h.inv.lookup_outcome env hdir dentry
  dsimp only at hinv ho
  generalize Optimize.osfsLookup env fs dir dentry = r at hinv ho ⊢
  cases ho with
  | null hno =>
    rw [h.root hdir, madeOf_entries] at hno
    refine Or.inl ⟨rfl, Flat.lookup_absent (fun e he hname => ?_) env⟩
    exact hno _ (List.mem_map_of_mem he) hname
  | enomem m hin hname hfail =>
    rw [h.root hdir, madeOf_entries] at hin
    obtain ⟨e, -, hfind, -⟩ := h.find hin
    rw [hname] at hfind
    simp only [Flat.lookup, hfind, hfail, Bool.false_eq_true, ite_false] at hok
    exact absurd rfl hok
  | found m inode hin hname hmem hiino hpriv hmode =>
    rw [h.root hdir, madeOf_entries] at hin
    obtain ⟨e, he, hfind, hino⟩ := h.find hin
    rw [hname] at hfind
    have hfile : m.ino ∈ t.files.map Prod.snd := by
      rw [← hino]
      exact List.mem_map_of_mem he
    have hnew : ((fs.icache.push inode).inode fs.icache.count).iIno = m.ino :=
      (congrArg Inode.iIno (Icache.push_same ..)).trans hiino
    have hslot := push_slot h.slot h.count inode
    rw [hpriv] at hslot
    refine Or.inr ⟨_, _, rfl, ?_⟩
    rw [hnew]
    refine ⟨?_, hinv, h.rootDir, h.rootExtent, h.file, h.text, h.free, hslot,
      congrArg (· + 1) h.count, h.used, h.live.push hfile⟩
    simp only [Flat.lookup, hfind, hmem, ite_true, hino, h.count]

/-! ### Reading and writing -/

theorem OptimizeShows.write (h : OptimizeShows fs t) {inode : InodePtr}
    (hp : fs.isFileInode inode = true) {buf : Bytes} {ppos : ℕ}
    (hend : ppos + buf.length ≤ BLOCK_SIZE) :
    ∃ pos stores fs', Optimize.osfsWrite fs inode buf buf.length ppos =
        (.ok buf.length, pos, stores, fs') ∧
      OptimizeShows fs' (t.setText (t.slot inode) (writeAt (t.text (t.slot inode)) ppos buf)) := by
  have hp' : t.isFile inode = true := (h.isFile inode).symm.trans hp
  have hin := h.live.isFile hp'
  have hfile := h.file _ hin
  have htext := h.text _ hin
  have hnum := h.number hin
  have hroot : ROOT_INODE ≠ t.slot inode := Ne.symm hnum.2.1
  have hbytes : ppos + buf.length ≤ fs.sb.extentBytes (t.slot inode) := by
    rw [hfile.bytes h.inv.layout]
    exact Nat.le_trans hend (by decide)
  have hcount : rwCount buf.length = buf.length := by
    unfold BLOCK_SIZE at hend
    unfold rwCount MAX_RW_COUNT
    omega
  have harea : rwVerifyArea ppos buf.length = true := decide_eq_true (Nat.le_trans hend (by decide))
  have hinv := h.inv.write hp buf harea
  have hw := (Optimize.osfsWrite_writes h.inv.layout (h.slot inode ▸ hnum.2.2) buf harea).1
  rw [hcount] at hinv hw
  have hext : (fs.sb.inodeTable (fs.icache.inode inode).iPrivate).iExtent.eeLen ≠ 0 := by
    rw [h.slot inode, hfile.extent]
    decide
  obtain ⟨hres, hsb⟩ := Optimize.osfsWrite_inside h.inv.layout hext (h.slot inode ▸ hbytes)
  rw [h.slot inode] at hw hsb
  generalize Optimize.osfsWrite fs inode buf buf.length ppos = r at hinv hw hres hsb ⊢
  obtain ⟨res, pos, stores, fs'⟩ := r
  dsimp only at hinv hw hres hsb
  refine ⟨pos, stores, fs', by rw [hres], hinv, ?_, ?_, fun k hk => ?_, fun k hk => ?_, fun b hb => ?_,
    fun q => ?_, ?_, ?_, h.live⟩
  · exact hw.changes.isDir_used h.inv.layout h.rootDir
  · rw [hw.changes.table _ hroot]
    exact h.rootExtent
  · by_cases he : k = t.slot inode
    · rw [he, hsb]
      exact Optimize.written_smallFile hfile
    · exact hw.changes.smallFile he (h.file k hk)
  · rw [Flat.setText_text]
    by_cases he : k = t.slot inode
    · rw [he, hsb, Function.update_self, ← htext]
      exact Optimize.written_content hfile.tail hbytes
    · rw [Function.update_of_ne he, hw.changes.content he]
      exact h.text k hk
  · rw [hsb]
    exact h.free b hb
  · rw [hw.slot q]
    exact h.slot q
  · rw [hw.count]
    exact h.count
  · rw [hsb]
    exact h.used

theorem OptimizeShows.read (h : OptimizeShows fs t) {inode : InodePtr}
    (hp : fs.isFileInode inode = true) {len ppos : ℕ} (hend : ppos + len ≤ BLOCK_SIZE) :
    (Optimize.osfsRead fs inode len len ppos).1 =
      .ok (((t.text (t.slot inode)).drop ppos).take len) := by
  have hp' : t.isFile inode = true := (h.isFile inode).symm.trans hp
  have hin := h.live.isFile hp'
  have hext : (fs.sb.inodeTable (fs.icache.inode inode).iPrivate).iExtent.eeLen ≠ 0 := by
    rw [h.slot inode, (h.file _ hin).extent]
    decide
  rw [Optimize.osfsRead_eq h.inv.layout hext len (Nat.le_trans hend (by decide)), h.slot inode,
    h.text _ hin]

/-! ### Listing the directory -/

theorem OptimizeShows.list (h : OptimizeShows fs t) {dir : InodePtr}
    (hdir : fs.isDirInode dir = true) (room : ℕ) :
    (Optimize.osfsIterate fs dir room 0).1.map
        (optimizeItem fs.sb (fs.icache.inode dir).iPrivate) = t.items.take room := by
  have hcall : (Optimize.osfsIterate fs dir room 0).1 = _ :=
    (optimizePage_iterates fs dir).first rfl room
  have hentries : (madeOf t.files).map (fun m => (m.name, m.ino)) = t.files := by
    unfold madeOf
    rw [List.map_map]
    exact List.map_id _
  rw [hcall, h.root hdir, List.map_take, List.map_cons, List.map_cons, optimizeItem, entries_items,
    h.dirOk.listed, hentries]
  rfl

/-! ### Runs -/

/-- A request that the directory does not fail is answered alike by the handlers. -/
theorem OptimizeShows.step (h : OptimizeShows fs t) {r : Req} (hr : Small r)
    (hok : (flatStep t r).1 ≠ .failed) :
    (optimizeStep fs r).1 = (flatStep t r).1 ∧ OptimizeShows (optimizeStep fs r).2 (flatStep t r).2 := by
  cases r with
  | create dir dentry mode env =>
    simp only [optimizeStep, flatStep, h.isDir dir] at hok ⊢
    by_cases hdir : t.isDir dir = true
    · rw [if_pos hdir] at hok ⊢
      obtain ⟨p, stores, fs', hcr, hflat, hshows⟩ := h.create ((h.isDir dir).trans hdir) hr hok
      rw [if_pos hdir, hcr, hflat]
      exact ⟨rfl, hshows⟩
    · rw [if_neg hdir, if_neg hdir]
      exact ⟨rfl, h⟩
  | lookup dir dentry env =>
    simp only [optimizeStep, flatStep, h.isDir dir] at hok ⊢
    by_cases hdir : t.isDir dir = true
    · rw [if_pos hdir] at hok ⊢
      rw [if_pos hdir]
      rcases h.lookup ((h.isDir dir).trans hdir) hok with
        ⟨hres, hflat⟩ | ⟨p, fs', hres, hflat, hshows⟩
      · rw [hres, hflat]
        exact ⟨rfl, h⟩
      · rw [hres, hflat]
        exact ⟨rfl, hshows⟩
    · rw [if_neg hdir, if_neg hdir]
      exact ⟨rfl, h⟩
  | write inode buf ppos env =>
    simp only [optimizeStep, flatStep, h.isFile inode]
    by_cases hp : t.isFile inode = true
    · obtain ⟨pos, stores, fs', hw, hshows⟩ := h.write ((h.isFile inode).trans hp) hr
      rw [if_pos hp, if_pos hp, hw]
      exact ⟨rfl, hshows⟩
    · rw [if_neg hp, if_neg hp]
      exact ⟨rfl, h⟩
  | read inode len ppos =>
    simp only [optimizeStep, flatStep, h.isFile inode]
    by_cases hp : t.isFile inode = true
    · have hread := h.read ((h.isFile inode).trans hp) hr
      generalize Optimize.osfsRead fs inode len len ppos = res at hread
      obtain ⟨res, pos⟩ := res
      dsimp only at hread
      rw [if_pos hp, if_pos hp, hread]
      exact ⟨rfl, h⟩
    · rw [if_neg hp, if_neg hp]
      exact ⟨rfl, h⟩
  | list dir room =>
    simp only [optimizeStep, flatStep, h.isDir dir]
    by_cases hdir : t.isDir dir = true
    · rw [if_pos hdir, if_pos hdir, h.list ((h.isDir dir).trans hdir)]
      exact ⟨rfl, h⟩
    · rw [if_neg hdir, if_neg hdir]
      exact ⟨rfl, h⟩

theorem optimizeShows_mounted {env : Env} {vmallocOk dMakeRootOk : Bool}
    (hfs : Optimize.osfsFillSuper env vmallocOk dMakeRootOk = .ok fs) :
    OptimizeShows fs Flat.mounted := by
  have hinv : Optimize.SysInv ⟨fs, []⟩ :=
    Optimize.Mounted.sysInv ⟨env, vmallocOk, dMakeRootOk, hfs, rfl⟩
  obtain ⟨hsb, root, hpriv, -, hic⟩ := Optimize.osfsFillSuper_ok hfs
  have hblocks : fs.sb.blockBitmap = Bitmap.empty.setRun 0 1 := by
    rw [hsb]
    rfl
  refine ⟨hinv, ?_, ?_, fun ino hi => absurd hi List.not_mem_nil,
    fun ino hi => absurd hi List.not_mem_nil, fun b hb => ?_, fun p => ?_, ?_, ?_, Flat.mounted_live⟩
  · rw [hsb]
    rfl
  · rw [hsb]
    rfl
  · have hone : ¬ (0 ≤ b ∧ b < 0 + 1) := by
      intro hlt
      have hge : 1 ≤ b := hb
      omega
    rw [hblocks, Bitmap.setRun_apply, if_neg hone]
    rfl
  · rw [hic]
    by_cases he : p = 0
    · subst he
      exact (congrArg Inode.iPrivate (Icache.push_same Icache.empty root)).trans hpriv
    · rw [Icache.push_ne _ _ he]
      simp only [Flat.mounted, Function.update_of_ne he]
      rfl
  · rw [hic]
    rfl
  · rw [hsb]
    rfl

end OSLab.Templates
