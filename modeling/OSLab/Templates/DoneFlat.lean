import OSLab.Done.Refinement
import OSLab.Templates.Flat

/-!
# The checked handlers on small files (Lab4_Template_Done)

A request that the handlers do not fail gets the answer of the directory of
files that the mounted file system stands for, and leaves the next one.
-/

namespace OSLab.Templates
open OSLab.Base OSLab.Kernel
open OSLab.Done (Emitted ROOT_INODE INODE_COUNT MAX_DIR_ENTRIES MAX_FILENAME_LEN)

/- The item for what `osfs_iterate` emits from directory `d`. -/
def doneItem (sb : Done.OsfsSbInfo) (d : ℕ) : Emitted → Item :=
  itemOf fun i => (sb.entryName d i, sb.entryInodeNo d i)

def doneStep (fs : Done.Fs) : Req → Res × Done.Fs
  | .create dir dentry mode env =>
    if fs.isDirInode dir then
      match Done.osfsCreate env fs dir dentry mode with
      | (.ok p, fs) => (.created p (fs.icache.inode p).iIno, fs)
      | (.error _, fs) => (.failed, fs)
    else (.invalid, fs)
  | .lookup dir dentry env =>
    if fs.isDirInode dir then
      match Done.osfsLookup env fs dir dentry with
      | (.null, fs) => (.absent, fs)
      | (.err _, fs) => (.failed, fs)
      | (.found p, fs) => (.found p (fs.icache.inode p).iIno, fs)
    else (.invalid, fs)
  | .write inode buf ppos env =>
    if fs.isFileInode inode then
      match Done.osfsWrite env fs inode buf buf.length ppos with
      | (.ok n, _, fs) => (.written n, fs)
      | (.error _, _, fs) => (.failed, fs)
    else (.invalid, fs)
  | .read inode len ppos =>
    if fs.isFileInode inode then
      match Done.osfsRead fs inode len len ppos with
      | (.ok bytes, _) => (.read bytes, fs)
      | (.error _, _) => (.failed, fs)
    else (.invalid, fs)
  | .list dir room =>
    if fs.isDirInode dir then
      match Done.osfsIterate fs dir room 0 with
      | (.ok _, es, _) => (.listed (es.map (doneItem fs.sb (fs.icache.inode dir).iPrivate)), fs)
      | (.error _, _, _) => (.failed, fs)
    else (.invalid, fs)

def done : Machine Done.Fs Req Res := ⟨doneStep⟩

structure DoneShows (fs : Done.Fs) (t : Flat) : Prop where
  inv : Done.FsInv fs
  zero : Done.ZeroTails fs.sb
  log : fs.sb.dirLog ROOT_INODE = t.files
  text : ∀ ino ∈ t.files.map Prod.snd, fs.sb.fileText ino = some (t.text ino)
  slot : ∀ p, (fs.icache.inode p).iPrivate = t.slot p
  count : fs.icache.count = t.count
  used : fs.sb.inodeBitmap = t.used
  live : t.Live

variable {fs fs' : Done.Fs} {t : Flat}

/-! ### What the relation says about one state -/

theorem DoneShows.entries (h : DoneShows fs t) : fs.sb.dirEntries ROOT_INODE = t.files := by
  rw [← h.log, Done.dirLog_dir h.inv.sb.root h.inv.sb.rootDir]

theorem DoneShows.file (h : DoneShows fs t) {ino : ℕ} (hi : ino ∈ t.files.map Prod.snd) :
    Done.FileSlot fs.sb ino ∧ fs.sb.Named ino ∧ fs.sb.fileBytes ino = t.text ino := by
  have htext := h.text ino hi
  by_cases hk : fs.sb.Named ino ∧ Done.Formatted fs.sb ino ∧
      sIsReg (fs.sb.inodeTable ino).iMode = true
  · obtain ⟨hn, hf, hreg⟩ := hk
    rw [Done.fileText_some hn hf hreg] at htext
    exact ⟨h.inv.sb.fileSlot hf hreg, hn, Option.some.inj htext⟩
  · rw [Done.fileText_none hk] at htext
    cases htext

theorem DoneShows.isDir (h : DoneShows fs t) (p : InodePtr) : fs.isDirInode p = t.isDir p := by
  rw [Bool.eq_iff_iff, Done.isDirInode_iff, Flat.isDir, decide_eq_true_eq, h.slot p]
  constructor
  · intro ⟨h0, hop⟩
    have hok := (h.inv.inodes p (by rw [h.slot p]; exact h0)).2
    have hmode := hok.dir.mp hop
    rw [h.slot p] at hmode
    rcases h.live p with hz | hroot | hfile
    · exact absurd hz h0
    · exact hroot
    · rw [(h.file hfile).1.notDir] at hmode
      cases hmode
  · intro hroot
    have h0 : t.slot p ≠ 0 := by
      rw [hroot]
      decide
    have hok := (h.inv.inodes p (by rw [h.slot p]; exact h0)).2
    refine ⟨h0, hok.dir.mpr ?_⟩
    rw [h.slot p, hroot]
    exact h.inv.sb.rootDir

theorem DoneShows.root (h : DoneShows fs t) {dir : InodePtr} (hdir : fs.isDirInode dir = true) :
    (fs.icache.inode dir).iPrivate = ROOT_INODE :=
  (h.slot dir).trans (of_decide_eq_true ((h.isDir dir).symm.trans hdir))

theorem DoneShows.isFile (h : DoneShows fs t) (p : InodePtr) : fs.isFileInode p = t.isFile p := by
  rw [Bool.eq_iff_iff, Done.isFileInode_iff, h.slot p]
  constructor
  · intro ⟨h0, hop⟩
    have hok := (h.inv.inodes p (by rw [h.slot p]; exact h0)).2
    have hreg := hok.file.mp hop
    rw [h.slot p] at hreg
    have hroot : t.slot p ≠ ROOT_INODE := by
      intro he
      rw [he] at hreg
      have hdir := sIsReg_not_dir hreg
      rw [h.inv.sb.rootDir] at hdir
      cases hdir
    simp only [Flat.isFile, h0, hroot, ne_eq, not_false_eq_true, decide_true, Bool.and_self]
  · intro hp
    have hfile := h.live.isFile hp
    have h0 : t.slot p ≠ 0 := by
      intro he
      simp only [Flat.isFile, he, ne_eq, not_true_eq_false, decide_false, Bool.false_and,
        Bool.false_eq_true] at hp
    have hok := (h.inv.inodes p (by rw [h.slot p]; exact h0)).2
    refine ⟨h0, hok.file.mpr ?_⟩
    rw [h.slot p]
    exact (h.file hfile).1.reg

/-! ### Creating a file -/

theorem DoneShows.accepts (h : DoneShows fs t) {dir : InodePtr} (hdir : fs.isDirInode dir = true)
    {env : Env} (hmem : env.newInodeOk = true) {dentry : Qstr}
    (hlen : dentry.len ≤ MAX_FILENAME_LEN)
    (hent : ¬ Done.EntryRefused fs.sb (fs.icache.inode dir).iPrivate dentry.name) :
    t.accepts dentry env = true := by
  unfold Done.EntryRefused at hent
  rw [not_or, h.root hdir, ← Done.dirEntries_length, Done.OsfsSbInfo.dirNames,
    h.entries] at hent
  have hroom : t.files.length < MAX_DIR_ENTRIES := Nat.lt_of_not_le hent.1
  simp only [Flat.accepts, hmem, hlen, hroom, hent.2, decide_true, not_false_eq_true, Bool.and_self]

theorem DoneShows.create (h : DoneShows fs t) {env : Env} {dir p : InodePtr} {dentry : Qstr}
    {mode : UMode} (hdir : fs.isDirInode dir = true) (hmode : sIsReg mode = true)
    (hok : Done.osfsCreate env fs dir dentry mode = (.ok p, fs')) :
    t.create dentry env =
        (.created p (fs'.icache.inode p).iIno, t.add dentry.name (fs'.icache.inode p).iIno) ∧
      DoneShows fs' (t.add dentry.name (fs'.icache.inode p).iIno) := by
  have hlow := Done.osfsCreate_lowest hok
  have ho := Done.osfsCreate_outcome h.inv env hdir dentry mode
  rw [hok] at ho
  have hinv := h.inv.create hdir ho
  have hzero := ho.zero h.inv h.zero hdir
  have hlog := ho.dirLog (s := ⟨fs, []⟩) h.inv hdir ROOT_INODE
  cases ho with
  | created ino b hlen hcan hmem hf hent =>
    have hino := Done.withEntry_inode h.inv env mode ino b dentry.name hdir
    obtain ⟨hpriv, hd, hc⟩ := Done.withNewInode_canEnter h.inv env mode hdir hlen hf hent
    have htext := Done.fileText_withEntry h.inv hf hc
    rw [if_pos hmode] at htext
    rw [hino] at hlow ⊢
    rw [h.inv.sb.inodeCount, h.used] at hlow
    refine ⟨?_, hinv, hzero, ?_, fun k hk => ?_, fun q => ?_, ?_, ?_, h.live.add _ _⟩
    · simp only [Flat.create, h.accepts hdir hmem hlen hent, ite_true, hlow, h.count]
    · refine hlog.trans ?_
      rw [h.log]
      simp only [Done.entryOf, Done.createRes, h.root hdir, ite_true, hino]
      rfl
    · rw [htext, Flat.add_text]
      by_cases he : k = ino
      · subst he
        rw [Function.update_self, Function.update_self]
      · rw [Flat.add_numbers, List.mem_append, List.mem_singleton] at hk
        rw [Function.update_of_ne he, Function.update_of_ne he]
        exact h.text k (hk.resolve_right he)
    · have hnew := push_slot h.slot h.count (Done.createdInode env (fs.icache.inode dir) ino mode)
      have hset : ((fs.withNewInode env dir mode ino b).withEntry dir ino dentry.name).icache = _ :=
        rfl
      exact set_slot hnew hset rfl q
    · exact congrArg (· + 1) h.count
    · exact congrArg (fun b : Bitmap => b.set ino) h.used

/-! ### Looking up a name -/

theorem DoneShows.lookup (h : DoneShows fs t) (env : Env) {dir : InodePtr}
    (hdir : fs.isDirInode dir = true) (dentry : Qstr) :
    (Done.osfsLookup env fs dir dentry = (.null, fs) ∧ t.lookup dentry env = (.absent, t)) ∨
    (∃ e fs', Done.osfsLookup env fs dir dentry = (.err e, fs')) ∨
    (∃ p fs', Done.osfsLookup env fs dir dentry = (.found p, fs') ∧
      t.lookup dentry env =
        (.found p (fs'.icache.inode p).iIno, t.push (fs'.icache.inode p).iIno) ∧
      DoneShows fs' (t.push (fs'.icache.inode p).iIno)) := by
  have ho := Done.osfsLookup_outcome h.inv env hdir dentry
  generalize Done.osfsLookup env fs dir dentry = r at ho ⊢
  cases ho with
  | absent hno =>
    rw [h.root hdir, Done.OsfsSbInfo.dirNames, h.entries] at hno
    refine Or.inl ⟨rfl, Flat.lookup_absent (fun e he hname => ?_) env⟩
    exact hno (List.mem_map.mpr ⟨e, he, hname⟩)
  | noMemory ino _ _ => exact Or.inr (Or.inl ⟨_, _, rfl⟩)
  | found ino hin hmem hf =>
    rw [h.root hdir] at hin
    have hok := h.inv.sb.dir _ h.inv.sb.root h.inv.sb.rootDir
    obtain ⟨e, he, hfind, hname⟩ := Flat.find_some (h.entries ▸ hin)
    have hentry : (dentry.name, e.2) ∈ fs.sb.dirEntries ROOT_INODE := by
      rw [h.entries, ← hname]
      exact he
    have hino : e.2 = ino := hok.ino_unique hentry hin
    have hfile : ino ∈ t.files.map Prod.snd := by
      rw [← hino]
      exact List.mem_map_of_mem he
    obtain ⟨hiino, hpriv, -⟩ := Done.igetInode_fields (fs.sb.inodeTable ino) ino
    have hnew : ((fs.withIget ino).icache.inode fs.icache.count).iIno = ino :=
      (congrArg Inode.iIno (Icache.push_same ..)).trans hiino
    have hslot := push_slot h.slot h.count (Done.igetInode (fs.sb.inodeTable ino) ino)
    rw [hpriv] at hslot
    refine Or.inr (Or.inr ⟨_, _, rfl, ?_⟩)
    rw [hnew]
    refine ⟨?_, h.inv.withIget hf, h.zero, h.log, h.text, hslot, congrArg (· + 1) h.count, h.used,
      h.live.push hfile⟩
    simp only [Flat.lookup, hfind, hmem, ite_true, hino, h.count]

/-! ### Reading and writing -/

theorem DoneShows.write (h : DoneShows fs t) (env : Env) {inode : InodePtr}
    (hp : fs.isFileInode inode = true) {buf : Bytes} {ppos : ℕ}
    (hend : ppos + buf.length ≤ BLOCK_SIZE) :
    ∃ pos fs', Done.osfsWrite env fs inode buf buf.length ppos = (.ok buf.length, pos, fs') ∧
      DoneShows fs' (t.setText (t.slot inode) (writeAt (t.text (t.slot inode)) ppos buf)) := by
  have hp' : t.isFile inode = true := (h.isFile inode).symm.trans hp
  obtain ⟨hs, hn, hbytes⟩ := h.file (h.live.isFile hp')
  rw [← h.slot inode] at hs hn hbytes ⊢
  have hlen : min buf.length (BLOCK_SIZE - ppos) = buf.length := by omega
  have hpos : ppos + buf.length ≤ LLONG_MAX := Nat.le_trans hend (by decide)
  have ho := Done.osfsWrite_outcome h.inv env hp buf buf.length ppos hpos
  generalize Done.osfsWrite env fs inode buf buf.length ppos = r at ho
  cases ho with
  | past hpast => omega
  | fault data _ hbuf _ => omega
  | written n hle hn' hbuf =>
    obtain rfl : n = buf.length := hn'.trans hlen
    rw [List.take_length]
    have htext := Done.fileText_write h.inv h.zero env hp hn hend
    refine ⟨_, _, rfl, h.inv.withWrite hp hend, h.zero.withWrite h.inv hp hend, ?_, fun k hk => ?_,
      fun q => ?_, h.count, h.used, h.live⟩
    · rw [Done.withWrite_sb, Done.dirLog_setFile h.inv.sb hs (hs.writeChange env hend)]
      exact h.log
    · rw [htext, hbytes, Flat.setText_text]
      by_cases he : k = (fs.icache.inode inode).iPrivate
      · subst he
        rw [Function.update_self, Function.update_self]
      · rw [Function.update_of_ne he, Function.update_of_ne he]
        exact h.text k hk
    · have hset : (fs.withWrite env inode ppos buf).icache = _ := rfl
      exact set_slot h.slot hset rfl q

theorem DoneShows.read (h : DoneShows fs t) {inode : InodePtr} (hp : fs.isFileInode inode = true)
    {len ppos : ℕ} (hend : ppos + len ≤ BLOCK_SIZE) :
    (Done.osfsRead fs inode len len ppos).1 =
      .ok (((t.text (t.slot inode)).drop ppos).take len) := by
  have hp' : t.isFile inode = true := (h.isFile inode).symm.trans hp
  obtain ⟨-, -, hbytes⟩ := h.file (h.live.isFile hp')
  have hread := Done.osfsRead_eq h.inv hp len len ppos (Nat.le_trans hend (by decide))
  rw [h.slot inode, hbytes] at hread
  rw [hread, if_pos (List.length_take_le ..)]

/-! ### Listing the directory -/

theorem DoneShows.list (h : DoneShows fs t) {dir : InodePtr} (hdir : fs.isDirInode dir = true)
    (room : ℕ) :
    (Done.osfsIterate fs dir room 0).2.1.map (doneItem fs.sb (fs.icache.inode dir).iPrivate) =
      t.items.take room := by
  have hcall : (Done.osfsIterate fs dir room 0).2.1 = _ :=
    (donePage_iterates fs dir).first rfl room
  have hentries := h.entries
  unfold Done.OsfsSbInfo.dirEntries at hentries
  rw [hcall, h.root hdir, List.map_take, List.map_cons, List.map_cons, doneItem, entries_items, hentries]
  rfl

/-! ### Runs -/

theorem DoneShows.step (h : DoneShows fs t) {r : Req} (hr : Small r)
    (hok : (doneStep fs r).1 ≠ .failed) :
    (flatStep t r).1 = (doneStep fs r).1 ∧ DoneShows (doneStep fs r).2 (flatStep t r).2 := by
  cases r with
  | create dir dentry mode env =>
    simp only [doneStep, flatStep, ← h.isDir dir] at hok ⊢
    by_cases hdir : fs.isDirInode dir = true
    · rw [if_pos hdir] at hok ⊢
      rw [if_pos hdir]
      rcases hcr : Done.osfsCreate env fs dir dentry mode with ⟨res, fs'⟩
      rw [hcr] at hok
      cases res with
      | error e => exact absurd rfl hok
      | ok p =>
        obtain ⟨hflat, hshows⟩ := h.create hdir hr hcr
        rw [hflat]
        exact ⟨rfl, hshows⟩
    · rw [if_neg hdir, if_neg hdir]
      exact ⟨rfl, h⟩
  | lookup dir dentry env =>
    simp only [doneStep, flatStep, ← h.isDir dir] at hok ⊢
    by_cases hdir : fs.isDirInode dir = true
    · rw [if_pos hdir] at hok ⊢
      rw [if_pos hdir]
      rcases h.lookup env hdir dentry with
        ⟨hres, hflat⟩ | ⟨e, fs', hres⟩ | ⟨p, fs', hres, hflat, hshows⟩
      · rw [hres, hflat]
        exact ⟨rfl, h⟩
      · rw [hres] at hok
        exact absurd rfl hok
      · rw [hres, hflat]
        exact ⟨rfl, hshows⟩
    · rw [if_neg hdir, if_neg hdir]
      exact ⟨rfl, h⟩
  | write inode buf ppos env =>
    simp only [doneStep, flatStep, ← h.isFile inode]
    by_cases hp : fs.isFileInode inode = true
    · obtain ⟨pos, fs', hw, hshows⟩ := h.write env hp hr
      rw [if_pos hp, if_pos hp, hw]
      exact ⟨rfl, hshows⟩
    · rw [if_neg hp, if_neg hp]
      exact ⟨rfl, h⟩
  | read inode len ppos =>
    simp only [doneStep, flatStep, ← h.isFile inode]
    by_cases hp : fs.isFileInode inode = true
    · have hread := h.read hp hr
      generalize Done.osfsRead fs inode len len ppos = res at hread
      obtain ⟨res, pos⟩ := res
      dsimp only at hread
      rw [if_pos hp, if_pos hp, hread]
      exact ⟨rfl, h⟩
    · rw [if_neg hp, if_neg hp]
      exact ⟨rfl, h⟩
  | list dir room =>
    simp only [doneStep, flatStep, ← h.isDir dir] at hok ⊢
    by_cases hdir : fs.isDirInode dir = true
    · rw [if_pos hdir] at hok ⊢
      rw [if_pos hdir]
      have hlist := h.list hdir room
      generalize Done.osfsIterate fs dir room 0 = res at hok hlist ⊢
      obtain ⟨ret, es, pos⟩ := res
      cases ret with
      | error e => exact absurd rfl hok
      | ok u =>
        dsimp only at hlist ⊢
        rw [hlist]
        exact ⟨rfl, h⟩
    · rw [if_neg hdir, if_neg hdir]
      exact ⟨rfl, h⟩

theorem doneShows_mounted {env : Env} {vmallocOk dMakeRootOk : Bool}
    (hfs : Done.osfsFillSuper env vmallocOk dMakeRootOk = .ok fs) : DoneShows fs Flat.mounted := by
  obtain ⟨hinv, hzero⟩ := Done.FsInv.mounted hfs
  have hlog := Done.mounted_dirLog (s := ⟨fs, []⟩) ⟨env, vmallocOk, dMakeRootOk, hfs, rfl⟩ ROOT_INODE
  obtain ⟨⟨oi, -, -, -, -, hsb⟩, root, hic, hpriv, -⟩ := Done.osfsFillSuper_ok hfs
  refine ⟨hinv, hzero, hlog, fun ino hi => absurd hi List.not_mem_nil, fun p => ?_, ?_, ?_,
    Flat.mounted_live⟩
  · rw [hic]
    by_cases he : p = 0
    · subst he
      exact (congrArg Inode.iPrivate (Icache.push_same Icache.empty root)).trans hpriv
    · rw [Icache.push_ne _ _ he]
      simp only [Flat.mounted, Function.update_of_ne he]
      rfl
  · rw [hic]
    rfl
  · rw [hsb]
    rfl

end OSLab.Templates
