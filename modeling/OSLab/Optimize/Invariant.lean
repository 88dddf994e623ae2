import OSLab.Optimize.CreateSpec
import OSLab.Optimize.WriteSpec

/-!
# The invariant of a run

Every directory holds the entries of the creates made in it. It is kept by every
handler, by `osfs_create` as long as the new entry has room in the extent of the
parent and its name ends before the inode number.
-/

namespace OSLab.Optimize
open OSLab.Base OSLab.Kernel

/- The creates that went into directory `d`, oldest first. -/
def Sys.entriesOf (s : Sys) (d : ℕ) : List Made := s.made.filter fun m => m.dir = d

structure IcacheOk (fs : Fs) : Prop where
  counted : ∀ p, (fs.icache.inode p).iPrivate ≠ 0 → p < fs.icache.count
  used : ∀ p, (fs.icache.inode p).iPrivate ≠ 0 →
    fs.sb.inodeBitmap (fs.icache.inode p).iPrivate = true
  mode : ∀ p, (fs.icache.inode p).iPrivate ≠ 0 →
    (fs.icache.inode p).iMode = (fs.sb.inodeTable (fs.icache.inode p).iPrivate).iMode

structure SysInv (s : Sys) : Prop where
  layout : Layout s.fs.sb
  icache : IcacheOk s.fs
  parent : ∀ m ∈ s.made, s.fs.sb.isDir m.dir = true
  ino : ∀ m ∈ s.made, 0 < m.ino ∧ m.ino < INODE_COUNT ∧ s.fs.sb.inodeBitmap m.ino = true
  dir : ∀ d, s.fs.sb.isDir d = true → DirOk s.fs.sb d (s.entriesOf d)
  unique : ∀ m ∈ s.made, ∀ m' ∈ s.made, m.dir = m'.dir → m.name = m'.name → m = m'

variable {s : Sys} {fs : Fs} {sb sb' : OsfsSbInfo} {k : ℕ}

theorem Sys.mem_entriesOf {m : Made} {d : ℕ} : m ∈ s.entriesOf d ↔ m ∈ s.made ∧ m.dir = d := by
  simp only [Sys.entriesOf, List.mem_filter, decide_eq_true_eq]

/-! ### VFS inodes -/

theorem IcacheOk.isDir (h : IcacheOk fs) {p : InodePtr} (hp : fs.isDirInode p = true) :
    fs.sb.isDir (fs.icache.inode p).iPrivate = true := by
  simp only [Fs.isDirInode, Bool.and_eq_true, decide_eq_true_eq] at hp
  unfold OsfsSbInfo.isDir
  rw [← h.mode p hp.1]
  exact hp.2

theorem IcacheOk.isFile (h : IcacheOk fs) {p : InodePtr} (hp : fs.isFileInode p = true) :
    fs.sb.inodeBitmap (fs.icache.inode p).iPrivate = true ∧
      fs.sb.isDir (fs.icache.inode p).iPrivate = false := by
  simp only [Fs.isFileInode, Bool.and_eq_true, decide_eq_true_eq, Bool.not_eq_true'] at hp
  refine ⟨h.used p hp.1, ?_⟩
  unfold OsfsSbInfo.isDir
  rw [← h.mode p hp.1]
  exact hp.2

theorem IcacheOk.changes (h : IcacheOk fs) (hc : Changes fs.sb sb' k) :
    IcacheOk { fs with sb := sb' } where
  counted := h.counted
  used p hp := hc.bits _ (h.used p hp)
  mode p hp := (h.mode p hp).trans (hc.mode_used (h.used p hp)).symm

theorem IcacheOk.push (h : IcacheOk fs) {inode : Inode}
    (hused : fs.sb.inodeBitmap inode.iPrivate = true)
    (hmode : inode.iMode = (fs.sb.inodeTable inode.iPrivate).iMode) :
    IcacheOk { fs with icache := fs.icache.push inode } := by
  refine ⟨fun p hp => ?_, fun p hp => ?_, fun p hp => ?_⟩
  all_goals
    dsimp only at hp ⊢
    by_cases he : p = fs.icache.count
  · rw [he, Icache.push_count]
    exact Nat.lt_succ_self _
  · rw [Icache.push_ne _ _ he] at hp
    exact Nat.lt_succ_of_lt (h.counted p hp)
  · rw [he, Icache.push_same]
    exact hused
  · rw [Icache.push_ne _ _ he] at hp ⊢
    exact h.used p hp
  · rw [he, Icache.push_same]
    exact hmode
  · rw [Icache.push_ne _ _ he] at hp ⊢
    exact h.mode p hp

theorem Writes.icacheOk {fs' : Fs} (h : Writes fs fs' k) (hi : IcacheOk fs) : IcacheOk fs' := by
  have hi' := hi.changes h.changes
  refine ⟨fun p hp => ?_, fun p hp => ?_, fun p hp => ?_⟩
  all_goals rw [h.slot p] at hp
  · rw [h.count]
    exact hi'.counted p hp
  · rw [h.slot p]
    exact hi'.used p hp
  · rw [h.mode p, h.slot p]
    exact hi'.mode p hp

/-! ### Steps that add no entry -/

theorem Changes.isDir_used (hc : Changes sb sb' k) (h : Layout sb) {d : ℕ}
    (hd : sb.isDir d = true) : sb'.isDir d = true := by
  unfold OsfsSbInfo.isDir
  rw [hc.mode_used (h.dir_used hd)]
  exact hd

theorem SysInv.changes (h : SysInv s) (hc : Changes s.fs.sb sb' k) (hk : sb'.isDir k = false)
    {icache : Icache} (hi : IcacheOk ⟨sb', icache⟩) : SysInv ⟨⟨sb', icache⟩, s.made⟩ where
  layout := hc.layout
  icache := hi
  parent m hm := hc.isDir_used h.layout (h.parent m hm)
  ino m hm := ⟨(h.ino m hm).1, (h.ino m hm).2.1, hc.bits _ (h.ino m hm).2.2⟩
  dir d hd := by
    have hne : d ≠ k := fun he => by
      rw [he] at hd
      exact absurd (hd.symm.trans hk) (by decide)
    have hd' : s.fs.sb.isDir d = true := (hc.isDir hne).symm.trans hd
    exact hc.dirOk h.layout hne (h.dir d hd')
  unique := h.unique

/-- An inode number that is taken and never used. -/
theorem SysInv.claimInode (h : SysInv s) {ino : ℕ} (hfree : s.fs.sb.inodeBitmap ino = false) :
    SysInv ⟨{ s.fs with sb := s.fs.sb.claimInode ino }, s.made⟩ := by
  have hc : Changes s.fs.sb (s.fs.sb.claimInode ino) ino := claimInode_changes h.layout ino ino
  refine h.changes hc ?_ (h.icache.changes hc)
  change sIsDir (s.fs.sb.inodeTable ino).iMode = false
  rw [h.layout.unused ino hfree]
  rfl

/-- A write to a file keeps the invariant, whatever it returns. -/
theorem SysInv.write (h : SysInv s) {inode : InodePtr} (hp : s.fs.isFileInode inode = true)
    (buf : Bytes) {len ppos : ℕ} (hpos : rwVerifyArea ppos len = true) :
    SysInv { s with fs := (osfsWrite s.fs inode buf (rwCount len) ppos).2.2.2 } := by
  obtain ⟨hused, hfile⟩ := h.icache.isFile hp
  have hw := (osfsWrite_writes h.layout hused buf hpos).1
  refine h.changes hw.changes ?_ (hw.icacheOk h.icache)
  unfold OsfsSbInfo.isDir at hfile ⊢
  rw [hw.changes.mode hused]
  exact hfile

/-! ### Looking up a name -/

inductive LookupOutcome (s : Sys) (env : Env) (dir : InodePtr) (dentry : Qstr) :
    LookupResult × Fs → Prop where
  | null : (∀ m ∈ s.entriesOf (s.fs.icache.inode dir).iPrivate, m.name ≠ dentry.name) →
      LookupOutcome s env dir dentry (.null, s.fs)
  | enomem (m : Made) : m ∈ s.entriesOf (s.fs.icache.inode dir).iPrivate →
      m.name = dentry.name → env.newInodeOk = false →
      LookupOutcome s env dir dentry (.err .ENOMEM, s.fs)
  | found (m : Made) (inode : Inode) : m ∈ s.entriesOf (s.fs.icache.inode dir).iPrivate →
      m.name = dentry.name → env.newInodeOk = true → inode.iIno = m.ino →
      inode.iPrivate = m.ino → inode.iMode = (s.fs.sb.inodeTable m.ino).iMode →
      LookupOutcome s env dir dentry
        (.found s.fs.icache.count, { s.fs with icache := s.fs.icache.push inode })

theorem osfsIget_outcome {ino : ℕ} (hslot : osfsGetOsfsInode fs.sb ino = some ino) (env : Env) :
    (env.newInodeOk = false ∧ osfsIget env fs ino = (.error .ENOMEM, fs)) ∨
      (env.newInodeOk = true ∧ ∃ inode : Inode, inode.iIno = ino ∧ inode.iPrivate = ino ∧
        inode.iMode = (fs.sb.inodeTable ino).iMode ∧
        osfsIget env fs ino =
          (.ok fs.icache.count, { fs with icache := fs.icache.push inode })) := by
  cases hok : env.newInodeOk with
  | false =>
    refine Or.inl ⟨rfl, ?_⟩
    simp only [osfsIget, hslot, newInode_fails hok]
  | true =>
    refine Or.inr ⟨rfl, ?_⟩
    simp only [osfsIget, hslot, newInode_ok hok, Icache.push_set]
    split
    · exact ⟨_, rfl, rfl, rfl, rfl⟩
    · exact ⟨_, rfl, rfl, rfl, rfl⟩

theorem osfsLookup_null {d : ℕ} {l : List Made} {dir : InodePtr} {dentry : Qstr}
    (hpriv : (fs.icache.inode dir).iPrivate = d) (h : DirOk fs.sb d l)
    (hno : ∀ m ∈ l, m.name ≠ dentry.name) (env : Env) :
    osfsLookup env fs dir dentry = (.null, fs) := by
  have hfind := h.find_none dentry.noNul hno
  simp only [osfsLookup, hpriv, hfind, ite_self]

theorem SysInv.lookup_outcome (h : SysInv s) (env : Env) {dir : InodePtr}
    (hp : s.fs.isDirInode dir = true) (dentry : Qstr) :
    LookupOutcome s env dir dentry (osfsLookup env s.fs dir dentry) := by
  have hdir := h.dir _ (h.icache.isDir hp)
  by_cases hex : ∃ m ∈ s.entriesOf (s.fs.icache.inode dir).iPrivate, m.name = dentry.name
  · obtain ⟨m, hm, hname⟩ := hex
    obtain ⟨i, m', hfind, hget, hname'⟩ := hdir.find_some dentry.noNul hm hname
    have hmem := List.mem_of_getElem? hget
    obtain ⟨h0, hlt, -⟩ := h.ino m' (Sys.mem_entriesOf.mp hmem).1
    have hext : (s.fs.sb.inodeTable (s.fs.icache.inode dir).iPrivate).iExtent.eeLen ≠ 0 := by
      intro hlen
      have hsize := h.layout.size (s.fs.icache.inode dir).iPrivate
      rw [hlen, hdir.size] at hsize
      have hpos := List.length_pos_of_mem hm
      unfold DIR_ENTRY_SIZE at hsize
      omega
    have hno : s.fs.sb.entryInodeNo (s.fs.icache.inode dir).iPrivate i = m'.ino :=
      (hdir.entry i m' hget).ino
    simp only [osfsLookup, hext, ite_false, hfind, hno]
    rcases osfsIget_outcome (osfsGetOsfsInode_eq h.layout.inodes h0 hlt) env with
      ⟨hok, higet⟩ | ⟨hok, inode, hino, hpriv, hmode, higet⟩
    · rw [higet]
      exact .enomem m' hmem hname' hok
    · rw [higet]
      exact .found m' inode hmem hname' hok hino hpriv hmode
  · have hno : ∀ m ∈ s.entriesOf (s.fs.icache.inode dir).iPrivate, m.name ≠ dentry.name :=
      fun m hm hname => hex ⟨m, hm, hname⟩
    rw [osfsLookup_null rfl hdir hno env]
    exact .null hno

theorem SysInv.lookup (h : SysInv s) (env : Env) {dir : InodePtr}
    (hp : s.fs.isDirInode dir = true) (dentry : Qstr) :
    SysInv { s with fs := (osfsLookup env s.fs dir dentry).2 } := by
  have hout := h.lookup_outcome env hp dentry
  generalize osfsLookup env s.fs dir dentry = r at hout
  cases hout with
  | null _ => exact h
  | enomem _ _ _ _ => exact h
  | found m inode hm hname hok hino hpriv hmode =>
    have hused := (h.ino m (Sys.mem_entriesOf.mp hm).1).2.2
    have hi : IcacheOk { s.fs with icache := s.fs.icache.push inode } :=
      h.icache.push (by rw [hpriv]; exact hused) (by rw [hpriv]; exact hmode)
    exact ⟨h.layout, hi, h.parent, h.ino, h.dir, h.unique⟩

/-! ### Creating a file -/

/-- The superblock after a create that stored its entry into the extent of directory `d`. -/
structure FileMade (s : Sys) (d ino : ℕ) (name : Bytes) (mode : UMode) (sb' : OsfsSbInfo) :
    Prop where
  fresh : s.fs.sb.inodeBitmap ino = false
  ne : ino ≠ d
  slot : NewSlot (s.fs.sb.claimInode ino) (s.fs.sb.withFile ino mode) ino mode
  entry : Changes (s.fs.sb.withFile ino mode) sb' d
  dir : DirOk sb' d (s.entriesOf d ++ [⟨d, entryText name ino, ino⟩])

theorem FileMade.file {d ino : ℕ} {name : Bytes} {mode : UMode}
    (h : FileMade s d ino name mode sb') :
    Changes s.fs.sb (s.fs.sb.withFile ino mode) ino :=
  h.slot.changes h.fresh

theorem SysInv.fileMade (h : SysInv s) {d ino : ℕ} {name : Bytes} (mode : UMode)
    (hd : s.fs.sb.isDir d = true) (hnext : s.fs.sb.nextInode = some ino)
    (hname : ∀ b ∈ name, b ≠ 0) (hlen : name.length ≤ DIR_ENTRY_SIZE) (hroom : s.fs.sb.HasRoom d) :
    FileMade s d ino name mode (appendEntry (s.fs.sb.withFile ino mode) d ino name).2 := by
  obtain ⟨h0, hlt, hfree⟩ := nextInode_some h.layout.inodes hnext
  have hne := h.layout.dir_ne hd hfree
  have hslot : NewSlot (s.fs.sb.claimInode ino) (s.fs.sb.withFile ino mode) ino mode :=
    withFile_newSlot h.layout mode
  have hfile := hslot.changes hfree
  have hdir := hfile.dirOk h.layout hne (h.dir d hd)
  have hroom' : (s.fs.sb.withFile ino mode).HasRoom d := by
    unfold OsfsSbInfo.HasRoom OsfsSbInfo.dirEntryCount at hroom ⊢
    rw [hfile.table d hne, hfile.extentBytes hne]
    exact hroom
  unfold INODE_COUNT at hlt
  exact ⟨hfree, hne.symm, hslot,
    appendEntry_changes hslot.layout hdir (hfile.bits d (h.layout.dir_used hd)) hroom' hname hlen,
    appendEntry_dirOk hslot.layout hdir hroom' hname hlen h0 (by omega)⟩

theorem FileMade.content {d ino : ℕ} {name : Bytes} {mode : UMode}
    (h : FileMade s d ino name mode sb') (hl : Layout s.fs.sb) {j : ℕ} (hj : j ≠ d) :
    sb'.content j = s.fs.sb.content j := by
  rw [h.entry.content hj]
  by_cases he : j = ino
  · subst he
    rw [h.slot.content]
    unfold OsfsSbInfo.content
    rw [hl.unused j h.fresh]
    rfl
  · exact h.file.content he

/-- With its name read back as it was passed, the new entry keeps the invariant. -/
theorem SysInv.create (h : SysInv s) {d ino : ℕ} {name : Bytes} {mode : UMode}
    (hd : s.fs.sb.isDir d = true) (hnext : s.fs.sb.nextInode = some ino)
    (hm : FileMade s d ino name mode sb') (htext : entryText name ino = name)
    (hnew : ∀ m ∈ s.made, m.dir = d → m.name ≠ name) (env : Env) :
    SysInv ⟨⟨sb', s.fs.icache.push (newVfsInode env ino ino mode)⟩,
      s.made ++ [⟨d, name, ino⟩]⟩ := by
  obtain ⟨h0, hlt, -⟩ := nextInode_some h.layout.inodes hnext
  have hused : (s.fs.sb.withFile ino mode).inodeBitmap ino = true := by
    rw [hm.slot.bits]
    exact claimInode_used _ _
  have hkeep {j : ℕ} (hj : s.fs.sb.isDir j = true) : sb'.isDir j = true :=
    hm.entry.isDir_used hm.slot.layout (hm.file.isDir_used h.layout hj)
  have hbits {j : ℕ} (hj : s.fs.sb.inodeBitmap j = true) : sb'.inodeBitmap j = true :=
    hm.entry.bits j (hm.file.bits j hj)
  have hmode : (sb'.inodeTable ino).iMode = mode := by
    rw [hm.entry.table ino hm.ne]
    exact hm.slot.mode
  have hfile := h.icache.changes hm.file
  have hicache : IcacheOk ⟨sb', s.fs.icache⟩ := hfile.changes hm.entry
  have hentries (d' : ℕ) : Sys.entriesOf
      ⟨⟨sb', s.fs.icache.push (newVfsInode env ino ino mode)⟩, s.made ++ [⟨d, name, ino⟩]⟩ d' =
        s.entriesOf d' ++ if d = d' then [⟨d, name, ino⟩] else [] := by
    unfold Sys.entriesOf
    rw [List.filter_append]
    congr 1
    by_cases he : d = d' <;> simp [he]
  refine ⟨hm.entry.layout, hicache.push (hm.entry.bits ino hused) hmode.symm, fun m hmem => ?_,
    fun m hmem => ?_, fun d' hd' => ?_, fun m hmem m' hmem' hdir hname => ?_⟩
  · rcases List.mem_append.mp hmem with hold | hold
    · exact hkeep (h.parent m hold)
    · obtain rfl := List.mem_singleton.mp hold
      exact hkeep hd
  · rcases List.mem_append.mp hmem with hold | hold
    · obtain ⟨h1, h2, h3⟩ := h.ino m hold
      exact ⟨h1, h2, hbits h3⟩
    · obtain rfl := List.mem_singleton.mp hold
      exact ⟨h0, hlt, hm.entry.bits ino hused⟩
  · rw [hentries d']
    by_cases he : d = d'
    · subst he
      rw [if_pos rfl]
      have hdir := hm.dir
      rwa [htext] at hdir
    · rw [if_neg he, List.append_nil]
      have hne : d' ≠ d := fun h => he h.symm
      by_cases hi : d' = ino
      · -- the new slot is a directory: nothing was made in it
        subst hi
        have hnil : s.entriesOf d' = [] := by
          rw [List.eq_nil_iff_forall_not_mem]
          intro m hmem
          obtain ⟨hmade, hmdir⟩ := Sys.mem_entriesOf.mp hmem
          exact h.layout.dir_ne (h.parent m hmade) hm.fresh hmdir
        rw [hnil]
        exact hm.entry.dirOk hm.slot.layout hne hm.slot.dirOk
      · have hold : s.fs.sb.isDir d' = true := by
          rw [← hm.file.isDir hi, ← hm.entry.isDir hne]
          exact hd'
        exact hm.entry.dirOk hm.slot.layout hne (hm.file.dirOk h.layout hi (h.dir d' hold))
  · rcases List.mem_append.mp hmem with hold | hold
    · rcases List.mem_append.mp hmem' with hold' | hold'
      · exact h.unique m hold m' hold' hdir hname
      · obtain rfl := List.mem_singleton.mp hold'
        exact absurd hname (hnew m hold hdir)
    · obtain rfl := List.mem_singleton.mp hold
      rcases List.mem_append.mp hmem' with hold' | hold'
      · exact absurd hname.symm (hnew m' hold' hdir.symm)
      · exact (List.mem_singleton.mp hold').symm

/-! ### Mounting -/

/- The superblock of a mount before the slot of the root directory is set. -/
def bareSbInfo : OsfsSbInfo :=
  { emptySbInfo with inodeBitmap := Bitmap.empty.set ROOT_INODE }

theorem bareSbInfo_layout : Layout bareSbInfo := by
  have hnone (k b : ℕ) (h : bareSbInfo.Owns k b) : False := by
    unfold OsfsSbInfo.Owns at h
    exact absurd h.2 (Nat.not_lt.mpr h.1)
  exact ⟨rfl, rfl, fun _ _ => rfl, fun k b h => (hnone k b h).elim,
    fun j k b h => (hnone j b h).elim, fun _ => Nat.zero_le _, fun _ _ => rfl⟩

theorem osfsFillSuper_ok {env : Env} {vmallocOk dMakeRootOk : Bool}
    (h : osfsFillSuper env vmallocOk dMakeRootOk = .ok fs) :
    fs.sb = rootSlot bareSbInfo ROOT_INODE ROOT_MODE ∧ ∃ root : Inode,
      root.iPrivate = ROOT_INODE ∧ root.iMode = ROOT_MODE ∧
        fs.icache = Icache.empty.push root := by
  unfold osfsFillSuper at h
  cases vmallocOk with
  | false => simp at h
  | true =>
    cases hok : env.newInodeOk with
    | false => simp [newInode_fails hok] at h
    | true =>
      cases dMakeRootOk with
      | false =>
        simp [newInode_ok hok, osfsGetOsfsInode, emptySbInfo, ROOT_INODE, INODE_COUNT] at h
      | true =>
        simp only [newInode_ok hok] at h
        obtain rfl := Except.ok.inj h
        have hset := Icache.push_set Icache.empty Inode.fresh
          { Inode.fresh with
            iIno := ROOT_INODE, iMode := ROOT_MODE, iOp := .osfsDir, iFop := .osfsDir,
            iNlink := 2, iPrivate := ROOT_INODE }
        exact ⟨rfl, _, rfl, rfl, hset⟩

theorem Mounted.sysInv (hm : Mounted s) : SysInv s := by
  obtain ⟨env, vmallocOk, dMakeRootOk, hfill, hmade⟩ := hm
  obtain ⟨hsb, root, hpriv, hmode, hicache⟩ := osfsFillSuper_ok hfill
  have hslot : NewSlot bareSbInfo s.fs.sb ROOT_INODE ROOT_MODE := by
    rw [hsb]
    exact slotWithExtent_newSlot bareSbInfo_layout rfl rfl rfl (by decide)
  have hprivate (p : InodePtr) (hp : (s.fs.icache.inode p).iPrivate ≠ 0) :
      p = 0 ∧ s.fs.icache.inode p = root := by
    rw [hicache] at hp ⊢
    by_cases he : p = 0
    · subst he
      exact ⟨rfl, Icache.push_same Icache.empty root⟩
    · exact absurd rfl (Icache.push_ne Icache.empty root he ▸ hp)
  have hother (d : ℕ) (hd : d ≠ ROOT_INODE) : s.fs.sb.isDir d = false := by
    have hzero : sIsDir OsfsInode.zero.iMode = false := by decide
    unfold OsfsSbInfo.isDir
    rw [hslot.table d hd]
    exact hzero
  have hentries (d : ℕ) : s.entriesOf d = [] := by
    unfold Sys.entriesOf
    rw [hmade]
    rfl
  refine ⟨hslot.layout, ⟨fun p hp => ?_, fun p hp => ?_, fun p hp => ?_⟩, ?_, ?_, fun d hd => ?_, ?_⟩
  · rw [(hprivate p hp).1, hicache]
    exact Nat.zero_lt_one
  · rw [(hprivate p hp).2, hpriv, hslot.bits]
    rfl
  · rw [(hprivate p hp).2, hpriv, hmode]
    exact hslot.mode.symm
  · rw [hmade]
    exact fun m hm => absurd hm List.not_mem_nil
  · rw [hmade]
    exact fun m hm => absurd hm List.not_mem_nil
  · rw [hentries d]
    by_cases he : d = ROOT_INODE
    · subst he
      exact hslot.dirOk
    · exact absurd (hd.symm.trans (hother d he)) (by decide)
  · rw [hmade]
    exact fun m hm => absurd hm List.not_mem_nil

end OSLab.Optimize
