import OSLab.Optimize.Invariant

/-!
# Directory entries and file contents stay apart

`osfs_create` checks neither the room in the extent of the parent nor the length
of the name. A create stays inside its entry, and its name is found again, in a
run in which every entry fits; the first entry that does not fit leaves its
place or is not found.
-/

namespace OSLab.Optimize
open OSLab.Base OSLab.Kernel

/- No create has put the name into this directory yet. -/
def NewName (s : Sys) : Req → Prop
  | .create dir dentry _ _ =>
    ∀ m ∈ s.made, m.dir = (s.fs.icache.inode dir).iPrivate → m.name ≠ dentry.name
  | _ => True

/-- A create that gets an inode finds room for a whole entry in the extent of its parent, and
its name is the one that the entry is read back with. -/
def EntryFits (s : Sys) : Req → Prop
  | .create dir dentry _ env =>
    s.fs.isDirInode dir = true → env.newInodeOk = true → ∀ ino ∈ s.fs.sb.nextInode,
      s.fs.sb.HasRoom (s.fs.icache.inode dir).iPrivate ∧ NameFits dentry.name ino
  | _ => True

instance (s : Sys) (r : Req) : Decidable (NewName s r) :=
  match r with
  | .create dir dentry _ _ => inferInstanceAs (Decidable (∀ m ∈ s.made,
      m.dir = (s.fs.icache.inode dir).iPrivate → m.name ≠ dentry.name))
  | .lookup _ _ _ => isTrue trivial
  | .read _ _ _ _ => isTrue trivial
  | .write _ _ _ _ => isTrue trivial

/- The answer is the inode with number `ino`, unless there was no memory for it. -/
def Yields (env : Env) (ino : ℕ) (r : LookupResult × Fs) : Prop :=
  match r.1 with
  | .found p => (r.2.icache.inode p).iIno = ino
  | .err e => e = .ENOMEM ∧ env.newInodeOk = false
  | .null => False

/-- `osfs_lookup` finds every name created so far, with the inode number it got. -/
def Found (s : Sys) : Prop :=
  ∀ m ∈ s.made, ∀ dir dentry env, s.fs.isDirInode dir = true →
    (s.fs.icache.inode dir).iPrivate = m.dir → dentry.name = m.name →
      Yields env m.ino (osfsLookup env s.fs dir dentry)

/- Every byte that the stores write satisfies `P`. -/
def StoresIn (stores : List ByteStore) (P : ℕ → Prop) : Prop :=
  ∀ st ∈ stores, ∀ x, st.Covers x → P x

/-- A create stores inside the extent of the parent, inside one entry, and leaves the contents of
the files; a write stores inside the extent of the file and leaves the entries of the directories. -/
def StaysInside (s : Sys) (r : Req) : Prop :=
  match r with
  | .create dir _ _ _ =>
    StoresIn (osfs.resp s r).stores (s.fs.sb.InExtent (s.fs.icache.inode dir).iPrivate) ∧
      (∃ i, StoresIn (osfs.resp s r).stores
        (s.fs.sb.InEntry (s.fs.icache.inode dir).iPrivate i)) ∧
      ∀ k, s.fs.sb.isDir k = false → (osfs.next s r).fs.sb.content k = s.fs.sb.content k
  | .write inode _ _ _ =>
    StoresIn (osfs.resp s r).stores
        ((osfs.next s r).fs.sb.InExtent (s.fs.icache.inode inode).iPrivate) ∧
      ∀ d, s.fs.sb.isDir d = true → (osfs.next s r).fs.sb.content d = s.fs.sb.content d
  | _ => True

def Isolated (s : Sys) (r : Req) : Prop := StaysInside s r ∧ Found (osfs.next s r)

variable {s : Sys}

theorem storesIn_nil (P : ℕ → Prop) : StoresIn [] P := fun _ hst => absurd hst List.not_mem_nil

theorem SysInv.found (h : SysInv s) : Found s := by
  intro m hm dir dentry env hp hdir hname
  have hmem : m ∈ s.entriesOf (s.fs.icache.inode dir).iPrivate :=
    Sys.mem_entriesOf.mpr ⟨hm, hdir.symm⟩
  have hout := h.lookup_outcome env hp dentry
  generalize osfsLookup env s.fs dir dentry = r at hout
  cases hout with
  | null hno => exact absurd hname.symm (hno m hmem)
  | enomem _ _ _ hok => exact ⟨rfl, hok⟩
  | found m' inode hm' hname' hok hino hpriv hmode =>
    obtain ⟨hmade', hdir'⟩ := Sys.mem_entriesOf.mp hm'
    have he : m' = m := h.unique m' hmade' m hm (hdir'.trans hdir) (hname'.trans hname)
    subst he
    change ((s.fs.icache.push inode).inode s.fs.icache.count).iIno = m'.ino
    rw [Icache.push_same]
    exact hino

/-! ### The steps as the machine takes them -/

theorem next_create {dir : InodePtr} (hp : s.fs.isDirInode dir = true) (dentry : Qstr)
    (mode : UMode) (env : Env) :
    (osfs.resp s (.create dir dentry mode env)).stores =
        (osfsCreate env s.fs dir dentry mode).2.1 ∧
      osfs.next s (.create dir dentry mode env) =
        ⟨(osfsCreate env s.fs dir dentry mode).2.2,
          s.made ++ madeBy s.fs dir dentry (osfsCreate env s.fs dir dentry mode)⟩ := by
  simp only [Machine.resp, Machine.next, osfs, sysStep, hp, ite_true, Res.stores, and_self]

theorem step_invalid {r : Req} (h : sysStep s r = (.invalid, s)) :
    (osfs.resp s r).stores = [] ∧ osfs.next s r = s := by
  simp only [Machine.resp, Machine.next, osfs, h, Res.stores, and_self]

/- The create gets an inode: the parent is a directory, a number is free, and there is memory. -/
def Creates (s : Sys) (dir : InodePtr) (env : Env) (ino : ℕ) : Prop :=
  s.fs.isDirInode dir = true ∧ env.newInodeOk = true ∧ s.fs.sb.nextInode = some ino

theorem next_created (h : SysInv s) {env : Env} {dir : InodePtr} {ino : ℕ}
    (hc : Creates s dir env ino) (dentry : Qstr) (mode : UMode) :
    (osfs.resp s (.create dir dentry mode env)).stores =
        entryStores (s.fs.sb.entryAddr (s.fs.icache.inode dir).iPrivate
          (s.fs.sb.dirEntryCount (s.fs.icache.inode dir).iPrivate)) ino dentry.name ∧
      osfs.next s (.create dir dentry mode env) =
        ⟨⟨(appendEntry (s.fs.sb.withFile ino mode) (s.fs.icache.inode dir).iPrivate ino
            dentry.name).2, s.fs.icache.push (newVfsInode env ino ino mode)⟩,
          s.made ++ [⟨(s.fs.icache.inode dir).iPrivate, dentry.name, ino⟩]⟩ := by
  obtain ⟨hp, hok, hnext⟩ := hc
  obtain ⟨hstores, hstep⟩ := next_create hp dentry mode env
  obtain ⟨-, -, hfree⟩ := nextInode_some h.layout.inodes hnext
  have hne := h.layout.dir_ne (h.icache.isDir hp) hfree
  have htable := ((withFile_newSlot h.layout mode).changes hfree).table _ hne
  have hout := osfsCreate_outcome h.layout.inodes env dir dentry mode
  rw [hstores, hstep]
  generalize osfsCreate env s.fs dir dentry mode = r at hout
  cases hout with
  | full hnone => exact absurd (hnone.symm.trans hnext) (by simp)
  | oops _ _ hno => exact absurd (hno.symm.trans hok) (by decide)
  | created ino' hnext' _ =>
    obtain rfl : ino' = ino := Option.some.inj (hnext'.symm.trans hnext)
    refine ⟨?_, ?_⟩
    · simp only [appendEntry, OsfsSbInfo.entryAddr, OsfsSbInfo.extentAddr,
        OsfsSbInfo.dirEntryCount, htable]
    · simp only [madeBy, Icache.push_same]
      rfl

theorem next_refused (h : SysInv s) {env : Env} {dir : InodePtr}
    (hc : ∀ ino, ¬ Creates s dir env ino) (dentry : Qstr) (mode : UMode) :
    (osfs.resp s (.create dir dentry mode env)).stores = [] ∧
      SysInv (osfs.next s (.create dir dentry mode env)) ∧
      ∀ k, (osfs.next s (.create dir dentry mode env)).fs.sb.content k = s.fs.sb.content k := by
  cases hp : s.fs.isDirInode dir with
  | false =>
    have hinv : sysStep s (.create dir dentry mode env) = (.invalid, s) := by
      simp only [sysStep, hp, Bool.false_eq_true, ite_false]
    obtain ⟨hstores, hstep⟩ := step_invalid hinv
    rw [hstep]
    exact ⟨hstores, h, fun _ => rfl⟩
  | true =>
    obtain ⟨hstores, hstep⟩ := next_create hp dentry mode env
    have hout := osfsCreate_outcome h.layout.inodes env dir dentry mode
    rw [hstores, hstep]
    generalize osfsCreate env s.fs dir dentry mode = r at hout
    cases hout with
    | full hnone =>
      dsimp only [madeBy]
      rw [List.append_nil]
      exact ⟨rfl, h, fun _ => rfl⟩
    | oops ino hnext hno =>
      dsimp only [madeBy]
      rw [List.append_nil]
      exact ⟨rfl, h.claimInode (nextInode_some h.layout.inodes hnext).2.2, fun _ => rfl⟩
    | created ino hnext hok => exact absurd ⟨hp, hok, hnext⟩ (hc ino)

/-! ### Every step that fits -/

theorem create_isolated (h : SysInv s) {env : Env} {dir : InodePtr} {dentry : Qstr} {mode : UMode}
    (hnew : NewName s (.create dir dentry mode env))
    (hfits : EntryFits s (.create dir dentry mode env)) :
    StaysInside s (.create dir dentry mode env) ∧
      SysInv (osfs.next s (.create dir dentry mode env)) := by
  unfold StaysInside
  by_cases hex : ∃ ino, Creates s dir env ino
  · obtain ⟨ino, hc⟩ := hex
    obtain ⟨hroom, hname⟩ := hfits hc.1 hc.2.1 ino hc.2.2
    have hd := h.icache.isDir hc.1
    have hlen : dentry.name.length ≤ DIR_ENTRY_SIZE := by
      unfold NameFits MAX_FILENAME_LEN INODE_NO_OFFSET at hname
      unfold DIR_ENTRY_SIZE
      omega
    have hm := h.fileMade mode hd hc.2.2 dentry.noNul hlen hroom
    have hwithin := @entryStores_within (s.fs.sb.entryAddr (s.fs.icache.inode dir).iPrivate
      (s.fs.sb.dirEntryCount (s.fs.icache.inode dir).iPrivate)) ino dentry.name
      dentry.noNul hlen
    obtain ⟨hstores, hstep⟩ := next_created h hc dentry mode
    rw [hstores, hstep]
    refine ⟨⟨fun st hst x hx => ?_, ⟨_, hwithin⟩, fun k hk => ?_⟩, ?_⟩
    · exact newEntry_inExtent h.layout (h.dir _ hd) hroom (hwithin st hst x hx)
    · refine hm.content h.layout fun he => ?_
      rw [he, hd] at hk
      exact absurd hk (by decide)
    · exact h.create hd hc.2.2 hm (entryText_eq_iff.mpr hname) hnew env
  · obtain ⟨hstores, hinv, hcontent⟩ := next_refused h (fun ino hc => hex ⟨ino, hc⟩) dentry mode
    rw [hstores]
    exact ⟨⟨storesIn_nil _, ⟨0, storesIn_nil _⟩, fun k _ => hcontent k⟩, hinv⟩

theorem write_isolated (h : SysInv s) (inode : InodePtr) (buf : Bytes) (len ppos : ℕ) :
    StaysInside s (.write inode buf len ppos) ∧ SysInv (osfs.next s (.write inode buf len ppos)) := by
  unfold StaysInside
  cases hok : s.fs.isFileInode inode && rwVerifyArea ppos len with
  | false =>
    have hinv : sysStep s (.write inode buf len ppos) = (.invalid, s) := by
      simp only [sysStep, hok, Bool.false_eq_true, ite_false]
    obtain ⟨hstores, hstep⟩ := step_invalid hinv
    rw [hstores, hstep]
    exact ⟨⟨storesIn_nil _, fun _ _ => rfl⟩, h⟩
  | true =>
    obtain ⟨hp, hpos⟩ := Bool.and_eq_true_iff.mp hok
    obtain ⟨hused, hfile⟩ := h.icache.isFile hp
    obtain ⟨hw, hin⟩ := osfsWrite_writes h.layout hused buf hpos
    have hinv := h.write hp buf hpos
    simp only [Machine.resp, Machine.next, osfs, sysStep, hok, ite_true, Res.stores]
    refine ⟨⟨hin, fun d hd => hw.changes.content fun he => ?_⟩, hinv⟩
    rw [he, hfile] at hd
    exact absurd hd (by decide)

theorem step_isolated {r : Req} (h : SysInv s) (hnew : NewName s r) (hfits : EntryFits s r) :
    Isolated s r ∧ SysInv (osfs.next s r) := by
  have hstep : StaysInside s r ∧ SysInv (osfs.next s r) := by
    cases r with
    | create dir dentry mode env => exact create_isolated h hnew hfits
    | lookup dir dentry env =>
      refine ⟨trivial, ?_⟩
      simp only [Machine.next, osfs, sysStep]
      split
      · rename_i hp
        exact h.lookup env hp dentry
      · exact h
    | read inode room len ppos =>
      refine ⟨trivial, ?_⟩
      simp only [Machine.next, osfs, sysStep]
      split <;> exact h
    | write inode buf len ppos => exact write_isolated h inode buf len ppos
  exact ⟨⟨hstep.1, hstep.2.found⟩, hstep.2⟩

/-! ### The first step that does not fit -/

/-- The last byte of the inode number lies in the extent. -/
theorem room_of_inExtent {sb : OsfsSbInfo} {d ino : ℕ} {name : Bytes} (hname : ∀ b ∈ name, b ≠ 0)
    (hin : StoresIn (entryStores (sb.entryAddr d (sb.dirEntryCount d)) ino name) (sb.InExtent d)) :
    sb.HasRoom d := by
  obtain ⟨st, hst, hx⟩ := (entryStores_covers hname).mpr
    (Or.inr ⟨Nat.le_add_right _ 3, Nat.add_lt_add_left (by decide) _⟩)
  have hlast := (hin st hst _ hx).2
  unfold OsfsSbInfo.entryAddr INODE_NO_OFFSET DIR_ENTRY_SIZE at hlast
  unfold OsfsSbInfo.HasRoom DIR_ENTRY_SIZE
  omega

/-- A name of more than 260 bytes begins in one entry and goes on in the next. -/
theorem length_of_inEntry {sb : OsfsSbInfo} {d n i ino : ℕ} {name : Bytes}
    (hname : ∀ b ∈ name, b ≠ 0)
    (hin : StoresIn (entryStores (sb.entryAddr d n) ino name) (sb.InEntry d i)) :
    name.length ≤ DIR_ENTRY_SIZE := by
  by_contra hlong
  obtain ⟨st, hst, hx⟩ := (entryStores_covers hname).mpr
    (Or.inl ⟨Nat.le_refl _, Nat.lt_add_of_pos_right (by omega)⟩)
  have hfirst := (hin st hst _ hx).1
  obtain ⟨st, hst, hx⟩ := (entryStores_covers hname).mpr
    (Or.inl ⟨Nat.le_add_right _ DIR_ENTRY_SIZE, Nat.add_lt_add_left (by omega) _⟩)
  have hlast := (hin st hst _ hx).2
  unfold OsfsSbInfo.entryAddr DIR_ENTRY_SIZE at hfirst hlast
  omega

/-- An entry whose text is not the name is not found under the name. -/
theorem text_of_found (h : SysInv s) {env : Env} {dir : InodePtr} {dentry : Qstr} {mode : UMode}
    {ino : ℕ} (hc : Creates s dir env ino) (hnew : NewName s (.create dir dentry mode env))
    (hroom : s.fs.sb.HasRoom (s.fs.icache.inode dir).iPrivate)
    (hlen : dentry.name.length ≤ DIR_ENTRY_SIZE)
    (hfound : Found (osfs.next s (.create dir dentry mode env))) :
    entryText dentry.name ino = dentry.name := by
  by_contra htext
  have hd := h.icache.isDir hc.1
  have hm := h.fileMade mode hd hc.2.2 dentry.noNul hlen hroom
  have hlive : (s.fs.icache.inode dir).iPrivate ≠ 0 := by
    have hp := hc.1
    simp only [Fs.isDirInode, Bool.and_eq_true, decide_eq_true_eq] at hp
    exact hp.1
  have hold : dir ≠ s.fs.icache.count := Nat.ne_of_lt (h.icache.counted dir hlive)
  rw [(next_created h hc dentry mode).2] at hfound
  have hinode := s.fs.icache.push_ne (newVfsInode env ino ino mode) hold
  have hyield := hfound ⟨(s.fs.icache.inode dir).iPrivate, dentry.name, ino⟩
    (List.mem_append_right _ (List.mem_singleton_self _)) dir dentry env
    (by simp only [Fs.isDirInode, hinode]; exact hc.1) (by rw [hinode]) rfl
  have hnone : ∀ m ∈ s.entriesOf (s.fs.icache.inode dir).iPrivate ++
      [⟨(s.fs.icache.inode dir).iPrivate, entryText dentry.name ino, ino⟩],
      m.name ≠ dentry.name := by
    intro m hmem
    rcases List.mem_append.mp hmem with hmade | hlast
    · obtain ⟨hmade, hdir⟩ := Sys.mem_entriesOf.mp hmade
      exact hnew m hmade hdir
    · obtain rfl := List.mem_singleton.mp hlast
      exact htext
  let fs' : Fs := ⟨(appendEntry (s.fs.sb.withFile ino mode) (s.fs.icache.inode dir).iPrivate ino
    dentry.name).2, s.fs.icache.push (newVfsInode env ino ino mode)⟩
  have hpriv : (fs'.icache.inode dir).iPrivate = (s.fs.icache.inode dir).iPrivate :=
    congrArg Inode.iPrivate hinode
  have hnull : osfsLookup env fs' dir dentry = (.null, fs') :=
    osfsLookup_null hpriv hm.dir hnone env
  rw [hnull] at hyield
  exact hyield

/-- A create whose bytes stay inside the extent and inside one entry, and whose name is found
again, fits. -/
theorem fits_of_isolated {r : Req} (h : SysInv s) (hnew : NewName s r) (hi : Isolated s r) :
    EntryFits s r := by
  cases r with
  | lookup dir dentry env => trivial
  | read inode room len ppos => trivial
  | write inode buf len ppos => trivial
  | create dir dentry mode env =>
    intro hp hok ino hnext
    have hc : Creates s dir env ino := ⟨hp, hok, hnext⟩
    obtain ⟨⟨hin, ⟨i, hslot⟩, -⟩, hfound⟩ := hi
    rw [(next_created h hc dentry mode).1] at hin hslot
    have hroom := room_of_inExtent dentry.noNul hin
    have hlen := length_of_inEntry dentry.noNul hslot
    exact ⟨hroom, entryText_eq_iff.mp (text_of_found h hc hnew hroom hlen hfound)⟩

/-- A run from a fresh mount keeps entries and contents apart and finds every name it created
if and only if every entry that it makes fits. -/
theorem isolation_iff (hm : Mounted s) {rs : List Req} (hnew : osfs.EveryStep NewName s rs) :
    osfs.EveryStep Isolated s rs ↔ osfs.EveryStep EntryFits s rs :=
  osfs.everyStep_iff_of_invariant (fun _ _ h hn hf => step_isolated h hn hf)
    (fun _ _ h hn hi => fits_of_isolated h hn hi) hm.sysInv hnew

/- A file and a directory, a second file in this, a lookup of the first one and a write through it. -/
def fileAndDirectory : List Req :=
  [.create 0 (Qstr.ofBytes [97]) S_IFREG plainEnv,
    .create 0 (Qstr.ofBytes [98]) S_IFDIR plainEnv,
    .create 2 (Qstr.ofBytes [97]) S_IFREG plainEnv,
    .lookup 0 (Qstr.ofBytes [97]) plainEnv,
    .write 4 (List.replicate 16 65) 16 0]

theorem isolation_iff_directory : osfs.EveryStep Isolated freshMount fileAndDirectory := by
  refine (isolation_iff freshMount_mounted (by decide +kernel)).mpr ?_
  refine ⟨fun _ _ _ _ => ?_, fun _ _ _ _ => ?_, fun _ _ _ _ => ?_, trivial, trivial, trivial⟩ <;>
    exact ⟨by decide +kernel, Or.inl (by decide)⟩

/-! ### The fourth file -/

/- Three files in the root directory, of which the first is written to. Its inode comes from a
lookup. -/
def threeFiles : List Req :=
  [.create 0 (Qstr.ofBytes [97]) S_IFREG plainEnv,
    .create 0 (Qstr.ofBytes [98]) S_IFREG plainEnv,
    .create 0 (Qstr.ofBytes [99]) S_IFREG plainEnv,
    .lookup 0 (Qstr.ofBytes [97]) plainEnv,
    .write 4 (List.replicate 16 65) 16 0]

def fourthFile : Req := .create 0 (Qstr.ofBytes [100]) S_IFREG plainEnv

/-- The inode number of the fourth entry is stored behind the block of the directory, into the
bytes 12 to 15 of the first file. -/
theorem fourth_create_overwrites :
    Mounted freshMount ∧ osfs.EveryStep NewName freshMount (threeFiles ++ [fourthFile]) ∧
      ¬ osfs.EveryStep Isolated freshMount (threeFiles ++ [fourthFile]) := by
  refine ⟨freshMount_mounted, by decide +kernel, fun h => ?_⟩
  have hlast := ((osfs.everyStep_append _ _ _ _).mp h).2.1.1.2.2 2 (by decide +kernel)
  exact absurd hlast (by decide +kernel)

end OSLab.Optimize
