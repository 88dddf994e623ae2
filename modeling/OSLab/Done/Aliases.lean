import OSLab.Done.NameArray

/-!
# Two sizes of one file (Lab4_Template_Done)

The size of a file stands in its slot and in every VFS inode for it.
`osfs_iget` makes a new VFS inode while another one is open, and a handler
that lets a file or a directory grow sets the size of the slot and of the VFS
inode it was called for.
-/

namespace OSLab.Done
open OSLab.Base OSLab.Kernel

/-- Every live VFS inode has the size of its slot: `stat` reports one size for all of them. -/
def SizesAgree (fs : Fs) : Prop :=
  ∀ p, (fs.icache.inode p).iPrivate ≠ 0 →
    (fs.icache.inode p).iSize = (fs.sb.inodeTable (fs.icache.inode p).iPrivate).iSize

/- There is another live VFS inode for the slot of `p`. -/
def Shared (fs : Fs) (p : InodePtr) : Prop :=
  ∃ q, q ≠ p ∧ (fs.icache.inode q).iPrivate = (fs.icache.inode p).iPrivate

/-- The write is not refused, does not fault, and ends behind the end of the file `f`. -/
structure Grows (s : Sys) (f : File) (buf : Bytes) (len : ℕ) : Prop where
  area : f.fPos + len ≤ LLONG_MAX
  inside : f.fPos ≤ BLOCK_SIZE
  copied : min (rwCount len) (BLOCK_SIZE - f.fPos) ≤ buf.length
  past : (s.fs.sb.inodeTable (s.fs.icache.inode f.fInode).iPrivate).iSize <
    f.fPos + min (rwCount len) (BLOCK_SIZE - f.fPos)

/-- A file grows that has two VFS inodes, or a directory that has two gets an entry, or a file that
is not empty is truncated. -/
def SplitsSizes (s : Sys) : Req → Prop
  | .create dir dentry mode env => AddsEntry s (.create dir dentry mode env) ∧ Shared s.fs dir
  | .write fd buf len _ => ∃ f, s.file fd = some f ∧ Grows s f buf len ∧ Shared s.fs f.fInode
  | .truncate p _ => s.fs.isFileInode p = true ∧
    (s.fs.sb.inodeTable (s.fs.icache.inode p).iPrivate).iSize ≠ 0
  | _ => False

variable {fs fs' : Fs} {p : InodePtr}

/-- A new size for a slot and one of its VFS inodes. -/
theorem SizesAgree.resize_iff (h : SizesAgree fs) (hp : (fs.icache.inode p).iPrivate ≠ 0) {n : ℕ}
    (hslot : (fs'.icache.inode p).iPrivate = (fs.icache.inode p).iPrivate)
    (hsize : (fs'.icache.inode p).iSize = n)
    (hother : ∀ q, q ≠ p → fs'.icache.inode q = fs.icache.inode q)
    (hself : (fs'.sb.inodeTable (fs.icache.inode p).iPrivate).iSize = n)
    (htable : ∀ k, k ≠ (fs.icache.inode p).iPrivate →
      (fs'.sb.inodeTable k).iSize = (fs.sb.inodeTable k).iSize) :
    SizesAgree fs' ↔
      ¬ (n ≠ (fs.sb.inodeTable (fs.icache.inode p).iPrivate).iSize ∧ Shared fs p) := by
  constructor
  · rintro h' ⟨hne, q, hq, hsame⟩
    have hagree := h' q
    rw [hother q hq, hsame, hself] at hagree
    have hold := h q (by rw [hsame]; exact hp)
    rw [hsame] at hold
    exact hne ((hagree hp).symm.trans hold)
  · intro hno q hq
    by_cases hqp : q = p
    · rw [hqp, hslot, hself, hsize]
    · rw [hother q hqp] at hq ⊢
      by_cases hk : (fs.icache.inode q).iPrivate = (fs.icache.inode p).iPrivate
      · have hn : n = (fs.sb.inodeTable (fs.icache.inode p).iPrivate).iSize := by
          by_contra hne
          exact hno ⟨hne, q, hqp, hk⟩
        rw [h q hq, hk, hself, hn]
      · rw [h q hq, htable _ hk]

/-! ### What the requests do to the sizes -/

theorem SizesAgree.iput (h : SizesAgree fs) (p : InodePtr) : SizesAgree (iput fs p) := by
  intro q hq
  by_cases hqp : q = p
  · subst hqp
    have hget : (OSLab.Done.iput fs q).icache.inode q = osfsDestroyInode (fs.icache.inode q) :=
      Icache.set_same ..
    rw [hget, osfsDestroyInode_private] at hq
    exact absurd rfl hq
  · have hget : (OSLab.Done.iput fs p).icache.inode q = fs.icache.inode q :=
      fs.icache.set_ne _ hqp
    rw [hget] at hq ⊢
    exact h q hq

theorem SizesAgree.withIget (h : SizesAgree fs) (ino : ℕ) : SizesAgree (fs.withIget ino) := by
  intro q hq
  obtain ⟨-, hpriv, hsize, -, -⟩ := igetInode_fields (fs.sb.inodeTable ino) ino
  by_cases hqc : q = fs.icache.count
  · subst hqc
    have hget : (fs.withIget ino).icache.inode fs.icache.count =
        igetInode (fs.sb.inodeTable ino) ino := Icache.push_same ..
    rw [hget, hsize, hpriv]
    rfl
  · have hget : (fs.withIget ino).icache.inode q = fs.icache.inode q := fs.icache.push_ne _ hqc
    rw [hget] at hq ⊢
    exact h q hq

theorem SizesAgree.withNewInode (h : SizesAgree fs) (hinv : FsInv fs) (env : Env) (dir : InodePtr)
    (mode : UMode) {ino b : ℕ} (hf : Fresh fs.sb ino b) :
    SizesAgree (fs.withNewInode env dir mode ino b) := by
  intro q hq
  have hs := hf.newSlot env dir mode
  by_cases hqc : q = fs.icache.count
  · subst hqc
    rw [withNewInode_inode_new]
    have hself : (fs.withNewInode env dir mode ino b).sb.inodeTable ino =
        { createdSlot env (fs.icache.inode dir) ino mode with iBlock := b } :=
      formatInode_table_self ..
    change (newVfsInode env (fs.icache.inode dir) ino mode).iSize =
      ((fs.withNewInode env dir mode ino b).sb.inodeTable ino).iSize
    rw [hself, (newVfsInode_spec env (fs.icache.inode dir) ino mode).1]
    exact hs.size.symm
  · rw [withNewInode_inode_ne env dir mode ino b hqc] at hq ⊢
    have hne : (fs.icache.inode q).iPrivate ≠ ino := by
      rintro rfl
      exact hinv.sb.not_formatted hf.inoFree (hinv.inodes q hq).2.formatted
    have htab : (fs.withNewInode env dir mode ino b).sb.inodeTable (fs.icache.inode q).iPrivate =
        fs.sb.inodeTable (fs.icache.inode q).iPrivate := formatInode_table_ne fs.sb _ b hne
    rw [htab]
    exact h q hq

theorem shared_withNewInode (hinv : FsInv fs) (env : Env) (mode : UMode) {dir : InodePtr}
    (hdir : fs.isDirInode dir = true) {ino b : ℕ} (hf : Fresh fs.sb ino b) :
    Shared (fs.withNewInode env dir mode ino b) dir ↔ Shared fs dir := by
  obtain ⟨hlt, hd, -⟩ := hinv.isDir hdir
  have hne : ino ≠ (fs.icache.inode dir).iPrivate := by
    rintro rfl
    exact hinv.sb.not_formatted hf.inoFree hd
  unfold Shared
  rw [withNewInode_inode_ne env dir mode ino b (Nat.ne_of_lt hlt)]
  constructor
  · rintro ⟨q, hq, hsame⟩
    by_cases hqc : q = fs.icache.count
    · rw [hqc, withNewInode_inode_new] at hsame
      exact absurd hsame hne
    · rw [withNewInode_inode_ne env dir mode ino b hqc] at hsame
      exact ⟨q, hq, hsame⟩
  · rintro ⟨q, hq, hsame⟩
    have hlive : (fs.icache.inode q).iPrivate ≠ 0 := by
      rw [hsame]
      exact hd.1
    refine ⟨q, hq, ?_⟩
    rw [withNewInode_inode_ne env dir mode ino b (Nat.ne_of_lt (hinv.inodes q hlive).1)]
    exact hsame

/-- An entry lets the directory grow. -/
theorem SizesAgree.withEntry_iff (h : SizesAgree fs) (hinv : FsInv fs) {dir : InodePtr}
    (hdir : fs.isDirInode dir = true) {ino : ℕ} {name : Bytes}
    (hroom : fs.sb.dirEntryCount (fs.icache.inode dir).iPrivate < MAX_DIR_ENTRIES) :
    SizesAgree (fs.withEntry dir ino name) ↔ ¬ Shared fs dir := by
  obtain ⟨-, hd, hmode⟩ := hinv.isDir hdir
  have hok := hinv.sb.dir _ hd hmode
  have hcount := (addEntry_count ino name hok hroom).2
  have hold := h dir (isDirInode_iff.mp hdir).1
  have hself : (fs.withEntry dir ino name).icache.inode dir =
      { fs.icache.inode dir with iSize := (fs.icache.inode dir).iSize + DIR_ENTRY_SIZE } :=
    Icache.set_same ..
  have hsize : (fs.sb.dirEntryCount (fs.icache.inode dir).iPrivate + 1) * DIR_ENTRY_SIZE =
      (fs.icache.inode dir).iSize + DIR_ENTRY_SIZE := by
    rw [hold, hok.size]
    exact Nat.succ_mul ..
  have hslot : ((fs.withEntry dir ino name).icache.inode dir).iPrivate =
      (fs.icache.inode dir).iPrivate := by
    rw [hself]
  have hvfs : ((fs.withEntry dir ino name).icache.inode dir).iSize =
      (fs.icache.inode dir).iSize + DIR_ENTRY_SIZE := by
    rw [hself]
  rw [h.resize_iff (isDirInode_iff.mp hdir).1 hslot hvfs (fun q hq => fs.icache.set_ne _ hq)
    (hcount.trans hsize)
    (fun k hk => congrArg OsfsInode.iSize (setSlot_table_ne fs.sb _ _ hk))]
  have hgrow : (fs.icache.inode dir).iSize + DIR_ENTRY_SIZE ≠
      (fs.sb.inodeTable (fs.icache.inode dir).iPrivate).iSize := by
    unfold DIR_ENTRY_SIZE
    omega
  exact ⟨fun hno hs => hno ⟨hgrow, hs⟩, fun hno hs => hno hs.2⟩

/-- A write lets the file grow when it ends behind it. -/
theorem SizesAgree.withWrite_iff (h : SizesAgree fs) (env : Env)
    (hp : fs.isFileInode p = true) {ppos : ℕ} {bs : Bytes} (hend : ppos + bs.length ≤ BLOCK_SIZE) :
    SizesAgree (fs.withWrite env p ppos bs) ↔
      ¬ ((fs.sb.inodeTable (fs.icache.inode p).iPrivate).iSize < ppos + bs.length ∧
        Shared fs p) := by
  have hold := h p (isFileInode_iff.mp hp).1
  have hslot : ((fs.withWrite env p ppos bs).sb.inodeTable (fs.icache.inode p).iPrivate).iSize =
      max (fs.sb.inodeTable (fs.icache.inode p).iPrivate).iSize (ppos + bs.length) := by
    rw [withWrite_sb, setSlot_table_self, writtenSlot_size env _ hend]
  have hvfs : ((fs.withWrite env p ppos bs).icache.inode p).iSize =
      max (fs.sb.inodeTable (fs.icache.inode p).iPrivate).iSize (ppos + bs.length) := by
    unfold Fs.withWrite osfsWriteUpdate
    dsimp only
    rw [Icache.set_same]
    dsimp only
    rw [hold]
    split <;> omega
  rw [h.resize_iff (isFileInode_iff.mp hp).1 withWrite_private hvfs
    (fun q hq => fs.icache.set_ne _ hq) hslot
    (fun k hk => congrArg OsfsInode.iSize (setSlot_table_ne fs.sb _ _ hk))]
  have hgrow : max (fs.sb.inodeTable (fs.icache.inode p).iPrivate).iSize (ppos + bs.length) ≠
      (fs.sb.inodeTable (fs.icache.inode p).iPrivate).iSize ↔
        (fs.sb.inodeTable (fs.icache.inode p).iPrivate).iSize < ppos + bs.length := by
    omega
  rw [hgrow]

/-- A truncation empties the VFS inode and not the slot. -/
theorem SizesAgree.truncate_iff (h : SizesAgree fs) (env : Env) (hp : fs.isFileInode p = true) :
    SizesAgree (fs.truncate env p) ↔
      (fs.sb.inodeTable (fs.icache.inode p).iPrivate).iSize = 0 := by
  have hlive := (isFileInode_iff.mp hp).1
  have hself : (fs.truncate env p).icache.inode p = simpleSetattr env (fs.icache.inode p) :=
    Icache.set_same ..
  constructor
  · intro h'
    have hagree := h' p
    rw [hself] at hagree
    exact (hagree hlive).symm
  · intro h0 q hq
    by_cases hqp : q = p
    · rw [hqp, hself]
      exact h0.symm
    · have hget : (fs.truncate env p).icache.inode q = fs.icache.inode q := fs.icache.set_ne _ hqp
      rw [hget] at hq ⊢
      exact h q hq

/-! ### Runs -/

theorem create_sizes_iff {s : Sys} (h : SysInv s) (hag : SizesAgree s.fs) {dir : InodePtr}
    {dentry : Qstr} {mode : UMode} {env : Env} {r : Except Errno InodePtr × Fs}
    (hdir : s.fs.isDirInode dir = true) (ho : CreateOutcome env s.fs dir dentry mode r) :
    SizesAgree r.2 ↔ ¬ SplitsSizes s (.create dir dentry mode env) := by
  cases ho with
  | refused e hno =>
    refine iff_of_true hag fun ⟨ha, _⟩ => ?_
    rcases hno with hlen | hcan
    · exact absurd ha.2.1 (Nat.not_le_of_lt hlen)
    · exact hcan ha.2.2.1
  | noMemory ino hlen hcan hmem hlt hfree =>
    exact iff_of_true hag fun ⟨ha, _⟩ => Bool.false_ne_true (hmem.symm.trans ha.2.2.2.1)
  | rejected e ino b hlen hcan hmem hf href =>
    exact iff_of_true ((hag.withNewInode h.fs env dir mode hf).iput _) fun ⟨ha, _⟩ => ha.2.2.2.2 href
  | created ino b hlen hcan hmem hf hent =>
    obtain ⟨hpriv, hd, hc⟩ := withNewInode_canEnter h.fs env mode hdir hlen hf hent
    rw [(hag.withNewInode h.fs env dir mode hf).withEntry_iff (h.fs.withNewInode env dir mode hf)
      hd hc.room]
    have hadds : AddsEntry s (.create dir dentry mode env) := ⟨hdir, hlen, hcan, hmem, hent⟩
    rw [shared_withNewInode h.fs env mode hdir hf]
    exact ⟨fun hno hs => hno hs.2, fun hno hs => hno ⟨hadds, hs⟩⟩

theorem sizesAgree_next_iff {s : Sys} (h : SysInv s) (hag : SizesAgree s.fs) (r : Req) :
    SizesAgree (osfs.next s r).fs ↔ ¬ SplitsSizes s r := by
  have ho := osfs_outcome h r
  revert ho
  generalize osfs.resp s r = o
  generalize osfs.next s r = s'
  intro ho
  cases ho with
  | refused r hno =>
    refine iff_of_true hag fun hs => ?_
    cases r with
    | create dir dentry mode env =>
      have hdir : s.fs.isDirInode dir = false := hno
      exact Bool.false_ne_true (hdir.symm.trans hs.1.1)
    | write fd buf len env =>
      obtain ⟨f, hf, -⟩ := hs
      have hnone : s.file fd = none := hno
      rw [hnone] at hf
      cases hf
    | truncate p env =>
      have hp : s.fs.isFileInode p = false := hno
      exact Bool.false_ne_true (hp.symm.trans hs.1)
    | _ => exact hs
  | create dir dentry mode env r hdir hco => exact create_sizes_iff h hag hdir hco
  | lookup dir dentry env r hdir ho =>
    cases ho with
    | absent _ => exact iff_of_true hag id
    | noMemory _ _ _ => exact iff_of_true hag id
    | found ino _ _ _ => exact iff_of_true (hag.withIget ino) id
  | writeRefused fd buf len env f hf hpos =>
    refine iff_of_true hag fun ⟨f', hf', hg, _⟩ => ?_
    obtain rfl := Option.some.inj (hf.symm.trans hf')
    exact absurd hg.area (Nat.not_le_of_lt hpos)
  | writePast fd buf len env f hf hpos hpast =>
    refine iff_of_true hag fun ⟨f', hf', hg, _⟩ => ?_
    obtain rfl := Option.some.inj (hf.symm.trans hf')
    exact absurd hg.inside (Nat.not_le_of_lt hpast)
  | writeFault fd buf len env f hf hpos data hle hbuf hdata =>
    refine iff_of_true ?_ fun ⟨f', hf', hg, _⟩ => ?_
    · have hsb : (s.fs.withFault f.fInode data).sb = { s.fs.sb with dataBlocks := data } :=
        setSlot_same ..
      intro q hq
      rw [hsb]
      exact hag q hq
    · obtain rfl := Option.some.inj (hf.symm.trans hf')
      exact absurd hg.copied (Nat.not_le_of_lt hbuf)
  | written fd buf len env f hf hpos n hle hn hbuf =>
    have hlen : (buf.take n).length = n := List.length_take_of_le hbuf
    have hend : f.fPos + (buf.take n).length ≤ BLOCK_SIZE := by omega
    have hiff := hag.withWrite_iff env (h.files fd f hf).1 hend
    rw [hlen] at hiff
    subst hn
    refine hiff.trans (not_congr ⟨fun ⟨hgrow, hs⟩ => ⟨f, hf, ⟨hpos, hle, hbuf, hgrow⟩, hs⟩, ?_⟩)
    rintro ⟨f', hf', hg, hs⟩
    obtain rfl := Option.some.inj (hf.symm.trans hf')
    exact ⟨hg.past, hs⟩
  | truncated p env hp =>
    rw [hag.truncate_iff env hp]
    exact ⟨fun h0 hs => hs.2 h0, fun hno => not_not.mp fun h0 => hno ⟨hp, h0⟩⟩
  | evicted p hp => exact iff_of_true (hag.iput p) id
  | _ => exact iff_of_true hag id

theorem mounted_sizesAgree {s : Sys} (h : Mounted s) : SizesAgree s.fs := by
  obtain ⟨env, vmallocOk, dMakeRootOk, hfs, -⟩ := h
  obtain ⟨⟨oi, -, hsize, -, -, hsb⟩, root, hic, hpriv, -, hisize, -, -⟩ := osfsFillSuper_ok hfs
  intro p hp
  rw [hic] at hp ⊢
  by_cases hp0 : p = 0
  · subst hp0
    have hget : (Icache.empty.push root).inode 0 = root := Icache.push_same ..
    rw [hget, hpriv, hisize, hsb, mounted_root, hsize]
  · have hget : (Icache.empty.push root).inode p = Inode.fresh := Icache.push_ne _ _ hp0
    rw [hget] at hp
    exact absurd rfl hp

/-- Along a run all VFS inodes of a file have its size as long as no request splits the sizes; the
first one that does leaves two sizes. -/
theorem sizesAgree_iff {s : Sys} (h : Mounted s) (rs : List Req) :
    osfs.EveryStep (fun s r => SizesAgree (osfs.next s r).fs) s rs ↔
      osfs.EveryStep (fun s r => ¬ SplitsSizes s r) s rs := by
  apply osfs.everyStep_iff_of_invariant (P := fun s => SysInv s ∧ SizesAgree s.fs)
    (H := fun _ _ => True)
  · intro s r ⟨hinv, hag⟩ _ hno
    have hnext := (sizesAgree_next_iff hinv hag r).mpr hno
    exact ⟨hnext, hinv.next r, hnext⟩
  · intro s r ⟨hinv, hag⟩ _ hnext
    exact (sizesAgree_next_iff hinv hag r).mp hnext
  · exact ⟨(SysInv.mounted h).1, mounted_sizesAgree h⟩
  · exact osfs.everyStep_of_forall (fun _ _ => trivial) s rs

/- A file is created and, while its creator holds it open, looked up and written to through the
inode that the creator has. -/
def writeHeldOpen : List Req :=
  [.create 0 nameA S_IFREG plainEnv, .open 1, .lookup 0 nameA plainEnv,
    .write 0 [104, 105] 2 plainEnv]

theorem sizesAgree_iff_heldOpen :
    osfs.EveryStep (fun s r => SizesAgree (osfs.next s r).fs) freshMount writeHeldOpen ↔
      osfs.EveryStep (fun s r => ¬ SplitsSizes s r) freshMount writeHeldOpen :=
  sizesAgree_iff freshMount_mounted writeHeldOpen

/-- The inode of the lookup still has size 0 when the file has two bytes. -/
theorem heldOpen_splits : ¬ SizesAgree (osfs.run freshMount writeHeldOpen).fs := by
  intro h
  exact absurd (h 2 (by decide +kernel)) (by decide +kernel)

end OSLab.Done
