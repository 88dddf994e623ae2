import OSLab.Optimize.Invariant

/-!
# The allocation metadata

Bitmaps, counters and extents agree after any creates and writes, also when a
directory has outgrown its extent. Creates and writes are called directly on
the inode concerned.
-/

namespace OSLab.Optimize
open OSLab.Base OSLab.Kernel

/- The root and the files that have been created. -/
def OsfsSbInfo.Allocated (sb : OsfsSbInfo) (k : ℕ) : Prop :=
  k < sb.inodeCount ∧ sb.inodeBitmap k = true

structure Metadata (sb : OsfsSbInfo) : Prop where
  root : sb.Allocated ROOT_INODE
  inside : ∀ k b, sb.Allocated k → sb.Owns k b → b < sb.blockCount
  disjoint : ∀ j k b, sb.Allocated j → sb.Allocated k → sb.Owns j b → sb.Owns k b → j = k
  bits : ∀ b, sb.blockBitmap b = true ↔ ∃ k, sb.Allocated k ∧ sb.Owns k b
  freeBlocks : sb.nrFreeBlocks = sb.blockBitmap.clearCount sb.blockCount
  freeInodes : sb.nrFreeInodes = sb.inodeBitmap.clearCount sb.inodeCount
  unused : ∀ k, ¬ sb.Allocated k → (sb.inodeTable k).iExtent.eeLen = 0
  inodes : sb.inodeCount = INODE_COUNT
  blocks : sb.blockCount = DATA_BLOCK_COUNT

variable {sb sb' : OsfsSbInfo} {k : ℕ}

theorem not_owns_of_empty (h : (sb.inodeTable k).iExtent.eeLen = 0) (b : ℕ) : ¬ sb.Owns k b := by
  unfold OsfsSbInfo.Owns
  omega

theorem Metadata.congr (h : Metadata sb) (hextent : ∀ k b, sb'.Owns k b ↔ sb.Owns k b)
    (hlen : ∀ k, (sb.inodeTable k).iExtent.eeLen = 0 → (sb'.inodeTable k).iExtent.eeLen = 0)
    (hibits : sb'.inodeBitmap = sb.inodeBitmap) (hbbits : sb'.blockBitmap = sb.blockBitmap)
    (hinodes : sb'.nrFreeInodes = sb.nrFreeInodes) (hblocks : sb'.nrFreeBlocks = sb.nrFreeBlocks)
    (hicount : sb'.inodeCount = sb.inodeCount) (hbcount : sb'.blockCount = sb.blockCount) :
    Metadata sb' := by
  have hall (k : ℕ) : sb'.Allocated k ↔ sb.Allocated k := by
    unfold OsfsSbInfo.Allocated
    rw [hicount, hibits]
  refine ⟨(hall _).mpr h.root, fun k b hk hb => ?_, fun j k b hj hk hb hb' => ?_, fun b => ?_, ?_,
    ?_, fun k hk => hlen k (h.unused k fun ha => hk ((hall k).mpr ha)), ?_, ?_⟩
  · rw [hbcount]
    exact h.inside k b ((hall k).mp hk) ((hextent k b).mp hb)
  · exact h.disjoint j k b ((hall j).mp hj) ((hall k).mp hk) ((hextent j b).mp hb)
      ((hextent k b).mp hb')
  · rw [hbbits, h.bits]
    simp only [hall, hextent]
  · rw [hblocks, hbbits, hbcount]
    exact h.freeBlocks
  · rw [hinodes, hibits, hicount]
    exact h.freeInodes
  · rw [hicount]
    exact h.inodes
  · rw [hbcount]
    exact h.blocks

/-- A new value for a slot that keeps its extent, or keeps having none. -/
theorem Metadata.setSlot (h : Metadata sb) {oi : OsfsInode} (data : Mem)
    (hext : oi.iExtent = (sb.inodeTable k).iExtent ∨
      oi.iExtent.eeLen = 0 ∧ (sb.inodeTable k).iExtent.eeLen = 0) :
    Metadata ({ sb with dataBlocks := data }.setOsfsInode k oi) := by
  refine h.congr (fun j b => ?_) (fun j hj => ?_) rfl rfl rfl rfl rfl rfl
  · unfold OsfsSbInfo.Owns
    by_cases hjk : j = k
    · subst hjk
      rw [setOsfsInode_self]
      rcases hext with he | ⟨he, he'⟩
      · rw [he]
      · omega
    · rw [setOsfsInode_ne _ _ hjk]
  · by_cases hjk : j = k
    · subst hjk
      rw [setOsfsInode_self]
      rcases hext with he | ⟨he, -⟩
      · rw [he]
        exact hj
      · exact he
    · rw [setOsfsInode_ne _ _ hjk]
      exact hj

theorem Metadata.setData (h : Metadata sb) (data : Mem) :
    Metadata { sb with dataBlocks := data } :=
  h.congr (fun _ _ => Iff.rfl) (fun _ hk => hk) rfl rfl rfl rfl rfl rfl

theorem Metadata.claimInode (h : Metadata sb) {ino : ℕ} (hlt : ino < sb.inodeCount)
    (hfree : sb.inodeBitmap ino = false) : Metadata (sb.claimInode ino) := by
  have hall (k : ℕ) : (sb.claimInode ino).Allocated k ↔ k = ino ∨ sb.Allocated k := by
    unfold OsfsSbInfo.Allocated OsfsSbInfo.claimInode
    dsimp only
    rw [Bitmap.set_apply]
    by_cases hk : k = ino
    · subst hk
      simp only [hlt, ite_true, and_self, true_or]
    · simp only [hk, ite_false, false_or]
  have hino (b : ℕ) : ¬ sb.Owns ino b := by
    apply not_owns_of_empty
    exact h.unused ino fun ha => Bool.false_ne_true (hfree.symm.trans ha.2)
  have hold {k b : ℕ} (hk : (sb.claimInode ino).Allocated k) (hb : sb.Owns k b) :
      sb.Allocated k := by
    rcases (hall k).mp hk with rfl | hk
    · exact absurd hb (hino b)
    · exact hk
  have hcount := sb.inodeBitmap.clearCount_set hlt hfree
  have hle := sb.inodeBitmap.clearCount_le sb.inodeCount
  have hinodes := h.inodes
  unfold INODE_COUNT at hinodes
  refine ⟨(hall _).mpr (Or.inr h.root), fun k b hk hb => h.inside k b (hold hk hb) hb,
    fun j k b hj hk hb hb' => h.disjoint j k b (hold hj hb) (hold hk hb') hb hb', fun b => ?_,
    h.freeBlocks, ?_, fun k hk => h.unused k fun ha => hk ((hall k).mpr (Or.inr ha)), h.inodes,
    h.blocks⟩
  · refine (h.bits b).trans ⟨fun ⟨k, hk, hb⟩ => ⟨k, (hall k).mpr (Or.inr hk), hb⟩, ?_⟩
    exact fun ⟨k, hk, hb⟩ => ⟨k, hold hk hb, hb⟩
  · change u32 _ = (sb.inodeBitmap.set ino).clearCount sb.inodeCount
    rw [h.freeInodes]
    unfold u32
    omega

theorem Metadata.giveExtent (h : Metadata sb) (hk : sb.Allocated k)
    (hnone : (sb.inodeTable k).iExtent.eeLen = 0) {i n : ℕ} (hle : i + n ≤ sb.blockCount)
    (hfree : ∀ b, i ≤ b → b < i + n → sb.blockBitmap b = false) {oi : OsfsInode}
    (hext : oi.iExtent = ⟨i, n⟩) : Metadata ((sb.claimBlocks i n).setOsfsInode k oi) := by
  have hown (j b : ℕ) : ((sb.claimBlocks i n).setOsfsInode k oi).Owns j b ↔
      (j = k ∧ i ≤ b ∧ b < i + n) ∨ sb.Owns j b := by
    have hknone := not_owns_of_empty hnone b
    unfold OsfsSbInfo.Owns at hknone ⊢
    by_cases hjk : j = k
    · subst hjk
      rw [setOsfsInode_self, hext]
      simp only [true_and, hknone, or_false]
    · rw [setOsfsInode_ne _ _ hjk]
      simp only [hjk, false_and, false_or, OsfsSbInfo.claimBlocks]
  have hclash {j b : ℕ} (hj : sb.Allocated j) (hb : sb.Owns j b) : ¬ (i ≤ b ∧ b < i + n) :=
    fun hin => Bool.false_ne_true ((hfree b hin.1 hin.2).symm.trans ((h.bits b).mpr ⟨j, hj, hb⟩))
  have hcount := sb.blockBitmap.clearCount_setRun hle hfree
  have hcle := sb.blockBitmap.clearCount_le sb.blockCount
  have hblocks := h.blocks
  unfold DATA_BLOCK_COUNT at hblocks
  refine ⟨h.root, fun j b hj hb => ?_, fun j l b hj hl hb hb' => ?_, fun b => ?_, ?_, h.freeInodes,
    fun j hj => ?_, h.inodes, h.blocks⟩
  · rcases (hown j b).mp hb with ⟨-, -, hlt⟩ | hb
    · exact Nat.lt_of_lt_of_le hlt hle
    · exact h.inside j b hj hb
  · rcases (hown j b).mp hb with ⟨rfl, hin⟩ | hold
    · rcases (hown l b).mp hb' with ⟨rfl, -⟩ | hold'
      · rfl
      · exact absurd hin (hclash hl hold')
    · rcases (hown l b).mp hb' with ⟨rfl, hin⟩ | hold'
      · exact absurd hin (hclash hj hold)
      · exact h.disjoint j l b hj hl hold hold'
  · change sb.blockBitmap.setRun i n b = true ↔ _
    rw [Bitmap.setRun_apply]
    split
    · rename_i hin
      exact ⟨fun _ => ⟨k, hk, (hown k b).mpr (Or.inl ⟨rfl, hin⟩)⟩, fun _ => rfl⟩
    · rename_i hout
      refine (h.bits b).trans ⟨fun ⟨j, hj, hb⟩ => ⟨j, hj, (hown j b).mpr (Or.inr hb)⟩, ?_⟩
      intro ⟨j, hj, hb⟩
      rcases (hown j b).mp hb with ⟨-, hin⟩ | hb
      · exact absurd hin hout
      · exact ⟨j, hj, hb⟩
  · change u32 _ = (sb.blockBitmap.setRun i n).clearCount sb.blockCount
    rw [h.freeBlocks]
    unfold u32
    omega
  · by_cases hjk : j = k
    · subst hjk
      exact absurd hk hj
    · rw [setOsfsInode_ne _ _ hjk]
      exact h.unused j hj

theorem Metadata.slotWithExtent (h : Metadata sb) (hk : sb.Allocated k)
    (hnone : (sb.inodeTable k).iExtent.eeLen = 0) {oi : OsfsInode} (hlen : oi.iExtent.eeLen = 0)
    {n : ℕ} (hn : n ≤ DATA_BLOCK_COUNT) : Metadata (slotWithExtent sb k oi n) := by
  have hset : Metadata (sb.setOsfsInode k oi) := h.setSlot sb.dataBlocks (Or.inr ⟨hlen, hnone⟩)
  unfold Optimize.slotWithExtent
  cases halloc : osfsAllocExtent (sb.setOsfsInode k oi) n with
  | none => exact hset
  | some r =>
    obtain ⟨i, sb₁⟩ := r
    obtain ⟨rfl, hle, hfree⟩ := osfsAllocExtent_some hset.blocks hn halloc
    rw [← hset.blocks] at hle
    refine hset.giveExtent hk ?_ hle hfree rfl
    rw [setOsfsInode_self]
    exact hlen

/-! ### The two handlers -/

/-- From `fs` to `fs'` no inode number is given back, and no VFS inode is tied to another slot. -/
structure Keeps (fs fs' : Fs) : Prop where
  metadata : Metadata fs'.sb
  bits : ∀ k, fs.sb.inodeBitmap k = true → fs'.sb.inodeBitmap k = true
  count : fs.icache.count ≤ fs'.icache.count
  slot : ∀ p, p < fs.icache.count →
    (fs'.icache.inode p).iPrivate = (fs.icache.inode p).iPrivate

theorem slotWithExtent_bits (sb : OsfsSbInfo) (k : ℕ) (oi : OsfsInode) (n : ℕ) :
    (slotWithExtent sb k oi n).inodeBitmap = sb.inodeBitmap := by
  unfold slotWithExtent osfsAllocExtent
  cases (sb.setOsfsInode k oi).blockBitmap.findRun n 0 _ <;> rfl

/-- An entry changes the data area and the size of the parent. -/
theorem Metadata.appendEntry (h : Metadata sb) (parent ino : ℕ) (name : Bytes) :
    Metadata (appendEntry sb parent ino name).2 := h.setSlot _ (Or.inl rfl)

theorem Metadata.create {fs : Fs} (h : Metadata fs.sb) (env : Env) (dir : InodePtr) (dentry : Qstr)
    (mode : UMode) {ino : ℕ} (hnext : fs.sb.nextInode = some ino) :
    let fs' : Fs :=
      { sb := (Optimize.appendEntry (fs.sb.withFile ino mode) (fs.icache.inode dir).iPrivate ino
          dentry.name).2
        icache := fs.icache.push (newVfsInode env ino ino mode) }
    Keeps fs fs' ∧ fs'.sb.Allocated (fs'.icache.inode fs.icache.count).iPrivate := by
  obtain ⟨-, hlt, hfree⟩ := nextInode_some h.inodes hnext
  rw [← h.inodes] at hlt
  have hclaim := h.claimInode hlt hfree
  have hused : (fs.sb.claimInode ino).inodeBitmap ino = true := claimInode_used fs.sb ino
  have hnone : ((fs.sb.claimInode ino).inodeTable ino).iExtent.eeLen = 0 :=
    h.unused ino fun ha => Bool.false_ne_true (hfree.symm.trans ha.2)
  have hfile : Metadata (fs.sb.withFile ino mode) :=
    hclaim.slotWithExtent ⟨hlt, hused⟩ hnone rfl (by decide)
  have hbits : (fs.sb.withFile ino mode).inodeBitmap = fs.sb.inodeBitmap.set ino :=
    slotWithExtent_bits ..
  have hentry := hfile.appendEntry (fs.icache.inode dir).iPrivate ino dentry.name
  refine ⟨⟨hentry, fun k hk => ?_, Nat.le_succ _, fun p hp => ?_⟩, ?_⟩
  · change (fs.sb.withFile ino mode).inodeBitmap k = true
    rw [hbits]
    exact fs.sb.inodeBitmap.set_of_true ino hk
  · dsimp only
    rw [Icache.push_ne _ _ (Nat.ne_of_lt hp)]
  · dsimp only
    rw [Icache.push_same]
    refine ⟨?_, ?_⟩
    · rw [hentry.inodes, ← h.inodes]
      exact hlt
    · change (fs.sb.withFile ino mode).inodeBitmap ino = true
      rw [hbits]
      exact Bitmap.set_self _ _

theorem osfsWriteExtent_metadata (h : Metadata sb) (hk : sb.Allocated k)
    (hw : osfsWriteExtent sb k = some sb') : Metadata sb' ∧ sb'.inodeBitmap = sb.inodeBitmap := by
  unfold osfsWriteExtent at hw
  split at hw
  · rename_i hlen
    rw [Option.map_eq_some_iff] at hw
    obtain ⟨⟨i, sb₁⟩, halloc, rfl⟩ := hw
    obtain ⟨rfl, hle, hfree⟩ := osfsAllocExtent_some h.blocks (by decide) halloc
    rw [← h.blocks] at hle
    exact ⟨h.giveExtent hk hlen hle hfree rfl, rfl⟩
  · obtain rfl := Option.some.inj hw
    exact ⟨h, rfl⟩

theorem osfsWriteUpdate_keeps (fs : Fs) (h : Metadata fs.sb) (inode : InodePtr) (ppos : ℕ) :
    Keeps fs (osfsWriteUpdate fs inode ppos) := by
  unfold osfsWriteUpdate
  dsimp only
  split
  · refine ⟨h.setSlot fs.sb.dataBlocks (Or.inl rfl), fun _ hk => hk, Nat.le_refl _, fun p _ => ?_⟩
    by_cases hp : p = inode
    · subst hp
      dsimp only
      rw [Icache.set_same]
    · dsimp only
      rw [Icache.set_ne _ _ hp]
  · exact ⟨h, fun _ hk => hk, Nat.le_refl _, fun _ _ => rfl⟩

/-- A write to an allocated inode keeps the metadata, whatever it returns. -/
theorem osfsWrite_keeps {fs : Fs} (h : Metadata fs.sb) {inode : InodePtr}
    (hk : fs.sb.Allocated (fs.icache.inode inode).iPrivate) (buf : Bytes) (len ppos : ℕ) :
    Keeps fs (osfsWrite fs inode buf len ppos).2.2.2 := by
  unfold osfsWrite
  dsimp only
  cases hext : osfsWriteExtent fs.sb (fs.icache.inode inode).iPrivate with
  | none => exact ⟨h, fun _ hk => hk, Nat.le_refl _, fun _ _ => rfl⟩
  | some sb =>
    obtain ⟨hsb, hbits⟩ := osfsWriteExtent_metadata h hk hext
    dsimp only
    generalize copyFromUser sb.dataBlocks _ buf _ = copied
    obtain ⟨left, data⟩ := copied
    cases left with
    | zero =>
      have hu := osfsWriteUpdate_keeps ⟨{ sb with dataBlocks := data }, fs.icache⟩
        (hsb.setData data) inode
        (ppos + clipLen (sb.extentBytes (fs.icache.inode inode).iPrivate) ppos len)
      refine ⟨hu.metadata, fun k hk => hu.bits k ?_, hu.count, hu.slot⟩
      change sb.inodeBitmap k = true
      rw [hbits]
      exact hk
    | succ left =>
      refine ⟨hsb.setData data, fun k hk => ?_, Nat.le_refl _, fun _ _ => rfl⟩
      change sb.inodeBitmap k = true
      rw [hbits]
      exact hk

theorem osfsWrite_noSpace {fs : Fs} {inode : InodePtr} {buf : Bytes} {len ppos : ℕ}
    (h : (osfsWrite fs inode buf len ppos).1 = .error .ENOSPC) :
    (osfsWrite fs inode buf len ppos).2.2.2 = fs := by
  unfold osfsWrite at h ⊢
  dsimp only at h ⊢
  cases hext : osfsWriteExtent fs.sb (fs.icache.inode inode).iPrivate with
  | none => rfl
  | some sb =>
    rw [hext] at h
    dsimp only at h
    generalize copyFromUser sb.dataBlocks _ buf _ = copied at h
    obtain ⟨left, data⟩ := copied
    cases left with
    | zero => exact absurd h (by simp)
    | succ left => exact absurd h (by simp)

/-! ### Runs of creates and writes -/

/- `handed` lists the inodes that `osfs_create` has handed out; no handler reads it. -/
structure Direct where
  fs : Fs
  handed : List InodePtr

inductive Call where
  | create (dir : InodePtr) (dentry : Qstr) (mode : UMode) (env : Env)
  | write (inode : InodePtr) (buf : Bytes) (len ppos : ℕ)

inductive Answer where
  | notHanded
  | created (r : CreateResult)
  | written (r : Except Errno ℕ)

/- `new_inode` succeeds. -/
def served (env : Env) : Env := { env with newInodeOk := true }

def directStep (s : Direct) : Call → Answer × Direct
  | .create dir dentry mode env =>
    let r := osfsCreate (served env) s.fs dir dentry mode
    match r.1 with
    | .created p => (.created r.1, ⟨r.2.2, p :: s.handed⟩)
    | _ => (.created r.1, ⟨r.2.2, s.handed⟩)
  | .write inode buf len ppos =>
    if inode ∈ s.handed then
      let r := osfsWrite s.fs inode buf len ppos
      (.written r.1, { s with fs := r.2.2.2 })
    else (.notHanded, s)

def direct : Machine Direct Call Answer := ⟨directStep⟩

/- The answer is `-ENOSPC`. -/
def Answer.NoSpace : Answer → Prop
  | .created .noSpace => True
  | .written (.error .ENOSPC) => True
  | _ => False

theorem noSpace_written {r : Except Errno ℕ} :
    (Answer.written r).NoSpace ↔ r = .error .ENOSPC := by
  cases r with
  | ok n => simp [Answer.NoSpace]
  | error e => cases e <;> simp [Answer.NoSpace]

structure DirectInv (s : Direct) : Prop where
  metadata : Metadata s.fs.sb
  handed : ∀ p ∈ s.handed,
    p < s.fs.icache.count ∧ s.fs.sb.Allocated (s.fs.icache.inode p).iPrivate

theorem Keeps.handed {s : Direct} (h : DirectInv s) {fs' : Fs} (hk : Keeps s.fs fs') :
    ∀ p ∈ s.handed, p < fs'.icache.count ∧ fs'.sb.Allocated (fs'.icache.inode p).iPrivate := by
  intro p hp
  obtain ⟨hlt, hall⟩ := h.handed p hp
  refine ⟨Nat.lt_of_lt_of_le hlt hk.count, ?_⟩
  rw [hk.slot p hlt]
  refine ⟨?_, hk.bits _ hall.2⟩
  rw [hk.metadata.inodes, ← h.metadata.inodes]
  exact hall.1

/-- Every call keeps the invariant, and one that answers `-ENOSPC` changes nothing. -/
theorem DirectInv.step {s : Direct} (h : DirectInv s) (c : Call) :
    DirectInv (direct.next s c) ∧ ((direct.resp s c).NoSpace → direct.next s c = s) := by
  cases c with
  | create dir dentry mode env =>
    have hout := osfsCreate_outcome h.metadata.inodes (served env) dir dentry mode
    simp only [Machine.next, Machine.resp, direct, directStep]
    generalize osfsCreate (served env) s.fs dir dentry mode = r at hout
    cases hout with
    | full _ => exact ⟨h, fun _ => rfl⟩
    | oops _ _ hok => exact absurd hok (by simp [served])
    | created ino hnext _ =>
      obtain ⟨hkeeps, hnew⟩ := h.metadata.create (served env) dir dentry mode hnext
      refine ⟨⟨hkeeps.metadata, fun p hp => ?_⟩, fun hf => absurd hf id⟩
      rcases List.mem_cons.mp hp with rfl | hp
      · exact ⟨Nat.lt_succ_self _, hnew⟩
      · exact hkeeps.handed h p hp
  | write inode buf len ppos =>
    simp only [Machine.next, Machine.resp, direct, directStep]
    split
    · rename_i hin
      have hkeeps := osfsWrite_keeps h.metadata (h.handed inode hin).2 buf len ppos
      refine ⟨⟨hkeeps.metadata, hkeeps.handed h⟩, fun hno => ?_⟩
      dsimp only
      rw [osfsWrite_noSpace (noSpace_written.mp hno)]
    · exact ⟨h, fun hf => absurd hf id⟩

/-! ### Mounting -/

theorem bareSbInfo_metadata : Metadata bareSbInfo := by
  have hnone (k b : ℕ) : ¬ bareSbInfo.Owns k b := not_owns_of_empty rfl b
  refine ⟨⟨by decide, by decide⟩, fun k b _ hb => absurd hb (hnone k b),
    fun j k b _ _ hb _ => absurd hb (hnone j b), fun b => ⟨fun hb => Bool.noConfusion hb,
      fun ⟨k, _, hb⟩ => absurd hb (hnone k b)⟩, ?_, ?_, fun _ _ => rfl, rfl, rfl⟩
  · exact (Bitmap.clearCount_empty DATA_BLOCK_COUNT).symm
  · have hcount := Bitmap.empty.clearCount_set (i := ROOT_INODE) (n := INODE_COUNT) (by decide) rfl
    rw [Bitmap.clearCount_empty] at hcount
    exact Nat.succ.inj hcount.symm

/- A mount that succeeded. -/
def DirectMounted (s : Direct) : Prop :=
  ∃ env vmallocOk dMakeRootOk,
    osfsFillSuper env vmallocOk dMakeRootOk = .ok s.fs ∧ s.handed = []

theorem DirectMounted.inv {s : Direct} (h : DirectMounted s) : DirectInv s := by
  obtain ⟨env, vmallocOk, dMakeRootOk, hfill, hhanded⟩ := h
  refine ⟨?_, fun p hp => ?_⟩
  · rw [(osfsFillSuper_ok hfill).1]
    exact bareSbInfo_metadata.slotWithExtent bareSbInfo_metadata.root rfl rfl (by decide)
  · rw [hhanded] at hp
    exact absurd hp List.not_mem_nil

/-- After any creates and writes the metadata is consistent, and a further call that answers
`-ENOSPC` changes nothing. -/
theorem run_metadata {s : Direct} (h : DirectMounted s) (cs : List Call) :
    Metadata (direct.run s cs).fs.sb ∧
      ∀ c, (direct.resp (direct.run s cs) c).NoSpace →
        direct.next (direct.run s cs) c = direct.run s cs := by
  have hinv := direct.run_invariant_all (P := DirectInv) (fun _ c hs => (hs.step c).1) cs h.inv
  exact ⟨hinv.metadata, fun c => (hinv.step c).2⟩

/- A file is created and written. -/
def createWrite : List Call := [.create 0 (Qstr.ofBytes [97]) S_IFREG plainEnv, .write 1 [1, 2] 2 0]

theorem run_metadata_freshMount :
    Metadata (direct.run ⟨freshMount.fs, []⟩ createWrite).fs.sb ∧
      ∀ c, (direct.resp (direct.run ⟨freshMount.fs, []⟩ createWrite) c).NoSpace →
        direct.next (direct.run ⟨freshMount.fs, []⟩ createWrite) c =
          direct.run ⟨freshMount.fs, []⟩ createWrite :=
  run_metadata ⟨plainEnv, true, true, rfl, rfl⟩ createWrite

end OSLab.Optimize
