import OSLab.Optimize.Entries

/-!
# What `osfs_create` does

The outcomes of `osfs_create`: no inode number is free, `new_inode` fails and
the number stays taken, or the file gets a slot and its parent an entry.
-/

namespace OSLab.Optimize
open OSLab.Base OSLab.Kernel

variable {sb sb' : OsfsSbInfo} {k : ℕ}

/-- `sb'` is `sb` with a new slot `k` of size 0, whose extent is zero if it has one. -/
structure NewSlot (sb sb' : OsfsSbInfo) (k : ℕ) (mode : UMode) : Prop where
  layout : Layout sb'
  table : ∀ j, j ≠ k → sb'.inodeTable j = sb.inodeTable j
  bits : sb'.inodeBitmap = sb.inodeBitmap
  data : sb'.dataBlocks = sb.dataBlocks
  empty : (sb'.inodeTable k).iSize = 0
  mode : (sb'.inodeTable k).iMode = mode
  zero : ∀ x, sb'.InExtent k x → sb'.dataBlocks x = 0

theorem slotWithExtent_newSlot (h : Layout sb) (hk : sb.inodeBitmap k = true) {oi : OsfsInode}
    (hlen : oi.iExtent.eeLen = 0) (hsize : oi.iSize = 0) {n : ℕ} (hn : n ≤ DATA_BLOCK_COUNT) :
    NewSlot sb (slotWithExtent sb k oi n) k oi.iMode := by
  have hreset := h.resetSlot hk hlen hsize
  unfold slotWithExtent
  cases halloc : osfsAllocExtent (sb.setOsfsInode k oi) n with
  | none =>
    refine ⟨hreset, fun j hj => setOsfsInode_ne _ _ hj, rfl, rfl, ?_, ?_, fun x hx => ?_⟩
    · rw [setOsfsInode_self]
      exact hsize
    · rw [setOsfsInode_self]
    · unfold OsfsSbInfo.InExtent at hx
      rw [hreset.extentBytes_eq k, setOsfsInode_self, hlen] at hx
      omega
  | some r =>
    obtain ⟨i, sb₁⟩ := r
    obtain ⟨rfl, hle, hfree⟩ := osfsAllocExtent_some hreset.blocks hn halloc
    let oi' := { oi with iExtent := ⟨i, n⟩, iBlocks := n }
    have hgive := hreset.giveExtent hk hle hfree (Eq.refl oi'.iExtent) hsize
    refine ⟨hgive, fun j hj => ?_, rfl, rfl, ?_, ?_, fun x hx => ?_⟩
    · rw [setOsfsInode_ne _ _ hj]
      exact setOsfsInode_ne _ _ hj
    · rw [setOsfsInode_self]
      exact hsize
    · rw [setOsfsInode_self]
    · have hown := hgive.inExtent_iff.mp hx
      unfold OsfsSbInfo.Owns at hown
      rw [setOsfsInode_self] at hown
      exact h.zero x (hfree _ hown.1 hown.2)

theorem NewSlot.dirOk {mode : UMode} (h : NewSlot sb sb' k mode) : DirOk sb' k [] := by
  refine ⟨?_, fun i m hm => ?_, fun x h1 h2 => ?_⟩
  · rw [h.empty]
    rfl
  · rw [List.getElem?_nil] at hm
    contradiction
  · apply h.zero
    unfold OsfsSbInfo.InExtent
    omega

theorem NewSlot.content {mode : UMode} (h : NewSlot sb sb' k mode) : sb'.content k = [] := by
  unfold OsfsSbInfo.content
  rw [h.empty]
  rfl

/-- With a number that was free, the new slot is a change of this slot alone. -/
theorem NewSlot.changes {mode : UMode} (h : NewSlot (sb.claimInode k) sb' k mode)
    (hk : sb.inodeBitmap k = false) : Changes sb sb' k where
  layout := h.layout
  table := h.table
  data x _ := congrFun h.data x
  bits j hj := by
    rw [h.bits]
    exact sb.inodeBitmap.set_of_true k hj
  mode hk' := absurd (hk.symm.trans hk') (by decide)

theorem claimInode_used (sb : OsfsSbInfo) (k : ℕ) : (sb.claimInode k).inodeBitmap k = true :=
  sb.inodeBitmap.set_self k

/- The lowest inode number that is free. -/
def OsfsSbInfo.nextInode (sb : OsfsSbInfo) : Option ℕ :=
  sb.inodeBitmap.findClear 1 (sb.inodeCount - 1)

theorem osfsGetFreeInode_eq (sb : OsfsSbInfo) :
    osfsGetFreeInode sb = sb.nextInode.map fun ino => (ino, sb.claimInode ino) := rfl

theorem nextInode_some (h : sb.inodeCount = INODE_COUNT) {ino : ℕ} (hi : sb.nextInode = some ino) :
    0 < ino ∧ ino < INODE_COUNT ∧ sb.inodeBitmap ino = false := by
  obtain ⟨h1, h2, h3, -⟩ := Bitmap.findClear_some hi
  rw [h] at h2
  unfold INODE_COUNT at h2 ⊢
  exact ⟨h1, by omega, h3⟩

theorem osfsGetOsfsInode_eq (h : sb.inodeCount = INODE_COUNT) {ino : ℕ} (h0 : 0 < ino)
    (hlt : ino < INODE_COUNT) : osfsGetOsfsInode sb ino = some ino := by
  unfold osfsGetOsfsInode
  rw [h, if_neg (by omega)]

/- The superblock after the slot of the new file is set. -/
def OsfsSbInfo.withFile (sb : OsfsSbInfo) (ino : ℕ) (mode : UMode) : OsfsSbInfo :=
  initSlot (sb.claimInode ino) ino ino mode

theorem withFile_newSlot (h : Layout sb) (mode : UMode) :
    NewSlot (sb.claimInode k) (sb.withFile k mode) k mode :=
  slotWithExtent_newSlot (h.claimInode k) (claimInode_used sb k) rfl rfl (by decide)

inductive CreateOutcome (env : Env) (fs : Fs) (dir : InodePtr) (dentry : Qstr) (mode : UMode) :
    CreateResult × List ByteStore × Fs → Prop where
  | full : fs.sb.nextInode = none → CreateOutcome env fs dir dentry mode (.noSpace, [], fs)
  | oops (ino : ℕ) : fs.sb.nextInode = some ino → env.newInodeOk = false →
      CreateOutcome env fs dir dentry mode (.oops, [], { fs with sb := fs.sb.claimInode ino })
  | created (ino : ℕ) : fs.sb.nextInode = some ino → env.newInodeOk = true →
      CreateOutcome env fs dir dentry mode
        (.created fs.icache.count,
          (appendEntry (fs.sb.withFile ino mode) (fs.icache.inode dir).iPrivate ino dentry.name).1,
          { sb := (appendEntry (fs.sb.withFile ino mode) (fs.icache.inode dir).iPrivate ino
              dentry.name).2
            icache := fs.icache.push (newVfsInode env ino ino mode) })

theorem osfsCreate_outcome {fs : Fs} (h : fs.sb.inodeCount = INODE_COUNT) (env : Env)
    (dir : InodePtr) (dentry : Qstr) (mode : UMode) :
    CreateOutcome env fs dir dentry mode (osfsCreate env fs dir dentry mode) := by
  have hget := osfsGetFreeInode_eq fs.sb
  cases hnext : fs.sb.nextInode with
  | none =>
    rw [hnext] at hget
    simp only [osfsCreate, hget, Option.map_none]
    exact .full hnext
  | some ino =>
    rw [hnext] at hget
    obtain ⟨h0, hlt, -⟩ := nextInode_some h hnext
    have hslot : osfsGetOsfsInode (fs.sb.claimInode ino) ino = some ino :=
      osfsGetOsfsInode_eq h h0 hlt
    cases hok : env.newInodeOk with
    | false =>
      simp only [osfsCreate, hget, Option.map_some, newInode_fails hok]
      exact .oops ino hnext hok
    | true =>
      simp only [osfsCreate, hget, Option.map_some, newInode_ok hok, hslot, Icache.push_set]
      exact .created ino hnext hok

end OSLab.Optimize
