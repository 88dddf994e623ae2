import OSLab.Done.Store
import OSLab.Done.Tree

/-!
# The nodes of the tree in the inode table and the data area

What is behind an inode number, what the handlers do to it, and which slots
the live VFS inodes point to.
-/

namespace OSLab.Done
open OSLab.Base OSLab.Kernel

/-! ### The node behind an inode number -/

def OsfsSbInfo.nodeAt (sb : OsfsSbInfo) (k : ℕ) : Node :=
  if sIsDir (sb.inodeTable k).iMode then .dir (sb.dirEntries k)
  else if sIsReg (sb.inodeTable k).iMode then
    .file (sb.dataBlocks.load (sb.blockAddr k) BLOCK_SIZE) (sb.inodeTable k).iSize
  else .symlink

open Classical in
noncomputable def OsfsSbInfo.nodeOf (sb : OsfsSbInfo) (k : ℕ) : Option Node :=
  if k = ROOT_INODE ∨ sb.Named k then some (sb.nodeAt k) else none

theorem nodeAt_dir {sb : OsfsSbInfo} {k : ℕ} (h : sIsDir (sb.inodeTable k).iMode = true) :
    sb.nodeAt k = .dir (sb.dirEntries k) := if_pos h

theorem nodeAt_file {sb : OsfsSbInfo} {k : ℕ} (h : sIsReg (sb.inodeTable k).iMode = true) :
    sb.nodeAt k = .file (sb.dataBlocks.load (sb.blockAddr k) BLOCK_SIZE) (sb.inodeTable k).iSize := by
  unfold OsfsSbInfo.nodeAt
  rw [if_neg (by rw [sIsReg_not_dir h]; exact Bool.false_ne_true), if_pos h]

theorem nodeOf_some {sb : OsfsSbInfo} {k : ℕ} (h : k = ROOT_INODE ∨ sb.Named k) :
    sb.nodeOf k = some (sb.nodeAt k) := if_pos h

theorem nodeOf_none {sb : OsfsSbInfo} {k : ℕ} (h : ¬ (k = ROOT_INODE ∨ sb.Named k)) :
    sb.nodeOf k = none := if_neg h

theorem nodeOf_ne_none {sb : OsfsSbInfo} {k : ℕ} (h : sb.nodeOf k ≠ none) :
    k = ROOT_INODE ∨ sb.Named k := by
  by_contra hn
  exact h (nodeOf_none hn)

theorem SbInv.known_formatted {sb : OsfsSbInfo} (h : SbInv sb) {k : ℕ}
    (hk : k = ROOT_INODE ∨ sb.Named k) : Formatted sb k := by
  rcases hk with rfl | hk
  · exact h.root
  · exact h.named_formatted hk

/-- A slot whose number, mode, size and block stay is the same node, if its entries and bytes do. -/
theorem nodeAt_congr {sb sb' : OsfsSbInfo} {k : ℕ} (htab : sb'.inodeTable k = sb.inodeTable k)
    (hdir : sIsDir (sb.inodeTable k).iMode = true → sb'.dirEntries k = sb.dirEntries k)
    (hload : sb'.dataBlocks.load (sb.blockAddr k) BLOCK_SIZE =
      sb.dataBlocks.load (sb.blockAddr k) BLOCK_SIZE) : sb'.nodeAt k = sb.nodeAt k := by
  have haddr : sb'.blockAddr k = sb.blockAddr k := blockAddr_congr (by rw [htab])
  unfold OsfsSbInfo.nodeAt
  rw [htab, haddr, hload]
  by_cases hd : sIsDir (sb.inodeTable k).iMode = true
  · rw [if_pos hd, if_pos hd, hdir hd]
  · rw [if_neg hd, if_neg hd]

theorem SbInv.nodeAt_formatInode {sb : OsfsSbInfo} (h : SbInv sb) {oi : OsfsInode} (b : ℕ)
    (hs : NewSlot sb oi) {k : ℕ} (hk : Formatted sb k) :
    (sb.formatInode oi b).nodeAt k = sb.nodeAt k :=
  nodeAt_congr (formatInode_table_ne sb oi b (h.format_ne hs hk))
    (fun hd => (h.format_dir hs hk hd).2) rfl

theorem SbInv.nodeAt_setSlot {sb : OsfsSbInfo} (h : SbInv sb) {j : ℕ} {oi : OsfsInode} {data : Mem}
    (hc : SlotChange sb j oi data) {k : ℕ} (hk : Formatted sb k) (hne : k ≠ j) :
    (sb.setSlot j oi data).nodeAt k = sb.nodeAt k := by
  refine nodeAt_congr (setSlot_table_ne sb oi data hne)
    (fun hd => (h.setSlot_dir_ne hc hk hd hne).2) ?_
  apply Mem.load_congr
  intro i hi
  apply h.setSlot_data_ne hc hk hne
  rw [blockAddr_eq (h.blockLt k hk)]
  unfold InBlock
  omega

/-! ### What the handlers do to the nodes -/

theorem nodeOf_withNewInode {fs : Fs} (h : FsInv fs) (env : Env) (dir : InodePtr) (mode : UMode)
    {ino b : ℕ} (hf : Fresh fs.sb ino b) :
    (fs.withNewInode env dir mode ino b).sb.nodeOf = fs.sb.nodeOf := by
  have hnamed := named_congr (dirLog_withNewInode h env dir mode hf)
  funext k
  by_cases hk : k = ROOT_INODE ∨ fs.sb.Named k
  · rw [nodeOf_some hk, nodeOf_some (hk.imp_right (hnamed k).mpr)]
    exact congrArg some (h.sb.nodeAt_formatInode b (hf.newSlot env dir mode) (h.sb.known_formatted hk))
  · rw [nodeOf_none hk, nodeOf_none (fun hk' => hk (hk'.imp_right (hnamed k).mp))]

/-- A slot that has just been formatted is an empty directory, or a file with a block of zeros. -/
theorem nodeAt_new {fs : Fs} (h : FsInv fs) (env : Env) (dir : InodePtr) (mode : UMode) {ino b : ℕ}
    (hf : Fresh fs.sb ino b) :
    (fs.withNewInode env dir mode ino b).sb.nodeAt ino = Node.new mode := by
  have hs := hf.newSlot env dir mode
  have htab : (fs.withNewInode env dir mode ino b).sb.inodeTable ino =
      { createdSlot env (fs.icache.inode dir) ino mode with iBlock := b } :=
    formatInode_table_self fs.sb (createdSlot env (fs.icache.inode dir) ino mode) b
  obtain ⟨hdir, hreg⟩ := createdSlot_dir env (fs.icache.inode dir) ino mode
  unfold OsfsSbInfo.nodeAt Node.new
  rw [htab]
  dsimp only
  rw [hdir, hreg]
  by_cases hd : sIsDir mode = true
  · have hcnt : (fs.withNewInode env dir mode ino b).sb.dirEntryCount ino = 0 :=
      format_dirEntryCount_self hs
    have hnil : (fs.withNewInode env dir mode ino b).sb.dirEntries ino = [] := by
      apply List.length_eq_zero_iff.mp
      rw [dirEntries_length, hcnt]
    rw [if_pos hd, if_pos hd, hnil]
  · rw [if_neg hd, if_neg hd]
    by_cases hr : sIsReg mode = true
    · have hblock : ((fs.withNewInode env dir mode ino b).sb.inodeTable ino).iBlock = b := by
        rw [htab]
      have haddr : (fs.withNewInode env dir mode ino b).sb.blockAddr ino = b * BLOCK_SIZE := by
        rw [blockAddr_eq (by rw [hblock]; exact hf.blockLt), hblock]
      have hzero : fs.sb.dataBlocks.load (b * BLOCK_SIZE) BLOCK_SIZE =
          List.replicate BLOCK_SIZE 0 := by
        apply List.ext_getElem
        · rw [Mem.load_length, List.length_replicate]
        · intro i h1 h2
          rw [Mem.load_length] at h1
          rw [Mem.load_getElem, List.getElem_replicate]
          exact h.sb.freeZero b hf.blockFree i h1
      rw [if_pos hr, if_pos hr, haddr, hs.size]
      exact congrArg (Node.file · 0) hzero
    · rw [if_neg hr, if_neg hr]

/-- A new entry: the node it names, and the directory with it. -/
theorem nodeOf_withEntry {fs : Fs} (h : FsInv fs) {env : Env} {dir : InodePtr} {mode : UMode}
    {dentry : Qstr} {ino b : ℕ} (hdir : fs.isDirInode dir = true)
    (hknown : (fs.icache.inode dir).iPrivate = ROOT_INODE ∨
      fs.sb.Named (fs.icache.inode dir).iPrivate)
    (hlen : dentry.len ≤ MAX_FILENAME_LEN) (hf : Fresh fs.sb ino b)
    (hent : ¬ EntryRefused fs.sb (fs.icache.inode dir).iPrivate dentry.name) :
    ((fs.withNewInode env dir mode ino b).withEntry dir ino dentry.name).sb.nodeOf =
      Function.update (Function.update fs.sb.nodeOf ino (some (.new mode)))
        (fs.icache.inode dir).iPrivate
        (some (.dir (fs.sb.dirEntries (fs.icache.inode dir).iPrivate ++ [(dentry.name, ino)]))) := by
  obtain ⟨_, hd, hmode⟩ := h.isDir hdir
  obtain ⟨hpriv, _, hc⟩ := withNewInode_canEnter h env mode hdir hlen hf hent
  have hinv := h.withNewInode env dir mode hf
  rw [hpriv] at hc
  have hsb : ((fs.withNewInode env dir mode ino b).withEntry dir ino dentry.name).sb =
      (fs.withNewInode env dir mode ino b).sb.addEntry (fs.icache.inode dir).iPrivate ino
        dentry.name := by
    unfold Fs.withEntry
    rw [hpriv]
  have hold := nodeOf_withNewInode h env dir mode hf
  have hnew := nodeAt_new h env dir mode hf
  have hents := (withNewInode_dir env dir mode h hf hd hmode).2.1
  have hadded := named_addEntry hinv.sb hc
  have hsame := named_congr (dirLog_withNewInode h env dir mode hf)
  have hchange := addEntry_change ino hinv.sb hc.formatted hc.short hc.room
  have hok := hinv.sb.dir _ hc.formatted hc.dir
  have hlt := hf.inoLt
  unfold INODE_COUNT at hlt
  rw [hsb]
  funext k
  by_cases hkd : k = (fs.icache.inode dir).iPrivate
  · have hdir' : sIsDir (((fs.withNewInode env dir mode ino b).sb.addEntry k ino
        dentry.name).inodeTable k).iMode = true := by
      rw [hkd, show (((fs.withNewInode env dir mode ino b).sb.addEntry _ ino
        dentry.name).inodeTable (fs.icache.inode dir).iPrivate).iMode = _ from (hchange.keep _).2.2.1]
      exact hc.dir
    rw [← hkd] at hknown hents hadded hok hc ⊢
    rw [Function.update_self, nodeOf_some (hknown.imp_right fun hn => (hadded k).mpr
      (.inl ((hsame k).mpr hn))), nodeAt_dir hdir', ← hents,
      addEntry_dirEntries hok hc.room hc.noNul hc.short (by omega)]
  · rw [Function.update_of_ne hkd]
    by_cases hki : k = ino
    · subst hki
      rw [Function.update_self, nodeOf_some (.inr ((hadded k).mpr (.inr rfl))), ← hnew]
      exact congrArg some (hinv.sb.nodeAt_setSlot hchange hc.target hkd)
    · rw [Function.update_of_ne hki, ← hold]
      have hiff := hadded k
      by_cases hk : k = ROOT_INODE ∨ (fs.withNewInode env dir mode ino b).sb.Named k
      · rw [nodeOf_some hk, nodeOf_some (hk.imp_right fun hn => hiff.mpr (.inl hn))]
        exact congrArg some (hinv.sb.nodeAt_setSlot hchange (hinv.sb.known_formatted hk) hkd)
      · rw [nodeOf_none hk, nodeOf_none]
        exact fun hk' => hk (hk'.imp_right fun hn => (hiff.mp hn).resolve_right hki)

/-- A change of a file's slot and block changes its node. -/
theorem nodeOf_setFile {sb : OsfsSbInfo} (h : SbInv sb) {k : ℕ} (hs : FileSlot sb k)
    (hknown : k = ROOT_INODE ∨ sb.Named k) {oi : OsfsInode} {data : Mem}
    (hc : SlotChange sb k oi data) :
    (sb.setSlot k oi data).nodeOf = Function.update sb.nodeOf k
      (some (.file (data.load (sb.blockAddr k) BLOCK_SIZE) oi.iSize)) := by
  have hnamed := named_congr (dirLog_setFile h hs hc)
  funext j
  by_cases hj : j = k
  · subst hj
    have hreg : sIsReg ((sb.setSlot j oi data).inodeTable j).iMode = true := by
      rw [setSlot_table_self, hc.mode]
      exact hs.reg
    have haddr : (sb.setSlot j oi data).blockAddr j = sb.blockAddr j :=
      blockAddr_congr (hc.keep j).1
    rw [Function.update_self, nodeOf_some (hknown.imp_right (hnamed j).mpr), nodeAt_file hreg,
      haddr, setSlot_table_self]
    rfl
  · rw [Function.update_of_ne hj]
    by_cases hk : j = ROOT_INODE ∨ sb.Named j
    · rw [nodeOf_some hk, nodeOf_some (hk.imp_right (hnamed j).mpr)]
      exact congrArg some (h.nodeAt_setSlot hc (h.known_formatted hk) hj)
    · rw [nodeOf_none hk, nodeOf_none (fun hk' => hk (hk'.imp_right (hnamed j).mp))]

/-! ### The live VFS inodes -/

def Fs.live (fs : Fs) (p : InodePtr) : Option ℕ :=
  if (fs.icache.inode p).iPrivate = 0 then none else some (fs.icache.inode p).iPrivate

theorem live_congr {fs fs' : Fs} {p : InodePtr}
    (h : (fs'.icache.inode p).iPrivate = (fs.icache.inode p).iPrivate) :
    fs'.live p = fs.live p := by
  unfold Fs.live
  rw [h]

theorem live_set {fs : Fs} {p : InodePtr} {inode : Inode} {sb : OsfsSbInfo}
    (h : inode.iPrivate = (fs.icache.inode p).iPrivate) :
    Fs.live ⟨sb, fs.icache.set p inode⟩ = fs.live := by
  funext q
  apply live_congr
  by_cases hq : q = p
  · subst hq
    exact (congrArg Inode.iPrivate (Icache.set_same ..)).trans h
  · exact congrArg Inode.iPrivate (fs.icache.set_ne _ hq)

theorem live_withEntry (fs : Fs) (dir : InodePtr) (ino : ℕ) (name : Bytes) :
    (fs.withEntry dir ino name).live = fs.live := by
  unfold Fs.withEntry
  exact live_set rfl

theorem live_push (fs : Fs) (sb : OsfsSbInfo) {inode : Inode} (h : inode.iPrivate ≠ 0) :
    Fs.live ⟨sb, fs.icache.push inode⟩ =
      Function.update fs.live fs.icache.count (some inode.iPrivate) := by
  funext q
  by_cases hq : q = fs.icache.count
  · subst hq
    rw [Function.update_self]
    unfold Fs.live
    rw [show (fs.icache.push inode).inode fs.icache.count = inode from Icache.push_same ..]
    exact if_neg h
  · rw [Function.update_of_ne hq]
    exact live_congr (congrArg Inode.iPrivate (fs.icache.push_ne _ hq))

theorem live_iput (fs : Fs) (p : InodePtr) : (iput fs p).live = Function.update fs.live p none := by
  funext q
  by_cases hq : q = p
  · subst hq
    rw [Function.update_self]
    apply if_pos
    rw [show (iput fs q).icache.inode q = _ from Icache.set_same ..]
    exact osfsDestroyInode_private _
  · rw [Function.update_of_ne hq]
    exact live_congr (congrArg Inode.iPrivate (fs.icache.set_ne _ hq))

theorem FsInv.live_fresh {fs : Fs} (h : FsInv fs) : fs.live fs.icache.count = none := by
  apply if_pos
  by_contra h0
  exact Nat.lt_irrefl _ (h.inodes _ h0).1

end OSLab.Done
