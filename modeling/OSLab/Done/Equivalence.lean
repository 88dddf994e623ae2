import OSLab.Done.Growth
import OSLab.Done.Nodes
import OSLab.Done.Refinement

/-!
# The mounted file system is the tree

Bitmaps, counters, inode table and data area of a state hold what the tree
holds, and every request keeps it so: both answer every run alike.
-/

namespace OSLab.Done
open OSLab.Base OSLab.Kernel

structure Shows (s : Sys) (t : Tree) : Prop where
  node : t.node = s.fs.sb.nodeOf
  inode : t.inode = s.fs.live
  count : t.count = s.fs.icache.count
  files : t.files = s.files
  ledger : Ledger s.fs.sb t.taken t.made

structure TreeSim (s : Sys) (t : Tree) : Prop where
  inv : SysInv s
  shows : Shows s t
  ok : t.Ok

section Sim
variable {s : Sys} {t : Tree}

theorem TreeSim.known (h : TreeSim s t) {p : InodePtr}
    (hp : (s.fs.icache.inode p).iPrivate ≠ 0) :
    (s.fs.icache.inode p).iPrivate = ROOT_INODE ∨ s.fs.sb.Named (s.fs.icache.inode p).iPrivate := by
  have hlive : t.inode p = some (s.fs.icache.inode p).iPrivate := by
    rw [h.shows.inode]
    exact if_neg hp
  have hnode := h.ok.linked p _ hlive
  rw [h.shows.node] at hnode
  exact nodeOf_ne_none hnode

theorem TreeSim.node_live (h : TreeSim s t) {p : InodePtr}
    (hp : (s.fs.icache.inode p).iPrivate ≠ 0) :
    t.inode p = some (s.fs.icache.inode p).iPrivate ∧
      t.node (s.fs.icache.inode p).iPrivate =
        some (s.fs.sb.nodeAt (s.fs.icache.inode p).iPrivate) := by
  rw [h.shows.inode, h.shows.node, nodeOf_some (h.known hp)]
  exact ⟨if_neg hp, rfl⟩

theorem TreeSim.dirAt (h : TreeSim s t) (p : InodePtr) :
    t.dirAt p = if s.fs.isDirInode p then
      some ((s.fs.icache.inode p).iPrivate, s.fs.sb.dirEntries (s.fs.icache.inode p).iPrivate)
    else none := by
  unfold Tree.dirAt
  by_cases hp : (s.fs.icache.inode p).iPrivate = 0
  · have hlive : t.inode p = none := by
      rw [h.shows.inode]
      exact if_pos hp
    rw [hlive, if_neg (fun hd => (isDirInode_iff.mp hd).1 hp)]
    rfl
  · obtain ⟨hlive, hnode⟩ := h.node_live hp
    have hok := (h.inv.fs.inodes p hp).2
    rw [hlive, Option.bind_some, hnode]
    by_cases hd : sIsDir (s.fs.sb.inodeTable (s.fs.icache.inode p).iPrivate).iMode = true
    · rw [nodeAt_dir hd, if_pos (isDirInode_iff.mpr ⟨hp, hok.dir.mpr hd⟩)]
    · rw [if_neg (fun hd' => hd (hok.dir.mp (isDirInode_iff.mp hd').2))]
      unfold OsfsSbInfo.nodeAt
      rw [if_neg hd]
      by_cases hr : sIsReg (s.fs.sb.inodeTable (s.fs.icache.inode p).iPrivate).iMode = true
      · rw [if_pos hr]
      · rw [if_neg hr]

theorem TreeSim.fileAt (h : TreeSim s t) (p : InodePtr) :
    t.fileAt p = if s.fs.isFileInode p then
      some ((s.fs.icache.inode p).iPrivate,
        s.fs.sb.dataBlocks.load (s.fs.sb.blockAddr (s.fs.icache.inode p).iPrivate) BLOCK_SIZE,
        (s.fs.sb.inodeTable (s.fs.icache.inode p).iPrivate).iSize)
    else none := by
  unfold Tree.fileAt
  by_cases hp : (s.fs.icache.inode p).iPrivate = 0
  · have hlive : t.inode p = none := by
      rw [h.shows.inode]
      exact if_pos hp
    rw [hlive, if_neg (fun hd => (isFileInode_iff.mp hd).1 hp)]
    rfl
  · obtain ⟨hlive, hnode⟩ := h.node_live hp
    have hok := (h.inv.fs.inodes p hp).2
    rw [hlive, Option.bind_some, hnode]
    by_cases hr : sIsReg (s.fs.sb.inodeTable (s.fs.icache.inode p).iPrivate).iMode = true
    · rw [nodeAt_file hr, if_pos (isFileInode_iff.mpr ⟨hp, hok.file.mpr hr⟩)]
    · rw [if_neg (fun hf => hr (hok.file.mp (isFileInode_iff.mp hf).2))]
      unfold OsfsSbInfo.nodeAt
      by_cases hd : sIsDir (s.fs.sb.inodeTable (s.fs.icache.inode p).iPrivate).iMode = true
      · rw [if_pos hd]
      · rw [if_neg hd, if_neg hr]

theorem TreeSim.openFile (h : TreeSim s t) (fd : ℕ) : t.openFile fd = s.file fd := by
  unfold Tree.openFile Sys.file
  rw [h.shows.files]

end Sim

/-- The two answers, and what is left behind them. -/
def Agree (q : Res × Sys) (u : Res × Tree) : Prop := u.1 = q.1 ∧ Shows q.2 u.2

section Step
variable {s : Sys} {t : Tree}

theorem TreeSim.refuse (h : TreeSim s t) : Agree (.invalid, s) (.invalid, t) := ⟨rfl, h.shows⟩

theorem any_name (sb : OsfsSbInfo) (d : ℕ) (name : Bytes) :
    ((sb.dirEntries d).any fun e => e.1 = name) = true ↔ name ∈ sb.dirNames d := by
  unfold OsfsSbInfo.dirNames
  simp only [List.any_eq_true, decide_eq_true_eq, List.mem_map]

theorem TreeSim.create (h : TreeSim s t) (dir : InodePtr) (dentry : Qstr) (mode : UMode)
    (env : Env) : Agree (sysCreate s dir dentry mode env) (t.create dir dentry mode env) := by
  unfold sysCreate Tree.create
  rw [h.dirAt dir]
  by_cases hdir : s.fs.isDirInode dir = true
  case neg =>
    rw [if_neg hdir, if_neg hdir]
    exact h.refuse
  rw [if_pos hdir, if_pos hdir, h.shows.ledger.create h.inv.fs env hdir dentry mode]
  dsimp only
  by_cases hlen : MAX_FILENAME_LEN < dentry.len
  · rw [if_pos hlen, if_pos hlen]
    exact ⟨rfl, h.shows⟩
  rw [if_neg hlen, if_neg hlen]
  by_cases hm : (!modeSupported mode) = true
  · rw [if_pos hm, if_pos hm]
    exact ⟨rfl, h.shows⟩
  rw [if_neg hm, if_neg hm]
  by_cases hex : Exhausted t.taken t.made
  · rw [if_pos hex, if_pos hex]
    exact ⟨rfl, h.shows⟩
  rw [if_neg hex, if_neg hex]
  by_cases henv : (!env.newInodeOk) = true
  · rw [if_pos henv, if_pos henv]
    exact ⟨rfl, h.shows.node, h.shows.inode, h.shows.count, h.shows.files,
      h.shows.ledger.claimInode hex⟩
  rw [if_neg henv, if_neg henv]
  have hf := h.shows.ledger.fresh hex
  have hledger : Ledger (s.fs.withNewInode env dir mode (t.taken + 1) (t.made + 1)).sb (t.taken + 1)
      (t.made + 1) := h.shows.ledger.formatInode hex rfl
  have hpriv : (createdInode env (s.fs.icache.inode dir) (t.taken + 1) mode).iPrivate ≠ 0 :=
    Nat.succ_ne_zero _
  have hlive : (s.fs.withNewInode env dir mode (t.taken + 1) (t.made + 1)).live =
      Function.update s.fs.live s.fs.icache.count (some (t.taken + 1)) :=
    live_push s.fs _ hpriv
  have hrejected : Shows ⟨iput (s.fs.withNewInode env dir mode (t.taken + 1) (t.made + 1))
      s.fs.icache.count, s.files⟩ t.make := by
    refine ⟨?_, ?_, congrArg (· + 1) h.shows.count, h.shows.files, hledger⟩
    · exact h.shows.node.trans (nodeOf_withNewInode h.inv.fs env dir mode hf).symm
    · have hgone : Function.update s.fs.live s.fs.icache.count none = s.fs.live := by
        rw [← h.inv.fs.live_fresh]
        exact Function.update_eq_self ..
      exact h.shows.inode.trans (by
        rw [live_iput, hlive, Function.update_idem, hgone])
  have hany := any_name s.fs.sb (s.fs.icache.inode dir).iPrivate dentry.name
  rw [dirEntries_length]
  by_cases hfull : MAX_DIR_ENTRIES ≤ s.fs.sb.dirEntryCount (s.fs.icache.inode dir).iPrivate
  · rw [if_pos hfull, if_pos hfull]
    exact ⟨rfl, hrejected⟩
  rw [if_neg hfull, if_neg hfull]
  by_cases hin : dentry.name ∈ s.fs.sb.dirNames (s.fs.icache.inode dir).iPrivate
  · rw [if_pos hin, if_pos (hany.mpr hin)]
    exact ⟨rfl, hrejected⟩
  rw [if_neg hin, if_neg (fun h => hin (hany.mp h))]
  have hent : ¬ EntryRefused s.fs.sb (s.fs.icache.inode dir).iPrivate dentry.name :=
    not_or.mpr ⟨hfull, hin⟩
  have hknown := h.known (isDirInode_iff.mp hdir).1
  have hino := withEntry_inode h.inv.fs env mode (t.taken + 1) (t.made + 1) dentry.name hdir
  dsimp only
  rw [hino, ← h.shows.count]
  refine ⟨rfl, ?_, ?_, congrArg (· + 1) h.shows.count, h.shows.files, hledger.congr rfl rfl rfl⟩
  · dsimp only
    rw [h.shows.node]
    exact (nodeOf_withEntry h.inv.fs hdir hknown (Nat.le_of_not_lt hlen) hf hent).symm
  · dsimp only
    rw [live_withEntry, hlive, h.shows.inode, h.shows.count]

theorem find_entry {sb : OsfsSbInfo} {d : ℕ} (h : DirOk sb d) {name : Bytes} {ino : ℕ}
    (hin : (name, ino) ∈ sb.dirEntries d) :
    (sb.dirEntries d).find? (fun e : Bytes × ℕ => decide (e.1 = name)) = some (name, ino) := by
  cases hfind : (sb.dirEntries d).find? (fun e : Bytes × ℕ => decide (e.1 = name)) with
  | none => exact absurd (decide_eq_true rfl) (List.find?_eq_none.mp hfind _ hin)
  | some e =>
    obtain ⟨n, i⟩ := e
    have hn : n = name := by
      simpa only [decide_eq_true_eq] using List.find?_some hfind
    subst hn
    rw [h.ino_unique (List.mem_of_find?_eq_some hfind) hin]

theorem TreeSim.lookup (h : TreeSim s t) (dir : InodePtr) (dentry : Qstr) (env : Env) :
    Agree (sysLookup s dir dentry env) (t.lookup dir dentry env) := by
  unfold sysLookup Tree.lookup
  rw [h.dirAt dir]
  by_cases hdir : s.fs.isDirInode dir = true
  case neg =>
    rw [if_neg hdir, if_neg hdir]
    exact h.refuse
  rw [if_pos hdir, if_pos hdir]
  obtain ⟨_, hd, hmode⟩ := h.inv.fs.isDir hdir
  have hok := h.inv.fs.sb.dir _ hd hmode
  have ho := osfsLookup_outcome h.inv.fs env hdir dentry
  revert ho
  generalize osfsLookup env s.fs dir dentry = r
  intro ho
  dsimp only
  cases ho with
  | absent hno =>
    have hfind : ((s.fs.sb.dirEntries (s.fs.icache.inode dir).iPrivate).find? fun e =>
        e.1 = dentry.name) = none := by
      apply List.find?_eq_none.mpr
      intro e he hn
      exact hno (List.mem_map.mpr ⟨e, he, of_decide_eq_true hn⟩)
    rw [hfind]
    exact ⟨rfl, h.shows⟩
  | noMemory ino hin hmem =>
    rw [find_entry hok hin]
    dsimp only
    rw [if_neg (by rw [hmem]; exact Bool.false_ne_true)]
    exact ⟨rfl, h.shows⟩
  | found ino hin hmem hf =>
    obtain ⟨hiino, hpriv, _⟩ := igetInode_fields (s.fs.sb.inodeTable ino) ino
    have hres : ((s.fs.withIget ino).icache.inode s.fs.icache.count).iIno = ino :=
      (congrArg Inode.iIno (Icache.push_same _ _)).trans hiino
    have hne : (igetInode (s.fs.sb.inodeTable ino) ino).iPrivate ≠ 0 := by
      rw [hpriv]
      exact hf.1
    have hlive := live_push s.fs s.fs.sb hne
    rw [hpriv] at hlive
    rw [find_entry hok hin]
    dsimp only
    rw [if_pos hmem, hres, ← h.shows.count]
    refine ⟨rfl, h.shows.node, ?_, congrArg (· + 1) h.shows.count, h.shows.files, h.shows.ledger⟩
    show Function.update t.inode t.count (some ino) = _
    rw [h.shows.inode, h.shows.count]
    exact hlive.symm

/-! ### Reading and writing -/

theorem rwVerifyArea_fails {pos len : ℕ} (h : LLONG_MAX < pos + len) :
    (!rwVerifyArea pos len) = true := by
  rw [← Bool.not_eq_false, rwVerifyArea_iff]
  omega

theorem Shows.setPos (h : Shows s t) (fd : ℕ) (f : File) (pos : ℕ) :
    Shows (s.setPos fd f pos) (t.setPos fd f pos) := by
  refine ⟨h.node, h.inode, h.count, ?_, h.ledger⟩
  unfold Tree.setPos Sys.setPos
  rw [h.files]

theorem text_eq_take {sb : OsfsSbInfo} {k : ℕ} (h : (sb.inodeTable k).iSize ≤ BLOCK_SIZE) :
    (sb.dataBlocks.load (sb.blockAddr k) BLOCK_SIZE).take (sb.inodeTable k).iSize =
      sb.fileBytes k := Mem.load_take _ _ _ _ h

theorem TreeSim.read (h : TreeSim s t) (fd room len : ℕ) :
    Agree (sysRead s fd room len) (t.read fd room len) := by
  unfold sysRead Tree.read
  rw [h.openFile fd]
  cases hfile : s.file fd with
  | none => exact h.refuse
  | some f =>
    have hreg := (h.inv.files fd f hfile).1
    have hs := h.inv.fs.fileSlot hreg
    dsimp only
    rw [h.fileAt, if_pos hreg]
    dsimp only
    rw [text_eq_take hs.size]
    by_cases hpos : LLONG_MAX < f.fPos + len
    · rw [if_pos (rwVerifyArea_fails hpos), if_pos hpos]
      exact ⟨rfl, h.shows⟩
    have hle : f.fPos + len ≤ LLONG_MAX := Nat.le_of_not_lt hpos
    have hcount := rwCount_le len
    have hread := osfsRead_eq h.inv.fs hreg room (rwCount len) f.fPos (by omega)
    rw [rwVerifyArea_iff.mpr hle, if_neg Bool.false_ne_true, if_neg hpos, hread]
    by_cases hroom : (((s.fs.sb.fileBytes (s.fs.icache.inode f.fInode).iPrivate).drop f.fPos).take
        (rwCount len)).length ≤ room
    · rw [if_pos hroom, if_pos hroom]
      exact ⟨rfl, h.shows.setPos fd f _⟩
    · rw [if_neg hroom, if_neg hroom]
      exact ⟨rfl, h.shows⟩

/-- Bytes stored inside a block, seen from the block. -/
theorem load_store_block (m : Mem) (a p : ℕ) {bs : Bytes} (h : p + bs.length ≤ BLOCK_SIZE) :
    (m.store (a + p) bs).load a BLOCK_SIZE = writeAt (m.load a BLOCK_SIZE) p bs := by
  have hstore := m.load_store_writeAt a p BLOCK_SIZE bs fun i h1 h2 => by omega
  rw [Nat.max_eq_left h] at hstore
  exact hstore

section File
variable {p : InodePtr} {ppos : ℕ} {bs : Bytes}

theorem Shows.written (h : Shows s t) (hs : FileSlot s.fs.sb (s.fs.icache.inode p).iPrivate)
    (hknown : (s.fs.icache.inode p).iPrivate = ROOT_INODE ∨
      s.fs.sb.Named (s.fs.icache.inode p).iPrivate)
    (hinv : SbInv s.fs.sb) (env : Env) (hend : ppos + bs.length ≤ BLOCK_SIZE) :
    Shows { s with fs := s.fs.withWrite env p ppos bs }
      (t.setNode (s.fs.icache.inode p).iPrivate (.file
        (writeAt (s.fs.sb.dataBlocks.load (s.fs.sb.blockAddr (s.fs.icache.inode p).iPrivate)
          BLOCK_SIZE) ppos bs)
        (max (s.fs.sb.inodeTable (s.fs.icache.inode p).iPrivate).iSize (ppos + bs.length)))) := by
  refine ⟨?_, ?_, h.count, h.files, h.ledger.congr rfl rfl rfl⟩
  · have hnode := nodeOf_setFile hinv hs hknown (hs.writeChange env hend)
    rw [load_store_block _ _ _ hend, writtenSlot_size env _ hend, ← h.node] at hnode
    exact hnode.symm
  · have hlive : (s.fs.withWrite env p ppos bs).live = s.fs.live := live_set rfl
    exact h.inode.trans hlive.symm

theorem Shows.faulted (h : Shows s t) (hs : FileSlot s.fs.sb (s.fs.icache.inode p).iPrivate)
    (hknown : (s.fs.icache.inode p).iPrivate = ROOT_INODE ∨
      s.fs.sb.Named (s.fs.icache.inode p).iPrivate)
    (hinv : SbInv s.fs.sb) (hend : ppos + bs.length ≤ BLOCK_SIZE) :
    Shows ⟨s.fs.withFault p (s.fs.sb.dataBlocks.store
        (s.fs.sb.blockAddr (s.fs.icache.inode p).iPrivate + ppos) bs), s.files⟩
      (t.setNode (s.fs.icache.inode p).iPrivate (.file
        (writeAt (s.fs.sb.dataBlocks.load (s.fs.sb.blockAddr (s.fs.icache.inode p).iPrivate)
          BLOCK_SIZE) ppos bs)
        (s.fs.sb.inodeTable (s.fs.icache.inode p).iPrivate).iSize)) := by
  refine ⟨?_, h.inode, h.count, h.files, h.ledger.congr rfl rfl rfl⟩
  have hdata (x : ℕ) (hx : ¬ InBlock s.fs.sb (s.fs.icache.inode p).iPrivate x) :
      s.fs.sb.dataBlocks.store (s.fs.sb.blockAddr (s.fs.icache.inode p).iPrivate + ppos) bs x =
        s.fs.sb.dataBlocks x := by
    rw [InBlock, ← hs.addr] at hx
    apply Mem.store_outside
    omega
  have hnode := nodeOf_setFile hinv hs hknown (hs.faultChange hdata)
  rw [load_store_block _ _ _ hend, ← h.node] at hnode
  exact hnode.symm

end File

theorem TreeSim.write (h : TreeSim s t) (fd : ℕ) (buf : Bytes) (len : ℕ) (env : Env) :
    Agree (sysWrite s fd buf len env) (t.write fd buf len) := by
  unfold sysWrite Tree.write
  rw [h.openFile fd]
  cases hfile : s.file fd with
  | none => exact h.refuse
  | some f =>
    have hreg := (h.inv.files fd f hfile).1
    have hs := h.inv.fs.fileSlot hreg
    have hknown := h.known (isFileInode_iff.mp hreg).1
    dsimp only
    rw [h.fileAt, if_pos hreg]
    dsimp only
    by_cases hpos : LLONG_MAX < f.fPos + len
    · rw [if_pos (rwVerifyArea_fails hpos), if_pos hpos]
      exact ⟨rfl, h.shows⟩
    have hle : f.fPos + len ≤ LLONG_MAX := Nat.le_of_not_lt hpos
    have hcount := rwCount_le len
    rw [rwVerifyArea_iff.mpr hle, if_neg Bool.false_ne_true, if_neg hpos]
    by_cases hpast : BLOCK_SIZE < f.fPos
    · have ho := osfsWrite_outcome h.inv.fs env hreg buf (rwCount len) f.fPos (by omega)
      revert ho
      generalize osfsWrite env s.fs f.fInode buf (rwCount len) f.fPos = r
      intro ho
      rw [if_pos hpast]
      cases ho with
      | past _ => exact ⟨rfl, h.shows⟩
      | fault data hin _ _ => exact absurd hin (Nat.not_le_of_lt hpast)
      | written n hin _ _ => exact absurd hin (Nat.not_le_of_lt hpast)
    have hin : f.fPos ≤ BLOCK_SIZE := Nat.le_of_not_lt hpast
    rw [if_neg hpast]
    by_cases hbuf : min (rwCount len) (BLOCK_SIZE - f.fPos) ≤ buf.length
    · have ho := osfsWrite_outcome h.inv.fs env hreg buf (rwCount len) f.fPos (by omega)
      revert ho
      generalize osfsWrite env s.fs f.fInode buf (rwCount len) f.fPos = r
      intro ho
      rw [if_pos hbuf]
      cases ho with
      | past hout => exact absurd hout hpast
      | fault data _ hshort _ => exact absurd hbuf (Nat.not_le_of_lt hshort)
      | written n _ hn hfull =>
        have hlen : (buf.take n).length = n := List.length_take_of_le hfull
        have hend : f.fPos + (buf.take n).length ≤ BLOCK_SIZE := by omega
        have hshows := h.shows.written hs hknown h.inv.fs.sb env hend
        rw [hlen] at hshows
        rw [← hn]
        exact ⟨rfl, hshows.setPos fd f _⟩
    · have hshort : buf.length < min (rwCount len) (BLOCK_SIZE - f.fPos) := Nat.lt_of_not_le hbuf
      rw [osfsWrite_fault h.inv.fs env hreg hin (by omega) hshort, if_neg hbuf]
      refine ⟨rfl, h.shows.faulted hs hknown h.inv.fs.sb ?_⟩
      rw [List.length_append, List.length_replicate]
      omega

theorem TreeSim.step (h : TreeSim s t) (r : Req) : Agree (sysStep s r) (t.step r) := by
  cases r with
  | create dir dentry mode env => exact h.create dir dentry mode env
  | lookup dir dentry env => exact h.lookup dir dentry env
  | «open» p =>
    simp only [sysStep, Tree.step, h.fileAt]
    by_cases hp : s.fs.isFileInode p = true
    · rw [if_pos hp, if_pos hp, Option.isSome_some, if_pos rfl]
      refine ⟨by rw [h.shows.files], h.shows.node, h.shows.inode, h.shows.count, ?_,
        h.shows.ledger⟩
      rw [h.shows.files]
    · rw [if_neg hp, if_neg hp, Option.isSome_none, if_neg Bool.false_ne_true]
      exact h.refuse
  | close fd =>
    refine ⟨rfl, h.shows.node, h.shows.inode, h.shows.count, ?_, h.shows.ledger⟩
    exact congrArg (List.set · fd none) h.shows.files
  | seek fd pos =>
    simp only [sysStep, Tree.step, sysSeek, h.openFile]
    cases s.file fd with
    | none => exact h.refuse
    | some f =>
      dsimp only
      by_cases hpos : pos ≤ LLONG_MAX
      · rw [if_pos hpos, if_pos hpos]
        exact ⟨rfl, h.shows.setPos fd f pos⟩
      · rw [if_neg hpos, if_neg hpos]
        exact h.refuse
  | read fd room len => exact h.read fd room len
  | write fd buf len env => exact h.write fd buf len env
  | truncate p env =>
    simp only [sysStep, Tree.step, h.fileAt]
    by_cases hp : s.fs.isFileInode p = true
    · rw [if_pos hp, if_pos hp, Option.isSome_some, if_pos rfl]
      have hlive : (s.fs.truncate env p).live = s.fs.live := live_set rfl
      exact ⟨rfl, h.shows.node, h.shows.inode.trans hlive.symm, h.shows.count, h.shows.files,
        h.shows.ledger⟩
    · rw [if_neg hp, if_neg hp, Option.isSome_none, if_neg Bool.false_ne_true]
      exact h.refuse
  | evict p =>
    have hiff : s.evictable p = true ↔ p ≠ 0 ∧ ∀ f ∈ t.files, f.map File.fInode ≠ some p := by
      rw [h.shows.files]
      simp only [Sys.evictable, Bool.and_eq_true, decide_eq_true_eq, List.all_eq_true]
    simp only [sysStep, Tree.step]
    by_cases hp : s.evictable p = true
    · rw [if_pos hp, if_pos (hiff.mp hp)]
      refine ⟨rfl, h.shows.node, ?_, h.shows.count, h.shows.files, h.shows.ledger⟩
      dsimp only
      rw [live_iput, h.shows.inode]
    · rw [if_neg hp, if_neg (fun hn => hp (hiff.mpr hn))]
      exact h.refuse

end Step

/-! ### Runs -/

theorem Ledger.mounted {oi : OsfsInode} : Ledger (mountedSb oi) 1 0 := by
  refine ⟨by decide, by decide, fun i hi _ => ?_, fun i _ => ?_, rfl⟩
  · show Bitmap.empty.set ROOT_INODE i = _
    rw [Bitmap.set_apply]
    by_cases he : i = ROOT_INODE
    · subst he
      rfl
    · have hne : ¬ i < 1 + 1 := by
        unfold ROOT_INODE at he
        omega
      rw [if_neg he, decide_eq_false hne]
      rfl
  · show Bitmap.empty.set 0 i = _
    rw [Bitmap.set_apply]
    by_cases he : i = 0
    · subst he
      rfl
    · rw [if_neg he, decide_eq_false (by omega)]
      rfl

theorem TreeSim.mounted {s : Sys} (h : Mounted s) : TreeSim s Tree.root := by
  have hinv := (SysInv.mounted h).1
  have hlog := mounted_dirLog h
  obtain ⟨env, vmallocOk, dMakeRootOk, hfs, hfiles⟩ := h
  obtain ⟨⟨oi, _, hsize, _, hdir, hsb⟩, root, hic, hpriv, _⟩ := osfsFillSuper_ok hfs
  refine ⟨hinv, ⟨?_, ?_, ?_, hfiles.symm, ?_⟩, Tree.Ok.root⟩
  · rw [Tree.root_node]
    funext k
    by_cases hk : k = ROOT_INODE
    · subst hk
      have hmode : sIsDir (s.fs.sb.inodeTable ROOT_INODE).iMode = true := by
        rw [hsb, mounted_root]
        exact hdir
      have hnil : s.fs.sb.dirEntries ROOT_INODE = [] := by
        rw [← dirLog_dir hinv.fs.sb.root hmode]
        exact hlog ROOT_INODE
      rw [Function.update_self, nodeOf_some (.inl rfl), nodeAt_dir hmode, hnil]
    · rw [Function.update_of_ne hk, nodeOf_none]
      rintro (he | ⟨d, name, hin⟩)
      · exact hk he
      · rw [hlog d] at hin
        cases hin
  · rw [Tree.root_inode]
    funext p
    unfold Fs.live
    rw [hic]
    by_cases hp : p = 0
    · subst hp
      rw [show (Icache.empty.push root).inode 0 = root from Icache.empty.push_same root, hpriv,
        Function.update_self]
      rfl
    · rw [Icache.empty.push_ne root hp, Function.update_of_ne hp]
      rfl
  · rw [hic]
    rfl
  · rw [hsb]
    exact Ledger.mounted

theorem TreeSim.resp {s : Sys} {t : Tree} (h : TreeSim s t) (r : Req) :
    tree.resp t r = osfs.resp s r := (h.step r).1

theorem TreeSim.next {s : Sys} {t : Tree} (h : TreeSim s t) (r : Req) :
    TreeSim (osfs.next s r) (tree.next t r) :=
  ⟨h.inv.next r, (h.step r).2, h.ok.effect (t.step_effect r)⟩

theorem TreeSim.run {s : Sys} {t : Tree} (h : TreeSim s t) (rs : List Req) :
    TreeSim (osfs.run s rs) (tree.run t rs) := by
  induction rs generalizing s t with
  | nil => exact h
  | cons r rs ih => exact ih (h.next r)

theorem TreeSim.trace {s : Sys} {t : Tree} (h : TreeSim s t) (rs : List Req) :
    osfs.trace s rs = tree.trace t rs :=
  (osfs.trace_eq tree (R := TreeSim) (G := fun _ => True) (W := fun _ => True)
    (fun _ _ r hs _ _ => ⟨hs.resp r, hs.next r⟩) h (fun _ _ => trivial) fun _ _ => trivial).symm

/-- Every run gets the answers of the tree: whatever is created, written, truncated or evicted,
whichever copies fault and whichever allocations fail. -/
theorem run_is_tree {s : Sys} (h : Mounted s) (rs : List Req) :
    osfs.trace s rs = tree.trace Tree.root rs := (TreeSim.mounted h).trace rs

/- A copy that faults behind the end of the file, and a text written behind the hole. -/
def faultRun : List Req :=
  [.create 0 nameA S_IFREG plainEnv, .open 1, .write 0 [104] 3 plainEnv, .seek 0 4,
    .write 0 [105] 1 plainEnv, .seek 0 0, .read 0 10 10]

theorem run_is_tree_fault : osfs.trace freshMount faultRun = tree.trace Tree.root faultRun :=
  run_is_tree freshMount_mounted faultRun

end OSLab.Done
