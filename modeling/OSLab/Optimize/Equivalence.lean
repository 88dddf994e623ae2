import OSLab.Optimize.Volume

/-!
# The mounted file system is the volume

As long as every entry fits into its directory, bitmaps, inode table, extents
and entries of a state hold what the volume holds, and both answer every run
alike.
-/

namespace OSLab.Optimize
open OSLab.Base OSLab.Kernel

/- The bytes of the extent. -/
def OsfsSbInfo.place (sb : OsfsSbInfo) (k : ℕ) : Option Bytes :=
  if (sb.inodeTable k).iExtent.eeLen = 0 then none
  else some (sb.dataBlocks.load (sb.extentAddr k) (sb.extentBytes k))

def Sys.nodeAt (s : Sys) (k : ℕ) : Node :=
  if s.fs.sb.isDir k then .dir ((s.entriesOf k).map fun m => (m.name, m.ino))
  else .file (s.fs.sb.place k) (s.fs.sb.inodeTable k).iSize

structure VolumeShows (s : Sys) (v : Volume) : Prop where
  node : v.node = s.nodeAt
  inode : v.inode = fun p => (s.fs.icache.inode p).iPrivate
  count : v.count = s.fs.icache.count
  taken : ∀ k, s.fs.sb.inodeBitmap k = decide (1 ≤ k ∧ k < v.taken + 1)
  made : v.made = s.made.length

structure VolumeSim (s : Sys) (v : Volume) : Prop where
  inv : SysInv s
  placed : Placed s
  shows : VolumeShows s v

variable {s : Sys} {v : Volume} {fs : Fs} {sb sb' : OsfsSbInfo} {k : ℕ}

/-! ### The nodes of a state -/

theorem nodeAt_dir (h : s.fs.sb.isDir k = true) :
    s.nodeAt k = .dir ((s.entriesOf k).map fun m => (m.name, m.ino)) := if_pos h

theorem nodeAt_file (h : s.fs.sb.isDir k = false) :
    s.nodeAt k = .file (s.fs.sb.place k) (s.fs.sb.inodeTable k).iSize := by
  unfold Sys.nodeAt
  rw [h, if_neg Bool.false_ne_true]

theorem Changes.place (hc : Changes sb sb' k) {j : ℕ} (hj : j ≠ k) : sb'.place j = sb.place j := by
  unfold OsfsSbInfo.place
  rw [hc.table j hj, hc.extentAddr hj, hc.extentBytes hj]
  have hload : sb'.dataBlocks.load (sb.extentAddr j) (sb.extentBytes j) =
      sb.dataBlocks.load (sb.extentAddr j) (sb.extentBytes j) := by
    refine Mem.load_congr fun i hi => hc.data_ne hj ?_
    unfold OsfsSbInfo.InExtent
    omega
  rw [hload]

/-- A change of one slot leaves the other nodes as they are. -/
theorem Changes.nodeAt (hc : Changes s.fs.sb sb' k) (icache : Icache) {j : ℕ} (hj : j ≠ k) :
    Sys.nodeAt ⟨⟨sb', icache⟩, s.made⟩ j = s.nodeAt j := by
  unfold Sys.nodeAt
  dsimp only
  rw [hc.isDir hj, hc.place hj, hc.table j hj]
  rfl

theorem nodeAt_update (hc : Changes s.fs.sb sb' k) (icache : Icache) :
    Sys.nodeAt ⟨⟨sb', icache⟩, s.made⟩ =
      Function.update s.nodeAt k (Sys.nodeAt ⟨⟨sb', icache⟩, s.made⟩ k) := by
  funext j
  by_cases hj : j = k
  · rw [hj, Function.update_self]
  · rw [Function.update_of_ne hj]
    exact hc.nodeAt icache hj

theorem IcacheOk.dir_iff (h : IcacheOk fs) (p : InodePtr) :
    fs.isDirInode p = true ↔
      (fs.icache.inode p).iPrivate ≠ 0 ∧ fs.sb.isDir (fs.icache.inode p).iPrivate = true := by
  simp only [Fs.isDirInode, Bool.and_eq_true, decide_eq_true_eq]
  refine and_congr_right fun h0 => ?_
  rw [h.mode p h0]
  rfl

theorem IcacheOk.file_iff (h : IcacheOk fs) (p : InodePtr) :
    fs.isFileInode p = true ↔
      (fs.icache.inode p).iPrivate ≠ 0 ∧ fs.sb.isDir (fs.icache.inode p).iPrivate = false := by
  simp only [Fs.isFileInode, Bool.and_eq_true, decide_eq_true_eq, Bool.not_eq_true']
  refine and_congr_right fun h0 => ?_
  rw [h.mode p h0]
  rfl

theorem VolumeSim.dirAt (h : VolumeSim s v) (p : InodePtr) :
    v.dirAt p = if s.fs.isDirInode p then
      some ((s.fs.icache.inode p).iPrivate,
        (s.entriesOf (s.fs.icache.inode p).iPrivate).map fun m => (m.name, m.ino))
    else none := by
  have hiff := h.inv.icache.dir_iff p
  unfold Volume.dirAt
  rw [h.shows.node, h.shows.inode]
  dsimp only
  cases hd : s.fs.sb.isDir (s.fs.icache.inode p).iPrivate with
  | false =>
    rw [nodeAt_file hd, if_neg fun hp => Bool.false_ne_true (hd.symm.trans (hiff.mp hp).2)]
  | true =>
    rw [nodeAt_dir hd]
    dsimp only
    by_cases h0 : (s.fs.icache.inode p).iPrivate = 0
    · rw [if_pos h0, if_neg fun hp => (hiff.mp hp).1 h0]
    · rw [if_neg h0, if_pos (hiff.mpr ⟨h0, hd⟩)]

theorem VolumeSim.fileAt (h : VolumeSim s v) (p : InodePtr) :
    v.fileAt p = if s.fs.isFileInode p then
      some ((s.fs.icache.inode p).iPrivate, s.fs.sb.place (s.fs.icache.inode p).iPrivate,
        (s.fs.sb.inodeTable (s.fs.icache.inode p).iPrivate).iSize)
    else none := by
  have hiff := h.inv.icache.file_iff p
  unfold Volume.fileAt
  rw [h.shows.node, h.shows.inode]
  dsimp only
  cases hd : s.fs.sb.isDir (s.fs.icache.inode p).iPrivate with
  | true =>
    rw [nodeAt_dir hd, if_neg fun hp => Bool.false_ne_true ((hiff.mp hp).2.symm.trans hd)]
  | false =>
    rw [nodeAt_file hd]
    dsimp only
    by_cases h0 : (s.fs.icache.inode p).iPrivate = 0
    · rw [if_pos h0, if_neg fun hp => (hiff.mp hp).1 h0]
    · rw [if_neg h0, if_pos (hiff.mpr ⟨h0, hd⟩)]

/-! ### Creating a file -/

theorem entriesOf_append (fs' : Fs) (s : Sys) (m : Made) (d : ℕ) :
    Sys.entriesOf ⟨fs', s.made ++ [m]⟩ d = s.entriesOf d ++ if m.dir = d then [m] else [] := by
  unfold Sys.entriesOf
  rw [List.filter_append]
  congr 1
  by_cases he : m.dir = d <;> simp [he]

theorem VolumeShows.nextInode (h : VolumeShows s v) (hl : Layout s.fs.sb) :
    s.fs.sb.nextInode = if INODE_COUNT ≤ v.taken + 1 then none else some (v.taken + 1) := by
  have hbits (j : ℕ) (h1 : 1 ≤ j) (_ : j < 1 + (INODE_COUNT - 1)) :
      s.fs.sb.inodeBitmap j = decide (j < v.taken + 1) := by
    rw [h.taken j, decide_eq_decide]
    exact and_iff_right h1
  unfold OsfsSbInfo.nextInode
  rw [hl.inodes, Bitmap.findClear_prefix hbits (Nat.le_add_left 1 v.taken)]
  unfold INODE_COUNT
  by_cases hfull : 20 ≤ v.taken + 1
  · rw [if_pos hfull, if_neg (by omega)]
  · rw [if_neg hfull, if_pos (by omega)]

theorem VolumeShows.taken_set (h : VolumeShows s v) (k : ℕ) :
    s.fs.sb.inodeBitmap.set (v.taken + 1) k = decide (1 ≤ k ∧ k < v.taken + 1 + 1) := by
  rw [Bitmap.set_apply, h.taken k]
  by_cases hk : k = v.taken + 1
  · rw [if_pos hk]
    exact (decide_eq_true (by omega)).symm
  · rw [if_neg hk, decide_eq_decide]
    omega

/-- What a create in a directory with room leaves of the node it makes. -/
theorem FileMade.place {d ino : ℕ} {name : Bytes} {mode : UMode}
    (hm : FileMade s d ino name mode (appendEntry (s.fs.sb.withFile ino mode) d ino name).2)
    (hl : Layout s.fs.sb) {n : ℕ} (hf : s.fs.sb.Filled n) :
    (appendEntry (s.fs.sb.withFile ino mode) d ino name).2.place ino =
      if n < PLACES then some (List.replicate PLACE_BYTES 0) else none := by
  obtain ⟨hlen, -⟩ := hf.withFile hl.blocks ino mode
  rw [hm.entry.place hm.ne]
  unfold OsfsSbInfo.place
  rw [hm.slot.layout.extentBytes_eq, hlen]
  by_cases hn : n < PLACES
  · rw [if_pos hn, if_pos hn, if_neg (by decide)]
    refine congrArg some (List.eq_replicate_iff.mpr ⟨Mem.load_length .., fun b hb => ?_⟩)
    obtain ⟨i, hi, rfl⟩ := List.getElem_of_mem hb
    rw [Mem.load_getElem]
    rw [Mem.load_length] at hi
    refine hm.slot.zero _ ?_
    unfold OsfsSbInfo.InExtent
    rw [hm.slot.layout.extentBytes_eq, hlen, if_pos hn]
    omega
  · rw [if_neg hn, if_neg hn, if_pos rfl]

theorem FileMade.nodeAt {d ino : ℕ} {name : Bytes} {mode : UMode}
    (hm : FileMade s d ino name mode (appendEntry (s.fs.sb.withFile ino mode) d ino name).2)
    (hinv : SysInv s) (hf : s.fs.sb.Filled s.made.length) (hd : s.fs.sb.isDir d = true)
    (icache : Icache) :
    Sys.nodeAt ⟨⟨(appendEntry (s.fs.sb.withFile ino mode) d ino name).2, icache⟩,
        s.made ++ [⟨d, name, ino⟩]⟩ =
      Function.update (Function.update s.nodeAt ino (.new mode (s.made.length < PLACES))) d
        (.dir ((s.entriesOf d).map (fun m => (m.name, m.ino)) ++ [(name, ino)])) := by
  funext j
  by_cases hjd : j = d
  · subst hjd
    have hdir : (appendEntry (s.fs.sb.withFile ino mode) j ino name).2.isDir j = true :=
      hm.entry.isDir_used hm.slot.layout (hm.file.isDir_used hinv.layout hd)
    rw [Function.update_self, nodeAt_dir hdir, entriesOf_append, if_pos rfl, List.map_append]
    rfl
  rw [Function.update_of_ne hjd]
  by_cases hji : j = ino
  · subst hji
    have hmode : (appendEntry (s.fs.sb.withFile j mode) d j name).2.isDir j = sIsDir mode := by
      rw [hm.entry.isDir hjd, OsfsSbInfo.isDir, hm.slot.mode]
    rw [Function.update_self]
    unfold Sys.nodeAt Node.new
    dsimp only
    rw [hmode]
    cases hdir : sIsDir mode with
    | true =>
      have hnil : s.entriesOf j = [] := by
        rw [List.eq_nil_iff_forall_not_mem]
        intro m hmem
        obtain ⟨hmade, hmdir⟩ := Sys.mem_entriesOf.mp hmem
        exact hinv.layout.dir_ne (hinv.parent m hmade) hm.fresh hmdir
      rw [if_pos rfl, if_pos rfl, entriesOf_append, hnil, if_neg (Ne.symm hjd)]
      rfl
    | false =>
      rw [if_neg Bool.false_ne_true, if_neg Bool.false_ne_true, hm.place hinv.layout hf,
        hm.entry.table j hjd, hm.slot.empty]
      simp only [decide_eq_true_eq]
  · rw [Function.update_of_ne hji]
    unfold Sys.nodeAt
    dsimp only
    rw [hm.entry.isDir hjd, hm.file.isDir hji, hm.entry.place hjd, hm.file.place hji,
      hm.entry.table j hjd, hm.file.table j hji, entriesOf_append, if_neg (Ne.symm hjd),
      List.append_nil]

/-! ### One request -/

/-- The two answers, and what is left behind them. -/
def Agree (q : Res × Sys) (u : Reply × Volume) : Prop :=
  u.1 = q.1.reply ∧ Placed q.2 ∧ VolumeShows q.2 u.2

theorem VolumeSim.agree (h : VolumeSim s v) {o : Res} {r : Reply} (hr : r = o.reply) :
    Agree (o, s) (r, v) := ⟨hr, h.placed, h.shows⟩

theorem VolumeSim.create (h : VolumeSim s v) {dir : InodePtr} {dentry : Qstr} {mode : UMode}
    {env : Env} (hfits : EntryFits s (.create dir dentry mode env)) :
    Agree (sysStep s (.create dir dentry mode env)) (v.create dir dentry mode env) := by
  unfold Volume.create
  rw [h.dirAt dir]
  simp only [sysStep]
  by_cases hdir : s.fs.isDirInode dir = true
  case neg =>
    rw [if_neg hdir, if_neg hdir]
    exact h.agree rfl
  rw [if_pos hdir, if_pos hdir]
  have hnext := h.shows.nextInode h.inv.layout
  have ho := osfsCreate_outcome h.inv.layout.inodes env dir dentry mode
  revert ho
  generalize osfsCreate env s.fs dir dentry mode = q
  intro ho
  dsimp only
  cases ho with
  | full hnone =>
    have hfull : INODE_COUNT ≤ v.taken + 1 := by
      by_contra hlt
      rw [hnone, if_neg hlt] at hnext
      cases hnext
    rw [if_pos hfull]
    dsimp only [madeBy]
    rw [List.append_nil]
    exact h.agree rfl
  | oops ino hsome hmem =>
    have hlt : ¬ INODE_COUNT ≤ v.taken + 1 := fun hfull => by
      rw [hsome, if_pos hfull] at hnext
      cases hnext
    rw [hsome, if_neg hlt] at hnext
    obtain rfl := Option.some.inj hnext
    rw [if_neg hlt, hmem, if_pos (Bool.not_false)]
    dsimp only [madeBy]
    rw [List.append_nil]
    exact ⟨rfl, h.placed.claimInode _, h.shows.node, h.shows.inode, h.shows.count,
      h.shows.taken_set, h.shows.made⟩
  | created ino hsome hmem =>
    have hlt : ¬ INODE_COUNT ≤ v.taken + 1 := fun hfull => by
      rw [hsome, if_pos hfull] at hnext
      cases hnext
    obtain ⟨hroom, hname⟩ := hfits hdir hmem ino hsome
    have hd := h.inv.icache.isDir hdir
    have hlen : dentry.name.length ≤ DIR_ENTRY_SIZE := by
      unfold NameFits MAX_FILENAME_LEN INODE_NO_OFFSET at hname
      unfold DIR_ENTRY_SIZE
      omega
    have hm := h.inv.fileMade mode hd hsome dentry.noNul hlen hroom
    rw [hsome, if_neg hlt] at hnext
    obtain rfl := Option.some.inj hnext
    have hiino : (s.fs.icache.push (newVfsInode env (v.taken + 1) (v.taken + 1) mode)).inode
        s.fs.icache.count = newVfsInode env (v.taken + 1) (v.taken + 1) mode := Icache.push_same ..
    rw [if_neg hlt, hmem, Bool.not_true, if_neg Bool.false_ne_true]
    simp only [madeBy, hiino]
    refine ⟨congrArg (fun c => Reply.create (.created c)) h.shows.count,
      h.placed.create h.inv hm env, ?_, ?_, congrArg (· + 1) h.shows.count, ?_, ?_⟩
    · have hnode := hm.nodeAt h.inv h.placed.filled hd
        (s.fs.icache.push (newVfsInode env (v.taken + 1) (v.taken + 1) mode))
      dsimp only [Volume.setNode, Volume.addInode]
      rw [h.shows.node, h.shows.made]
      exact hnode.symm
    · dsimp only [Volume.setNode, Volume.addInode]
      funext p
      rw [h.shows.inode, h.shows.count]
      by_cases he : p = s.fs.icache.count
      · rw [he, Function.update_self, Icache.push_same]
        rfl
      · rw [Function.update_of_ne he, Icache.push_ne _ _ he]
    · intro k
      have hbits : (s.fs.sb.withFile (v.taken + 1) mode).inodeBitmap =
          s.fs.sb.inodeBitmap.set (v.taken + 1) := hm.slot.bits
      change (s.fs.sb.withFile (v.taken + 1) mode).inodeBitmap k = _
      rw [hbits]
      exact h.shows.taken_set k
    · dsimp only
      rw [List.length_append, List.length_singleton, h.shows.made]

/-- Names in a directory are different, so the first entry with the name is the one that was made. -/
theorem SysInv.find_made (h : SysInv s) {m : Made} (hm : m ∈ s.entriesOf k) :
    ((s.entriesOf k).map fun m => (m.name, m.ino)).find? (fun e => decide (e.1 = m.name)) =
      some (m.name, m.ino) := by
  rw [List.find?_map]
  cases hfind : (s.entriesOf k).find? ((fun e : Bytes × ℕ => decide (e.1 = m.name)) ∘
      fun m => (m.name, m.ino)) with
  | none => exact absurd (decide_eq_true rfl) (List.find?_eq_none.mp hfind m hm)
  | some m' =>
    have hname : m'.name = m.name := by
      simpa only [Function.comp_apply, decide_eq_true_eq] using List.find?_some hfind
    obtain ⟨hin, hdir⟩ := Sys.mem_entriesOf.mp (List.mem_of_find?_eq_some hfind)
    obtain ⟨hin', hdir'⟩ := Sys.mem_entriesOf.mp hm
    rw [h.unique m' hin m hin' (hdir.trans hdir'.symm) hname]
    rfl

theorem VolumeSim.lookup (h : VolumeSim s v) (dir : InodePtr) (dentry : Qstr) (env : Env) :
    Agree (sysStep s (.lookup dir dentry env)) (v.lookup dir dentry env) := by
  unfold Volume.lookup
  rw [h.dirAt dir]
  simp only [sysStep]
  by_cases hdir : s.fs.isDirInode dir = true
  case neg =>
    rw [if_neg hdir, if_neg hdir]
    exact h.agree rfl
  rw [if_pos hdir, if_pos hdir]
  have ho := h.inv.lookup_outcome env hdir dentry
  revert ho
  generalize osfsLookup env s.fs dir dentry = q
  intro ho
  dsimp only
  cases ho with
  | null hno =>
    have hfind : ((s.entriesOf (s.fs.icache.inode dir).iPrivate).map fun m => (m.name, m.ino)).find?
        (fun e => decide (e.1 = dentry.name)) = none := by
      rw [List.find?_eq_none]
      intro e he hname
      obtain ⟨m, hm, rfl⟩ := List.mem_map.mp he
      exact hno m hm (of_decide_eq_true hname)
    rw [hfind]
    exact h.agree rfl
  | enomem m hm hname hmem =>
    rw [← hname, h.inv.find_made hm]
    dsimp only
    rw [hmem, if_neg Bool.false_ne_true]
    exact h.agree rfl
  | found m inode hm hname hmem hino hpriv hmode =>
    rw [← hname, h.inv.find_made hm]
    dsimp only
    rw [hmem, if_pos rfl]
    have hin : inode.iPrivate ∈ s.made.map Made.ino := by
      rw [hpriv]
      exact List.mem_map_of_mem (Sys.mem_entriesOf.mp hm).1
    refine ⟨congrArg (fun c => Reply.lookup (.found c)) h.shows.count, h.placed.push hin,
      h.shows.node, ?_, congrArg (· + 1) h.shows.count, h.shows.taken, h.shows.made⟩
    dsimp only [Volume.addInode]
    funext p
    rw [h.shows.inode, h.shows.count]
    by_cases he : p = s.fs.icache.count
    · rw [he, Function.update_self, Icache.push_same, hpriv]
    · rw [Function.update_of_ne he, Icache.push_ne _ _ he]

theorem place_content (h : Layout sb) (k : ℕ) :
    ((sb.place k).getD []).take (sb.inodeTable k).iSize = sb.content k := by
  unfold OsfsSbInfo.place OsfsSbInfo.content
  by_cases hlen : (sb.inodeTable k).iExtent.eeLen = 0
  · have hsize := h.size k
    rw [hlen, Nat.zero_mul] at hsize
    rw [if_pos hlen, Nat.le_zero.mp hsize]
    rfl
  · rw [if_neg hlen]
    exact Mem.load_take _ _ _ _ (h.size_le k)

theorem area_iff (ppos len : ℕ) : rwVerifyArea ppos len = true ↔ ppos + len ≤ LLONG_MAX :=
  decide_eq_true_iff

theorem VolumeSim.read (h : VolumeSim s v) (p : InodePtr) (room len ppos : ℕ) :
    Agree (sysStep s (.read p room len ppos)) (v.read p room len ppos) := by
  unfold Volume.read
  rw [h.fileAt p]
  simp only [sysStep]
  by_cases hp : s.fs.isFileInode p = true
  case neg =>
    rw [if_neg hp, if_neg fun h => hp (Bool.and_eq_true_iff.mp h).1]
    exact h.agree rfl
  rw [hp, if_pos rfl, Bool.true_and]
  dsimp only
  by_cases hpos : LLONG_MAX < ppos + len
  · rw [if_pos hpos, if_neg fun harea => Nat.not_le_of_lt hpos ((area_iff _ _).mp harea)]
    exact h.agree rfl
  have hle : ppos + len ≤ LLONG_MAX := Nat.le_of_not_lt hpos
  have hcount : rwCount len ≤ len := Nat.min_le_left ..
  rw [if_neg hpos, if_pos ((area_iff _ _).mpr hle), place_content h.inv.layout,
    osfsRead_room h.inv.layout p room (show ppos + rwCount len ≤ LLONG_MAX by omega)]
  split
  · exact h.agree rfl
  · exact h.agree rfl

/-! ### Writing -/

theorem place_some (hext : (sb.inodeTable k).iExtent.eeLen ≠ 0) :
    sb.place k = some (sb.dataBlocks.load (sb.extentAddr k) (sb.extentBytes k)) := if_neg hext

/-- Bytes stored inside an extent, seen from the extent. -/
theorem load_store_place (m : Mem) (a p n : ℕ) {bs : Bytes} (h : p + bs.length ≤ n) :
    (m.store (a + p) bs).load a n = writeAt (m.load a n) p bs := by
  have hstore := m.load_store_writeAt a p n bs fun i h1 h2 => by omega
  rw [Nat.max_eq_left h] at hstore
  exact hstore

theorem written_node (sb : OsfsSbInfo) {k : ℕ} (hext : (sb.inodeTable k).iExtent.eeLen ≠ 0) {ppos : ℕ} {data : Bytes}
    (hend : ppos + data.length ≤ sb.extentBytes k) :
    (sb.written k ppos data).place k =
        some (writeAt (sb.dataBlocks.load (sb.extentAddr k) (sb.extentBytes k)) ppos data) ∧
      ((sb.written k ppos data).inodeTable k).iSize =
        max (sb.inodeTable k).iSize (ppos + data.length) := by
  have hslot : (sb.written k ppos data).inodeTable k = { sb.inodeTable k with
      iSize := max (sb.inodeTable k).iSize (ppos + data.length) } := setOsfsInode_self ..
  refine ⟨?_, by rw [hslot]⟩
  unfold OsfsSbInfo.place OsfsSbInfo.extentAddr OsfsSbInfo.extentBytes at *
  rw [hslot, if_neg hext]
  exact congrArg some (load_store_place _ _ _ _ hend)

theorem VolumeShows.write (h : VolumeShows s v) {fs' : Fs} (hw : Writes s.fs fs' k)
    (hfile : fs'.sb.isDir k = false) (hbits : fs'.sb.inodeBitmap = s.fs.sb.inodeBitmap) :
    VolumeShows ⟨fs', s.made⟩
      (v.setNode k (.file (fs'.sb.place k) (fs'.sb.inodeTable k).iSize)) := by
  refine ⟨?_, ?_, h.count.trans hw.count.symm, fun j => ?_, h.made⟩
  · have hnode := nodeAt_update hw.changes fs'.icache
    have hself : Sys.nodeAt ⟨fs', s.made⟩ k = .file (fs'.sb.place k) (fs'.sb.inodeTable k).iSize :=
      nodeAt_file hfile
    dsimp only [Volume.setNode]
    rw [h.node, ← hself]
    exact hnode.symm
  · dsimp only [Volume.setNode]
    rw [h.inode]
    exact funext fun p => (hw.slot p).symm
  · dsimp only
    rw [hbits]
    exact h.taken j

theorem VolumeSim.write (h : VolumeSim s v) (p : InodePtr) (buf : Bytes) (len ppos : ℕ) :
    Agree (sysStep s (.write p buf len ppos)) (v.write p buf len ppos) := by
  unfold Volume.write
  rw [h.fileAt p]
  simp only [sysStep]
  by_cases hp : s.fs.isFileInode p = true
  case neg =>
    rw [if_neg hp, if_neg fun h => hp (Bool.and_eq_true_iff.mp h).1]
    exact h.agree rfl
  rw [hp, if_pos rfl, Bool.true_and]
  dsimp only
  by_cases hpos : LLONG_MAX < ppos + len
  · rw [if_pos hpos, if_neg fun harea => Nat.not_le_of_lt hpos ((area_iff _ _).mp harea)]
    exact h.agree rfl
  have harea := (area_iff ppos len).mpr (Nat.le_of_not_lt hpos)
  have hcount : rwCount len ≤ len := Nat.min_le_left ..
  have hlast : ppos + rwCount len ≤ LLONG_MAX := by omega
  have hplaced := h.placed.write h.inv hp buf harea
  obtain ⟨hused, hfile⟩ := h.inv.icache.isFile hp
  have hw := (osfsWrite_writes h.inv.layout hused buf harea).1
  rw [if_neg hpos, if_pos harea]
  by_cases hext : (s.fs.sb.inodeTable (s.fs.icache.inode p).iPrivate).iExtent.eeLen = 0
  · have hnone : s.fs.sb.place (s.fs.icache.inode p).iPrivate = none := if_pos hext
    rw [hnone, osfsWrite_noPlace hext (h.placed.alloc_none h.inv hp hext)]
    exact h.agree rfl
  have hbytes : s.fs.sb.extentBytes (s.fs.icache.inode p).iPrivate = PLACE_BYTES :=
    h.placed.extentBytes h.inv hp hext
  rw [place_some hext]
  dsimp only
  by_cases hpast : PLACE_BYTES < ppos
  · rw [if_pos hpast, osfsWrite_past hext (hbytes ▸ hpast) hlast]
    exact h.agree rfl
  have hin : ppos ≤ PLACE_BYTES := Nat.le_of_not_lt hpast
  have hfile' : (osfsWrite s.fs p buf (rwCount len) ppos).2.2.2.sb.isDir
      (s.fs.icache.inode p).iPrivate = false := by
    unfold OsfsSbInfo.isDir at hfile ⊢
    rw [hw.changes.mode hused]
    exact hfile
  rw [if_neg hpast]
  by_cases hbuf : min (rwCount len) (PLACE_BYTES - ppos) ≤ buf.length
  · obtain ⟨hres, hsb⟩ := osfsWrite_full h.inv.layout hext (hbytes ▸ hin) hlast (hbytes ▸ hbuf)
    rw [hbytes] at hres hsb
    have hlen := List.length_take_of_le hbuf
    obtain ⟨hplace, hsize⟩ := written_node s.fs.sb hext
      (show ppos + (buf.take (min (rwCount len) (PLACE_BYTES - ppos))).length ≤ _ by omega)
    have hshows := h.shows.write hw hfile' (by rw [hsb]; rfl)
    rw [hsb, hplace, hsize, hlen] at hshows
    rw [if_pos hbuf]
    exact ⟨congrArg Reply.write hres.symm, hplaced, hshows⟩
  · obtain ⟨hres, hfs⟩ := osfsWrite_short h.inv.layout hext (hbytes ▸ hin) hlast
      (hbytes ▸ Nat.lt_of_not_le hbuf)
    rw [hbytes] at hfs
    have hshows := h.shows.write hw hfile' (by rw [hfs])
    have hplace : (osfsWrite s.fs p buf (rwCount len) ppos).2.2.2.sb.place
        (s.fs.icache.inode p).iPrivate = some (writeAt (s.fs.sb.dataBlocks.load
          (s.fs.sb.extentAddr (s.fs.icache.inode p).iPrivate)
          (s.fs.sb.extentBytes (s.fs.icache.inode p).iPrivate)) ppos
            (buf ++ List.replicate (min (rwCount len) (PLACE_BYTES - ppos) - buf.length) 0)) := by
      rw [hfs]
      refine (if_neg hext).trans (congrArg some (load_store_place _ _ _ _ ?_))
      rw [List.length_append, List.length_replicate]
      change _ ≤ s.fs.sb.extentBytes (s.fs.icache.inode p).iPrivate
      omega
    rw [hplace] at hshows
    rw [if_neg hbuf]
    refine ⟨congrArg Reply.write hres.symm, hplaced, ?_⟩
    rw [hfs] at hshows ⊢
    exact hshows

/-! ### Runs -/

theorem VolumeSim.step (h : VolumeSim s v) {r : Req} (hr : NewName s r ∧ EntryFits s r) :
    volume.resp v r = (osfs.resp s r).reply ∧ VolumeSim (osfs.next s r) (volume.next v r) := by
  have hinv := (step_isolated h.inv hr.1 hr.2).2
  have hagree : Agree (sysStep s r) (v.step r) := by
    cases r with
    | create dir dentry mode env => exact h.create hr.2
    | lookup dir dentry env => exact h.lookup dir dentry env
    | read p room len ppos => exact h.read p room len ppos
    | write p buf len ppos => exact h.write p buf len ppos
  exact ⟨hagree.1, hinv, hagree.2.1, hagree.2.2⟩

theorem VolumeSim.mounted (hm : Mounted s) : VolumeSim s Volume.root := by
  have hinv := hm.sysInv
  have hplaced := hm.placed
  obtain ⟨env, vmallocOk, dMakeRootOk, hfill, hmade⟩ := hm
  obtain ⟨hsb, root, hpriv, -, hicache⟩ := osfsFillSuper_ok hfill
  refine ⟨hinv, hplaced, ?_, ?_, ?_, fun k => ?_, ?_⟩
  · funext k
    dsimp only [Volume.root]
    by_cases hk : k = ROOT_INODE
    · have hnil : s.entriesOf k = [] := by
        unfold Sys.entriesOf
        rw [hmade]
        rfl
      rw [hk, Function.update_self, nodeAt_dir hplaced.root, ← hk, hnil]
      rfl
    · have hslot : s.fs.sb.inodeTable k = OsfsInode.zero := by
        rw [hsb]
        exact (slotWithExtent_newSlot bareSbInfo_layout rfl rfl rfl (by decide)).table k hk
      have hdir : s.fs.sb.isDir k = false := by
        rw [OsfsSbInfo.isDir, hslot]
        decide
      have hplace : s.fs.sb.place k = none := if_pos (by rw [hslot]; rfl)
      rw [Function.update_of_ne hk, nodeAt_file hdir, hplace, hslot]
      rfl
  · funext p
    dsimp only [Volume.root]
    rw [hicache]
    by_cases hp : p = 0
    · subst hp
      rw [Function.update_self, ← hpriv]
      exact congrArg Inode.iPrivate (Icache.push_same Icache.empty root).symm
    · rw [Function.update_of_ne hp, Icache.push_ne Icache.empty root hp]
      rfl
  · rw [hicache]
    rfl
  · have hbits : s.fs.sb.inodeBitmap = Bitmap.empty.set ROOT_INODE := by
      rw [hsb]
      rfl
    rw [hbits, Bitmap.set_apply]
    unfold Volume.root ROOT_INODE
    dsimp only
    by_cases hk : k = 1
    · rw [if_pos hk]
      exact (decide_eq_true (by omega)).symm
    · rw [if_neg hk]
      exact (decide_eq_false (by omega)).symm
  · rw [hmade]
    rfl

/-- The state that a run leaves is that of the volume after the same requests. -/
theorem run_volumeSim (hm : Mounted s) {rs : List Req} (hnew : osfs.EveryStep NewName s rs)
    (hfits : osfs.EveryStep EntryFits s rs) :
    volume.trace Volume.root rs = (osfs.trace s rs).map (fun e => (e.1, e.2.reply)) ∧
      VolumeSim (osfs.run s rs) (volume.run Volume.root rs) :=
  osfs.trace_map_eq volume Res.reply (fun _ _ _ h hr => h.step hr) (.mounted hm)
    ((osfs.everyStep_and _ _ _ _).mpr ⟨hnew, hfits⟩)

/-- Whatever is created, looked up, read and written, the bitmaps, extents, slots and stores of this
module answer a run whose entries fit as the volume does. -/
theorem run_is_volume (hm : Mounted s) {rs : List Req} (hnew : osfs.EveryStep NewName s rs)
    (hfits : osfs.EveryStep EntryFits s rs) :
    (osfs.trace s rs).map (fun e => (e.1, e.2.reply)) = volume.trace Volume.root rs :=
  (run_volumeSim hm hnew hfits).1.symm

/- A file that is written with a fault in the middle and read beyond what was written. -/
def faultRun : List Req :=
  [.create 0 (Qstr.ofBytes [97]) S_IFREG plainEnv, .write 1 [1, 2, 3] 3 0, .write 1 [9] 2 1,
    .read 1 8 8 0, .write 1 [4] 1 6000, .lookup 0 (Qstr.ofBytes [97]) plainEnv]

theorem run_is_volume_fault :
    (osfs.trace freshMount faultRun).map (fun e => (e.1, e.2.reply)) =
      volume.trace Volume.root faultRun :=
  run_is_volume freshMount_mounted
    ⟨fun m hm => absurd hm List.not_mem_nil, trivial, trivial, trivial, trivial, trivial, trivial⟩
    ⟨fun _ _ _ _ => ⟨by decide +kernel, Or.inl (by decide)⟩, trivial, trivial, trivial, trivial,
      trivial, trivial⟩

end OSLab.Optimize
