import OSLab.Done.Step

/-!
# The names of a directory

The entries of every directory are the successful creates of the run, in
their order; what `osfs_lookup`, `osfs_create` and `osfs_iterate` answer
follows from that and from the representation invariant.
-/

namespace OSLab.Done
open OSLab.Base OSLab.Kernel

/- The entries of directory `d`; a number that is not a directory has none. -/
def OsfsSbInfo.dirLog (sb : OsfsSbInfo) (d : ℕ) : List (Bytes × ℕ) :=
  if Formatted sb d ∧ sIsDir (sb.inodeTable d).iMode = true then sb.dirEntries d else []

/- The entry that a request put into directory `d`, going by the answer it got. -/
def entryOf (s : Sys) (d : ℕ) : Req → Res → List (Bytes × ℕ)
  | .create dir dentry _ _, .created _ ino =>
    if (s.fs.icache.inode dir).iPrivate = d then [(dentry.name, ino)] else []
  | _, _ => []

/- The names that the successful creates of a run put into directory `d`, each with the inode
number it was assigned, oldest first. -/
def createdIn (d : ℕ) : Sys → List Req → List (Bytes × ℕ)
  | _, [] => []
  | s, r :: rs => entryOf s d r (osfs.resp s r) ++ createdIn d (osfs.next s r) rs

/-! ### What one request does to the entries -/

theorem dirLog_dir {sb : OsfsSbInfo} {d : ℕ} (hd : Formatted sb d)
    (hdir : sIsDir (sb.inodeTable d).iMode = true) : sb.dirLog d = sb.dirEntries d :=
  if_pos ⟨hd, hdir⟩

theorem dirLog_none {sb : OsfsSbInfo} {d : ℕ}
    (h : ¬ (Formatted sb d ∧ sIsDir (sb.inodeTable d).iMode = true)) : sb.dirLog d = [] := if_neg h

theorem dirLog_withNewInode {fs : Fs} (h : FsInv fs) (env : Env) (dir : InodePtr) (mode : UMode)
    {ino b : ℕ} (hf : Fresh fs.sb ino b) (d : ℕ) :
    (fs.withNewInode env dir mode ino b).sb.dirLog d = fs.sb.dirLog d := by
  have hs := hf.newSlot env dir mode
  by_cases he : d = ino
  · subst he
    have hnone : fs.sb.dirLog d = [] :=
      dirLog_none fun hd => h.sb.not_formatted hf.inoFree hd.1
    rw [hnone]
    by_cases hd : Formatted (fs.withNewInode env dir mode d b).sb d ∧
        sIsDir ((fs.withNewInode env dir mode d b).sb.inodeTable d).iMode = true
    · have hcnt : (fs.withNewInode env dir mode d b).sb.dirEntryCount d = 0 :=
        format_dirEntryCount_self hs
      rw [dirLog_dir hd.1 hd.2]
      apply List.length_eq_zero_iff.mp
      rw [dirEntries_length, hcnt]
    · exact dirLog_none hd
  · have htab : (fs.withNewInode env dir mode ino b).sb.inodeTable d = fs.sb.inodeTable d :=
      formatInode_table_ne fs.sb _ b he
    have hiff : Formatted (fs.withNewInode env dir mode ino b).sb d ↔ Formatted fs.sb d :=
      formatInode_formatted_ne fs.sb (createdSlot env (fs.icache.inode dir) ino mode) b he
    by_cases hd : Formatted fs.sb d ∧ sIsDir (fs.sb.inodeTable d).iMode = true
    · rw [dirLog_dir hd.1 hd.2, dirLog_dir (hiff.mpr hd.1) (by rw [htab]; exact hd.2)]
      exact (h.sb.format_dir hs hd.1 hd.2).2
    · rw [dirLog_none hd]
      apply dirLog_none
      rw [htab, hiff]
      exact hd

theorem dirLog_setSlot_ne {sb : OsfsSbInfo} (h : SbInv sb) {k : ℕ} {oi : OsfsInode} {data : Mem}
    (hc : SlotChange sb k oi data) {d : ℕ} (hne : d ≠ k) :
    (sb.setSlot k oi data).dirLog d = sb.dirLog d := by
  have htab := setSlot_table_ne sb oi data hne
  by_cases hd : Formatted sb d ∧ sIsDir (sb.inodeTable d).iMode = true
  · rw [dirLog_dir hd.1 hd.2,
      dirLog_dir (hc.formatted_iff.mpr hd.1) (by rw [htab]; exact hd.2)]
    exact (h.setSlot_dir_ne hc hd.1 hd.2 hne).2
  · rw [dirLog_none hd]
    apply dirLog_none
    intro hd'
    rw [htab] at hd'
    exact hd ⟨hc.formatted_iff.mp hd'.1, hd'.2⟩

theorem dirLog_setFile {sb : OsfsSbInfo} (h : SbInv sb) {k : ℕ} (hs : FileSlot sb k)
    {oi : OsfsInode} {data : Mem} (hc : SlotChange sb k oi data) (d : ℕ) :
    (sb.setSlot k oi data).dirLog d = sb.dirLog d := by
  by_cases he : d = k
  · subst he
    have hnone : sb.dirLog d = [] :=
      dirLog_none (by rw [hs.notDir]; exact fun hd => Bool.false_ne_true hd.2)
    rw [hnone]
    apply dirLog_none
    rw [setSlot_table_self, hc.mode, hs.notDir]
    exact fun hd => Bool.false_ne_true hd.2
  · exact dirLog_setSlot_ne h hc he

theorem dirLog_addEntry {sb : OsfsSbInfo} (h : SbInv sb) {k ino : ℕ} {name : Bytes}
    (hc : CanEnter sb k ino name) (d : ℕ) :
    (sb.addEntry k ino name).dirLog d = sb.dirLog d ++ if k = d then [(name, ino)] else [] := by
  have hok := h.dir k hc.formatted hc.dir
  have hchange := addEntry_change ino h hc.formatted hc.short hc.room
  have hlt := h.inoLt ino hc.target
  unfold INODE_COUNT at hlt
  by_cases he : k = d
  · subst he
    have hdir : sIsDir ((sb.addEntry k ino name).inodeTable k).iMode = true := by
      rw [show ((sb.addEntry k ino name).inodeTable k).iMode = (sb.inodeTable k).iMode from
        (hchange.keep k).2.2.1]
      exact hc.dir
    have hf : Formatted (sb.addEntry k ino name) k := hchange.formatted_iff.mpr hc.formatted
    rw [if_pos rfl, dirLog_dir hc.formatted hc.dir, dirLog_dir hf hdir]
    exact addEntry_dirEntries hok hc.room hc.noNul hc.short (by omega)
  · rw [if_neg he, List.append_nil]
    exact dirLog_setSlot_ne h hchange (Ne.symm he)

theorem CreateOutcome.dirLog {s : Sys} (h : FsInv s.fs) {env : Env} {dir : InodePtr} {dentry : Qstr}
    {mode : UMode} {r : Except Errno InodePtr × Fs} (hdir : s.fs.isDirInode dir = true)
    (ho : CreateOutcome env s.fs dir dentry mode r) (d : ℕ) :
    r.2.sb.dirLog d = s.fs.sb.dirLog d ++
      entryOf s d (.create dir dentry mode env) (createRes r) := by
  cases ho with
  | refused _ _ => exact (List.append_nil _).symm
  | noMemory _ _ _ _ _ _ => exact (List.append_nil _).symm
  | rejected e ino b _ _ _ hf _ =>
    exact (dirLog_withNewInode h env dir mode hf d).trans (List.append_nil _).symm
  | created ino b hlen hcan hmem hf hent =>
    obtain ⟨hpriv, _, hc⟩ := withNewInode_canEnter h env mode hdir hlen hf hent
    have hlog := dirLog_addEntry (h.withNewInode env dir mode hf).sb hc d
    rw [dirLog_withNewInode h env dir mode hf d, hpriv] at hlog
    have hne : s.fs.icache.count ≠ dir := Ne.symm (Nat.ne_of_lt (h.isDir hdir).1)
    have hino : (((s.fs.withNewInode env dir mode ino b).withEntry dir ino dentry.name).icache.inode
        s.fs.icache.count).iIno = ino := by
      rw [show ((s.fs.withNewInode env dir mode ino b).withEntry dir ino dentry.name).icache.inode
        s.fs.icache.count = createdInode env (s.fs.icache.inode dir) ino mode from
          (Icache.set_ne _ _ hne).trans (withNewInode_inode_new env dir mode s.fs ino b)]
      exact (newVfsInode_spec env (s.fs.icache.inode dir) ino mode).2.1
    simp only [createRes, entryOf, hino]
    rw [← hlog]
    simp only [Fs.withEntry, hpriv]

/-- A request appends to each directory the entry it created there, if any. -/
theorem StepOutcome.dirLog {s : Sys} (h : SysInv s) {r : Req} {q : Res × Sys}
    (ho : StepOutcome s r q) (d : ℕ) :
    q.2.fs.sb.dirLog d = s.fs.sb.dirLog d ++ entryOf s d r q.1 := by
  cases ho with
  | create dir dentry mode env r hdir ho => exact ho.dirLog h.fs hdir d
  | lookup dir dentry env r hdir ho => cases ho <;> exact (List.append_nil _).symm
  | writeFault fd buf len env f hf hpos data hle hbuf hdata =>
    have hs := h.fs.fileSlot (h.files fd f hf).1
    exact (dirLog_setFile h.fs.sb hs (hs.faultChange hdata) d).trans (List.append_nil _).symm
  | written fd buf len env f hf hpos n hle hn hbuf =>
    have hs := h.fs.fileSlot (h.files fd f hf).1
    have hend : f.fPos + (buf.take n).length ≤ BLOCK_SIZE := by
      rw [List.length_take_of_le hbuf]
      omega
    exact (dirLog_setFile h.fs.sb hs (hs.writeChange env hend) d).trans (List.append_nil _).symm
  | refused r _ => cases r <;> exact (List.append_nil _).symm
  | _ => exact (List.append_nil _).symm

/-- After a run each directory holds what it held before and what the run created in it. -/
theorem run_dirLog {s : Sys} (h : SysInv s) (rs : List Req) (d : ℕ) :
    (osfs.run s rs).fs.sb.dirLog d = s.fs.sb.dirLog d ++ createdIn d s rs := by
  induction rs generalizing s with
  | nil => exact (List.append_nil _).symm
  | cons r rs ih =>
    have hstep := (osfs_outcome h r).dirLog h d
    simp only [Machine.run_cons, ih (h.next r), createdIn]
    rw [hstep, List.append_assoc]

theorem mounted_dirLog {s : Sys} (h : Mounted s) (d : ℕ) : s.fs.sb.dirLog d = [] := by
  obtain ⟨env, vmallocOk, dMakeRootOk, hfs, _⟩ := h
  obtain ⟨⟨oi, _, hsize, _, _, hsb⟩, _⟩ := osfsFillSuper_ok hfs
  rw [hsb]
  by_cases hd : Formatted (mountedSb oi) d ∧ sIsDir ((mountedSb oi).inodeTable d).iMode = true
  · rw [dirLog_dir hd.1 hd.2, mounted_only hd.1]
    apply List.length_eq_zero_iff.mp
    rw [dirEntries_length, mounted_count hsize]
  · exact dirLog_none hd

/-! ### `osfs_iterate` -/

/- What `dir_emit` gets for an index of the directory block. -/
def OsfsSbInfo.emitted (sb : OsfsSbInfo) (d : ℕ) : Emitted → Option (Bytes × ℕ)
  | .entry i => if 0 ≤ i then some (sb.entryName d i.toNat, sb.entryInodeNo d i.toNat) else none
  | _ => none

theorem osfsIterateLoop_eq (n room : ℕ) (i : ℤ) (pos : ℕ) :
    (osfsIterateLoop n room i pos).2 =
      ((List.range (min n room)).map fun k : ℕ => Emitted.entry (i + k), pos + min n room) := by
  induction n generalizing room i pos with
  | zero =>
    rw [Nat.zero_min]
    rfl
  | succ n ih =>
    cases room with
    | zero =>
      rw [Nat.min_zero]
      rfl
    | succ room =>
      have hrec := ih room (i + 1) (pos + 1)
      have hmin : min (n + 1) (room + 1) = min n room + 1 := by omega
      have hmap : ((List.range (min n room)).map fun k : ℕ => Emitted.entry (i + 1 + k)) =
          (List.range (min n room)).map fun k : ℕ => Emitted.entry (i + (k + 1 : ℕ)) := by
        apply List.map_congr_left
        intro k _
        rw [show i + 1 + (k : ℤ) = i + (k + 1 : ℕ) by omega]
      simp only [osfsIterateLoop, hrec, hmin, List.range_succ_eq_map, List.map_cons, List.map_map,
        hmap]
      refine Prod.ext ?_ (by dsimp only; omega)
      simp only [Function.comp_def, Nat.succ_eq_add_one, Nat.cast_zero, add_zero]

theorem emitted_range (sb : OsfsSbInfo) (d a m : ℕ) (h : a + m ≤ sb.dirEntryCount d) :
    ((List.range m).map fun k : ℕ => Emitted.entry ((a : ℤ) + k)).filterMap (sb.emitted d) =
      ((sb.dirEntries d).drop a).take m := by
  rw [List.filterMap_map]
  have hsome : (sb.emitted d ∘ fun k : ℕ => Emitted.entry ((a : ℤ) + k)) =
      fun k => some (sb.entryName d (a + k), sb.entryInodeNo d (a + k)) := by
    funext k
    have hpos : (0 : ℤ) ≤ (a : ℤ) + k := by omega
    have hnat : ((a : ℤ) + k).toNat = a + k := by omega
    simp only [Function.comp_apply, OsfsSbInfo.emitted, hpos, ite_true, hnat]
  rw [hsome, List.filterMap_eq_map']
  apply List.ext_getElem
  · simp only [List.length_map, List.length_range, List.length_take, List.length_drop,
      dirEntries_length]
    omega
  · intro k h1 h2
    simp only [List.getElem_map, List.getElem_range, List.getElem_take, List.getElem_drop,
      OsfsSbInfo.dirEntries]

/-- A call behind the dots lists the entries from the position on, as many as the caller takes. -/
theorem osfsIterate_entries (fs : Fs) (dir : InodePtr) (room : ℕ) {pos : ℕ} (hpos : 2 ≤ pos) :
    let d := (fs.icache.inode dir).iPrivate
    let r := osfsIterate fs dir room pos
    r.2.1.filterMap (fs.sb.emitted d) = ((fs.sb.dirEntries d).drop (pos - 2)).take room ∧
      r.2.2 = pos + r.2.1.length := by
  dsimp only
  have h0 : ¬ pos = 0 := by omega
  have hi : (pos : ℤ) - 2 = (pos - 2 : ℕ) := by omega
  have hn : ((fs.sb.dirEntryCount (fs.icache.inode dir).iPrivate : ℤ) - (pos - 2 : ℕ)).toNat =
      fs.sb.dirEntryCount (fs.icache.inode dir).iPrivate - (pos - 2) := by omega
  unfold osfsIterate
  simp only [h0, ite_false, Bool.not_true, Bool.false_eq_true, List.length_nil, Nat.sub_zero,
    List.nil_append, hi, hn, osfsIterateLoop_eq]
  refine ⟨?_, by simp only [List.length_map, List.length_range]⟩
  by_cases hle : pos - 2 ≤ fs.sb.dirEntryCount (fs.icache.inode dir).iPrivate
  · rw [emitted_range _ _ _ _ (by omega), List.take_eq_take_iff, List.length_drop,
      dirEntries_length]
    omega
  · have hnil : (fs.sb.dirEntries (fs.icache.inode dir).iPrivate).drop (pos - 2) = [] :=
      List.drop_eq_nil_of_le (by rw [dirEntries_length]; omega)
    have hmin : min (fs.sb.dirEntryCount (fs.icache.inode dir).iPrivate - (pos - 2)) room = 0 := by
      omega
    rw [hnil, hmin, List.take_nil]
    rfl

/-- A call from the start emits the dots and then the entries. -/
theorem osfsIterate_start {fs : Fs} {dir : InodePtr} {room : ℕ} (hroom : 2 ≤ room) :
    let d := (fs.icache.inode dir).iPrivate
    let r := osfsIterate fs dir room 0
    ∃ es, r.2.1 = .dot :: .dotDot :: es ∧
      es.filterMap (fs.sb.emitted d) = (fs.sb.dirEntries d).take (room - 2) ∧
      r.2.2 = 2 + es.length := by
  obtain ⟨k, rfl⟩ := Nat.exists_eq_add_of_le hroom
  have hdots : dirEmitDots (2 + k) 0 = ([.dot, .dotDot], 2, true) := by
    rw [Nat.add_comm]
    rfl
  obtain ⟨hes, hpos⟩ := osfsIterate_entries fs dir k (Nat.le_refl 2)
  refine ⟨(osfsIterate fs dir k 2).2.1, ?_, ?_, ?_⟩
  · unfold osfsIterate
    simp only [ite_true, hdots, Bool.not_true, Bool.false_eq_true, ite_false,
      List.length_cons, List.length_nil, OfNat.ofNat_ne_zero, Nat.sub_zero, List.nil_append,
      Nat.add_sub_cancel_left, List.cons_append, Nat.zero_add, Nat.reduceAdd]
  · rw [hes, Nat.add_sub_cancel_left]
    rfl
  · rw [← hpos]
    unfold osfsIterate
    simp only [ite_true, hdots, Bool.not_true, Bool.false_eq_true, ite_false,
      List.length_cons, List.length_nil, OfNat.ofNat_ne_zero, Nat.sub_zero,
      Nat.add_sub_cancel_left, Nat.zero_add, Nat.reduceAdd]

/-! ### What a directory answers -/

/-- The answers of directory `dir`, when `created` lists the names and inode numbers of the
successful creates in it. -/
structure Answers (s : Sys) (dir : InodePtr) (created : List (Bytes × ℕ)) : Prop where
  listing : s.fs.sb.dirEntries (s.fs.icache.inode dir).iPrivate = created
  start : ∀ room, 2 ≤ room → ∃ es, (osfsIterate s.fs dir room 0).2.1 = .dot :: .dotDot :: es ∧
    es.filterMap (s.fs.sb.emitted (s.fs.icache.inode dir).iPrivate) = created.take (room - 2) ∧
    (osfsIterate s.fs dir room 0).2.2 = 2 + es.length
  further : ∀ room pos, 2 ≤ pos →
    (osfsIterate s.fs dir room pos).2.1.filterMap
      (s.fs.sb.emitted (s.fs.icache.inode dir).iPrivate) = (created.drop (pos - 2)).take room ∧
    (osfsIterate s.fs dir room pos).2.2 = pos + (osfsIterate s.fs dir room pos).2.1.length
  names : (created.map Prod.fst).Nodup
  inos : (created.map Prod.snd).Nodup
  absent : ∀ env dentry,
    (osfsLookup env s.fs dir dentry).1 = .null ↔ dentry.name ∉ created.map Prod.fst
  present : ∀ env dentry ino, (dentry.name, ino) ∈ created → env.newInodeOk = true →
    ∃ p, (osfsLookup env s.fs dir dentry).1 = .found p ∧
      ((osfsLookup env s.fs dir dentry).2.icache.inode p).iIno = ino
  again : ∀ env dentry mode p, dentry.name ∈ created.map Prod.fst →
    (osfsCreate env s.fs dir dentry mode).1 ≠ .ok p

theorem DirOk.names_nodup {sb : OsfsSbInfo} {d : ℕ} (h : DirOk sb d) :
    ((sb.dirEntries d).map Prod.fst).Nodup := by
  simp only [OsfsSbInfo.dirEntries, List.map_map]
  apply List.Nodup.map_on _ List.nodup_range
  intro i hi j hj he
  exact h.distinct i j (List.mem_range.mp hi) (List.mem_range.mp hj) he

theorem SbInv.inos_nodup {sb : OsfsSbInfo} (h : SbInv sb) {d : ℕ} (hd : Formatted sb d)
    (hdir : sIsDir (sb.inodeTable d).iMode = true) : ((sb.dirEntries d).map Prod.snd).Nodup := by
  simp only [OsfsSbInfo.dirEntries, List.map_map]
  apply List.Nodup.map_on _ List.nodup_range
  intro i hi j hj he
  exact (h.owner d d i j _ ⟨hd, hdir, List.mem_range.mp hi, rfl⟩
    ⟨hd, hdir, List.mem_range.mp hj, he.symm⟩).2

theorem DirOk.ino_unique {sb : OsfsSbInfo} {d : ℕ} (h : DirOk sb d) {name : Bytes} {ino ino' : ℕ}
    (h1 : (name, ino) ∈ sb.dirEntries d) (h2 : (name, ino') ∈ sb.dirEntries d) : ino = ino' := by
  obtain ⟨i, hi, hn, rfl⟩ := mem_dirEntries.mp h1
  obtain ⟨j, hj, hn', rfl⟩ := mem_dirEntries.mp h2
  rw [h.distinct i j hi hj (hn.trans hn'.symm)]

theorem LookupOutcome.null_iff {fs : Fs} {env : Env} {dir : InodePtr} {dentry : Qstr}
    {r : LookupResult × Fs} (ho : LookupOutcome env fs dir dentry r) :
    r.1 = .null ↔ dentry.name ∉ fs.sb.dirNames (fs.icache.inode dir).iPrivate := by
  cases ho with
  | absent h => exact iff_of_true rfl h
  | noMemory ino h _ =>
    exact iff_of_false (fun he => by cases he) fun hn => hn (List.mem_map_of_mem (f := Prod.fst) h)
  | found ino h _ _ =>
    exact iff_of_false (fun he => by cases he) fun hn => hn (List.mem_map_of_mem (f := Prod.fst) h)

theorem LookupOutcome.ino {fs : Fs} {env : Env} {dir : InodePtr} {dentry : Qstr}
    {r : LookupResult × Fs} (hok : DirOk fs.sb (fs.icache.inode dir).iPrivate)
    (ho : LookupOutcome env fs dir dentry r) {ino : ℕ}
    (hin : (dentry.name, ino) ∈ fs.sb.dirEntries (fs.icache.inode dir).iPrivate)
    (hmem : env.newInodeOk = true) :
    ∃ p, r.1 = .found p ∧ (r.2.icache.inode p).iIno = ino := by
  cases ho with
  | absent h => exact absurd (List.mem_map_of_mem (f := Prod.fst) hin) h
  | noMemory ino' h hno =>
    rw [hmem] at hno
    cases hno
  | found ino' h _ _ =>
    refine ⟨_, rfl, ?_⟩
    rw [hok.ino_unique hin h]
    exact (congrArg Inode.iIno (Icache.push_same _ _)).trans (igetInode_fields _ _).1

theorem CreateOutcome.not_again {fs : Fs} {env : Env} {dir : InodePtr} {dentry : Qstr} {mode : UMode}
    {r : Except Errno InodePtr × Fs} (ho : CreateOutcome env fs dir dentry mode r)
    (hin : dentry.name ∈ fs.sb.dirNames (fs.icache.inode dir).iPrivate) (p : InodePtr) :
    r.1 ≠ .ok p := by
  intro he
  cases ho with
  | refused _ _ => cases he
  | noMemory _ _ _ _ _ _ => cases he
  | rejected _ _ _ _ _ _ _ _ => cases he
  | created _ _ _ _ _ _ hent => exact hent (Or.inr hin)

theorem FsInv.answers {s : Sys} (h : FsInv s.fs) {dir : InodePtr}
    (hdir : s.fs.isDirInode dir = true) :
    Answers s dir (s.fs.sb.dirEntries (s.fs.icache.inode dir).iPrivate) := by
  obtain ⟨_, hd, hmode⟩ := h.isDir hdir
  have hok := h.sb.dir _ hd hmode
  exact {
    listing := rfl
    start := fun room hroom => osfsIterate_start hroom
    further := fun room pos hpos => osfsIterate_entries s.fs dir room hpos
    names := hok.names_nodup
    inos := h.sb.inos_nodup hd hmode
    absent := fun env dentry => (osfsLookup_outcome h env hdir dentry).null_iff
    present := fun env dentry ino hin hmem => (osfsLookup_outcome h env hdir dentry).ino hok hin hmem
    again := fun env dentry mode p hin =>
      (osfsCreate_outcome h env hdir dentry mode).not_again hin p }

/-- After any run from a mount every directory answers for the creates of the run. -/
theorem run_answers {s : Sys} (h : Mounted s) (rs : List Req) (dir : InodePtr)
    (hdir : (osfs.run s rs).fs.isDirInode dir = true) :
    Answers (osfs.run s rs) dir
      (createdIn ((osfs.run s rs).fs.icache.inode dir).iPrivate s rs) := by
  have hinv := SysInv.run h rs
  obtain ⟨_, hd, hmode⟩ := hinv.fs.isDir hdir
  have hlog := run_dirLog (SysInv.mounted h).1 rs ((osfs.run s rs).fs.icache.inode dir).iPrivate
  rw [mounted_dirLog h, List.nil_append, dirLog_dir hd hmode] at hlog
  rw [← hlog]
  exact hinv.fs.answers hdir

/- Two files, and a third create that repeats the first name. -/
def twoFiles : List Req :=
  [.create 0 nameA S_IFREG plainEnv, .create 0 nameB S_IFREG plainEnv,
    .create 0 nameA S_IFREG plainEnv]

theorem run_answers_twoFiles :
    Answers (osfs.run freshMount twoFiles) 0 [(nameA.name, 2), (nameB.name, 3)] := by
  have hd : ((osfs.run freshMount twoFiles).fs.icache.inode 0).iPrivate = 1 := by decide +kernel
  have hlog : createdIn 1 freshMount twoFiles = [(nameA.name, 2), (nameB.name, 3)] := by
    decide +kernel
  have h := run_answers freshMount_mounted twoFiles 0 (by decide +kernel)
  rw [hd, hlog] at h
  exact h

end OSLab.Done
