import OSLab.Optimize.Equivalence

/-!
# What a mounted file system can hold

The first three files that are created can be written to, and no later one ever
can. With regular files alone there is no later one whose entry fits.
-/

namespace OSLab.Optimize
open OSLab.Base OSLab.Kernel

variable {s : Sys} {v : Volume}

/-! ### The files that can be written to -/

theorem VolumeSim.place_none_iff (h : VolumeSim s v) {p : InodePtr} {i : ℕ} {m : Made}
    (hi : s.made[i]? = some m) (hino : m.ino = (s.fs.icache.inode p).iPrivate) :
    s.fs.sb.place (s.fs.icache.inode p).iPrivate = none ↔ PLACES ≤ i := by
  have hlen := h.placed.extent i m hi
  rw [hino] at hlen
  unfold OsfsSbInfo.place
  rw [hlen]
  by_cases hlt : i < PLACES
  · rw [if_pos hlt, if_neg (by decide)]
    exact iff_of_false (fun he => by cases he) (Nat.not_le_of_lt hlt)
  · rw [if_neg hlt, if_pos rfl]
    exact iff_of_true rfl (Nat.le_of_not_lt hlt)

theorem Volume.write_noSpace {p : InodePtr} {k size : ℕ} {place : Option Bytes}
    (hfile : v.fileAt p = some (k, place, size)) (buf : Bytes) {len ppos : ℕ}
    (hpos : ppos + len ≤ LLONG_MAX) :
    (v.write p buf len ppos).1 = .write (.error .ENOSPC) ↔ place = none := by
  unfold Volume.write
  rw [hfile]
  dsimp only
  rw [if_neg (Nat.not_lt_of_le hpos)]
  cases place with
  | none => exact iff_of_true rfl rfl
  | some bytes =>
    refine iff_of_false (fun he => ?_) (fun he => by cases he)
    dsimp only at he
    split at he
    · cases he
    · split at he
      · cases he
      · cases he

theorem VolumeSim.write_noSpace_iff (h : VolumeSim s v) {p : InodePtr} {i : ℕ} {m : Made}
    (hp : s.fs.isFileInode p = true) (hi : s.made[i]? = some m)
    (hino : m.ino = (s.fs.icache.inode p).iPrivate) (buf : Bytes) {len ppos : ℕ}
    (hpos : ppos + len ≤ LLONG_MAX) :
    (osfs.resp s (.write p buf len ppos)).reply = .write (.error .ENOSPC) ↔ PLACES ≤ i := by
  have hfile := h.fileAt p
  rw [if_pos hp] at hfile
  have hresp : (v.write p buf len ppos).1 = (osfs.resp s (.write p buf len ppos)).reply :=
    (h.write p buf len ppos).1
  rw [← hresp, Volume.write_noSpace hfile buf hpos]
  exact h.place_none_iff hi hino

theorem VolumeSim.read_late (h : VolumeSim s v) {p : InodePtr} {i : ℕ} {m : Made}
    (hp : s.fs.isFileInode p = true) (hi : s.made[i]? = some m)
    (hino : m.ino = (s.fs.icache.inode p).iPrivate) (hlate : PLACES ≤ i) (room : ℕ) {len ppos : ℕ}
    (hpos : ppos + len ≤ LLONG_MAX) :
    (osfs.resp s (.read p room len ppos)).reply = .read (.ok []) := by
  have hfile := h.fileAt p
  rw [if_pos hp, (h.place_none_iff hi hino).mpr hlate] at hfile
  have hresp : (v.read p room len ppos).1 = (osfs.resp s (.read p room len ppos)).reply :=
    (h.read p room len ppos).1
  rw [← hresp]
  unfold Volume.read
  rw [hfile]
  dsimp only
  rw [if_neg (Nat.not_lt_of_le hpos), Option.getD_none, List.take_nil, List.drop_nil, List.take_nil,
    List.length_nil, if_pos (Nat.zero_le room)]

/-- A file of a run whose entries fit never has room for a byte iff three files have been created
before it; then it also reads as empty. -/
theorem write_noSpace_iff_late (hm : Mounted s) {rs : List Req}
    (hnew : osfs.EveryStep NewName s rs) (hfits : osfs.EveryStep EntryFits s rs) {p : InodePtr}
    {i : ℕ} {m : Made} (hp : (osfs.run s rs).fs.isFileInode p = true)
    (hi : (osfs.run s rs).made[i]? = some m)
    (hino : m.ino = ((osfs.run s rs).fs.icache.inode p).iPrivate) (buf : Bytes) (room : ℕ)
    {len ppos : ℕ} (hpos : ppos + len ≤ LLONG_MAX) :
    ((osfs.resp (osfs.run s rs) (.write p buf len ppos)).reply = .write (.error .ENOSPC) ↔
      PLACES ≤ i) ∧
    (PLACES ≤ i → (osfs.resp (osfs.run s rs) (.read p room len ppos)).reply = .read (.ok [])) := by
  have h := (run_volumeSim hm hnew hfits).2
  exact ⟨h.write_noSpace_iff hp hi hino buf hpos,
    fun hlate => h.read_late hp hi hino hlate room hpos⟩

/- A directory and three files in it, the last of them without blocks. -/
def lateRun : List Req :=
  [.create 0 (Qstr.ofBytes [97]) S_IFDIR plainEnv, .create 1 (Qstr.ofBytes [98]) S_IFREG plainEnv,
    .create 1 (Qstr.ofBytes [99]) S_IFREG plainEnv, .create 1 (Qstr.ofBytes [100]) S_IFREG plainEnv]

theorem write_noSpace_iff_late_fourth :
    (osfs.resp (osfs.run freshMount lateRun) (.write 4 [7] 1 0)).reply =
      .write (.error .ENOSPC) := by
  have hfits : osfs.EveryStep EntryFits freshMount lateRun :=
    ⟨fun _ _ _ _ => ⟨by decide +kernel, Or.inl (by decide)⟩,
      fun _ _ _ _ => ⟨by decide +kernel, Or.inl (by decide)⟩,
      fun _ _ _ _ => ⟨by decide +kernel, Or.inl (by decide)⟩,
      fun _ _ _ _ => ⟨by decide +kernel, Or.inl (by decide)⟩, trivial⟩
  have hnew : osfs.EveryStep NewName freshMount lateRun := by decide +kernel
  have hi : (osfs.run freshMount lateRun).made[3]? = some ⟨2, [100], 5⟩ := by decide +kernel
  have hlate : ((osfs.resp (osfs.run freshMount lateRun) (.write 4 [7] 1 0)).reply =
      .write (.error .ENOSPC) ↔ PLACES ≤ 3) ∧ (PLACES ≤ 3 →
      (osfs.resp (osfs.run freshMount lateRun) (.read 4 0 1 0)).reply = .read (.ok [])) :=
    write_noSpace_iff_late freshMount_mounted hnew hfits (by decide +kernel) hi (by decide +kernel)
      [7] 0 (by decide)
  exact hlate.1.mpr (by decide)

/-! ### Regular files alone -/

/- `vfs_create` makes regular files. -/
def MakesRegular : Req → Prop
  | .create _ _ mode _ => sIsReg mode = true
  | _ => True

/- The root is the only directory. -/
def Volume.Flat (v : Volume) : Prop := ∀ k entries, v.node k = .dir entries → k = ROOT_INODE

theorem Volume.Flat.setFile (h : v.Flat) (k : ℕ) (place : Option Bytes) (size : ℕ) :
    (v.setNode k (.file place size)).Flat := by
  intro j entries hj
  change Function.update v.node k _ j = _ at hj
  by_cases he : j = k
  · rw [he, Function.update_self] at hj
    cases hj
  · rw [Function.update_of_ne he] at hj
    exact h j entries hj

theorem Volume.Flat.setDir (h : v.Flat) {d : ℕ} (hd : d = ROOT_INODE) (entries : List (Bytes × ℕ)) :
    (v.setNode d (.dir entries)).Flat := by
  intro j entries' hj
  change Function.update v.node d _ j = _ at hj
  by_cases he : j = d
  · exact he.trans hd
  · rw [Function.update_of_ne he] at hj
    exact h j entries' hj

theorem Volume.dirAt_node {p : InodePtr} {d : ℕ} {entries : List (Bytes × ℕ)}
    (h : v.dirAt p = some (d, entries)) : v.node d = .dir entries := by
  unfold Volume.dirAt at h
  split at h
  · rename_i hnode
    split at h
    · cases h
    · obtain ⟨rfl, rfl⟩ := Prod.mk.inj (Option.some.inj h)
      exact hnode
  · cases h

theorem Volume.Flat.step (h : v.Flat) {r : Req} (hr : MakesRegular r) : (v.step r).2.Flat := by
  cases r with
  | create dir dentry mode env =>
    have hnew (b : Bool) : ∃ place, Node.new mode b = .file place 0 := by
      unfold Node.new
      rw [sIsReg_not_dir hr, if_neg Bool.false_ne_true]
      exact ⟨_, rfl⟩
    obtain ⟨place, hplace⟩ := hnew (v.made < PLACES)
    simp only [Volume.step, Volume.create]
    split
    · exact h
    · rename_i d entries hdir
      split
      · exact h
      · split
        · exact h
        · have hfile := h.setFile (v.taken + 1) place 0
          rw [← hplace] at hfile
          exact (show ((v.setNode (v.taken + 1) _).addInode (v.taken + 1)).Flat from hfile).setDir
            (h d entries (Volume.dirAt_node hdir)) _
  | lookup dir dentry env =>
    simp only [Volume.step, Volume.lookup]
    repeat' split
    all_goals exact h
  | read p room len ppos =>
    simp only [Volume.step, Volume.read]
    repeat' split
    all_goals exact h
  | write p buf len ppos =>
    simp only [Volume.step, Volume.write]
    repeat' split
    all_goals first | exact h | exact h.setFile _ _ _

theorem Volume.root_flat : Volume.root.Flat := by
  intro k entries hk
  by_contra hne
  simp only [Volume.root, Function.update_of_ne hne, reduceCtorEq] at hk

/-- The block of the root directory has room for three entries. -/
theorem VolumeSim.made_le (h : VolumeSim s v) (hflat : v.Flat) : s.made.length ≤ PLACES := by
  have hall : s.entriesOf ROOT_INODE = s.made := by
    unfold Sys.entriesOf
    rw [List.filter_eq_self]
    intro m hm
    have hnode := h.shows.node ▸ nodeAt_dir (h.inv.parent m hm)
    exact decide_eq_true (hflat _ _ hnode)
  have hsize := (h.inv.dir ROOT_INODE h.placed.root).size
  have hle := h.inv.layout.size ROOT_INODE
  rw [hall] at hsize
  rw [hsize, h.placed.rootLen] at hle
  unfold DIR_ENTRY_SIZE BLOCK_SIZE at hle
  unfold PLACES
  omega

theorem VolumeSim.write_served (h : VolumeSim s v) (hflat : v.Flat) (r : Req) :
    (osfs.resp s r).reply ≠ .write (.error .ENOSPC) := by
  intro he
  cases r with
  | write p buf len ppos =>
    by_cases hok : (s.fs.isFileInode p && rwVerifyArea ppos len) = true
    · obtain ⟨hp, harea⟩ := Bool.and_eq_true_iff.mp hok
      obtain ⟨i, m, hi, hino⟩ := h.placed.file h.inv hp
      have hlate := (h.write_noSpace_iff hp hi hino buf ((area_iff _ _).mp harea)).mp he
      have hlt : i < s.made.length := (List.getElem?_eq_some_iff.mp hi).1
      exact absurd (h.made_le hflat) (by omega)
    · simp only [Machine.resp, osfs, sysStep, hok, Bool.false_eq_true, ite_false, Res.reply,
        reduceCtorEq] at he
  | create dir dentry mode env =>
    simp only [Machine.resp, osfs, sysStep] at he
    split at he <;> cases he
  | lookup dir dentry env =>
    simp only [Machine.resp, osfs, sysStep] at he
    split at he <;> cases he
  | read p room len ppos =>
    simp only [Machine.resp, osfs, sysStep] at he
    split at he <;> cases he

/-- With regular files, as `vfs_create` makes them, a mount whose entries all fit holds three files at
most, and no write to any of them is ever out of space. -/
theorem regular_never_full (hm : Mounted s) {rs : List Req} (hnew : osfs.EveryStep NewName s rs)
    (hfits : osfs.EveryStep EntryFits s rs) (hreg : ∀ r ∈ rs, MakesRegular r) :
    (osfs.run s rs).made.length ≤ PLACES ∧
      osfs.EveryStep (fun s r => (osfs.resp s r).reply ≠ .write (.error .ENOSPC)) s rs := by
  have hG : osfs.EveryStep (fun s r => MakesRegular r ∧ NewName s r ∧ EntryFits s r) s rs := by
    rw [osfs.everyStep_and, osfs.everyStep_and]
    exact ⟨(osfs.everyStep_forall_mem s rs).mpr hreg, hnew, hfits⟩
  have hstep (s : Sys) (r : Req) (hP : ∃ v, VolumeSim s v ∧ v.Flat)
      (hr : MakesRegular r ∧ NewName s r ∧ EntryFits s r) :
      ∃ v, VolumeSim (osfs.next s r) v ∧ v.Flat := by
    obtain ⟨v, h, hflat⟩ := hP
    exact ⟨_, (h.step hr.2).2, hflat.step hr.1⟩
  have h0 : ∃ v, VolumeSim s v ∧ v.Flat := ⟨_, .mounted hm, Volume.root_flat⟩
  refine ⟨?_, ?_⟩
  · obtain ⟨v, h, hflat⟩ := osfs.run_invariant hstep h0 hG
    exact h.made_le hflat
  · refine osfs.everyStep_of_invariant (fun s r hP hr => ⟨?_, hstep s r hP hr⟩) h0 hG
    obtain ⟨v, h, hflat⟩ := hP
    exact h.write_served hflat r

/- Three files, of which the last is written to behind its fourth block. -/
def regularRun : List Req :=
  [.create 0 (Qstr.ofBytes [97]) S_IFREG plainEnv, .create 0 (Qstr.ofBytes [98]) S_IFREG plainEnv,
    .create 0 (Qstr.ofBytes [99]) S_IFREG plainEnv, .write 3 [1, 2] 2 5000]

theorem regular_never_full_three : (osfs.run freshMount regularRun).made.length ≤ PLACES ∧
    osfs.EveryStep (fun s r => (osfs.resp s r).reply ≠ .write (.error .ENOSPC)) freshMount regularRun := by
  have hfits : osfs.EveryStep EntryFits freshMount regularRun :=
    ⟨fun _ _ _ _ => ⟨by decide +kernel, Or.inl (by decide)⟩,
      fun _ _ _ _ => ⟨by decide +kernel, Or.inl (by decide)⟩,
      fun _ _ _ _ => ⟨by decide +kernel, Or.inl (by decide)⟩, trivial, trivial⟩
  have hreg : ∀ r ∈ regularRun, MakesRegular r := by
    intro r hr
    simp only [regularRun, List.mem_cons, List.not_mem_nil, or_false] at hr
    rcases hr with rfl | rfl | rfl | rfl
    · exact (by decide : sIsReg S_IFREG = true)
    · exact (by decide : sIsReg S_IFREG = true)
    · exact (by decide : sIsReg S_IFREG = true)
    · trivial
  exact regular_never_full freshMount_mounted (by decide +kernel) hfits hreg

end OSLab.Optimize
