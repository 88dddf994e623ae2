import OSLab.Done.Store

/-!
# The machine refines the store

Every request answered by the machine is a step of the store between the
texts, pointers and open files of the two states.
-/

namespace OSLab.Done
open OSLab.Base OSLab.Kernel

/-- User-space copies succeed, and nothing is truncated. -/
def Plain : Req → Prop
  | .read _ room len => len ≤ room
  | .write _ buf len _ => len ≤ buf.length
  | .truncate _ _ => False
  | _ => True

/-- What the store needs of the machine besides the invariant: the blocks are zero behind the ends
of the files, and the pointers stand for files of the store. -/
structure StoreInv (s : Sys) : Prop where
  inv : SysInv s
  zero : ZeroTails s.fs.sb
  linked : s.store.Linked

theorem fileText_eq_some {sb : OsfsSbInfo} {k : ℕ} (h : sb.fileText k ≠ none) :
    sb.Named k ∧ sb.fileText k = some (sb.fileBytes k) := by
  by_cases hk : sb.Named k ∧ Formatted sb k ∧ sIsReg (sb.inodeTable k).iMode = true
  · exact ⟨hk.1, fileText_some hk.1 hk.2.1 hk.2.2⟩
  · exact absurd (fileText_none hk) h

theorem StoreInv.file {s : Sys} (h : StoreInv s) {fd : ℕ} {f : File} (hf : s.file fd = some f) :
    s.fs.sb.Named (s.fs.icache.inode f.fInode).iPrivate ∧
      s.store.text (s.fs.handleOf f).id = some (s.text f) ∧
      s.store.handle fd = some (s.fs.handleOf f) := by
  have hfile : s.fs.fileOf f.fInode = some (s.fs.icache.inode f.fInode).iPrivate :=
    if_pos (h.inv.files fd f hf).1
  obtain ⟨hn, htext⟩ := fileText_eq_some (h.linked _ _ hfile)
  exact ⟨hn, htext, by rw [store_handle, hf]; rfl⟩

theorem store_congr {s s' : Sys} (ht : s'.fs.sb.fileText = s.fs.sb.fileText)
    (hi : s'.fs.fileOf = s.fs.fileOf)
    (hh : s'.files.map (Option.map s'.fs.handleOf) = s.files.map (Option.map s.fs.handleOf)) :
    s'.store = s.store := by
  unfold Sys.store
  rw [ht, hi, hh]

theorem update_none {α : Type} (g : ℕ → Option α) {p : ℕ} (h : g p = none) :
    Function.update g p none = g := by
  rw [← h]
  exact Function.update_eq_self p g

theorem fileOf_withNewInode {fs : Fs} {env : Env} {dir : InodePtr} {mode : UMode} {ino b : ℕ}
    (hf : Fresh fs.sb ino b) :
    (fs.withNewInode env dir mode ino b).fileOf =
      Function.update fs.fileOf fs.icache.count (if sIsReg mode then some ino else none) :=
  fileOf_push fs _ (createdInode env (fs.icache.inode dir) ino mode)
    (Nat.ne_of_gt hf.inoPos) (newVfsInode_spec env (fs.icache.inode dir) ino mode).2.2.2.2

theorem withEntry_inode {fs : Fs} (h : FsInv fs) (env : Env) {dir : InodePtr} (mode : UMode)
    (ino b : ℕ) (name : Bytes) (hdir : fs.isDirInode dir = true) :
    (((fs.withNewInode env dir mode ino b).withEntry dir ino name).icache.inode
      fs.icache.count).iIno = ino := by
  have hne : fs.icache.count ≠ dir := Ne.symm (Nat.ne_of_lt (h.isDir hdir).1)
  have hget : ((fs.withNewInode env dir mode ino b).withEntry dir ino name).icache.inode
      fs.icache.count = createdInode env (fs.icache.inode dir) ino mode :=
    (Icache.set_ne _ _ hne).trans (withNewInode_inode_new env dir mode fs ino b)
  rw [hget]
  exact (newVfsInode_spec env (fs.icache.inode dir) ino mode).2.1

theorem CreateOutcome.store {s : Sys} (h : SysInv s) {env : Env} {dir : InodePtr} {dentry : Qstr}
    {mode : UMode} {r : Except Errno InodePtr × Fs} (hdir : s.fs.isDirInode dir = true)
    (ho : CreateOutcome env s.fs dir dentry mode r) :
    StoreStep s.store (.create dir dentry mode env) (createRes r) { s with fs := r.2 }.store := by
  have hhandles := h.handles_keep _ (ho.keeps h.fs)
  have hfresh := h.fs.fileOf_fresh
  cases ho with
  | refused e _ => exact .createFailed _ dir dentry mode env e
  | noMemory ino _ _ _ _ _ => exact .createFailed _ dir dentry mode env .ENOMEM
  | rejected e ino b _ _ _ hf _ =>
    have hfile : (iput (s.fs.withNewInode env dir mode ino b) s.fs.icache.count).fileOf =
        s.fs.fileOf := by
      rw [fileOf_iput, fileOf_withNewInode hf, Function.update_idem, update_none _ hfresh]
    have hsame : ({ s with fs := iput (s.fs.withNewInode env dir mode ino b) s.fs.icache.count } :
        Sys).store = s.store := store_congr (fileText_withNewInode h.fs hf) hfile hhandles
    rw [hsame]
    exact .createFailed _ dir dentry mode env e
  | created ino b hlen hcan hmem hf hent =>
    obtain ⟨hpriv, hd, hc⟩ := withNewInode_canEnter h.fs env mode hdir hlen hf hent
    have htext := fileText_withEntry h.fs hf hc
    have hold : s.fs.sb.fileText ino = none :=
      fileText_none fun hn => h.fs.sb.unused_unnamed hf.inoFree hn.1
    have hfile : ((s.fs.withNewInode env dir mode ino b).withEntry dir ino dentry.name).fileOf =
        Function.update s.fs.fileOf s.fs.icache.count (if sIsReg mode then some ino else none) :=
      (fileOf_withEntry _ dir ino dentry.name).trans (fileOf_withNewInode hf)
    have hres := withEntry_inode h.fs env mode ino b dentry.name hdir
    simp only [createRes, hres]
    by_cases hm : sIsReg mode = true
    · rw [if_pos hm] at htext hfile
      have hstep := StoreStep.createFile s.store dir dentry mode env s.fs.icache.count ino hm hold
        hfresh
      unfold Sys.store at hstep ⊢
      dsimp only at hhandles ⊢
      rw [htext, hfile, hhandles]
      exact hstep
    · rw [if_neg hm] at htext hfile
      rw [update_none _ hfresh] at hfile
      have hsame : Sys.store ⟨(s.fs.withNewInode env dir mode ino b).withEntry dir ino dentry.name,
          s.files⟩ = s.store := store_congr htext hfile hhandles
      rw [hsame]
      exact .createOther _ dir dentry mode env _ ino (Bool.eq_false_of_not_eq_true hm)

theorem LookupOutcome.store {s : Sys} (h : SysInv s) {env : Env} {dir : InodePtr} {dentry : Qstr}
    {r : LookupResult × Fs} (hdir : s.fs.isDirInode dir = true)
    (ho : LookupOutcome env s.fs dir dentry r) :
    StoreStep s.store (.lookup dir dentry env) (lookupRes r) { s with fs := r.2 }.store := by
  have hhandles := h.handles_keep _ (ho.keeps h.fs)
  have hfresh := h.fs.fileOf_fresh
  cases ho with
  | absent _ => exact .negative _ dir dentry env
  | noMemory _ _ _ => exact .lookupFailed _ dir dentry env .ENOMEM
  | found ino hin _ hf =>
    obtain ⟨_, hd, hmode⟩ := h.fs.isDir hdir
    have hnamed : s.fs.sb.Named ino :=
      ⟨_, dentry.name, by rw [dirLog_dir hd hmode]; exact hin⟩
    obtain ⟨hiino, hpriv, _, _, hfop⟩ := igetInode_fields (s.fs.sb.inodeTable ino) ino
    have hres : ((s.fs.withIget ino).icache.inode s.fs.icache.count).iIno = ino :=
      (congrArg Inode.iIno (Icache.push_same _ _)).trans hiino
    have hfile : (s.fs.withIget ino).fileOf = Function.update s.fs.fileOf s.fs.icache.count
        (if sIsReg (s.fs.sb.inodeTable ino).iMode then some ino else none) := by
      have hpush := fileOf_push s.fs s.fs.sb (igetInode (s.fs.sb.inodeTable ino) ino)
        (by rw [hpriv]; exact hf.1) hfop
      rw [hpriv] at hpush
      exact hpush
    simp only [lookupRes, hres]
    by_cases hm : sIsReg (s.fs.sb.inodeTable ino).iMode = true
    · rw [if_pos hm] at hfile
      have htext : s.store.text ino ≠ none := by
        rw [show s.store.text ino = some (s.fs.sb.fileBytes ino) from fileText_some hnamed hf hm]
        exact Option.some_ne_none _
      have hstep := StoreStep.foundFile s.store dir dentry env s.fs.icache.count ino htext hfresh
      unfold Sys.store at hstep ⊢
      dsimp only at hhandles ⊢
      rw [hfile, hhandles]
      exact hstep
    · rw [if_neg hm, update_none _ hfresh] at hfile
      have hsame : ({ s with fs := s.fs.withIget ino } : Sys).store = s.store :=
        store_congr rfl hfile hhandles
      rw [hsame]
      exact .foundOther _ dir dentry env _ ino (fileText_none fun hn => hm hn.2.2)

/-- A request that is refused by the machine is refused by the store. -/
theorem Refuses.store {s : Sys} {r : Req} (hp : Plain r) (h : Refuses s r) :
    StoreStep s.store r .invalid s.store := by
  have hhandle {fd : ℕ} (hf : s.file fd = none) : s.store.handle fd = none := by
    rw [store_handle, hf]
    rfl
  cases r with
  | create dir dentry mode env => exact .noDirCreate _ dir dentry mode env
  | lookup dir dentry env => exact .noDirLookup _ dir dentry env
  | «open» p =>
    apply StoreStep.invalidOpen
    apply if_neg
    rw [show s.fs.isFileInode p = false from h]
    exact Bool.false_ne_true
  | close fd => exact h.elim
  | seek fd pos => exact .invalidSeek _ fd pos (h.imp_left hhandle)
  | read fd room len => exact .invalidRead _ fd room len (hhandle h)
  | write fd buf len env => exact .invalidWrite _ fd buf len env (hhandle h)
  | truncate p env => exact hp.elim
  | evict p => exact .busy _ p

theorem opened_store {s : Sys} {p : InodePtr} (hp : s.fs.isFileInode p = true) :
    StoreStep s.store (.open p) (.opened s.files.length)
      (Sys.store ⟨s.fs, s.files ++ [some ⟨p, 0⟩]⟩) := by
  have hstep := StoreStep.opened s.store p (s.fs.icache.inode p).iPrivate (if_pos hp)
  rw [show s.store.handles.length = s.files.length from List.length_map ..] at hstep
  have hsame : ({ s with files := s.files ++ [some ⟨p, 0⟩] } : Sys).store =
      { s.store with
        handles := s.store.handles ++ [some ⟨(s.fs.icache.inode p).iPrivate, 0⟩] } := by
    unfold Sys.store
    simp only [List.map_append]
    rfl
  rw [hsame]
  exact hstep

theorem closed_store (s : Sys) (fd : ℕ) :
    StoreStep s.store (.close fd) .done { s with files := s.files.set fd none }.store := by
  have hsame : ({ s with files := s.files.set fd none } : Sys).store =
      { s.store with handles := s.store.handles.set fd none } := by
    unfold Sys.store
    simp only [List.map_set]
    rfl
  rw [hsame]
  exact .closed s.store fd

theorem evicted_store {s : Sys} {p : InodePtr} (hp : s.evictable p = true) :
    StoreStep s.store (.evict p) .done { s with fs := iput s.fs p }.store := by
  have hhandles : s.files.map (Option.map (iput s.fs p).handleOf) =
      s.files.map (Option.map s.fs.handleOf) := by
    apply handles_congr
    intro fd f hf
    rw [show (iput s.fs p).icache.inode f.fInode = s.fs.icache.inode f.fInode from
      s.fs.icache.set_ne _ ((evictable_file hp).2 fd f hf)]
  have hsame : ({ s with fs := iput s.fs p } : Sys).store = s.store.setInode p none := by
    unfold Sys.store Store.setInode
    rw [hhandles, fileOf_iput]
    rfl
  rw [hsame]
  exact .evicted s.store p

theorem written_store {s : Sys} (h : StoreInv s) {fd : ℕ} {f : File} (hf : s.file fd = some f)
    (env : Env) {bs : Bytes} (hend : f.fPos + bs.length ≤ BLOCK_SIZE) :
    Sys.store ⟨s.fs.withWrite env f.fInode f.fPos bs, s.files⟩ =
      s.store.setText (s.fs.handleOf f).id (writeAt (s.text f) f.fPos bs) := by
  have hfile := (h.inv.files fd f hf).1
  have htext := fileText_write h.inv.fs h.zero env hfile (h.file hf).1 hend
  have hhandles := h.inv.handles_keep (s.fs.withWrite env f.fInode f.fPos bs)
    (keeps_set rfl rfl rfl)
  have hinode : (s.fs.withWrite env f.fInode f.fPos bs).fileOf = s.fs.fileOf := fileOf_set rfl rfl
  unfold Sys.store Store.setText
  dsimp only
  rw [htext, hhandles, hinode]
  rfl

/-- One request to the machine is one request to the store. -/
theorem StepOutcome.store {s : Sys} (h : StoreInv s) {r : Req} (hp : Plain r) {q : Res × Sys}
    (ho : StepOutcome s r q) : StoreStep s.store r q.1 q.2.store := by
  cases ho with
  | refused r hr => exact hr.store hp
  | create dir dentry mode env r hdir ho => exact ho.store h.inv hdir
  | lookup dir dentry env r hdir ho => exact ho.store h.inv hdir
  | opened p hopen => exact opened_store hopen
  | closed fd => exact closed_store s fd
  | seeked fd pos f hf hpos =>
    rw [store_setPos]
    exact .seeked _ fd pos _ (h.file hf).2.2 hpos
  | readRefused fd room len f hf hpos => exact .readRefused _ fd room len _ (h.file hf).2.2 hpos
  | readFault fd room len f hf hpos hroom =>
    have hlen : (((s.text f).drop f.fPos).take (rwCount len)).length ≤ rwCount len :=
      List.length_take_le ..
    have hle := rwCount_le len
    have hr : len ≤ room := hp
    omega
  | read fd room len f hf hpos bytes hbytes =>
    obtain ⟨_, htext, hhandle⟩ := h.file hf
    rw [store_setPos, hbytes]
    exact .read _ fd room len _ _ hhandle htext hpos
  | writeRefused fd buf len env f hf hpos =>
    exact .writeRefused _ fd buf len env _ (h.file hf).2.2 hpos
  | writePast fd buf len env f hf hpos hpast =>
    exact .writePast _ fd buf len env _ (h.file hf).2.2 hpos hpast
  | writeFault fd buf len env f hf hpos data hle hbuf hdata =>
    have hlen := rwCount_le len
    have hb : len ≤ buf.length := hp
    omega
  | written fd buf len env f hf hpos n hle hn hbuf =>
    obtain ⟨_, htext, hhandle⟩ := h.file hf
    have hend : f.fPos + (buf.take n).length ≤ BLOCK_SIZE := by
      rw [List.length_take_of_le hbuf]
      omega
    have hkeep : (s.fs.withWrite env f.fInode f.fPos (buf.take n)).handleOf f = s.fs.handleOf f := by
      unfold Fs.handleOf
      rw [withWrite_private]
    rw [store_setPos, written_store h hf env hend]
    dsimp only
    rw [hkeep]
    exact .written _ fd buf len env _ _ n hhandle htext hpos hle hn
  | truncated p env hp' => exact hp.elim
  | evicted p hevict => exact evicted_store hevict

theorem CreateOutcome.zero {fs : Fs} (h : FsInv fs) (hz : ZeroTails fs.sb) {env : Env}
    {dir : InodePtr} {dentry : Qstr} {mode : UMode} {r : Except Errno InodePtr × Fs}
    (hdir : fs.isDirInode dir = true) (ho : CreateOutcome env fs dir dentry mode r) :
    ZeroTails r.2.sb := by
  cases ho with
  | refused _ _ => exact hz
  | noMemory _ _ _ _ _ _ => exact fun k hk hm i hi hlt => hz k hk hm i hi hlt
  | rejected e ino b _ _ _ hf _ => exact ZeroTails.formatInode h.sb hz hf.blockFree
  | created ino b hlen hcan hmem hf hent =>
    obtain ⟨_, _, hc⟩ := withNewInode_canEnter h env mode hdir hlen hf hent
    have hinv := h.withNewInode env dir mode hf
    have hnew : ZeroTails (fs.withNewInode env dir mode ino b).sb :=
      ZeroTails.formatInode h.sb hz hf.blockFree
    apply hnew.setSlot hinv.sb (addEntry_change ino hinv.sb hc.formatted hc.short hc.room)
    intro hnd
    have hdir' := hc.dir
    dsimp only at hnd
    rw [hnd] at hdir'
    cases hdir'

theorem StepOutcome.zero {s : Sys} (h : StoreInv s) {r : Req} (hp : Plain r) {q : Res × Sys}
    (ho : StepOutcome s r q) : ZeroTails q.2.fs.sb := by
  cases ho with
  | create dir dentry mode env r hdir ho => exact ho.zero h.inv.fs h.zero hdir
  | lookup dir dentry env r hdir ho => cases ho <;> exact h.zero
  | writeFault fd buf len env f hf hpos data hle hbuf hdata =>
    have hlen := rwCount_le len
    have hb : len ≤ buf.length := hp
    omega
  | written fd buf len env f hf hpos n hle hn hbuf =>
    apply h.zero.withWrite h.inv.fs (h.inv.files fd f hf).1
    rw [List.length_take_of_le hbuf]
    omega
  | _ => exact h.zero

theorem StoreInv.next {s : Sys} (h : StoreInv s) {r : Req} (hp : Plain r) :
    StoreInv (osfs.next s r) :=
  have ho := osfs_outcome h.inv r
  ⟨h.inv.outcome ho, ho.zero h hp, (ho.store h hp).linked h.linked⟩

theorem mounted_store {s : Sys} (h : Mounted s) : s.store = Store.empty := by
  have htext (k : ℕ) : s.fs.sb.fileText k = none := by
    apply fileText_none
    rintro ⟨⟨d, name, hin⟩, _⟩
    rw [mounted_dirLog h d] at hin
    cases hin
  have hinv := (SysInv.mounted h).1
  obtain ⟨env, vmallocOk, dMakeRootOk, hfs, hfiles⟩ := h
  obtain ⟨⟨oi, _, _, _, hdir, hsb⟩, _⟩ := osfsFillSuper_ok hfs
  have hinode (p : InodePtr) : s.fs.fileOf p = none := by
    apply if_neg
    intro hp
    obtain ⟨_, hf, hreg⟩ := hinv.fs.isFile hp
    rw [hsb] at hf hreg
    rw [mounted_only hf, mounted_root] at hreg
    rw [sIsReg_not_dir hreg] at hdir
    cases hdir
  unfold Sys.store Store.empty
  rw [hfiles, funext htext, funext hinode]
  rfl

theorem StoreInv.mounted {s : Sys} (h : Mounted s) : StoreInv s := by
  obtain ⟨hinv, hz⟩ := SysInv.mounted h
  refine ⟨hinv, hz, ?_⟩
  rw [mounted_store h]
  intro p id hp
  cases hp

/-- Every run of the machine is a run of the store that starts empty: the answers are those of
the store, and no text ever exceeds a block. -/
theorem run_refines_store {s : Sys} (h : Mounted s) {rs : List Req} (hp : ∀ r ∈ rs, Plain r) :
    SpecRun StoreStep Store.empty (osfs.trace s rs) (osfs.run s rs).store ∧
      (osfs.run s rs).store.Bounded := by
  have hrun := osfs.refines (R := StoreStep) (P := StoreInv) (G := Plain) Sys.store
    (fun _ _ hs hr => hs.next hr) (fun _ r hs hr => (osfs_outcome hs.inv r).store hs hr)
    (StoreInv.mounted h) hp
  rw [mounted_store h] at hrun
  refine ⟨hrun, ?_⟩
  have hbound {t u : Store} {es : List (Req × Res)} (hr : SpecRun StoreStep t es u)
      (ht : t.Bounded) : u.Bounded := by
    induction hr with
    | nil t => exact ht
    | cons hstep _ ih => exact ih (hstep.bounded ht)
  exact hbound hrun fun id c hc => by cases hc

/- A file is created, opened, written behind a hole, and read back. -/
def holeRun : List Req :=
  [.create 0 nameA S_IFREG plainEnv, .open 1, .seek 0 2, .write 0 [104, 105] 2 plainEnv,
    .seek 0 0, .read 0 10 10]

theorem run_refines_store_hole :
    SpecRun StoreStep Store.empty (osfs.trace freshMount holeRun)
      (osfs.run freshMount holeRun).store ∧ (osfs.run freshMount holeRun).store.Bounded :=
  run_refines_store freshMount_mounted (by simp [holeRun, Plain])

end OSLab.Done
