import OSLab.Done.Reach

/-!
# What one request can do

Every request to a machine in which the invariant holds ends in one of the
ways of `StepOutcome`, and each of them keeps the invariant. What follows
about runs is derived from these cases.
-/

namespace OSLab.Done
open OSLab.Base OSLab.Kernel

/- The text of the file behind an open file. -/
def Sys.text (s : Sys) (f : File) : Bytes :=
  s.fs.sb.fileBytes (s.fs.icache.inode f.fInode).iPrivate

/-- The requests the VFS answers by itself: there is no such directory, file or descriptor. -/
def Refuses (s : Sys) : Req → Prop
  | .create dir _ _ _ => s.fs.isDirInode dir = false
  | .lookup dir _ _ => s.fs.isDirInode dir = false
  | .open p => s.fs.isFileInode p = false
  | .close _ => False
  | .seek fd pos => s.file fd = none ∨ LLONG_MAX < pos
  | .read fd _ _ => s.file fd = none
  | .write fd _ _ _ => s.file fd = none
  | .truncate p _ => s.fs.isFileInode p = false
  | .evict p => s.evictable p = false

def createRes : Except Errno InodePtr × Fs → Res
  | (.ok p, fs) => .created p (fs.icache.inode p).iIno
  | (.error e, _) => .createFailed e

def lookupRes : LookupResult × Fs → Res
  | (.null, _) => .negative
  | (.err e, _) => .lookupFailed e
  | (.found p, fs) => .found p (fs.icache.inode p).iIno

def Fs.truncate (fs : Fs) (env : Env) (p : InodePtr) : Fs :=
  { fs with icache := fs.icache.set p (simpleSetattr env (fs.icache.inode p)) }

inductive StepOutcome (s : Sys) : Req → Res × Sys → Prop where
  | refused (r : Req) (h : Refuses s r) : StepOutcome s r (.invalid, s)
  | create (dir : InodePtr) (dentry : Qstr) (mode : UMode) (env : Env)
      (r : Except Errno InodePtr × Fs) (hdir : s.fs.isDirInode dir = true)
      (ho : CreateOutcome env s.fs dir dentry mode r) :
      StepOutcome s (.create dir dentry mode env) (createRes r, { s with fs := r.2 })
  | lookup (dir : InodePtr) (dentry : Qstr) (env : Env) (r : LookupResult × Fs)
      (hdir : s.fs.isDirInode dir = true) (ho : LookupOutcome env s.fs dir dentry r) :
      StepOutcome s (.lookup dir dentry env) (lookupRes r, { s with fs := r.2 })
  | opened (p : InodePtr) (hp : s.fs.isFileInode p = true) :
      StepOutcome s (.open p)
        (.opened s.files.length, { s with files := s.files ++ [some ⟨p, 0⟩] })
  | closed (fd : ℕ) :
      StepOutcome s (.close fd) (.done, { s with files := s.files.set fd none })
  | seeked (fd pos : ℕ) (f : File) (hf : s.file fd = some f) (hpos : pos ≤ LLONG_MAX) :
      StepOutcome s (.seek fd pos) (.done, s.setPos fd f pos)
  | readRefused (fd room len : ℕ) (f : File) (hf : s.file fd = some f)
      (hpos : LLONG_MAX < f.fPos + len) :
      StepOutcome s (.read fd room len) (.read (.error .EINVAL), s)
  | readFault (fd room len : ℕ) (f : File) (hf : s.file fd = some f)
      (hpos : f.fPos + len ≤ LLONG_MAX)
      (hroom : room < (((s.text f).drop f.fPos).take (rwCount len)).length) :
      StepOutcome s (.read fd room len) (.read (.error .EFAULT), s)
  | read (fd room len : ℕ) (f : File) (hf : s.file fd = some f) (hpos : f.fPos + len ≤ LLONG_MAX)
      (bytes : Bytes) (hbytes : bytes = ((s.text f).drop f.fPos).take (rwCount len)) :
      StepOutcome s (.read fd room len) (.read (.ok bytes), s.setPos fd f (f.fPos + bytes.length))
  | writeRefused (fd : ℕ) (buf : Bytes) (len : ℕ) (env : Env) (f : File) (hf : s.file fd = some f)
      (hpos : LLONG_MAX < f.fPos + len) :
      StepOutcome s (.write fd buf len env) (.written (.error .EINVAL), s)
  | writePast (fd : ℕ) (buf : Bytes) (len : ℕ) (env : Env) (f : File) (hf : s.file fd = some f)
      (hpos : f.fPos + len ≤ LLONG_MAX) (hpast : BLOCK_SIZE < f.fPos) :
      StepOutcome s (.write fd buf len env) (.written (.error .EFAULT), s)
  | writeFault (fd : ℕ) (buf : Bytes) (len : ℕ) (env : Env) (f : File) (hf : s.file fd = some f)
      (hpos : f.fPos + len ≤ LLONG_MAX) (data : Mem) (hle : f.fPos ≤ BLOCK_SIZE)
      (hbuf : buf.length < min (rwCount len) (BLOCK_SIZE - f.fPos))
      (hdata : ∀ x, ¬ InBlock s.fs.sb (s.fs.icache.inode f.fInode).iPrivate x →
        data x = s.fs.sb.dataBlocks x) :
      StepOutcome s (.write fd buf len env)
        (.written (.error .EFAULT), { s with fs := s.fs.withFault f.fInode data })
  | written (fd : ℕ) (buf : Bytes) (len : ℕ) (env : Env) (f : File) (hf : s.file fd = some f)
      (hpos : f.fPos + len ≤ LLONG_MAX) (n : ℕ) (hle : f.fPos ≤ BLOCK_SIZE)
      (hn : n = min (rwCount len) (BLOCK_SIZE - f.fPos)) (hbuf : n ≤ buf.length) :
      StepOutcome s (.write fd buf len env)
        (.written (.ok n),
          { s with fs := s.fs.withWrite env f.fInode f.fPos (buf.take n) }.setPos fd f (f.fPos + n))
  | truncated (p : InodePtr) (env : Env) (hp : s.fs.isFileInode p = true) :
      StepOutcome s (.truncate p env) (.done, { s with fs := s.fs.truncate env p })
  | evicted (p : InodePtr) (hp : s.evictable p = true) :
      StepOutcome s (.evict p) (.done, { s with fs := iput s.fs p })

/-! ### Every request ends in one of these ways -/

theorem rwVerifyArea_iff {pos len : ℕ} :
    (!rwVerifyArea pos len) = false ↔ pos + len ≤ LLONG_MAX := by
  simp only [rwVerifyArea, Bool.not_eq_false', decide_eq_true_eq]

theorem rwCount_le (len : ℕ) : rwCount len ≤ len := Nat.min_le_left ..

theorem sysCreate_outcome {s : Sys} (h : SysInv s) (dir : InodePtr) (dentry : Qstr) (mode : UMode)
    (env : Env) : StepOutcome s (.create dir dentry mode env) (sysCreate s dir dentry mode env) := by
  unfold sysCreate
  cases hdir : s.fs.isDirInode dir with
  | false => exact .refused _ hdir
  | true =>
    have ho := osfsCreate_outcome h.fs env hdir dentry mode
    simp only [ite_true]
    revert ho
    generalize osfsCreate env s.fs dir dentry mode = r
    intro ho
    obtain ⟨r, fs⟩ := r
    cases r with
    | ok p => exact .create dir dentry mode env _ hdir ho
    | error e => exact .create dir dentry mode env _ hdir ho

theorem sysLookup_outcome {s : Sys} (h : SysInv s) (dir : InodePtr) (dentry : Qstr) (env : Env) :
    StepOutcome s (.lookup dir dentry env) (sysLookup s dir dentry env) := by
  unfold sysLookup
  cases hdir : s.fs.isDirInode dir with
  | false => exact .refused _ hdir
  | true =>
    have ho := osfsLookup_outcome h.fs env hdir dentry
    simp only [ite_true]
    revert ho
    generalize osfsLookup env s.fs dir dentry = r
    intro ho
    obtain ⟨r, fs⟩ := r
    cases r with
    | null => exact .lookup dir dentry env _ hdir ho
    | err e => exact .lookup dir dentry env _ hdir ho
    | found p => exact .lookup dir dentry env _ hdir ho

theorem sysRead_outcome {s : Sys} (h : SysInv s) (fd room len : ℕ) :
    StepOutcome s (.read fd room len) (sysRead s fd room len) := by
  unfold sysRead
  cases hf : s.file fd with
  | none => exact .refused _ hf
  | some f =>
    dsimp only
    by_cases hpos : f.fPos + len ≤ LLONG_MAX
    · have hlen := rwCount_le len
      have hread := osfsRead_eq h.fs (h.files fd f hf).1 room (rwCount len) f.fPos (by omega)
      rw [show s.fs.sb.fileBytes _ = s.text f from rfl] at hread
      rw [rwVerifyArea_iff.mpr hpos, if_neg Bool.false_ne_true, hread]
      by_cases hroom : (((s.text f).drop f.fPos).take (rwCount len)).length ≤ room
      · rw [if_pos hroom]
        exact .read fd room len f hf hpos _ rfl
      · rw [if_neg hroom]
        exact .readFault fd room len f hf hpos (Nat.lt_of_not_le hroom)
    · have hv : (!rwVerifyArea f.fPos len) = true := by
        rw [← Bool.not_eq_false, rwVerifyArea_iff]
        exact hpos
      rw [if_pos hv]
      exact .readRefused fd room len f hf (Nat.lt_of_not_le hpos)

theorem sysWrite_outcome {s : Sys} (h : SysInv s) (fd : ℕ) (buf : Bytes) (len : ℕ) (env : Env) :
    StepOutcome s (.write fd buf len env) (sysWrite s fd buf len env) := by
  unfold sysWrite
  cases hf : s.file fd with
  | none => exact .refused _ hf
  | some f =>
    dsimp only
    by_cases hpos : f.fPos + len ≤ LLONG_MAX
    · have hlen := rwCount_le len
      have ho := osfsWrite_outcome h.fs env (h.files fd f hf).1 buf (rwCount len) f.fPos (by omega)
      rw [rwVerifyArea_iff.mpr hpos, if_neg Bool.false_ne_true]
      revert ho
      generalize osfsWrite env s.fs f.fInode buf (rwCount len) f.fPos = r
      intro ho
      cases ho with
      | past hpast => exact .writePast fd buf len env f hf hpos hpast
      | fault data hle hbuf hdata => exact .writeFault fd buf len env f hf hpos data hle hbuf hdata
      | written n hle hn hbuf => exact .written fd buf len env f hf hpos n hle hn hbuf
    · have hv : (!rwVerifyArea f.fPos len) = true := by
        rw [← Bool.not_eq_false, rwVerifyArea_iff]
        exact hpos
      rw [if_pos hv]
      exact .writeRefused fd buf len env f hf (Nat.lt_of_not_le hpos)

theorem sysStep_outcome {s : Sys} (h : SysInv s) (r : Req) : StepOutcome s r (sysStep s r) := by
  cases r with
  | create dir dentry mode env => exact sysCreate_outcome h dir dentry mode env
  | lookup dir dentry env => exact sysLookup_outcome h dir dentry env
  | «open» p =>
    simp only [sysStep]
    by_cases hp : s.fs.isFileInode p = true
    · rw [if_pos hp]
      exact .opened p hp
    · rw [if_neg hp]
      exact .refused (.open p) (Bool.eq_false_of_not_eq_true hp)
  | close fd => exact .closed fd
  | seek fd pos =>
    simp only [sysStep, sysSeek]
    cases hf : s.file fd with
    | none => exact .refused (.seek fd pos) (Or.inl hf)
    | some f =>
      dsimp only
      by_cases hpos : pos ≤ LLONG_MAX
      · rw [if_pos hpos]
        exact .seeked fd pos f hf hpos
      · rw [if_neg hpos]
        exact .refused (.seek fd pos) (Or.inr (Nat.lt_of_not_le hpos))
  | read fd room len => exact sysRead_outcome h fd room len
  | write fd buf len env => exact sysWrite_outcome h fd buf len env
  | truncate p env =>
    simp only [sysStep]
    by_cases hp : s.fs.isFileInode p = true
    · rw [if_pos hp]
      exact .truncated p env hp
    · rw [if_neg hp]
      exact .refused (.truncate p env) (Bool.eq_false_of_not_eq_true hp)
  | evict p =>
    simp only [sysStep]
    by_cases hp : s.evictable p = true
    · rw [if_pos hp]
      exact .evicted p hp
    · rw [if_neg hp]
      exact .refused (.evict p) (Bool.eq_false_of_not_eq_true hp)

/-! ### The invariant of the runs -/

theorem SysInv.mounted {s : Sys} (h : Mounted s) : SysInv s ∧ ZeroTails s.fs.sb := by
  obtain ⟨env, vmallocOk, dMakeRootOk, hfs, hfiles⟩ := h
  obtain ⟨hinv, hz⟩ := FsInv.mounted hfs
  refine ⟨⟨hinv, fun fd f hf => ?_⟩, hz⟩
  unfold Sys.file at hf
  rw [hfiles] at hf
  cases hf

theorem SysInv.outcome {s : Sys} (h : SysInv s) {r : Req} {q : Res × Sys}
    (ho : StepOutcome s r q) : SysInv q.2 := by
  cases ho with
  | refused _ _ => exact h
  | create dir dentry mode env r hdir ho => exact h.setFs (h.fs.create hdir ho) (ho.keeps h.fs)
  | lookup dir dentry env r hdir ho => exact h.setFs (h.fs.lookup ho) (ho.keeps h.fs)
  | opened p hp =>
    refine ⟨h.fs, fun fd f hf => ?_⟩
    rcases open_file hf with rfl | hold
    · exact ⟨hp, Nat.zero_le _⟩
    · exact h.files fd f hold
  | closed fd => exact ⟨h.fs, fun fd' f hf => h.files fd' f (close_file hf)⟩
  | seeked fd pos f hf hpos => exact h.setPos hf hpos
  | readRefused _ _ _ _ _ _ => exact h
  | readFault _ _ _ _ _ _ _ => exact h
  | read fd room len f hf hpos bytes hbytes =>
    have hlen := rwCount_le len
    have hle : bytes.length ≤ rwCount len := by
      rw [hbytes]
      exact List.length_take_le ..
    exact h.setPos hf (by omega)
  | writeRefused _ _ _ _ _ _ _ => exact h
  | writePast _ _ _ _ _ _ _ _ => exact h
  | writeFault fd buf len env f hf hpos data hle hbuf hdata =>
    exact h.setFs (h.fs.withFault (h.files fd f hf).1 hdata) (Keeps.refl s.fs)
  | written fd buf len env f hf hpos n hle hn hbuf =>
    have hlen := rwCount_le len
    have hout : WriteOutcome env s.fs f.fInode buf (rwCount len) f.fPos _ :=
      .written n hle hn hbuf
    have hs := h.setFs (h.fs.write (h.files fd f hf).1 hout) hout.keeps
    exact hs.setPos hf (by omega)
  | truncated p env hp => exact h.setFs (h.fs.truncate env hp) (keeps_set rfl rfl rfl)
  | evicted p hp =>
    obtain ⟨hp0, hopen⟩ := evictable_file hp
    refine ⟨h.fs.iput hp0, fun fd f hf => ?_⟩
    obtain ⟨hfile, hpos⟩ := h.files fd f hf
    have hget : (iput s.fs p).icache.inode f.fInode = s.fs.icache.inode f.fInode :=
      s.fs.icache.set_ne _ (hopen fd f hf)
    refine ⟨?_, hpos⟩
    rw [isFileInode_iff, hget]
    exact isFileInode_iff.mp hfile

theorem SysInv.next {s : Sys} (h : SysInv s) (r : Req) : SysInv (osfs.next s r) :=
  h.outcome (sysStep_outcome h r)

theorem osfs_outcome {s : Sys} (h : SysInv s) (r : Req) :
    StepOutcome s r (osfs.resp s r, osfs.next s r) := sysStep_outcome h r

/-- The invariant holds in every state that a mount and any requests lead to. -/
theorem SysInv.run {s : Sys} (h : Mounted s) (rs : List Req) : SysInv (osfs.run s rs) :=
  osfs.run_invariant_all (fun _ r hs => hs.next r) rs (SysInv.mounted h).1

end OSLab.Done
