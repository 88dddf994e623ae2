import OSLab.Shell.PipelineRun

/-!
# The steps of a pipeline

Every state of a pipeline is a chain of programs: each step of a process either
brings it nearer to its command or is a step of the chain.
-/

namespace OSLab.Shell
open OSLab.Base Function

variable {π : Type*}

/-- The descriptors of stage `k` when its pipes are closed. -/
def Job.stageFds (job : Job π) (t' : Fds) (k : ℕ) : Fds :=
  closePipes job.pipes (childOut job.pipes job.count k (childIn job.pipes k t'))

/-- A child on its way to these descriptors; `t'` are the shell's when it forks. -/
def Job.ChildOk (job : Job π) (t' : Fds) (k : ℕ) : Child π → Prop
  | .unborn => True
  | .dupIn fds => fds = t'
  | .dupOut fds => fds = childIn job.pipes k t'
  | .closing ends fds =>
    fds.closeAll ends = job.stageFds t' k ∧ ∀ fd ∈ ends, fd ∈ pipeEnds job.pipes
  | .running _ fds => fds = job.stageFds t' k
  | .exited => True

def Job.ParentOk (job : Job π) (t' : Fds) (child : ℕ → Child π) : Parent → Prop
  | .forking idx fds => idx ≤ job.count ∧ fds = t' ∧ ∀ k, child k = .unborn ↔ idx ≤ k
  | .closing ends fds =>
    fds.closeAll ends = closePipes job.pipes t' ∧ ∀ k, k < job.count → child k ≠ .unborn
  | .waiting idx fds =>
    fds = closePipes job.pipes t' ∧ (∀ k, k < job.count → child k ≠ .unborn) ∧
      ∀ k, k < idx → child k = .exited
  | .returned fds => fds = closePipes job.pipes t' ∧ ∀ k, k < job.count → child k = .exited
  | .exited => False

/-- The processes of a pipeline at any moment. -/
structure Job.Ok (job : Job π) (t' : Fds) (s : Kernel π) : Prop where
  child : ∀ k, job.ChildOk t' k (s.child k)
  beyond : ∀ k, job.count ≤ k → s.child k = .unborn
  parent : job.ParentOk t' s.child s.parent

/- The steps that are left of the shell and of a child up to its `execvp`. -/
def Job.parentLeft (job : Job π) : Parent → ℕ
  | .forking idx _ => (job.count - idx) + (pipeEnds job.pipes).length + job.count + 4
  | .closing ends _ => ends.length + job.count + 3
  | .waiting idx _ => (job.count - idx) + 1
  | .returned _ => 0
  | .exited => 0

def Job.childLeft (job : Job π) : Child π → ℕ
  | .unborn => (pipeEnds job.pipes).length + 4
  | .dupIn _ => (pipeEnds job.pipes).length + 3
  | .dupOut _ => (pipeEnds job.pipes).length + 2
  | .closing ends _ => ends.length + 1
  | .running _ _ => 0
  | .exited => 0

def Job.setupLeft (job : Job π) (s : Kernel π) : ℕ :=
  job.parentLeft s.parent + ∑ k ∈ Finset.range job.count, job.childLeft (s.child k)

/-- A child as a stage of a chain: before `execvp` it is the command it will be. -/
def Child.stage (p : Image π) : Child π → Option (Image π)
  | .running q _ => some q
  | .exited => none
  | _ => some p

def Kernel.toChain (job : Job π) (s : Kernel π) : Chain (Image π) Byte where
  stage k := (s.child k).stage (job.prog k)
  chan
    | 0 => s.stdin
    | k + 1 => if k + 1 < job.count then s.buffer k else if k + 1 = job.count then s.stdout else []

section Job
variable {job : Job π}

/-! ### The chain of a state -/

theorem chan_buffer (s : Kernel π) {j : ℕ} (hj : j + 1 < job.count) :
    (s.toChain job).chan (j + 1) = s.buffer j := by
  simp only [Kernel.toChain, hj, ite_true]

theorem chan_stdout (s : Kernel π) {k : ℕ} (hk : k + 1 = job.count) :
    (s.toChain job).chan (k + 1) = s.stdout := by
  change (if k + 1 < job.count then _ else if k + 1 = job.count then s.stdout else []) = _
  rw [if_neg (by omega), if_pos hk]

theorem toChain_setChild (s : Kernel π) (k : ℕ) (c : Child π) :
    (s.setChild k c).toChain job =
      ⟨update (s.toChain job).stage k (c.stage (job.prog k)), (s.toChain job).chan⟩ := by
  have hstage : ((s.setChild k c).toChain job).stage =
      update (s.toChain job).stage k (c.stage (job.prog k)) := by
    funext j
    change ((update s.child k c) j).stage (job.prog j) = _
    by_cases hj : j = k
    · subst hj
      rw [update_self, update_self]
    · rw [update_of_ne hj, update_of_ne hj]
      rfl
  exact congrArg₂ Chain.mk hstage rfl

theorem toChain_setBuffer (s : Kernel π) {j : ℕ} (hj : j + 1 < job.count) (bytes : Bytes) :
    (s.setBuffer j bytes).toChain job =
      ⟨(s.toChain job).stage, update (s.toChain job).chan (j + 1) bytes⟩ := by
  have hchan : ((s.setBuffer j bytes).toChain job).chan =
      update (s.toChain job).chan (j + 1) bytes := by
    funext i
    cases i with
    | zero => rfl
    | succ i =>
      by_cases hi : i = j
      · subst hi
        rw [update_self]
        simp only [Kernel.toChain, Kernel.setBuffer, hj, ite_true, update_self]
      · rw [update_of_ne (by omega)]
        simp only [Kernel.toChain, Kernel.setBuffer, update_of_ne hi]
  exact congrArg₂ Chain.mk rfl hchan

theorem toChain_stdin (s : Kernel π) (bytes : Bytes) :
    ({ s with stdin := bytes } : Kernel π).toChain job =
      ⟨(s.toChain job).stage, update (s.toChain job).chan 0 bytes⟩ := by
  have hchan : (({ s with stdin := bytes } : Kernel π).toChain job).chan =
      update (s.toChain job).chan 0 bytes := by
    funext i
    cases i with
    | zero => rfl
    | succ i => rfl
  exact congrArg₂ Chain.mk rfl hchan

theorem toChain_stdout (s : Kernel π) {k : ℕ} (hk : k + 1 = job.count) (bytes : Bytes) :
    ({ s with stdout := bytes } : Kernel π).toChain job =
      ⟨(s.toChain job).stage, update (s.toChain job).chan (k + 1) bytes⟩ := by
  have hchan : (({ s with stdout := bytes } : Kernel π).toChain job).chan =
      update (s.toChain job).chan (k + 1) bytes := by
    funext i
    cases i with
    | zero => rfl
    | succ i =>
      by_cases hi : i = k
      · subst hi
        rw [update_self]
        exact chan_stdout _ hk
      · rw [update_of_ne (by omega)]
        have hne : i + 1 ≠ job.count := by omega
        simp only [Kernel.toChain, hne, ite_false]
  exact congrArg₂ Chain.mk rfl hchan

theorem stage_none {s : Kernel π} {k : ℕ} :
    (s.toChain job).stage k = none ↔ s.child k = .exited := by
  change (s.child k).stage (job.prog k) = none ↔ _
  cases s.child k <;> simp only [Child.stage, reduceCtorEq]

/-! ### Who holds an end of a pipe -/

theorem holds_iff (count : ℕ) (s : Kernel π) (d : Desc) :
    s.holds count d = true ↔ (∃ fds, s.parent.fds = some fds ∧ ∃ fd, fds.desc fd = some d) ∨
      ∃ k, k < count ∧ ∃ fds, (s.child k).fds = some fds ∧ ∃ fd, fds.desc fd = some d := by
  simp only [Kernel.holds, Bool.or_eq_true, Option.any_eq_true, List.any_eq_true, List.mem_range,
    FdTable.has_iff]

section Made
variable {t : ShellFds} {t' : Fds} (hmade : PipesMade 0 (job.count - 1) t.toFdTable t' job.pipes)
include hmade

theorem Job.stageFds_ok {k : ℕ} (hk : k < job.count) :
    StageFds t.toFdTable job.count k (job.stageFds t' k) :=
  pipelineChild_stageFds hmade hk .empty

/-- From the moment it closes the pipes, a child is connected. -/
theorem Job.Ok.connected {s : Kernel π} (hok : job.Ok t' s) {k : ℕ} {fds : Fds} (hk : k < job.count)
    (h : (∃ ends, s.child k = .closing ends fds) ∨ ∃ p, s.child k = .running p fds) :
    fds.desc STDIN_FILENO = stageStdin t.toFdTable k ∧
    fds.desc STDOUT_FILENO = stageStdout t.toFdTable job.count k := by
  have hstage := job.stageFds_ok hmade hk
  have hchild := hok.child k
  rcases h with ⟨ends, h⟩ | ⟨p, h⟩
  · rw [h] at hchild
    obtain ⟨hclosed, hends⟩ := hchild
    obtain ⟨d0, h0⟩ := t.stdin
    obtain ⟨d1, h1⟩ := t.stdout
    have hkept {fd : ℕ} {d : Desc} (hd : t.desc fd = some d) :
        fds.desc fd = (job.stageFds t' k).desc fd := by
      rw [← hclosed]
      exact (fds.closeAll_other fun hmem => hmade.notMem hd (hends fd hmem)).symm
    exact ⟨(hkept h0).trans hstage.stdin, (hkept h1).trans hstage.stdout⟩
  · rw [h] at hchild
    change fds = _ at hchild
    rw [hchild]
    exact ⟨hstage.stdin, hstage.stdout⟩

/-- The numbers of the pipes are not those of the shell's input and output. -/
theorem pipeWrite_ne_stdin {j : ℕ} (hj : j + 1 < job.count) :
    (job.pipes.getD j (0, 0)).2 ≠ STDIN_FILENO := by
  obtain ⟨d0, h0⟩ := t.stdin
  have hkept := hmade.keeps _ (hmade.notMem h0)
  have hwrite := (hmade.getD_ends (k := j) (by omega)).2
  intro he
  rw [he, hkept] at hwrite
  exact (t.pipeFree STDIN_FILENO j).2 hwrite

/-- Until stage `k` has ended, somebody holds the end of its pipe for writing, and of the pipe before
it for reading: the stage itself, or the shell that has not forked it. -/
theorem Job.Ok.holds {s : Kernel π} (hok : job.Ok t' s) {k : ℕ} (hk : k < job.count)
    (hgoes : s.child k ≠ .exited) :
    (k + 1 < job.count → s.holds job.count (.pipeWrite k) = true) ∧
    ∀ j, j + 1 = k → s.holds job.count (.pipeRead j) = true := by
  -- all ends are open in the shell's descriptors when it forks
  have hends {j : ℕ} (hj : j + 1 < job.count) := hmade.getD_ends (k := j) (by omega)
  have hown {fds : Fds} {d : Desc} (hfds : (s.child k).fds = some fds)
      (hd : ∃ fd, fds.desc fd = some d) : s.holds job.count d = true :=
    (holds_iff ..).mpr (.inr ⟨k, hk, fds, hfds, hd⟩)
  have hstdio {fds : Fds} (hfds : (s.child k).fds = some fds)
      (h : (∃ ends, s.child k = .closing ends fds) ∨ ∃ p, s.child k = .running p fds) :
      (k + 1 < job.count → s.holds job.count (.pipeWrite k) = true) ∧
      ∀ j, j + 1 = k → s.holds job.count (.pipeRead j) = true := by
    obtain ⟨hin, hout⟩ := hok.connected hmade hk h
    constructor
    · intro hlt
      unfold stageStdout at hout
      rw [if_pos hlt] at hout
      exact hown hfds ⟨_, hout⟩
    · intro j hj
      unfold stageStdin at hin
      rw [if_neg (by omega), ← hj] at hin
      exact hown hfds ⟨_, hin⟩
  have hchild := hok.child k
  cases hc : s.child k with
  | unborn =>
    have hparent := hok.parent
    cases hp : s.parent with
    | forking idx fds =>
      rw [hp] at hparent
      obtain ⟨-, rfl, -⟩ := hparent
      have hheld {d : Desc} (hd : ∃ fd, fds.desc fd = some d) : s.holds job.count d = true :=
        (holds_iff ..).mpr (.inl ⟨fds, by rw [hp]; rfl, hd⟩)
      exact ⟨fun hlt => hheld ⟨_, (hends hlt).2⟩, fun j hj => hheld ⟨_, (hends (by omega)).1⟩⟩
    | closing ends fds =>
      rw [hp] at hparent
      exact absurd hc (hparent.2 k hk)
    | waiting idx fds =>
      rw [hp] at hparent
      exact absurd hc (hparent.2.1 k hk)
    | returned fds =>
      rw [hp] at hparent
      exact absurd (hparent.2 k hk) hgoes
    | exited =>
      rw [hp] at hparent
      exact hparent.elim
  | dupIn fds =>
    rw [hc] at hchild hown
    change fds = t' at hchild
    subst hchild
    exact ⟨fun hlt => hown rfl ⟨_, (hends hlt).2⟩, fun j hj => hown rfl ⟨_, (hends (by omega)).1⟩⟩
  | dupOut fds =>
    rw [hc] at hchild hown
    change fds = childIn job.pipes k t' at hchild
    subst hchild
    constructor
    · intro hlt
      refine hown rfl ⟨(job.pipes.getD k (0, 0)).2, ?_⟩
      unfold childIn
      split
      · rw [FdTable.dup2_other _ _ (pipeWrite_ne_stdin hmade hlt)]
        exact (hends hlt).2
      · exact (hends hlt).2
    · intro j hj
      refine hown rfl ⟨STDIN_FILENO, ?_⟩
      unfold childIn
      subst hj
      rw [if_pos (Nat.succ_pos j)]
      exact FdTable.dup2_same (hends hk).1 _
  | closing ends fds => exact hstdio (by rw [hc]; rfl) (.inl ⟨ends, hc⟩)
  | running p fds => exact hstdio (by rw [hc]; rfl) (.inr ⟨p, hc⟩)
  | exited => exact absurd hc hgoes

/-- Once the shell has closed the pipes and all commands run, only a stage that has not ended holds
an end of a pipe. -/
theorem Job.Ok.not_holds {s : Kernel π} (hok : job.Ok t' s) {idx : ℕ} {fds : Fds}
    (hparent : s.parent = .waiting idx fds)
    (hrun : ∀ k, k < job.count → s.child k = .exited ∨ ∃ p fds, s.child k = .running p fds)
    {j : ℕ} (hj : j + 1 < job.count) :
    (s.child j = .exited → s.holds job.count (.pipeWrite j) = false) ∧
    (s.child (j + 1) = .exited → s.holds job.count (.pipeRead j) = false) := by
  have hshell (fd : ℕ) : PipeFree fds fd := by
    have hp := hok.parent
    rw [hparent] at hp
    rw [hp.1]
    exact (t.pipeFree fd).congr (hmade.closed rfl)
  -- the only process that can hold an end is the stage it belongs to
  have honly {d : Desc} {i : ℕ} (hd : ∀ fd, fds.desc fd ≠ some d)
      (hstage : ∀ k fds, StageFds t.toFdTable job.count k fds → (∃ fd, fds.desc fd = some d) → k = i)
      (hend : s.child i = .exited) : s.holds job.count d = false := by
    rw [Bool.eq_false_iff, ne_eq, holds_iff]
    rintro (⟨fds', hfds, fd, hfd⟩ | ⟨k, hk, fds', hfds, hfd⟩)
    · rw [hparent] at hfds
      obtain rfl := Option.some.inj hfds
      exact hd fd hfd
    · rcases hrun k hk with hk' | ⟨p, fds'', hk'⟩
      · rw [hk'] at hfds
        cases hfds
      · have hchild := hok.child k
        rw [hk'] at hfds hchild
        obtain rfl := Option.some.inj hfds
        change fds'' = _ at hchild
        obtain rfl := hstage k fds'' (hchild ▸ job.stageFds_ok hmade hk) hfd
        rw [hk'] at hend
        cases hend
  constructor
  · exact honly (fun fd => (hshell fd j).2) fun k fds' h hfd => (h.writes_iff hj).mp hfd
  · exact honly (fun fd => (hshell fd j).1) fun k fds' h hfd => (h.reads_iff j).mp hfd

end Made

/-! ### Steps before the commands run -/

section Steps
variable {t' : Fds}

theorem Job.Ok.congr {s s' : Kernel π} (hok : job.Ok t' s) (hparent : s'.parent = s.parent)
    (hchild : s'.child = s.child) : job.Ok t' s' := by
  obtain ⟨h1, h2, h3⟩ := hok
  refine ⟨?_, ?_, ?_⟩
  · rw [hchild]
    exact h1
  · rw [hchild]
    exact h2
  · rw [hparent, hchild]
    exact h3

/-- What a child does when it is there is nothing to the shell. -/
theorem Job.Ok.setChild {s : Kernel π} (hok : job.Ok t' s) {k : ℕ} {c : Child π} (hk : k < job.count)
    (hborn : s.child k ≠ .unborn) (hgoes : s.child k ≠ .exited) (hc : c ≠ .unborn)
    (hchild : job.ChildOk t' k c) : job.Ok t' (s.setChild k c) := by
  have hother {j : ℕ} (hj : j ≠ k) : (s.setChild k c).child j = s.child j := update_of_ne hj ..
  have hsame : (s.setChild k c).child k = c := update_self ..
  have hforked (h : ∀ j, j < job.count → s.child j ≠ .unborn) (j : ℕ) (hj : j < job.count) :
      (s.setChild k c).child j ≠ .unborn := by
    by_cases hjk : j = k
    · rw [hjk, hsame]
      exact hc
    · rw [hother hjk]
      exact h j hj
  refine ⟨?_, ?_, ?_⟩
  · intro j
    by_cases hj : j = k
    · rw [hj, hsame]
      exact hchild
    · rw [hother hj]
      exact hok.child j
  · intro j hj
    rw [hother (by omega)]
    exact hok.beyond j hj
  · have hparent := hok.parent
    change job.ParentOk t' _ s.parent
    cases hp : s.parent with
    | forking idx fds =>
      rw [hp] at hparent
      obtain ⟨hidx, hfds, hunborn⟩ := hparent
      refine ⟨hidx, hfds, ?_⟩
      intro j
      by_cases hj : j = k
      · rw [hj, hsame]
        exact iff_of_false hc fun hle => hborn ((hunborn k).mpr hle)
      · rw [hother hj]
        exact hunborn j
    | closing ends fds =>
      rw [hp] at hparent
      exact ⟨hparent.1, hforked hparent.2⟩
    | waiting idx fds =>
      rw [hp] at hparent
      obtain ⟨hfds, hborn', hexited⟩ := hparent
      refine ⟨hfds, hforked hborn', ?_⟩
      intro j hj
      by_cases hjk : j = k
      · exact absurd (hexited k (hjk ▸ hj)) hgoes
      · rw [hother hjk]
        exact hexited j hj
    | returned fds =>
      rw [hp] at hparent
      exact absurd (hparent.2 k hk) hgoes
    | exited =>
      rw [hp] at hparent
      exact hparent

theorem setupLeft_setChild (s : Kernel π) {k : ℕ} (hk : k < job.count) (c : Child π) :
    job.setupLeft (s.setChild k c) + job.childLeft (s.child k) =
      job.setupLeft s + job.childLeft c := by
  have hmem : k ∈ Finset.range job.count := Finset.mem_range.mpr hk
  have hbefore := Finset.add_sum_erase _ (fun j => job.childLeft (s.child j)) hmem
  have hafter := Finset.add_sum_erase _ (fun j => job.childLeft ((s.setChild k c).child j)) hmem
  have hrest : ∑ j ∈ (Finset.range job.count).erase k, job.childLeft ((s.setChild k c).child j) =
      ∑ j ∈ (Finset.range job.count).erase k, job.childLeft (s.child j) := by
    apply Finset.sum_congr rfl
    intro j hj
    exact congrArg job.childLeft (update_of_ne (Finset.ne_of_mem_erase hj) ..)
  have hsame : (s.setChild k c).child k = c := update_self ..
  have hparent : (s.setChild k c).parent = s.parent := rfl
  rw [hsame, hrest] at hafter
  unfold Job.setupLeft
  rw [hparent]
  omega

theorem setupLeft_parent (s : Kernel π) (p : Parent) :
    job.setupLeft { s with parent := p } + job.parentLeft s.parent =
      job.setupLeft s + job.parentLeft p := by
  unfold Job.setupLeft
  dsimp only
  omega

/-- A step on the way to the commands. -/
structure SetupStep (job : Job π) (t' : Fds) (s s' : Kernel π) : Prop where
  ok : job.Ok t' s'
  chain : s'.toChain job = s.toChain job
  less : job.setupLeft s' < job.setupLeft s

theorem setupStep_setChild {s : Kernel π} (hok : job.Ok t' s) {k : ℕ} {c : Child π}
    (hk : k < job.count) (hborn : s.child k ≠ .unborn) (hgoes : s.child k ≠ .exited)
    (hc : c ≠ .unborn) (hchild : job.ChildOk t' k c)
    (hstage : c.stage (job.prog k) = (s.child k).stage (job.prog k))
    (hless : job.childLeft c < job.childLeft (s.child k)) : SetupStep job t' s (s.setChild k c) := by
  refine ⟨hok.setChild hk hborn hgoes hc hchild, ?_, ?_⟩
  · have hsame : (s.child k).stage (job.prog k) = (s.toChain job).stage k := rfl
    rw [toChain_setChild, hstage, hsame, update_eq_self]
  · have hleft := setupLeft_setChild s hk c
    omega

theorem childStep_setup {s : Kernel π} (hok : job.Ok t' s) {k : ℕ} (hk : k < job.count)
    (hborn : s.child k ≠ .unborn) (hleft : 0 < job.childLeft (s.child k)) :
    SetupStep job t' s (job.childStep k s) := by
  have hchild := hok.child k
  have hstep {c : Child π} (hgoes : s.child k ≠ .exited) (hc : c ≠ .unborn)
      (hchild : job.ChildOk t' k c)
      (hstage : c.stage (job.prog k) = (s.child k).stage (job.prog k))
      (hless : job.childLeft c < job.childLeft (s.child k)) : SetupStep job t' s (s.setChild k c) :=
    setupStep_setChild hok hk hborn hgoes hc hchild hstage hless
  unfold Job.childStep
  cases hc : s.child k with
  | unborn => exact absurd hc hborn
  | dupIn fds =>
    rw [hc] at hchild hstep
    change fds = t' at hchild
    subst hchild
    exact hstep (by rintro ⟨⟩) (by rintro ⟨⟩) rfl rfl (Nat.lt_succ_self _)
  | dupOut fds =>
    rw [hc] at hchild hstep
    change fds = childIn job.pipes k t' at hchild
    subst hchild
    exact hstep (by rintro ⟨⟩) (by rintro ⟨⟩) ⟨rfl, fun _ h => h⟩ rfl (Nat.lt_succ_self _)
  | closing ends fds =>
    rw [hc] at hchild hstep
    obtain ⟨hclosed, hends⟩ := hchild
    cases ends with
    | nil => exact hstep (by rintro ⟨⟩) (by rintro ⟨⟩) hclosed rfl (Nat.lt_succ_self _)
    | cons fd ends =>
      exact hstep (by rintro ⟨⟩) (by rintro ⟨⟩)
        ⟨hclosed, fun fd' h => hends fd' (List.mem_cons_of_mem _ h)⟩ rfl (Nat.lt_succ_self _)
  | running p fds =>
    rw [hc] at hleft
    exact absurd hleft (Nat.lt_irrefl 0)
  | exited =>
    rw [hc] at hleft
    exact absurd hleft (Nat.lt_irrefl 0)

/-- What the shell does before it waits changes nothing for the stages; then it waits for a child that
has not ended, or is back. -/
theorem parentStep_setup {s : Kernel π} (hfork : ∀ k, k < job.count → job.os.fork k = true)
    (hok : job.Ok t' s) : SetupStep job t' s (job.parentStep s) ∨ job.parentStep s = s ∧
      ((∃ idx fds, s.parent = .waiting idx fds ∧ idx < job.count ∧ s.child idx ≠ .exited) ∨
        ∃ fds, s.parent = .returned fds) := by
  have hparent := hok.parent
  have hmove {p : Parent} (hp : job.ParentOk t' s.child p)
      (hless : job.parentLeft p < job.parentLeft s.parent) :
      SetupStep job t' s { s with parent := p } := by
    have hleft : job.setupLeft _ + _ = _ := setupLeft_parent s p
    exact ⟨⟨hok.child, hok.beyond, hp⟩, rfl, by omega⟩
  unfold Job.parentStep
  cases hp : s.parent with
  | forking idx fds =>
    rw [hp] at hparent hmove
    obtain ⟨hidx, rfl, hunborn⟩ := hparent
    left
    by_cases hlt : idx < job.count
    · simp only [hlt, hfork idx hlt, ite_true]
      have hc : s.child idx = .unborn := (hunborn idx).mpr (Nat.le_refl idx)
      have hother {j : ℕ} (hj : j ≠ idx) :
          (s.setChild idx (.dupIn fds)).child j = s.child j := update_of_ne hj ..
      have hsame : (s.setChild idx (.dupIn fds)).child idx = .dupIn fds := update_self ..
      have hchain : Kernel.toChain job _ = _ := toChain_setChild s idx (.dupIn fds)
      have hleft := setupLeft_setChild s hlt (.dupIn fds)
      have hstage : (Child.dupIn fds).stage (job.prog idx) = (s.toChain job).stage idx := by
        change _ = (s.child idx).stage _
        rw [hc]
        rfl
      rw [hstage, update_eq_self] at hchain
      refine ⟨⟨?_, ?_, ?_⟩, hchain, ?_⟩
      · intro j
        change job.ChildOk fds j ((s.setChild idx (.dupIn fds)).child j)
        by_cases hj : j = idx
        · rw [hj, hsame]
          exact rfl
        · rw [hother hj]
          exact hok.child j
      · intro j hj
        exact (hother (by omega)).trans (hok.beyond j hj)
      · refine ⟨hlt, rfl, ?_⟩
        intro j
        change (s.setChild idx (.dupIn fds)).child j = .unborn ↔ _
        by_cases hj : j = idx
        · rw [hj, hsame]
          exact iff_of_false (by rintro ⟨⟩) (by omega)
        · rw [hother hj, hunborn j]
          omega
      · have hmoved : job.setupLeft _ + _ = _ :=
          setupLeft_parent (s.setChild idx (.dupIn fds)) (.forking (idx + 1) fds)
        have hidle : job.parentLeft (s.setChild idx (.dupIn fds)).parent =
            job.parentLeft (.forking (idx + 1) fds) + 1 := by
          change job.parentLeft s.parent = _
          rw [hp]
          simp only [Job.parentLeft]
          omega
        have hone : job.childLeft (.unborn : Child π) = job.childLeft (.dupIn fds : Child π) + 1 := rfl
        rw [hc] at hleft
        omega
    · simp only [hlt, ite_false]
      refine hmove ⟨rfl, fun k hk hc => ?_⟩ (by
        simp only [Job.parentLeft]
        omega)
      have hle := (hunborn k).mp hc
      omega
  | closing ends fds =>
    rw [hp] at hparent hmove
    left
    cases ends with
    | nil =>
      exact hmove ⟨hparent.1, hparent.2, fun k hk => absurd hk (Nat.not_lt_zero k)⟩ (by
        simp only [Job.parentLeft, List.length_nil]
        omega)
    | cons fd ends =>
      exact hmove ⟨hparent.1, hparent.2⟩ (by
        simp only [Job.parentLeft, List.length_cons]
        omega)
  | waiting idx fds =>
    rw [hp] at hparent hmove
    obtain ⟨hfds, hborn, hexited⟩ := hparent
    by_cases hlt : idx < job.count
    · simp only [hlt, ite_true]
      cases hc : s.child idx with
      | exited =>
        left
        refine hmove ⟨hfds, hborn, ?_⟩ (by
          simp only [Job.parentLeft]
          omega)
        intro k hk
        by_cases hki : k = idx
        · rw [hki, hc]
        · exact hexited k (by omega)
      | _ => exact .inr ⟨rfl, .inl ⟨idx, fds, rfl, hlt, by rw [hc]; rintro ⟨⟩⟩⟩
    · simp only [hlt, ite_false]
      left
      exact hmove ⟨hfds, fun k hk => hexited k (by omega)⟩ (Nat.succ_pos _)
  | returned fds => exact .inr ⟨rfl, .inr ⟨fds, rfl⟩⟩
  | exited =>
    rw [hp] at hparent
    exact hparent.elim

end Steps

/-! ### Steps of the commands -/

section Running
variable {t : ShellFds} {t' : Fds}

/-- A step of a command is a step of its stage. -/
structure RunStep (job : Job π) (t' : Fds) (s s' : Kernel π) : Prop where
  ok : job.Ok t' s'
  chain : (s.toChain job).Step (procAct job.act) job.count (s'.toChain job)
  same : job.setupLeft s' = job.setupLeft s

/-- Stage `k` cannot read, since its pipe is empty and has a writer, or cannot write, since its pipe
is full and has a reader. -/
def Job.Waits (job : Job π) (s : Kernel π) (k : ℕ) (p : Image π) : Prop :=
  match procAct job.act p with
  | .exit => False
  | .read _ => (s.toChain job).chan k = [] ∧
      ∃ j, j + 1 = k ∧ s.holds job.count (.pipeWrite j) = true
  | .write _ _ => k + 1 < job.count ∧ s.holds job.count (.pipeRead k) = true ∧
      job.cap ≤ ((s.toChain job).chan (k + 1)).length

theorem runStep_setChild {s s₁ : Kernel π} (hok : job.Ok t' s) {k : ℕ} {p : Image π} {fds : Fds}
    {c : Child π} (hk : k < job.count) (hrun : s.child k = .running p fds)
    (hparent : s₁.parent = s.parent) (hchild : s₁.child = s.child)
    (hc : c = .exited ∨ ∃ q, c = .running q fds)
    (hstep : (s.toChain job).Step (procAct job.act) job.count
      ⟨update (s₁.toChain job).stage k (c.stage (job.prog k)), (s₁.toChain job).chan⟩) :
    RunStep job t' s (s₁.setChild k c) := by
  have hok₁ := hok.congr hparent hchild
  have hrun₁ : s₁.child k = .running p fds := by rw [hchild, hrun]
  have hfds := hok.child k
  rw [hrun] at hfds
  have hborn : c ≠ .unborn ∧ job.ChildOk t' k c ∧ job.childLeft c = 0 := by
    rcases hc with rfl | ⟨q, rfl⟩
    · exact ⟨by rintro ⟨⟩, trivial, rfl⟩
    · exact ⟨by rintro ⟨⟩, hfds, rfl⟩
  refine ⟨hok₁.setChild hk (by rw [hrun₁]; rintro ⟨⟩) (by rw [hrun₁]; rintro ⟨⟩) hborn.1 hborn.2.1, ?_, ?_⟩
  · rw [toChain_setChild]
    exact hstep
  · have hleft := setupLeft_setChild s₁ hk c
    have hsame : job.setupLeft s₁ = job.setupLeft s := by
      unfold Job.setupLeft
      rw [hparent, hchild]
    rw [hrun₁, hborn.2.2, hsame] at hleft
    exact hleft

theorem readByte_spec (hmade : PipesMade 0 (job.count - 1) t.toFdTable t' job.pipes) {s : Kernel π}
    (hok : job.Ok t' s) {k : ℕ} {p : Image π} {fds : Fds} {next : Option Byte → Image π}
    (hk : k < job.count) (hrun : s.child k = .running p fds)
    (hact : procAct job.act p = .read next) :
    match s.readByte job.count (fds.desc STDIN_FILENO) with
    | none => job.Waits s k p
    | some (b, s₁) => RunStep job t' s (s₁.setChild k (.running (next b) fds)) := by
  have hstage : (s.toChain job).stage k = some p := by
    change (s.child k).stage _ = _
    rw [hrun]
    rfl
  obtain ⟨hin, -⟩ := hok.connected hmade hk (.inr ⟨p, hrun⟩)
  rw [hin]
  unfold stageStdin
  cases k with
  | zero =>
    obtain ⟨d0, h0⟩ := t.stdin
    obtain ⟨n, rfl⟩ := t.inherited _ _ h0
    simp only [ite_true, h0, Kernel.readByte]
    refine runStep_setChild hok hk hrun rfl rfl (.inr ⟨_, rfl⟩) ?_
    rw [toChain_stdin s s.stdin.tail]
    cases hbytes : s.stdin with
    | nil =>
      have hempty : (s.toChain job).chan 0 = [] := hbytes
      rw [List.head?_nil, List.tail_nil, ← hempty, update_eq_self]
      exact .eof hk hstage hact hempty fun j hj => absurd hj (Nat.succ_ne_zero j)
    | cons b rest => exact .read hk hstage hact hbytes
  | succ j =>
    simp only [Nat.add_eq_zero_iff, one_ne_zero, and_false, ite_false, Nat.add_sub_cancel,
      Kernel.readByte]
    have hchan : (s.toChain job).chan (j + 1) = s.buffer j := chan_buffer s hk
    cases hbytes : s.buffer j with
    | cons b rest =>
      refine runStep_setChild hok hk hrun rfl rfl (.inr ⟨_, rfl⟩) ?_
      rw [toChain_setBuffer s hk]
      exact .read hk hstage hact (hchan.trans hbytes)
    | nil =>
      rw [hbytes] at hchan
      by_cases hheld : s.holds job.count (.pipeWrite j) = true
      · simp only [hheld, ite_true]
        unfold Job.Waits
        rw [hact]
        exact ⟨hchan, j, rfl, hheld⟩
      · simp only [hheld, Bool.false_eq_true, ite_false]
        refine runStep_setChild hok hk hrun rfl rfl (.inr ⟨_, rfl⟩) ?_
        refine .eof hk hstage hact hchan ?_
        -- nobody holds the end for writing, so the stage before has ended
        intro i hi
        obtain rfl := Nat.succ.inj hi
        refine stage_none.mpr (by_contra fun hgoes => hheld ?_)
        exact (hok.holds hmade (by omega) hgoes).1 hk

theorem writeByte_spec (hmade : PipesMade 0 (job.count - 1) t.toFdTable t' job.pipes) {s : Kernel π}
    (hok : job.Ok t' s) {k : ℕ} {p next : Image π} {fds : Fds} {b : Byte}
    (hk : k < job.count) (hrun : s.child k = .running p fds)
    (hact : procAct job.act p = .write b next) :
    match s.writeByte job.count job.cap (fds.desc STDOUT_FILENO) b with
    | .waits => job.Waits s k p
    | .sigpipe => RunStep job t' s (s.setChild k .exited)
    | .done s₁ => RunStep job t' s (s₁.setChild k (.running next fds)) := by
  have hstage : (s.toChain job).stage k = some p := by
    change (s.child k).stage _ = _
    rw [hrun]
    rfl
  obtain ⟨-, hout⟩ := hok.connected hmade hk (.inr ⟨p, hrun⟩)
  rw [hout]
  unfold stageStdout
  by_cases hlt : k + 1 < job.count
  · have hchan : (s.toChain job).chan (k + 1) = s.buffer k := chan_buffer s hlt
    simp only [hlt, ite_true, Kernel.writeByte]
    by_cases hheld : s.holds job.count (.pipeRead k) = true
    · by_cases hroom : (s.buffer k).length < job.cap
      · simp only [hheld, hroom, ite_true]
        refine runStep_setChild hok hk hrun rfl rfl (.inr ⟨_, rfl⟩) ?_
        rw [toChain_setBuffer s hlt, ← hchan]
        exact .write hk hstage hact
      · simp only [hheld, hroom, ite_true, ite_false]
        unfold Job.Waits
        rw [hact]
        refine ⟨hlt, hheld, ?_⟩
        rw [hchan]
        exact Nat.not_lt.mp hroom
    · simp only [hheld, Bool.false_eq_true, ite_false]
      refine runStep_setChild hok hk hrun rfl rfl (.inl rfl) ?_
      refine .broken hlt hstage hact ?_
      exact stage_none.mpr (by_contra fun hgoes => hheld ((hok.holds hmade hlt hgoes).2 k rfl))
  · have hlast : k + 1 = job.count := by omega
    obtain ⟨d1, h1⟩ := t.stdout
    obtain ⟨n, rfl⟩ := t.inherited _ _ h1
    simp only [hlt, ite_false, h1, Kernel.writeByte]
    refine runStep_setChild hok hk hrun rfl rfl (.inr ⟨_, rfl⟩) ?_
    rw [toChain_stdout s hlast (s.stdout ++ [b]), ← chan_stdout s hlast]
    exact .write hk hstage hact

/-- A command takes a step of its stage or waits. -/
theorem progStep_runStep (hmade : PipesMade 0 (job.count - 1) t.toFdTable t' job.pipes)
    {s : Kernel π} (hok : job.Ok t' s) {k : ℕ} {p : Image π} {fds : Fds} (hk : k < job.count)
    (hrun : s.child k = .running p fds) :
    RunStep job t' s (job.progStep k p fds s) ∨ job.progStep k p fds s = s ∧ job.Waits s k p := by
  have hstage : (s.toChain job).stage k = some p := by
    change (s.child k).stage _ = _
    rw [hrun]
    rfl
  unfold Job.progStep
  cases hact : procAct job.act p with
  | exit =>
    left
    exact runStep_setChild hok hk hrun rfl rfl (.inl rfl) (.exit hk hstage hact)
  | read next =>
    have hspec := readByte_spec hmade hok hk hrun hact
    cases hread : s.readByte job.count (fds.desc STDIN_FILENO) with
    | none =>
      rw [hread] at hspec
      exact .inr ⟨rfl, hspec⟩
    | some r =>
      rw [hread] at hspec
      exact .inl hspec
  | write b next =>
    dsimp only
    have hspec := writeByte_spec hmade hok hk hrun hact
    cases hwrite : s.writeByte job.count job.cap (fds.desc STDOUT_FILENO) b with
    | waits =>
      rw [hwrite] at hspec
      exact .inr ⟨rfl, hspec⟩
    | sigpipe =>
      rw [hwrite] at hspec
      exact .inl hspec
    | done s₁ =>
      rw [hwrite] at hspec
      exact .inl hspec

/-- When the shell waits and all commands run, a stage that is ready does not wait. -/
theorem not_waits (hmade : PipesMade 0 (job.count - 1) t.toFdTable t' job.pipes)
    {s : Kernel π} (hok : job.Ok t' s) {idx : ℕ} {fds : Fds} (hparent : s.parent = .waiting idx fds)
    (hrun : ∀ k, k < job.count → s.child k = .exited ∨ ∃ p fds, s.child k = .running p fds)
    {k : ℕ} (hk : k < job.count) {p : Image π} (hp : (s.toChain job).stage k = some p)
    (hready : (s.toChain job).Ready (procAct job.act) job.count job.cap k) : ¬ job.Waits s k p := by
  obtain ⟨q, hq, hready⟩ := hready
  obtain rfl := Option.some.inj (hp.symm.trans hq)
  unfold Job.Waits
  cases hact : procAct job.act p with
  | exit => exact id
  | read next =>
    simp only [hact] at hready
    rintro ⟨hempty, j, rfl, hheld⟩
    rcases hready with hbytes | hend
    · exact hbytes hempty
    · rw [(hok.not_holds hmade hparent hrun hk).1 (stage_none.mp (hend j rfl))] at hheld
      cases hheld
  | write b next =>
    simp only [hact] at hready
    rintro ⟨hlt, hheld, hfull⟩
    rcases hready with hlast | hend | hroom
    · omega
    · rw [(hok.not_holds hmade hparent hrun hlt).2 (stage_none.mp hend)] at hheld
      cases hheld
    · omega

end Running

end Job

end OSLab.Shell
