import OSLab.Shell.Pipeline

/-!
# Who holds the ends of the pipes

`fork_cmd_node` opens all pipes in the shell, so that every child starts with
all their ends. The closing loops leave each end in one process.
-/

namespace OSLab.Shell
open OSLab.Base

/- The descriptor refers to no pipe of the pipeline. -/
def PipeFree (t : Fds) (fd : ℕ) : Prop :=
  ∀ k, t.desc fd ≠ some (.pipeRead k) ∧ t.desc fd ≠ some (.pipeWrite k)

/-- The descriptors that stage `k` is exec'ed with. -/
structure StageFds (t : Fds) (count k : ℕ) (fds : Fds) : Prop where
  stdin : fds.desc STDIN_FILENO = stageStdin t k
  stdout : fds.desc STDOUT_FILENO = stageStdout t count k
  others : ∀ fd, fd ≠ STDIN_FILENO → fd ≠ STDOUT_FILENO → PipeFree fds fd

/-- The processes of a pipeline. -/
inductive Process where
  | shell
  | stage (k : ℕ)

def Forked.fds (f : Forked) : Process → Option Fds
  | .shell => f.shell
  | .stage k => (f.children[k]?).join.map Exec.fds

def Forked.Holds (f : Forked) (p : Process) (d : Desc) : Prop :=
  ∃ fds, f.fds p = some fds ∧ ∃ fd, fds.desc fd = some d

/-- Every stage is exec'ed between its two pipes and with nothing else of the pipeline, the shell has
no end of a pipe, and each pipe has one process that writes to it and one that reads from it. -/
structure Connected (t : Fds) (nodes : List CmdNode) (f : Forked) : Prop where
  stages : f.children.length = nodes.length ∧ ∀ k n, nodes[k]? = some n →
    ∃ e, f.children[k]? = some (some e) ∧ e.args = n.args ∧ StageFds t nodes.length k e.fds
  shell : ∃ t', f.shell = some t' ∧ ∀ fd, PipeFree t' fd
  writer : ∀ k, k + 1 < nodes.length → ∀ p, f.Holds p (.pipeWrite k) ↔ p = .stage k
  reader : ∀ k, k + 1 < nodes.length → ∀ p, f.Holds p (.pipeRead k) ↔ p = .stage (k + 1)

/-! ### The closing loops -/

theorem ShellFds.pipeFree (t : ShellFds) (fd : ℕ) : PipeFree t.toFdTable fd := by
  intro k
  constructor
  all_goals
    intro h
    obtain ⟨_, hd⟩ := t.inherited _ _ h
    cases hd

theorem PipeFree.congr {t t' : Fds} {fd : ℕ} (h : PipeFree t fd) (heq : t'.desc fd = t.desc fd) :
    PipeFree t' fd := by
  intro k
  rw [heq]
  exact h k

/-- Closing the pipes undoes making them, on every descriptor that was not moved meanwhile. -/
theorem PipesMade.closed {i n : ℕ} {t t' t'' : Fds} {pipes : List (ℕ × ℕ)}
    (h : PipesMade i n t t' pipes) {fd : ℕ} (hkept : t''.desc fd = t'.desc fd) :
    (closePipes pipes t'').desc fd = t.desc fd := by
  by_cases hmem : fd ∈ pipeEnds pipes
  · exact (t''.closeAll_mem hmem).trans (h.free fd hmem).symm
  · exact (t''.closeAll_other hmem).trans (hkept.trans (h.keeps fd hmem))

/-- The child moves nothing but its input and output. -/
theorem pipelineChild_other {t t' : Fds} {i n : ℕ} {pipes : List (ℕ × ℕ)}
    (h : PipesMade i n t t' pipes) (count idx : ℕ) (cur : CmdNode) {fd : ℕ}
    (hin : fd ≠ STDIN_FILENO) (hout : fd ≠ STDOUT_FILENO) :
    (pipelineChild pipes count idx cur t').fds.desc fd = t.desc fd := by
  unfold pipelineChild
  dsimp only
  apply h.closed
  split
  · rw [FdTable.dup2_other _ _ hout]
    split
    · exact t'.dup2_other _ hin
    · rfl
  · split
    · exact t'.dup2_other _ hin
    · rfl

theorem pipelineChild_stageFds {t : ShellFds} {t' : Fds} {pipes : List (ℕ × ℕ)} {count idx : ℕ}
    (h : PipesMade 0 (count - 1) t.toFdTable t' pipes) (hidx : idx < count) (cur : CmdNode) :
    StageFds t.toFdTable count idx (pipelineChild pipes count idx cur t').fds := by
  have hstdio := pipelineChild_stdio h hidx cur
  refine ⟨congrArg Stdio.stdin hstdio, congrArg Stdio.stdout hstdio, ?_⟩
  intro fd hin hout
  exact (t.pipeFree fd).congr (pipelineChild_other h count idx cur hin hout)

/-! ### The ends of one pipe -/

theorem StageFds.held {t : Fds} {count j : ℕ} {fds : Fds} (h : StageFds t count j fds) {fd k : ℕ}
    {d : Desc} (hfd : fds.desc fd = some d) (hd : d = .pipeRead k ∨ d = .pipeWrite k) :
    stageStdin t j = some d ∨ stageStdout t count j = some d := by
  by_cases hin : fd = STDIN_FILENO
  · left
    rw [← h.stdin, ← hin, hfd]
  · by_cases hout : fd = STDOUT_FILENO
    · right
      rw [← h.stdout, ← hout, hfd]
    · rcases hd with rfl | rfl
      · exact absurd hfd (h.others fd hin hout k).1
      · exact absurd hfd (h.others fd hin hout k).2

theorem StageFds.writes_iff {t : ShellFds} {count j : ℕ} {fds : Fds}
    (h : StageFds t.toFdTable count j fds) {k : ℕ} (hk : k + 1 < count) :
    (∃ fd, fds.desc fd = some (.pipeWrite k)) ↔ j = k := by
  constructor
  · rintro ⟨fd, hfd⟩
    rcases h.held hfd (.inr rfl) with hin | hout
    · unfold stageStdin at hin
      split at hin
      · exact absurd hin (t.pipeFree _ k).2
      · cases hin
    · unfold stageStdout at hout
      split at hout
      · exact Desc.pipeWrite.inj (Option.some.inj hout)
      · exact absurd hout (t.pipeFree _ k).2
  · rintro rfl
    refine ⟨STDOUT_FILENO, h.stdout.trans ?_⟩
    unfold stageStdout
    rw [if_pos hk]

theorem StageFds.reads_iff {t : ShellFds} {count j : ℕ} {fds : Fds}
    (h : StageFds t.toFdTable count j fds) (k : ℕ) :
    (∃ fd, fds.desc fd = some (.pipeRead k)) ↔ j = k + 1 := by
  constructor
  · rintro ⟨fd, hfd⟩
    rcases h.held hfd (.inl rfl) with hin | hout
    · unfold stageStdin at hin
      split at hin
      · exact absurd hin (t.pipeFree _ k).1
      · have hk := Desc.pipeRead.inj (Option.some.inj hin)
        omega
    · unfold stageStdout at hout
      split at hout
      · cases hout
      · exact absurd hout (t.pipeFree _ k).1
  · rintro rfl
    exact ⟨STDIN_FILENO, h.stdin⟩

/-! ### The whole pipeline -/

section Held
variable {t : ShellFds} {nodes : List CmdNode} {f : Forked}

theorem holds_shell {t' : Fds} (hshell : f.shell = some t') (hfree : ∀ fd, PipeFree t' fd)
    (k : ℕ) : ¬ f.Holds .shell (.pipeRead k) ∧ ¬ f.Holds .shell (.pipeWrite k) := by
  constructor
  all_goals
    rintro ⟨fds, hfds, fd, hfd⟩
    obtain rfl := Option.some.inj (hshell.symm.trans hfds)
  · exact (hfree fd k).1 hfd
  · exact (hfree fd k).2 hfd

theorem holds_stage {j : ℕ} {e : Exec} (he : f.children[j]? = some (some e)) (d : Desc) :
    f.Holds (.stage j) d ↔ ∃ fd, e.fds.desc fd = some d := by
  have hfds : f.fds (.stage j) = some e.fds := by
    unfold Forked.fds
    dsimp only
    rw [he]
    rfl
  constructor
  · rintro ⟨fds, h, hd⟩
    obtain rfl := Option.some.inj (hfds.symm.trans h)
    exact hd
  · intro hd
    exact ⟨e.fds, hfds, hd⟩

theorem not_holds_stage {j : ℕ} (hj : f.children.length ≤ j) (d : Desc) :
    ¬ f.Holds (.stage j) d := by
  rintro ⟨fds, h, -⟩
  unfold Forked.fds at h
  dsimp only at h
  rw [List.getElem?_eq_none hj] at h
  cases h

/-- With the descriptors of every process known, each pipe has one writer and one reader. -/
theorem connected_of_stages {t' : Fds} (hlen : f.children.length = nodes.length)
    (hstages : ∀ k n, nodes[k]? = some n →
      ∃ e, f.children[k]? = some (some e) ∧ e.args = n.args ∧
        StageFds t.toFdTable nodes.length k e.fds)
    (hshell : f.shell = some t') (hfree : ∀ fd, PipeFree t' fd) :
    Connected t.toFdTable nodes f := by
  have hchild (j : ℕ) (hj : j < nodes.length) :
      ∃ e, f.children[j]? = some (some e) ∧ StageFds t.toFdTable nodes.length j e.fds := by
    obtain ⟨e, he, -, hfds⟩ := hstages j _ (List.getElem?_eq_getElem hj)
    exact ⟨e, he, hfds⟩
  refine ⟨⟨hlen, hstages⟩, ⟨t', hshell, hfree⟩, ?_, ?_⟩
  · intro k hk p
    cases p with
    | shell => exact iff_of_false (holds_shell hshell hfree k).2 Process.noConfusion
    | stage j =>
      rw [Process.stage.injEq]
      by_cases hj : j < nodes.length
      · obtain ⟨e, he, hfds⟩ := hchild j hj
        rw [holds_stage he, hfds.writes_iff hk]
      · exact iff_of_false (not_holds_stage (by omega) _) (by omega)
  · intro k hk p
    cases p with
    | shell => exact iff_of_false (holds_shell hshell hfree k).1 Process.noConfusion
    | stage j =>
      rw [Process.stage.injEq]
      by_cases hj : j < nodes.length
      · obtain ⟨e, he, hfds⟩ := hchild j hj
        rw [holds_stage he, hfds.reads_iff]
      · exact iff_of_false (not_holds_stage (by omega) _) (by omega)

end Held

/-- `fork_cmd_node` connects the stages of every pipeline, when no `pipe` and no `fork` fails. -/
theorem forkCmdNode_connected {os : Os} (t : ShellFds) {cmd : Cmd}
    (hpipe : ∀ i, i + 1 < cmd.nodes.length → os.pipe i = true)
    (hfork : ∀ k, k < cmd.nodes.length → os.fork k = true) :
    Connected t.toFdTable cmd.nodes (forkCmdNode os t.toFdTable cmd) := by
  obtain ⟨pipes, t', hmade, hforked⟩ := forkCmdNode_forked t.toFdTable hpipe hfork
  rw [hforked]
  refine connected_of_stages (List.length_mapIdx ..) ?_ rfl
    fun fd => (t.pipeFree fd).congr (hmade.closed rfl)
  intro k n hn
  obtain ⟨hk, -⟩ := List.getElem?_eq_some_iff.mp hn
  refine ⟨pipelineChild pipes cmd.nodes.length k n t', ?_, rfl, pipelineChild_stageFds hmade hk n⟩
  rw [List.getElem?_mapIdx, hn]
  rfl

/- `cat | wc | wc`. -/
def cmdThree : Cmd :=
  ⟨[nodeOf [[99, 97, 116]] none none, nodeOf [[119, 99]] none none, nodeOf [[119, 99]] none none], 5⟩

theorem forkCmdNode_connected_three :
    Connected shellFds.toFdTable cmdThree.nodes (forkCmdNode osAll shellFds.toFdTable cmdThree) :=
  forkCmdNode_connected shellFds (fun _ _ => rfl) (fun _ _ => rfl)

end OSLab.Shell
