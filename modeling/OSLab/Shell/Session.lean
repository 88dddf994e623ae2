import OSLab.Shell.BuiltIns
import OSLab.Shell.PipeEnds

/-!
# Every command as in a fresh shell

A session over any lines: built-in commands with their redirections, single
commands and pipelines. As long as the shell runs its descriptors are those it
was started with, so every command is exec'ed as if it were the first one.
-/

namespace OSLab.Shell
open OSLab.Base

variable {os : Os} {t t' : Fds}

/- What an exec'ed program is given. -/
def Exec.view (e : Exec) : List (Option Bytes) × (ℕ → Option Desc) := (e.args, e.fds.desc)

/- The calls of `execvp` for a command; a built-in command has none. -/
def execs (os : Os) (t : Fds) (cmd : Cmd) : List (Option Exec) :=
  match cmd.nodes with
  | [temp] => if searchBuiltInCommand temp = some (-1) then [spawnProc os t temp] else []
  | _ => (forkCmdNode os t cmd).children

/-! ### What is exec'ed depends on the open descriptors -/

theorem moveTo_congr (h : t.desc = t'.desc) (fd target : ℕ) :
    (moveTo t fd target).desc = (moveTo t' fd target).desc :=
  FdTable.close_congr (FdTable.dup2_congr h fd target) fd

theorem redirectFile_congr (h : t.desc = t'.desc) (file : Option Bytes) (opens : Bytes → Bool)
    (desc : Bytes → Desc) (target : ℕ) :
    (redirectFile t file opens desc target).map FdTable.desc =
      (redirectFile t' file opens desc target).map FdTable.desc := by
  cases file with
  | none => exact congrArg some h
  | some path =>
    obtain ⟨hfd, htable⟩ := FdTable.alloc_congr h (desc path)
    by_cases hopen : opens path = true
    · simp only [redirectFile, hopen, ite_true, Option.map_some, hfd]
      exact congrArg some (moveTo_congr htable _ target)
    · simp only [redirectFile, hopen, Bool.false_eq_true, ite_false]

theorem redirectPipe_congr (h : t.desc = t'.desc) (fd : ℤ) (target : ℕ) :
    (redirectPipe t fd target).desc = (redirectPipe t' fd target).desc := by
  unfold redirectPipe
  split
  · cases fd.toNat? with
    | none => exact h
    | some fd => exact moveTo_congr h fd target
  · exact h

theorem bind_desc_congr {x y : Option Fds} {f : Fds → Option Fds}
    (hxy : x.map FdTable.desc = y.map FdTable.desc)
    (hf : ∀ t t' : Fds, t.desc = t'.desc → (f t).map FdTable.desc = (f t').map FdTable.desc) :
    (x.bind f).map FdTable.desc = (y.bind f).map FdTable.desc := by
  cases x with
  | none =>
    rw [Option.map_none, eq_comm, Option.map_eq_none_iff] at hxy
    rw [hxy]
  | some t =>
    rw [Option.map_some, eq_comm, Option.map_eq_some_iff] at hxy
    obtain ⟨t', rfl, hdesc⟩ := hxy
    exact hf t t' hdesc.symm

theorem redirection_congr (h : t.desc = t'.desc) (p : CmdNode) :
    (redirection os p t).map FdTable.desc = (redirection os p t').map FdTable.desc := by
  unfold redirection
  refine bind_desc_congr (redirectFile_congr h _ _ _ _) fun t t' h => ?_
  refine bind_desc_congr (redirectFile_congr h _ _ _ _) fun t t' h => ?_
  exact congrArg some (redirectPipe_congr (redirectPipe_congr h _ _) _ _)

theorem spawnProc_congr (h : t.desc = t'.desc) (p : CmdNode) :
    (spawnProc os t p).map Exec.view = (spawnProc os t' p).map Exec.view := by
  have hredirect := @redirection_congr os t t' h p
  unfold spawnProc
  split
  · have hview (fds : Option Fds) : (fds.map fun fds => (⟨p.args, fds⟩ : Exec)).map Exec.view =
        (fds.map FdTable.desc).map fun desc => (p.args, desc) := by
      cases fds <;> rfl
    rw [hview, hview, hredirect]
  · rfl

theorem makePipes_congr {n : ℕ} : ∀ {i : ℕ} {t t' : Fds}, t.desc = t'.desc →
    (makePipes os i n t).map (fun r => (r.1, r.2.desc)) =
      (makePipes os i n t').map (fun r => (r.1, r.2.desc)) := by
  induction n with
  | zero => exact fun h => congrArg (fun desc => some ([], desc)) h
  | succ n ih =>
    intro i t t' h
    obtain ⟨hread, hr⟩ := FdTable.alloc_congr h (.pipeRead i)
    obtain ⟨hwrite, hw⟩ := FdTable.alloc_congr hr (.pipeWrite i)
    have hends : (makePipe t i).1 = (makePipe t' i).1 := Prod.ext hread hwrite
    have hrest := @ih (i + 1) (makePipe t i).2 (makePipe t' i).2 hw
    by_cases hpipe : os.pipe i = true
    · simp only [makePipes, hpipe, ite_true, Option.map_map]
      have hcons (e : ℕ × ℕ) (r : Option (List (ℕ × ℕ) × Fds)) :
          r.map ((fun r => (r.1, r.2.desc)) ∘ fun r => (e :: r.1, r.2)) =
            (r.map fun r => (r.1, r.2.desc)).map fun r => (e :: r.1, r.2) := by
        cases r <;> rfl
      rw [hcons, hcons, hrest, hends]
    · simp only [makePipes, hpipe, Bool.false_eq_true, ite_false]

theorem pipelineChild_congr (h : t.desc = t'.desc) (pipes : List (ℕ × ℕ)) (count idx : ℕ)
    (cur : CmdNode) :
    (pipelineChild pipes count idx cur t).view = (pipelineChild pipes count idx cur t').view := by
  have hin : (if 0 < idx then t.dup2 (pipes.getD (idx - 1) (0, 0)).1 STDIN_FILENO else t).desc =
      (if 0 < idx then t'.dup2 (pipes.getD (idx - 1) (0, 0)).1 STDIN_FILENO else t').desc := by
    split
    · exact FdTable.dup2_congr h _ _
    · exact h
  refine Prod.ext rfl (FdTable.closeAll_congr ?_ _)
  split
  · exact FdTable.dup2_congr hin _ _
  · exact hin

theorem forkLoop_congr (h : t.desc = t'.desc) (pipes : List (ℕ × ℕ)) (count idx : ℕ)
    (nodes : List CmdNode) :
    (forkLoop os pipes count idx nodes t).children.map (Option.map Exec.view) =
      (forkLoop os pipes count idx nodes t').children.map (Option.map Exec.view) := by
  induction nodes generalizing idx with
  | nil => rfl
  | cons cur nodes ih =>
    by_cases hfork : os.fork idx = true
    · simp only [forkLoop, hfork, ite_true, List.map_cons, Option.map_some, ih,
        pipelineChild_congr h]
    · simp only [forkLoop, hfork, Bool.false_eq_true, ite_false]

theorem forkCmdNode_congr (h : t.desc = t'.desc) (cmd : Cmd) :
    (forkCmdNode os t cmd).children.map (Option.map Exec.view) =
      (forkCmdNode os t' cmd).children.map (Option.map Exec.view) := by
  have hpipes := @makePipes_congr os (cmd.nodes.length - 1) 0 t t' h
  unfold forkCmdNode
  dsimp only
  cases hmade : makePipes os 0 (cmd.nodes.length - 1) t with
  | none =>
    rw [hmade, Option.map_none, eq_comm, Option.map_eq_none_iff] at hpipes
    rw [hpipes]
  | some r =>
    rw [hmade, Option.map_some, eq_comm, Option.map_eq_some_iff] at hpipes
    obtain ⟨r', hmade', heq⟩ := hpipes
    obtain ⟨hends, hdesc⟩ := Prod.mk.inj heq
    rw [hmade']
    dsimp only
    rw [hends]
    exact forkLoop_congr hdesc.symm _ _ _ _

theorem execs_congr (h : t.desc = t'.desc) (cmd : Cmd) :
    (execs os t cmd).map (Option.map Exec.view) = (execs os t' cmd).map (Option.map Exec.view) := by
  unfold execs
  split
  · split
    · exact congrArg (fun e => [e]) (spawnProc_congr h _)
    · rfl
  · exact forkCmdNode_congr h cmd

/-! ### The descriptors of the shell -/

theorem forkLoop_closes {pipes : List (ℕ × ℕ)} {count idx : ℕ} {nodes : List CmdNode} {fds : Fds}
    (h : (forkLoop os pipes count idx nodes t).shell = some fds) : fds = closePipes pipes t := by
  induction nodes generalizing idx with
  | nil => exact (Option.some.inj h).symm
  | cons cur nodes ih =>
    by_cases hfork : os.fork idx = true
    · simp only [forkLoop, hfork, ite_true] at h
      exact ih h
    · simp only [forkLoop, hfork, Bool.false_eq_true, ite_false, reduceCtorEq] at h

/-- A pipeline leaves the shell with the descriptors it had. -/
theorem forkCmdNode_desc {cmd : Cmd} {fds : Fds} (h : (forkCmdNode os t cmd).shell = some fds) :
    fds.desc = t.desc := by
  unfold forkCmdNode at h
  dsimp only at h
  cases hmade : makePipes os 0 (cmd.nodes.length - 1) t with
  | none =>
    rw [hmade] at h
    cases h
  | some r =>
    rw [hmade] at h
    obtain ⟨pipes, t', hmade', hpipes⟩ := makePipes_made t (makePipes_opens hmade)
    rw [hmade, Option.some.injEq] at hmade'
    subst hmade'
    funext fd
    rw [forkLoop_closes h]
    exact hpipes.closed rfl

theorem runBuiltIn_desc {d0 d1 : Desc} (h0 : t.desc STDIN_FILENO = some d0)
    (h1 : t.desc STDOUT_FILENO = some d1) {temp : CmdNode} (hin : temp.fdIn = 0)
    (hout : temp.fdOut = 1) {status : ℤ} {r : ℤ × Fds}
    (h : runBuiltIn os t temp status = some r) : r.2.desc = t.desc := by
  have hstatus := runBuiltIn_status os t temp status
  rw [h, Option.map_some] at hstatus
  split at hstatus
  · rename_i hfiles
    rw [Bool.and_eq_true] at hfiles
    obtain ⟨t', hrun, hdesc⟩ := runBuiltIn_restores h0 h1 hin hout hfiles hstatus.symm
    rw [h, Option.some.injEq] at hrun
    rw [hrun]
    exact funext hdesc
  · cases hstatus

theorem runCommand_desc {d0 d1 : Desc} (h0 : t.desc STDIN_FILENO = some d0)
    (h1 : t.desc STDOUT_FILENO = some d1) {line : Bytes} {cmd : Cmd}
    (hparsed : splitLine line = some cmd) {r : ℤ × Fds} (h : runCommand os t cmd = some r) :
    r.2.desc = t.desc := by
  unfold runCommand at h
  split at h
  · rename_i temp hnodes
    have hmem : temp ∈ cmd.nodes := by
      rw [hnodes]
      exact List.mem_singleton_self temp
    obtain ⟨hin, hout⟩ := splitLine_fds hparsed temp hmem
    simp only [Option.bind_eq_bind, Option.bind_eq_some_iff] at h
    obtain ⟨status, -, h⟩ := h
    split at h
    · exact runBuiltIn_desc h0 h1 hin hout h
    · obtain rfl := Option.some.inj h
      rfl
  · obtain ⟨fds, hshell, rfl⟩ := Option.map_eq_some_iff.mp h
    exact forkCmdNode_desc hshell

/-- Whatever a line does, a shell that goes on has its descriptors back. -/
theorem shellPass_desc (env : Env) {d0 d1 : Desc} {s : Session}
    (h0 : s.fds.desc STDIN_FILENO = some d0) (h1 : s.fds.desc STDOUT_FILENO = some d1) :
    (shellPass env s).fds.desc = s.fds.desc := by
  unfold shellPass
  split
  · dsimp only
    split
    · rfl
    · split
      · rfl
      · rename_i cmd hparsed
        split
        · rfl
        · rename_i status fds hcmd
          exact runCommand_desc h0 h1 hparsed hcmd
  · rfl

theorem session_desc (env : Env) (t : ShellFds) (stream : Bytes) (n : ℕ) :
    ((shellPass env)^[n] (shellStart t.toFdTable stream)).fds.desc = t.desc := by
  obtain ⟨d0, h0⟩ := t.stdin
  obtain ⟨d1, h1⟩ := t.stdout
  induction n with
  | zero => rfl
  | succ n ih =>
    rw [Function.iterate_succ_apply']
    exact (shellPass_desc env ((congrFun ih _).trans h0) ((congrFun ih _).trans h1)).trans ih

/-- In every session the shell keeps its descriptors, and the next command, whatever it is, is exec'ed
with those it would get as the first one. -/
theorem session_memoryless (env : Env) (t : ShellFds) (stream : Bytes) (n : ℕ) (os : Os) (cmd : Cmd) :
    let s := (shellPass env)^[n] (shellStart t.toFdTable stream)
    s.fds.desc = t.desc ∧
      (execs os s.fds cmd).map (Option.map Exec.view) =
        (execs os t.toFdTable cmd).map (Option.map Exec.view) :=
  ⟨session_desc env t stream n, execs_congr (session_desc env t stream n) cmd⟩

end OSLab.Shell
