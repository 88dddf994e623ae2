import OSLab.Base.FdTable
import OSLab.Shell.Command

/-!
# Running external commands (Lab2 shell.c)

The descriptors a command is exec'ed with: `redirection` and `spawn_proc` for a
single command, `fork_cmd_node` for a pipeline.
-/

namespace OSLab.Shell
open OSLab.Base

/-- What a descriptor refers to: what the shell was started with, an end of the `k`-th pipe of
`fork_cmd_node`, or a file opened by `redirection`. -/
inductive Desc where
  | inherited (fd : ℕ)
  | pipeRead (k : ℕ)
  | pipeWrite (k : ℕ)
  | readFile (path : Bytes)
  | writeFile (path : Bytes)
  deriving DecidableEq

abbrev Fds := FdTable Desc

def STDIN_FILENO : ℕ := 0
def STDOUT_FILENO : ℕ := 1

/-- The answers of the kernel: which files can be opened, and which of the `pipe` and `fork` calls
of one command succeed. -/
structure Os where
  openRead : Bytes → Bool
  openWrite : Bytes → Bool
  pipe : ℕ → Bool
  fork : ℕ → Bool

/-- A call of `execvp`, with the descriptors of the process. -/
structure Exec where
  args : List (Option Bytes)
  fds : Fds

/- `dup2(fd, target); close(fd)`. -/
def moveTo (t : Fds) (fd target : ℕ) : Fds := (t.dup2 fd target).close fd

/- `open`, then `dup2` to `target` and `close`; `none` is the `exit` on a failed `open`. -/
def redirectFile (t : Fds) (file : Option Bytes) (opens : Bytes → Bool) (desc : Bytes → Desc)
    (target : ℕ) : Option Fds :=
  match file with
  | none => some t
  | some path =>
    if opens path then
      let opened := t.alloc (desc path)
      some (moveTo opened.2 opened.1 target)
    else none

/- `if (p->in != 0 && p->in != -1)`, also for `out`; other negative numbers are no descriptors. -/
def redirectPipe (t : Fds) (fd : ℤ) (target : ℕ) : Fds :=
  if fd ≠ target ∧ fd ≠ -1 then
    match fd.toNat? with
    | none => t
    | some fd => moveTo t fd target
  else t

/- `shell.c:22-58`; `none` when the process exits. -/
def redirection (os : Os) (p : CmdNode) (t : Fds) : Option Fds := do
  let t ← redirectFile t p.inFile os.openRead .readFile STDIN_FILENO
  let t ← redirectFile t p.outFile os.openWrite .writeFile STDOUT_FILENO
  some (redirectPipe (redirectPipe t p.fdIn STDIN_FILENO) p.fdOut STDOUT_FILENO)

/- `shell.c:73-95`: the child, `none` when it makes no `execvp`; the status is 1 in any case. -/
def spawnProc (os : Os) (t : Fds) (p : CmdNode) : Option Exec :=
  if os.fork 0 then (redirection os p t).map fun fds => { args := p.args, fds } else none

/-! ### Pipelines -/

/- `pipe(pipes[i])`: the read end is allocated first. -/
def makePipe (t : Fds) (i : ℕ) : (ℕ × ℕ) × Fds :=
  let r := t.alloc (.pipeRead i)
  let w := r.2.alloc (.pipeWrite i)
  ((r.1, w.1), w.2)

/- `n` pipes, the first of them `pipes[i]`; `none` is the `exit` on a failed `pipe`. -/
def makePipes (os : Os) (i n : ℕ) (t : Fds) : Option (List (ℕ × ℕ) × Fds) :=
  match n with
  | 0 => some ([], t)
  | n + 1 =>
    if os.pipe i then
      let p := makePipe t i
      (makePipes os (i + 1) n p.2).map fun r => (p.1 :: r.1, r.2)
    else none

def pipeEnds (pipes : List (ℕ × ℕ)) : List ℕ := pipes.flatMap fun p => [p.1, p.2]

/- The loop that closes both ends of every pipe, in each child and in the shell. -/
def closePipes (pipes : List (ℕ × ℕ)) (t : Fds) : Fds := t.closeAll (pipeEnds pipes)

/- The child of stage `idx` (`shell.c:139-160`). -/
def pipelineChild (pipes : List (ℕ × ℕ)) (count idx : ℕ) (cur : CmdNode) (t : Fds) : Exec :=
  let t := if 0 < idx then t.dup2 (pipes.getD (idx - 1) (0, 0)).1 STDIN_FILENO else t
  let t := if idx + 1 < count then t.dup2 (pipes.getD idx (0, 0)).2 STDOUT_FILENO else t
  { args := cur.args, fds := closePipes pipes t }

/-- The calls of `execvp` in the children, in the order of the stages, and the shell afterwards: its
descriptors, or nothing when it has exited. -/
structure Forked where
  children : List (Option Exec)
  shell : Option Fds

/- The loop over the nodes from stage `idx` on, with the loop that closes the pipes behind it. -/
def forkLoop (os : Os) (pipes : List (ℕ × ℕ)) (count idx : ℕ) (nodes : List CmdNode) (t : Fds) :
    Forked :=
  match nodes with
  | [] => { children := [], shell := some (closePipes pipes t) }
  | cur :: nodes =>
    if os.fork idx then
      let rest := forkLoop os pipes count (idx + 1) nodes t
      { rest with children := some (pipelineChild pipes count idx cur t) :: rest.children }
    else { children := [], shell := none }

/- `shell.c:109-178`; the status is 1 when it returns. -/
def forkCmdNode (os : Os) (t : Fds) (cmd : Cmd) : Forked :=
  let count := cmd.nodes.length
  match makePipes os 0 (count - 1) t with
  | none => { children := [], shell := none }
  | some (pipes, t) => forkLoop os pipes count 0 cmd.nodes t

end OSLab.Shell
