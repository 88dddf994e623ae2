import OSLab.Base.Chain
import OSLab.Base.Fairness
import OSLab.Shell.PipeEnds

/-!
# Running a pipeline

`fork_cmd_node` once its pipes are made: the shell forks the children, closes
the pipes and waits, while the children connect themselves and run. A command
is a program that reads descriptor 0 and writes descriptor 1. A byte read or
written, a `dup2` and a `close` are one step each, in any order between the
processes.
-/

namespace OSLab.Shell
open OSLab.Base Function

variable {π : Type*}

/-- What a child runs behind its `execvp`: the command, or, when that has failed, the `exit` with what
it has still to flush. -/
inductive Image (π : Type*) where
  | command (p : π)
  | exiting (pending : Bytes)

/-- A child before its `fork`, before each `dup2`, in the loop that closes the pipes with the ends
left to close, behind its `execvp`, and after its end. -/
inductive Child (π : Type*) where
  | unborn
  | dupIn (fds : Fds)
  | dupOut (fds : Fds)
  | closing (ends : List ℕ) (fds : Fds)
  | running (prog : Image π) (fds : Fds)
  | exited

/-- The shell in the loop over the nodes, in the loop that closes the pipes, before the `waitpid` of
child `idx`, after the return, and after an `exit`. -/
inductive Parent where
  | forking (idx : ℕ) (fds : Fds)
  | closing (ends : List ℕ) (fds : Fds)
  | waiting (idx : ℕ) (fds : Fds)
  | returned (fds : Fds)
  | exited

/- The descriptors of a process that is there. -/
def Child.fds : Child π → Option Fds
  | .unborn => none
  | .dupIn fds => some fds
  | .dupOut fds => some fds
  | .closing _ fds => some fds
  | .running _ fds => some fds
  | .exited => none

def Parent.fds : Parent → Option Fds
  | .forking _ fds => some fds
  | .closing _ fds => some fds
  | .waiting _ fds => some fds
  | .returned fds => some fds
  | .exited => none

/-- The processes, the bytes in each pipe, and what is left of the shell's input and has come to its
output. -/
structure Kernel (π : Type*) where
  parent : Parent
  child : ℕ → Child π
  buffer : ℕ → Bytes
  stdin : Bytes
  stdout : Bytes

/-- A call of `fork_cmd_node`: the nodes, the pipes made for them, how many bytes a pipe holds, which
program `execvp` makes of the arguments (nothing when it fails), what the programs do, and what the
shell has printed and not flushed, which every child gets a copy of. -/
structure Job (π : Type*) where
  nodes : List CmdNode
  pipes : List (ℕ × ℕ)
  os : Os
  cap : ℕ
  image : List (Option Bytes) → Option π
  act : π → Action π Byte
  pending : Bytes

namespace Kernel

/- Some process has an open descriptor for `d`. -/
def holds (count : ℕ) (s : Kernel π) (d : Desc) : Bool :=
  s.parent.fds.any (·.has d) || (List.range count).any fun k => (s.child k).fds.any (·.has d)

def setChild (s : Kernel π) (k : ℕ) (c : Child π) : Kernel π :=
  { s with child := update s.child k c }

def setBuffer (s : Kernel π) (j : ℕ) (bytes : Bytes) : Kernel π :=
  { s with buffer := update s.buffer j bytes }

/- `read` of a byte; `none` while it waits. A pipe is at its end when nobody can write to it. -/
def readByte (count : ℕ) (s : Kernel π) (d : Option Desc) : Option (Option Byte × Kernel π) :=
  match d with
  | some (.pipeRead j) =>
    match s.buffer j with
    | b :: rest => some (some b, s.setBuffer j rest)
    | [] => if s.holds count (.pipeWrite j) then none else some (none, s)
  | some (.inherited _) => some (s.stdin.head?, { s with stdin := s.stdin.tail })
  | _ => some (none, s)

end Kernel

/-- What a `write` of a byte does: it waits, ends the process by SIGPIPE, or returns. -/
inductive Written (π : Type*) where
  | waits
  | sigpipe
  | done (s : Kernel π)

def Kernel.writeByte (count cap : ℕ) (s : Kernel π) (d : Option Desc) (b : Byte) : Written π :=
  match d with
  | some (.pipeWrite j) =>
    if s.holds count (.pipeRead j) then
      if (s.buffer j).length < cap then .done (s.setBuffer j (s.buffer j ++ [b])) else .waits
    else .sigpipe
  | some (.inherited _) => .done { s with stdout := s.stdout ++ [b] }
  | _ => .done s

/- `exit(1)` writes what is pending to descriptor 1, a byte in each step; `execvp` has thrown it away
in the other children. -/
def procAct (act : π → Action π Byte) : Image π → Action (Image π) Byte
  | .exiting [] => .exit
  | .exiting (b :: pending) => .write b (.exiting pending)
  | .command p =>
    match act p with
    | .exit => .exit
    | .write b next => .write b (.command next)
    | .read next => .read fun b => .command (next b)

/- The two `dup2` of a child (`shell.c:142-149`). -/
def childIn (pipes : List (ℕ × ℕ)) (idx : ℕ) (t : Fds) : Fds :=
  if 0 < idx then t.dup2 (pipes.getD (idx - 1) (0, 0)).1 STDIN_FILENO else t

def childOut (pipes : List (ℕ × ℕ)) (count idx : ℕ) (t : Fds) : Fds :=
  if idx + 1 < count then t.dup2 (pipes.getD idx (0, 0)).2 STDOUT_FILENO else t

namespace Job
variable (job : Job π)

def count : ℕ := job.nodes.length

/- `shell.c:158-160`. A NULL for the name ends the child inside of `execvp`, without an `exit`. -/
def imageOf (cur : CmdNode) : Image π :=
  match cur.args.headD none, job.image cur.args with
  | none, _ => .exiting []
  | some _, none => .exiting job.pending
  | some _, some p => .command p

/- The image of child `k`. -/
def prog (k : ℕ) : Image π := (job.nodes[k]?.map job.imageOf).getD (.exiting [])

/- `shell.c:129-177`. -/
def parentStep (s : Kernel π) : Kernel π :=
  match s.parent with
  | .forking idx fds =>
    if idx < job.count then
      if job.os.fork idx then { s.setChild idx (.dupIn fds) with parent := .forking (idx + 1) fds }
      else { s with parent := .exited }
    else { s with parent := .closing (pipeEnds job.pipes) fds }
  | .closing (fd :: ends) fds => { s with parent := .closing ends (fds.close fd) }
  | .closing [] fds => { s with parent := .waiting 0 fds }
  | .waiting idx fds =>
    if idx < job.count then
      match s.child idx with
      | .exited => { s with parent := .waiting (idx + 1) fds }
      | _ => s
    else { s with parent := .returned fds }
  | .returned _ => s
  | .exited => s

/- A command that runs. -/
def progStep (k : ℕ) (p : Image π) (fds : Fds) (s : Kernel π) : Kernel π :=
  match procAct job.act p with
  | .exit => s.setChild k .exited
  | .read next =>
    match s.readByte job.count (fds.desc STDIN_FILENO) with
    | none => s
    | some (b, s) => s.setChild k (.running (next b) fds)
  | .write b next =>
    match s.writeByte job.count job.cap (fds.desc STDOUT_FILENO) b with
    | .waits => s
    | .sigpipe => s.setChild k .exited
    | .done s => s.setChild k (.running next fds)

/- `shell.c:139-160`. -/
def childStep (k : ℕ) (s : Kernel π) : Kernel π :=
  match s.child k with
  | .unborn => s
  | .dupIn fds => s.setChild k (.dupOut (childIn job.pipes k fds))
  | .dupOut fds =>
    s.setChild k (.closing (pipeEnds job.pipes) (childOut job.pipes job.count k fds))
  | .closing (fd :: ends) fds => s.setChild k (.closing ends (fds.close fd))
  | .closing [] fds => s.setChild k (.running (job.prog k) fds)
  | .running p fds => job.progStep k p fds s
  | .exited => s

/-- The run of a pipeline; the inputs say which process takes its next step. -/
def machine : Machine (Kernel π) Process Unit where
  step s p :=
    ((), match p with
      | .shell => job.parentStep s
      | .stage k => job.childStep k s)

end Job

/- All pipes are made and no child is forked; `t` are the shell's descriptors. -/
def Kernel.start (t : Fds) (input : Bytes) : Kernel π where
  parent := .forking 0 t
  child _ := .unborn
  buffer _ := []
  stdin := input
  stdout := []

end OSLab.Shell
