import OSLab.Base.Fgets
import OSLab.Shell.Exec

/-!
# The shell loop (Lab2 shell.c, builtin.c and read_line of command.c)

One pass of `shell` reads a line, parses it and executes it. The children share
its standard input: programs read from it, and `exit` of a child moves its offset
back over what the library has read ahead. `none` stands for a shell that is
gone: it has exited, or it has left the memory it owns.
-/

namespace OSLab.Shell
open OSLab.Base

def TAB : Byte := 9
def NEWLINE : Byte := 10
def BUF_SIZE : ℕ := 1024

/-! ### Built-in commands -/

def builtinStr : List Bytes :=
  ["help", "cd", "pwd", "echo", "exit", "record"].map fun s => s.toList.map fun c =>
    Fin.ofNat 256 c.toNat

def help (_args : List (Option Bytes)) : Option ℤ := some 1

def cd (_args : List (Option Bytes)) : Option ℤ := some 1

def pwd (_args : List (Option Bytes)) : Option ℤ := some 1

/- The scan for the NULL behind the arguments has to end in the array. -/
def echo (args : List (Option Bytes)) : Option ℤ := if none ∈ args.drop 1 then some 1 else none

def exitShell (_args : List (Option Bytes)) : Option ℤ := some 0

def record (_args : List (Option Bytes)) : Option ℤ := some 1

def builtinFunc : List (List (Option Bytes) → Option ℤ) := [help, cd, pwd, echo, exitShell, record]

/- The number of the built-in command, or -1; `strcmp` does not survive a NULL. -/
def searchBuiltInCommand (cmd : CmdNode) : Option ℤ :=
  match cmd.args.headD none with
  | none => none
  | some name =>
    match builtinStr.idxOf? name with
    | some i => some i
    | none => some (-1)

def execBuiltInCommand (status : ℤ) (cmd : CmdNode) : Option ℤ :=
  match builtinFunc[status.toNat]? with
  | none => none
  | some func => func cmd.args

/-! ### Execution -/

/- The built-in branch of `shell`: `redirection` in the shell itself, undone afterwards. -/
def runBuiltIn (os : Os) (t : Fds) (temp : CmdNode) (status : ℤ) : Option (ℤ × Fds) := do
  let inCopy := t.dup STDIN_FILENO
  let outCopy := inCopy.2.dup STDOUT_FILENO
  let t ← redirection os temp outCopy.2
  let status ← execBuiltInCommand status temp
  let t := if temp.inFile.isSome then inCopy.1.elim t fun fd => t.dup2 fd STDIN_FILENO else t
  let t := if temp.outFile.isSome then outCopy.1.elim t fun fd => t.dup2 fd STDOUT_FILENO else t
  let t := inCopy.1.elim t t.close
  some (status, outCopy.1.elim t t.close)

/- `shell.c:195-221`: the status and the descriptors afterwards. `spawn_proc` returns 1 whether or
not it gets its child. -/
def runCommand (os : Os) (t : Fds) (cmd : Cmd) : Option (ℤ × Fds) :=
  match cmd.nodes with
  | [temp] => do
    let status ← searchBuiltInCommand temp
    if status ≠ -1 then runBuiltIn os t temp status else some (1, t)
  | _ => (forkCmdNode os t cmd).shell.map fun t => (1, t)

/-! ### Reading a line -/

def strcspn (s : Bytes) (c : Byte) : ℕ := (s.takeWhile fun b => b ≠ 0 ∧ b ≠ c).length

/- The first byte makes `read_line` drop what it has read. -/
def Skipped (got : Bytes) : Prop :=
  got.head? = some NEWLINE ∨ got.head? = some SPACE ∨ got.head? = some TAB

instance (got : Bytes) : Decidable (Skipped got) := inferInstanceAs (Decidable (_ ∨ _))

/- `command.c:13-34` with `fresh` in the memory that `malloc` returns: the buffer or NULL, and the
stream left. At the end of the stream nothing is stored in the buffer. -/
def readLine (fresh stream : Bytes) : Option Bytes × Bytes :=
  if stream = [] then (some fresh, [])
  else
    let read := fgets NEWLINE (BUF_SIZE - 1) stream
    if Skipped read.1 then (none, read.2)
    else
      let buffer := read.1 ++ 0 :: fresh.drop (read.1.length + 1)
      (some (buffer.set (strcspn buffer NEWLINE) 0), read.2)

/-! ### Standard input -/

/-- What descriptor 0 is open on, as the bytes in front of the offset and those behind it. -/
structure Input where
  past : Bytes
  rest : Bytes

def Input.read (i : Input) (n : ℕ) : Input := { past := i.past ++ i.rest.take n, rest := i.rest.drop n }

/- `lseek(fd, -n, SEEK_CUR)`, which fails in front of the beginning. -/
def Input.back (i : Input) (n : ℕ) : Input :=
  if n ≤ i.past.length then
    { past := i.past.take (i.past.length - n), rest := i.past.drop (i.past.length - n) ++ i.rest }
  else i

/-- The standard input of the shell: what the library has read of it and not handed out, and whether
the library has met the end of the file. The processes share the offset. -/
structure Stdin where
  buffer : Bytes
  input : Input
  eof : Bool

/-- What `fgets` would read to the end if nobody else did. -/
def Stdin.stream (d : Stdin) : Bytes := d.buffer ++ d.input.rest

/- `fgets(buffer, BUF_SIZE, stdin)`. When the buffer of the library does not suffice, its last `read`
fetches up to `ahead` bytes more than are needed. -/
def Stdin.fgets (d : Stdin) (ahead : ℕ) : Stdin :=
  let got := (Base.fgets NEWLINE (BUF_SIZE - 1) d.stream).1
  let more := got.length - d.buffer.length
  { buffer := if more = 0 then d.buffer.drop got.length else (d.input.rest.drop more).take ahead
    input := if more = 0 then d.input else d.input.read (more + ahead)
    eof := d.eof || (got.length < BUF_SIZE - 1 && got.getLast? != some NEWLINE) }

/-- What the shell finds around it, for the `k`-th command: the kernel's answers, the memory that
`malloc` returns for it, and how far `read` goes ahead when so many bytes are left; the programs that
`execvp` finds, and what the processes of the command, and those left behind by earlier ones, do to the
input. -/
structure Env where
  os : ℕ → Os
  fresh : ℕ → Bytes
  ahead : ℕ → ℕ → ℕ
  seekable : Bool
  finds : ℕ → List (Option Bytes) → Bool
  uses : ℕ → Input → Input

/- The child that runs with the standard input of the shell, as the arguments of its `execvp`; it
makes none when it exits in `redirection`. -/
def stdinChild (os : Os) (t : Fds) (cmd : Cmd) : Option (Option (List (Option Bytes))) :=
  match cmd.nodes with
  | [temp] =>
    if searchBuiltInCommand temp = some (-1) ∧ os.fork 0 = true ∧
        temp.inFile.any os.openRead = false then
      some ((spawnProc os t temp).map Exec.args)
    else none
  | _ => (forkCmdNode os t cmd).children.head?.map (Option.map Exec.args)

/- Standard input after a command. `exit` of a child that still is the shell moves the offset back over
the bytes in the buffer of the library, if the input can be sought; a NULL name kills the child in
`execvp`. Behind the end of the file the library does not read any more. -/
def Env.leaves (env : Env) (k : ℕ) (t : Fds) (cmd : Cmd) (d : Stdin) : Stdin :=
  if d.eof then d
  else
    let exited := if env.seekable then d.input.back d.buffer.length else d.input
    let input :=
      match stdinChild (env.os k) t cmd with
      | none => d.input
      | some none => exited
      | some (some args) => if args.headD none = none ∨ env.finds k args then d.input else exited
    { d with input := env.uses k input }

/-! ### The loop of the shell -/

/-- The shell: the command strings it has passed to `split_line`, its standard input and its
descriptors. -/
structure Session where
  calls : List Bytes
  stdin : Stdin
  fds : Fds
  running : Bool

/- One pass of the loop (`shell.c:185-236`). -/
def shellPass (env : Env) (s : Session) : Session :=
  if s.running then
    let k := s.calls.length
    let stdin := s.stdin.fgets (env.ahead k s.stdin.stream.length)
    match (readLine (env.fresh k) s.stdin.stream).1 with
    | none => { s with stdin }
    | some buffer =>
      let s := { s with calls := s.calls ++ [cstr buffer], stdin }
      match splitLine buffer with
      | none => { s with running := false }
      | some cmd =>
        match runCommand (env.os k) s.fds cmd with
        | none => { s with running := false }
        | some (status, fds) =>
          { s with stdin := env.leaves k s.fds cmd stdin, fds, running := status ≠ 0 }
  else s

def shellStart (t : Fds) (stream : Bytes) : Session :=
  { calls := [], stdin := ⟨[], ⟨[], stream⟩, false⟩, fds := t, running := true }

end OSLab.Shell
