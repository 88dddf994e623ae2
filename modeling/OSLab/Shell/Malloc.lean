import OSLab.Base.Heap
import OSLab.Shell.Loop

/-!
# The memory of the shell (Lab2 command.c, shell.c, my_shell.c)

`split_line` and the loop of `shell` over the blocks that `malloc` returns: the
list of nodes with its pointers, and what is freed in the end. A string is kept
where its pointer is. `none` is an access to a block that is not allocated, or a
process that has exited.
-/

namespace OSLab.Shell
open OSLab.Base

/-- `struct cmd_node`, with the pointers to its array and to the next node. -/
structure NodeBlock where
  args : ℕ
  length : ℕ
  inFile : Option Bytes
  outFile : Option Bytes
  fdIn : ℤ
  fdOut : ℤ
  next : Option ℕ

def NodeBlock.empty (args : ℕ) : NodeBlock :=
  { args, length := 0, inFile := none, outFile := none, fdIn := 0, fdOut := 1, next := none }

/- The node, with the array it points to. -/
def NodeBlock.node (b : NodeBlock) (slots : List (Option Bytes)) : CmdNode :=
  { args := slots, length := b.length, inFile := b.inFile, outFile := b.outFile, fdIn := b.fdIn,
    fdOut := b.fdOut }

/-- The contents of a block; `raw` has nothing stored in it yet. -/
inductive Block where
  | raw
  | text (buffer : Bytes)
  | cmd (head : Option ℕ) (pipeNum : ℕ)
  | node (n : NodeBlock)
  | array (slots : List (Option Bytes))

abbrev Malloc.Memory := Heap Block

namespace Malloc

def loadCmd (h : Memory) (p : ℕ) : Option (Option ℕ × ℕ) :=
  match h.load p with
  | some (.cmd head pipeNum) => some (head, pipeNum)
  | _ => none

def loadNode (h : Memory) (p : ℕ) : Option NodeBlock :=
  match h.load p with
  | some (.node n) => some n
  | _ => none

def loadArray (h : Memory) (p : ℕ) : Option (List (Option Bytes)) :=
  match h.load p with
  | some (.array slots) => some slots
  | _ => none

/- `command.c:47-59`, `command.c:63-72`. -/
def newNode (h : Memory) : Option (ℕ × Memory) := do
  let node := h.malloc .raw
  let args := node.2.malloc (.array (List.replicate argsLength none))
  let h ← args.2.store node.1 (.node (.empty args.1))
  some (node.1, h)

/- `temp->args[temp->length] = token; temp->length++`. -/
def addArg (h : Memory) (temp : ℕ) (n : NodeBlock) (token : Bytes) : Option Memory := do
  let slots ← loadArray h n.args
  if n.length < argsLength then
    let h ← h.store n.args (.array (slots.set n.length (some token)))
    h.store temp (.node { n with length := n.length + 1 })
  else none

/- One pass of the loop of `command.c:62-84`: the pointer `temp`, the text left
and the memory. -/
def tokenPass (h : Memory) (temp : ℕ) (token rest : Bytes) : Option (ℕ × Bytes × Memory) := do
  if token.head? = some BAR then
    let pipe ← newNode h
    let n ← loadNode pipe.2 temp
    let h ← pipe.2.store temp (.node { n with next := some pipe.1 })
    some (pipe.1, rest, h)
  else
    let n ← loadNode h temp
    if token.head? = some LESS then
      let file := nextToken rest
      let h ← h.store temp (.node { n with inFile := file.1 })
      some (temp, file.2, h)
    else if token.head? = some GREATER then
      let file := nextToken rest
      let h ← h.store temp (.node { n with outFile := file.1 })
      some (temp, file.2, h)
    else
      let h ← addArg h temp n token
      some (temp, rest, h)

/- `new_cmd->pipe_num++`. -/
def countToken (h : Memory) (cmd : ℕ) : Option Memory := do
  let c ← loadCmd h cmd
  h.store cmd (.cmd c.1 (c.2 + 1))

theorem tokenPass_length {h h' : Memory} {temp temp' : ℕ} {token rest rest' : Bytes}
    (ht : tokenPass h temp token rest = some (temp', rest', h')) : rest'.length ≤ rest.length := by
  unfold tokenPass at ht
  split at ht
  · simp only [Option.bind_eq_bind, Option.bind_eq_some_iff, Option.some.injEq, Prod.mk.injEq] at ht
    obtain ⟨_, _, _, _, _, _, _, rfl, _⟩ := ht
    exact Nat.le_refl _
  · simp only [Option.bind_eq_bind, Option.bind_eq_some_iff] at ht
    obtain ⟨n, _, ht⟩ := ht
    split at ht
    · simp only [Option.bind_eq_some_iff, Option.some.injEq, Prod.mk.injEq] at ht
      obtain ⟨_, _, _, rfl, _⟩ := ht
      exact nextToken_length rest
    · split at ht
      · simp only [Option.bind_eq_some_iff, Option.some.injEq, Prod.mk.injEq] at ht
        obtain ⟨_, _, _, rfl, _⟩ := ht
        exact nextToken_length rest
      · simp only [Option.bind_eq_some_iff, Option.some.injEq, Prod.mk.injEq] at ht
        obtain ⟨_, _, _, rfl, _⟩ := ht
        exact Nat.le_refl _

/- The loop, from a `strtok` on the text `rest` on. -/
def splitLoop (h : Memory) (cmd temp : ℕ) (rest : Bytes) : Option Memory :=
  match _h : strtok SPACE rest with
  | none => some h
  | some (token, rest₁) =>
    match _h' : tokenPass h temp token rest₁ with
    | none => none
    | some (temp', rest₂, h₁) =>
      match countToken h₁ cmd with
      | none => none
      | some h₂ => splitLoop h₂ cmd temp' rest₂
termination_by rest.length
decreasing_by
  have h1 := strtok_length _h
  have h2 := tokenPass_length _h'
  omega

/- `command.c:43-91`, on the line in block `buffer`. -/
def splitLine (h : Memory) (buffer : ℕ) : Option (ℕ × Memory) :=
  match h.load buffer with
  | some (.text line) => do
    let cmd := h.malloc .raw
    let head ← newNode cmd.2
    let h ← head.2.store cmd.1 (.cmd (some head.1) 0)
    let h ← splitLoop h cmd.1 head.1 (cstr line)
    some (cmd.1, h)
  | _ => none

/- The nodes from pointer `p` on, as the commands are taken from them; `fuel` bounds the length of the
list. -/
def nodesFrom (h : Memory) : ℕ → Option ℕ → Option (List CmdNode)
  | _, none => some []
  | 0, some _ => none
  | fuel + 1, some p => do
    let n ← loadNode h p
    let slots ← loadArray h n.args
    let ns ← nodesFrom h fuel n.next
    some (n.node slots :: ns)

/- The strings lie in block `buffer`. -/
def theCmd (h : Memory) (cmd buffer : ℕ) : Option Cmd := do
  let _ ← h.load buffer
  let c ← loadCmd h cmd
  let ns ← nodesFrom h h.size c.1
  some ⟨ns, c.2⟩

/- `shell.c:224-230`: the loop that frees the nodes. -/
def freeNodes (cmd : ℕ) : ℕ → Memory → Option Memory
  | 0, _ => none
  | fuel + 1, h => do
    let c ← loadCmd h cmd
    match c.1 with
    | none => some h
    | some temp =>
      let n ← loadNode h temp
      let h ← h.store cmd (.cmd n.next c.2)
      let h ← h.free n.args
      let h ← h.free temp
      freeNodes cmd fuel h

/- `shell.c:224-232`. -/
def freeSpace (h : Memory) (cmd buffer : ℕ) : Option Memory := do
  let h ← freeNodes cmd (h.size + 1) h
  let h ← h.free cmd
  h.free buffer

/- `shell.c:191-232` on the line that `read_line` has put into block `buffer`: the command, its
status, the descriptors, and the memory after the frees. -/
def runLine (os : Os) (t : Fds) (h : Memory) (buffer : ℕ) (line : Bytes) :
    Option (Cmd × (ℤ × Fds) × Option Memory) := do
  let h ← h.store buffer (.text line)
  let cmd ← splitLine h buffer
  let c ← theCmd cmd.2 cmd.1 buffer
  let r ← runCommand os t c
  some (c, r, freeSpace cmd.2 cmd.1 buffer)

/- One pass of the loop (`shell.c:185-236`), with the `malloc` and `free` of `read_line`. -/
def shellPass (env : Env) (s : Session) (h : Memory) : Session × Option Memory :=
  let k := s.calls.length
  let buffer := h.malloc (.text (env.fresh k))
  let stdin := s.stdin.fgets (env.ahead k s.stdin.stream.length)
  match (readLine (env.fresh k) s.stdin.stream).1 with
  | none => ({ s with stdin }, buffer.2.free buffer.1)
  | some line =>
    let s := { s with calls := s.calls ++ [cstr line], stdin }
    match runLine (env.os k) s.fds buffer.2 buffer.1 line with
    | none => ({ s with running := false }, none)
    | some (cmd, (status, fds), h) =>
      ({ s with stdin := env.leaves k s.fds cmd stdin, fds, running := status ≠ 0 }, h)

/- The loop; behind it, and in a process that is gone, nothing happens. -/
def shellPasses (env : Env) : ℕ → Session × Option Memory → Session × Option Memory
  | 0, t => t
  | n + 1, (s, some h) => if s.running then shellPasses env n (shellPass env s h) else (s, some h)
  | _ + 1, (s, none) => (s, none)

/- `my_shell.c:11-12`: the history buffers, with what is in them. -/
def mainStart (texts : List Bytes) : Memory := texts.foldl (fun h text => (h.malloc (.text text)).2) .empty

/- `my_shell.c:16-17`. -/
def mainEnd (n : ℕ) (h : Memory) : Option Memory := (List.range n).foldlM (fun h p => h.free p) h

end Malloc

end OSLab.Shell
