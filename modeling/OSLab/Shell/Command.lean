import OSLab.Base.CString
import OSLab.Base.Strtok

/-!
# Parsing a command line (Lab2 command.c)

`split_line` cuts a line at its spaces into a list of `cmd_node`s.
-/

namespace OSLab.Shell
open OSLab.Base

def SPACE : Byte := 32
def LESS : Byte := 60
def GREATER : Byte := 62
def BAR : Byte := 124

/- The slots of `args`. -/
def argsLength : ℕ := 10

/-- `struct cmd_node`; the `next` pointer is the order in the list of nodes. -/
structure CmdNode where
  args : List (Option Bytes)
  length : ℕ
  inFile : Option Bytes
  outFile : Option Bytes
  fdIn : ℤ
  fdOut : ℤ
  deriving DecidableEq

structure Cmd where
  nodes : List CmdNode
  pipeNum : ℕ
  deriving DecidableEq

/- A node as `split_line` allocates it (`command.c:46-59`, `command.c:64-74`). -/
def CmdNode.empty : CmdNode :=
  { args := List.replicate argsLength none, length := 0, inFile := none, outFile := none,
    fdIn := 0, fdOut := 1 }

/- `temp->args[temp->length] = token; temp->length++`; `none` is a store behind the array. -/
def CmdNode.addArg (n : CmdNode) (token : Bytes) : Option CmdNode :=
  if n.length < argsLength then
    some { n with args := n.args.set n.length (some token), length := n.length + 1 }
  else none

/-- The nodes in front of `temp`, `temp` itself, and `pipe_num`. -/
structure Parse where
  before : List CmdNode
  temp : CmdNode
  pipeNum : ℕ

def Parse.cmd (p : Parse) : Cmd := ⟨p.before ++ [p.temp], p.pipeNum⟩

/- `strtok(NULL, " ")`: the token or NULL, and the text left; behind a NULL there is none. -/
def nextToken (rest : Bytes) : Option Bytes × Bytes :=
  match strtok SPACE rest with
  | none => (none, [])
  | some (token, rest) => (some token, rest)

/- One pass of the loop of `command.c:62-88` up to its last `strtok`. -/
def Parse.token (p : Parse) (token rest : Bytes) : Option (Parse × Bytes) :=
  if token.head? = some BAR then
    some ({ p with before := p.before ++ [p.temp], temp := .empty }, rest)
  else if token.head? = some LESS then
    let file := nextToken rest
    some ({ p with temp := { p.temp with inFile := file.1 } }, file.2)
  else if token.head? = some GREATER then
    let file := nextToken rest
    some ({ p with temp := { p.temp with outFile := file.1 } }, file.2)
  else (p.temp.addArg token).map fun temp => ({ p with temp }, rest)

theorem nextToken_length (rest : Bytes) : (nextToken rest).2.length ≤ rest.length := by
  unfold nextToken
  split
  · exact Nat.zero_le _
  · rename_i h
    exact Nat.le_of_lt (strtok_length h)

/-- All that one pass of the loop can do. -/
theorem Parse.token_cases {p p' : Parse} {token rest rest' : Bytes}
    (h : p.token token rest = some (p', rest')) :
    (token.head? = some BAR ∧ p' = ⟨p.before ++ [p.temp], .empty, p.pipeNum⟩ ∧ rest' = rest) ∨
    (token.head? = some LESS ∧ p' = { p with temp := { p.temp with inFile := (nextToken rest).1 } } ∧
      rest' = (nextToken rest).2) ∨
    (token.head? = some GREATER ∧
      p' = { p with temp := { p.temp with outFile := (nextToken rest).1 } } ∧
      rest' = (nextToken rest).2) ∨
    (p.temp.length < argsLength ∧
      p' = { p with
        temp := { p.temp with
          args := p.temp.args.set p.temp.length (some token), length := p.temp.length + 1 } } ∧
      rest' = rest) := by
  unfold Parse.token at h
  split at h
  case isTrue hbar =>
    obtain ⟨rfl, rfl⟩ := Prod.mk.inj (Option.some.inj h)
    exact .inl ⟨hbar, rfl, rfl⟩
  split at h
  case isTrue hless =>
    obtain ⟨rfl, rfl⟩ := Prod.mk.inj (Option.some.inj h)
    exact .inr (.inl ⟨hless, rfl, rfl⟩)
  split at h
  case isTrue hgreater =>
    obtain ⟨rfl, rfl⟩ := Prod.mk.inj (Option.some.inj h)
    exact .inr (.inr (.inl ⟨hgreater, rfl, rfl⟩))
  obtain ⟨temp, hadd, ht⟩ := Option.map_eq_some_iff.mp h
  obtain ⟨rfl, rfl⟩ := Prod.mk.inj ht
  unfold CmdNode.addArg at hadd
  split at hadd
  case isTrue hroom =>
    obtain rfl := Option.some.inj hadd
    exact .inr (.inr (.inr ⟨hroom, rfl, rfl⟩))
  case isFalse => cases hadd

theorem Parse.token_length {p p' : Parse} {token rest rest' : Bytes}
    (h : p.token token rest = some (p', rest')) : rest'.length ≤ rest.length := by
  obtain ⟨-, -, rfl⟩ | ⟨-, -, rfl⟩ | ⟨-, -, rfl⟩ | ⟨-, -, rfl⟩ := Parse.token_cases h
  · exact Nat.le_refl _
  · exact nextToken_length rest
  · exact nextToken_length rest
  · exact Nat.le_refl _

/- The loop, from a `strtok` on the text `rest` on; `none` when an argument is stored behind the
array. -/
def splitLoop (p : Parse) (rest : Bytes) : Option Cmd :=
  match _h : strtok SPACE rest with
  | none => some p.cmd
  | some (token, rest₁) =>
    match _h' : p.token token rest₁ with
    | none => none
    | some (p', rest₂) => splitLoop { p' with pipeNum := p'.pipeNum + 1 } rest₂
termination_by rest.length
decreasing_by
  have h1 := strtok_length _h
  have h2 := Parse.token_length _h'
  omega

/- `command.c:43-91`. -/
def splitLine (line : Bytes) : Option Cmd :=
  splitLoop { before := [], temp := .empty, pipeNum := 0 } (cstr line)

end OSLab.Shell
