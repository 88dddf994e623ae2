import Mathlib.Logic.Function.Iterate
import OSLab.Base.Loop
import OSLab.Shell.Loop
import OSLab.Shell.Pipeline

/-!
# The commands the shell reads

What `shell` passes to `split_line` for a given stream on its standard input,
against the lines of the stream. `read_line` does not tell the end of the
stream, so the shell has to be stopped by a command; and its children may take
lines away from it or put them back.
-/

namespace OSLab.Shell
open OSLab.Base

/-- The execution status of a line, nothing when the shell is gone after it. -/
def lineStatus (os : Os) (t : Fds) (line : Bytes) : Option ℤ :=
  ((splitLine line).bind (runCommand os t)).map Prod.fst

def isZero (env : Env) (t : Fds) (k : ℕ) (line : Bytes) : Bool :=
  lineStatus (env.os k) t line = some 0

/-- The shell takes no further command after this one. -/
def isLast (env : Env) (t : Fds) (k : ℕ) (line : Bytes) : Bool :=
  lineStatus (env.os k) t line = none ∨ lineStatus (env.os k) t line = some 0

/-- A line, without its newline, that is not skipped. -/
def IsCommand (l : Bytes) : Prop := l ≠ [] ∧ ¬ Skipped l

instance (l : Bytes) : Decidable (IsCommand l) := inferInstanceAs (Decidable (_ ∧ _))

/-- The lines of the stream that are commands. -/
def streamLines (stream : Bytes) : List Bytes :=
  (lines NEWLINE stream).filter fun l => IsCommand l

/- The string that `read_line` makes of what `fgets` has read, or NULL. -/
def commandOf (got : Bytes) : Option Bytes :=
  if Skipped got then none else some (got.takeWhile fun b => b ≠ 0 ∧ b ≠ NEWLINE)

/-- The commands in the pieces that fit the buffer. -/
def commands (stream : Bytes) : List Bytes :=
  (pieces NEWLINE (BUF_SIZE - 2) stream).filterMap commandOf

/-- The calls of `split_line` are the lines of the stream up to the first with status 0, and there is
no other call however long the shell runs. -/
def CallsAreLines (env : Env) (t : Fds) (stream : Bytes) : Prop :=
  ∃ n, ∀ m, n ≤ m →
    ((shellPass env)^[m] (shellStart t stream)).calls = (upTo (isZero env t) 0 (streamLines stream)).1

/-! ### Commands and lines -/

theorem commands_nil : commands [] = [] := by
  unfold commands
  rw [pieces_nil]
  rfl

theorem commands_of_ne_nil {s : Bytes} (h : s ≠ []) :
    commands s = (commandOf (fgets NEWLINE (BUF_SIZE - 1) s).1).toList ++
      commands (fgets NEWLINE (BUF_SIZE - 1) s).2 := by
  have hroom : BUF_SIZE - 2 + 1 = BUF_SIZE - 1 := rfl
  unfold commands
  rw [pieces_of_ne_nil _ _ h, hroom, List.filterMap_cons]
  cases commandOf (fgets NEWLINE (BUF_SIZE - 1) s).1 <;> rfl

theorem streamLines_cons {s l : Bytes} {ls : List Bytes} (h : lines NEWLINE s = l :: ls) :
    streamLines s = (if IsCommand l then [l] else []) ++ ls.filter fun l => IsCommand l := by
  unfold streamLines
  rw [h, List.filter_cons]
  by_cases hl : IsCommand l
  · simp only [hl, decide_true, ite_true, List.cons_append, List.nil_append]
  · simp only [hl, decide_false, Bool.false_eq_true, ite_false, List.nil_append]

theorem takeWhile_line {l : Bytes} (hnl : NEWLINE ∉ l) (hnul : 0 ∉ l) :
    ∀ b ∈ l, decide (b ≠ 0 ∧ b ≠ NEWLINE) = true := by
  intro b hb
  have h0 : b ≠ 0 := fun h => hnul (h ▸ hb)
  have h1 : b ≠ NEWLINE := fun h => hnl (h ▸ hb)
  simp only [ne_eq, h0, h1, not_false_eq_true, and_self, decide_true]

/-- The piece is a command when the line is, and the same one unless a NUL cuts it. -/
structure Reads (got l : Bytes) : Prop where
  length : (commandOf got).toList.length = (if IsCommand l then [l] else []).length
  text : 0 ∉ l → (commandOf got).toList = if IsCommand l then [l] else []

theorem reads_line {l : Bytes} (hnl : NEWLINE ∉ l) : Reads (l ++ [NEWLINE]) l := by
  have hskip : IsCommand l ↔ ¬ Skipped (l ++ [NEWLINE]) := by
    cases l with
    | nil => simp only [IsCommand, Skipped, List.nil_append, List.head?_cons, ne_eq, not_true_eq_false,
        false_and, true_or]
    | cons c l => simp only [IsCommand, Skipped, List.cons_append, List.head?_cons, ne_eq,
        List.cons_ne_nil, not_false_eq_true, true_and]
  by_cases h : Skipped (l ++ [NEWLINE])
  · constructor <;> simp only [commandOf, hskip, h, not_true_eq_false, ite_true, ite_false,
      Option.toList_none, implies_true]
  · constructor
    · simp only [commandOf, hskip, h, not_false_eq_true, ite_true, ite_false, Option.toList_some,
        List.length_singleton]
    · intro hnul
      simp only [commandOf, hskip, h, not_false_eq_true, ite_true, ite_false, Option.toList_some]
      rw [List.takeWhile_append_of_pos (takeWhile_line hnl hnul)]
      rw [List.takeWhile_cons_of_neg (by decide), List.append_nil]

/-- A piece without a newline, the beginning of a line. -/
theorem reads_piece {got : Bytes} (hne : got ≠ []) (hnl : NEWLINE ∉ got) : Reads got got := by
  have hskip : IsCommand got ↔ ¬ Skipped got := and_iff_right hne
  by_cases h : Skipped got
  · constructor <;> simp only [commandOf, hskip, h, not_true_eq_false, ite_true, ite_false,
      Option.toList_none, implies_true]
  · constructor
    · simp only [commandOf, hskip, h, not_false_eq_true, ite_true, ite_false, Option.toList_some,
        List.length_singleton]
    · intro hnul
      simp only [commandOf, hskip, h, not_false_eq_true, ite_true, ite_false, Option.toList_some]
      rw [List.takeWhile_eq_self_iff.mpr (takeWhile_line hnl hnul)]

theorem isCommand_append {got : Bytes} (hne : got ≠ []) (l : Bytes) :
    IsCommand (got ++ l) ↔ IsCommand got := by
  cases got with
  | nil => exact absurd rfl hne
  | cons c got =>
    simp only [IsCommand, Skipped, List.cons_append, List.head?_cons, ne_eq, List.cons_ne_nil,
      not_false_eq_true, true_and]

/-- Every line that is a command gives at least one, and just its text when it fits the buffer. -/
theorem commands_lines (s : Bytes) :
    (streamLines s).length ≤ (commands s).length ∧
    ((∀ l ∈ lines NEWLINE s, l.length < BUF_SIZE ∧ 0 ∉ l) → commands s = streamLines s) := by
  induction hn : s.length using Nat.strongRecOn generalizing s with
  | ind n ih =>
    subst hn
    by_cases hs : s = []
    · subst hs
      rw [commands_nil]
      exact ⟨Nat.le_refl _, fun _ => rfl⟩
    have happend := fgets_append NEWLINE (BUF_SIZE - 1) s
    have hcases := fgets_cases NEWLINE (BUF_SIZE - 2) hs
    have hlt : (fgets NEWLINE (BUF_SIZE - 1) s).2.length < s.length := by
      obtain ⟨c, s, rfl⟩ := List.exists_cons_of_ne_nil hs
      exact fgets_length NEWLINE (BUF_SIZE - 2) c s
    obtain ⟨hle, heq⟩ := ih _ hlt _ rfl
    rw [commands_of_ne_nil hs]
    have hroom : BUF_SIZE - 2 + 1 = BUF_SIZE - 1 := rfl
    rw [hroom] at hcases
    generalize fgets NEWLINE (BUF_SIZE - 1) s = read at *
    obtain ⟨got, rest⟩ := read
    simp only at hcases happend hle heq ⊢
    rcases hcases with ⟨l, rfl, hl, hls⟩ | ⟨hgot, rfl, hls⟩ | ⟨hgot, hlen, l, ls, hrest, hls⟩
    · have hreads := reads_line hl
      rw [streamLines_cons hls]
      constructor
      · rw [List.length_append, List.length_append, hreads.length]
        exact Nat.add_le_add_left hle _
      · intro hfit
        rw [hls, List.forall_mem_cons] at hfit
        rw [hreads.text hfit.1.2, heq hfit.2]
        rfl
    · have hne : got ≠ [] := by
        rintro rfl
        exact hs happend.symm
      have hreads := reads_piece hne hgot
      rw [streamLines_cons hls, commands_nil]
      constructor
      · rw [List.length_append, List.length_append, hreads.length]
        exact Nat.le_refl _
      · intro hfit
        rw [hls, List.forall_mem_cons] at hfit
        rw [hreads.text hfit.1.2]
        rfl
    · -- the rest of the line is read by the next call
      have hne : got ≠ [] := by
        rintro rfl
        cases hlen
      have hreads := reads_piece hne hgot
      have hsame : IsCommand (got ++ l) ↔ IsCommand got := isCommand_append hne l
      rw [streamLines_cons hrest] at hle heq
      rw [streamLines_cons hls]
      simp only [hsame]
      constructor
      · have hlength := hreads.length
        rw [List.length_append] at hle ⊢
        rw [List.length_append]
        by_cases hcmd : IsCommand got
        · simp only [hcmd, ite_true, List.length_singleton] at hlength ⊢
          omega
        · simp only [hcmd, ite_false, List.length_nil] at hlength ⊢
          omega
      · intro hfit
        rw [hls, List.forall_mem_cons, List.length_append, List.mem_append, not_or] at hfit
        obtain rfl : l = [] := by
          apply List.length_eq_zero_iff.mp
          omega
        have hfit' : ∀ l ∈ lines NEWLINE rest, l.length < BUF_SIZE ∧ 0 ∉ l := by
          rw [hrest, List.forall_mem_cons]
          exact ⟨⟨by decide, List.not_mem_nil⟩, hfit.2⟩
        rw [hreads.text hfit.1.2.1, heq hfit', List.append_nil]
        rfl

/-! ### The status of a command -/

theorem redirectFile_isSome (t : Fds) (file : Option Bytes) (opens : Bytes → Bool)
    (desc : Bytes → Desc) (target : ℕ) :
    (redirectFile t file opens desc target).isSome = file.all opens := by
  cases file with
  | none => rfl
  | some path =>
    by_cases h : opens path = true
    · simp only [redirectFile, h, ite_true, Option.isSome_some, Option.all_some]
    · simp only [redirectFile, h, Option.isSome_none, Option.all_some, Bool.false_eq_true, ite_false]

theorem redirection_isSome (os : Os) (p : CmdNode) (t : Fds) :
    (redirection os p t).isSome = (p.inFile.all os.openRead && p.outFile.all os.openWrite) := by
  have hin := redirectFile_isSome t p.inFile os.openRead .readFile STDIN_FILENO
  unfold redirection
  cases h : redirectFile t p.inFile os.openRead .readFile STDIN_FILENO with
  | none =>
    rw [h, Option.isSome_none] at hin
    simp only [← hin, Bool.false_and, Option.bind_eq_bind, Option.bind_none, Option.isSome_none]
  | some t' =>
    rw [h, Option.isSome_some] at hin
    rw [← hin, Bool.true_and, ← redirectFile_isSome t' p.outFile os.openWrite .writeFile STDOUT_FILENO]
    simp only [Option.bind_eq_bind, Option.bind_some]
    cases redirectFile t' p.outFile os.openWrite .writeFile STDOUT_FILENO <;> rfl

theorem makePipes_isSome (os : Os) (n : ℕ) : ∀ (i : ℕ) (t t' : Fds),
    (makePipes os i n t).isSome = (makePipes os i n t').isSome := by
  induction n with
  | zero => exact fun _ _ _ => rfl
  | succ n ih =>
    intro i t t'
    by_cases h : os.pipe i = true
    · simp only [makePipes, h, ite_true, Option.isSome_map]
      exact ih _ _ _
    · simp only [makePipes, h, Bool.false_eq_true, ite_false]

theorem forkLoop_shell (os : Os) (count : ℕ) (nodes : List CmdNode) :
    ∀ (idx : ℕ) (pipes pipes' : List (ℕ × ℕ)) (t t' : Fds),
    (forkLoop os pipes count idx nodes t).shell.isSome =
      (forkLoop os pipes' count idx nodes t').shell.isSome := by
  induction nodes with
  | nil => exact fun _ _ _ _ _ => rfl
  | cons cur nodes ih =>
    intro idx pipes pipes' t t'
    by_cases h : os.fork idx = true
    · simp only [forkLoop, h, ite_true]
      exact ih _ _ _ _ _
    · simp only [forkLoop, h, Bool.false_eq_true, ite_false]

theorem forkCmdNode_shell (os : Os) (t t' : Fds) (cmd : Cmd) :
    (forkCmdNode os t cmd).shell.isSome = (forkCmdNode os t' cmd).shell.isSome := by
  have hpipes := makePipes_isSome os (cmd.nodes.length - 1) 0 t t'
  unfold forkCmdNode
  cases h : makePipes os 0 (cmd.nodes.length - 1) t with
  | none =>
    cases h' : makePipes os 0 (cmd.nodes.length - 1) t' with
    | none => simp only [h, h']
    | some r =>
      rw [h, h'] at hpipes
      cases hpipes
  | some r =>
    cases h' : makePipes os 0 (cmd.nodes.length - 1) t' with
    | none =>
      rw [h, h'] at hpipes
      cases hpipes
    | some r' =>
      simp only [h, h']
      exact forkLoop_shell _ _ _ _ _ _ _ _

theorem runBuiltIn_status (os : Os) (t : Fds) (temp : CmdNode) (status : ℤ) :
    (runBuiltIn os t temp status).map Prod.fst =
      if temp.inFile.all os.openRead && temp.outFile.all os.openWrite then
        execBuiltInCommand status temp
      else none := by
  let copies := ((t.dup STDIN_FILENO).2.dup STDOUT_FILENO).2
  have hredirect := redirection_isSome os temp copies
  unfold runBuiltIn
  rw [← hredirect]
  cases h : redirection os temp copies with
  | none => simp only [copies, h, Option.bind_eq_bind, Option.bind_none, Option.map_none,
      Option.isSome_none, Bool.false_eq_true, ite_false]
  | some t' =>
    simp only [copies, h, Option.bind_eq_bind, Option.bind_some, Option.isSome_some, ite_true]
    cases execBuiltInCommand status temp <;> rfl

/-- The status of a command does not depend on the descriptors. -/
theorem runCommand_status (os : Os) (t t' : Fds) (cmd : Cmd) :
    (runCommand os t cmd).map Prod.fst = (runCommand os t' cmd).map Prod.fst := by
  have hfork := forkCmdNode_shell os t t' cmd
  unfold runCommand
  split
  · rename_i temp _
    cases searchBuiltInCommand temp with
    | none => rfl
    | some status =>
      by_cases h : status = -1
      · simp only [h, Option.bind_eq_bind, Option.bind_some, ne_eq, not_true_eq_false, ite_false,
          Option.map_some]
      · simp only [h, Option.bind_eq_bind, Option.bind_some, ne_eq, not_false_eq_true, ite_true,
          runBuiltIn_status]
  · cases h : (forkCmdNode os t cmd).shell with
    | none =>
      rw [h, Option.isSome_none, eq_comm, Option.isSome_eq_false_iff, Option.isNone_iff_eq_none]
        at hfork
      rw [hfork]
    | some fds =>
      rw [h, Option.isSome_some, eq_comm, Option.isSome_iff_exists] at hfork
      obtain ⟨fds', h'⟩ := hfork
      rw [h']
      rfl

theorem lineStatus_fds (os : Os) (t t' : Fds) (line : Bytes) :
    lineStatus os t line = lineStatus os t' line := by
  unfold lineStatus
  cases splitLine line with
  | none => rfl
  | some cmd => exact runCommand_status os t t' cmd

/-! ### The next command -/

theorem Stdin.fgets_stream (d : Stdin) (ahead : ℕ) :
    (d.fgets ahead).stream = (Base.fgets NEWLINE (BUF_SIZE - 1) d.stream).2 := by
  rw [fgets_drop]
  unfold Stdin.fgets Stdin.stream
  generalize (Base.fgets NEWLINE (BUF_SIZE - 1) (d.buffer ++ d.input.rest)).1 = got
  dsimp only
  rw [List.drop_append]
  by_cases hmore : got.length - d.buffer.length = 0
  · rw [if_pos hmore, if_pos hmore, hmore, List.drop_zero]
  · -- the bytes that are read ahead and those behind them
    have hbuffer : d.buffer.drop got.length = [] := List.drop_eq_nil_of_le (by omega)
    rw [if_neg hmore, if_neg hmore, hbuffer, List.nil_append]
    change _ ++ d.input.rest.drop (got.length - d.buffer.length + ahead) = _
    rw [← List.drop_drop, List.take_append_drop]

theorem Stdin.fgets_length {d : Stdin} (h : d.stream ≠ []) (ahead : ℕ) :
    (d.fgets ahead).stream.length < d.stream.length := by
  obtain ⟨c, s, hs⟩ := List.exists_cons_of_ne_nil h
  rw [Stdin.fgets_stream, hs]
  exact OSLab.Base.fgets_length NEWLINE (BUF_SIZE - 2) c s

/-- The next command that the shell finds on its standard input, the `k`-th, and what it leaves there.
Behind the end of the stream it is what the memory of the buffer holds. -/
def nextCommand (env : Env) (k : ℕ) (d : Stdin) : Bytes × Stdin :=
  let after := d.fgets (env.ahead k d.stream.length)
  if _h : d.stream = [] then (cstr (env.fresh k), after)
  else
    match commandOf (fgets NEWLINE (BUF_SIZE - 1) d.stream).1 with
    | none => nextCommand env k after
    | some c => (c, after)
termination_by d.stream.length
decreasing_by exact Stdin.fgets_length _h _

theorem nextCommand_end (env : Env) (k : ℕ) {d : Stdin} (h : d.stream = []) :
    nextCommand env k d = (cstr (env.fresh k), d.fgets (env.ahead k d.stream.length)) := by
  rw [nextCommand, dif_pos h]

theorem nextCommand_skip {env : Env} {k : ℕ} {d : Stdin} (h : d.stream ≠ [])
    (hskip : commandOf (fgets NEWLINE (BUF_SIZE - 1) d.stream).1 = none) :
    nextCommand env k d = nextCommand env k (d.fgets (env.ahead k d.stream.length)) := by
  rw [nextCommand, dif_neg h, hskip]

theorem nextCommand_found {env : Env} {k : ℕ} {d : Stdin} (h : d.stream ≠ []) {c : Bytes}
    (hfound : commandOf (fgets NEWLINE (BUF_SIZE - 1) d.stream).1 = some c) :
    nextCommand env k d = (c, d.fgets (env.ahead k d.stream.length)) := by
  rw [nextCommand, dif_neg h, hfound]

/-- On its own the shell goes through the commands of the stream. -/
theorem nextCommand_commands (env : Env) (k : ℕ) (d : Stdin) :
    commands (nextCommand env k d).2.stream = (commands d.stream).drop 1 ∧
      ∀ c, (commands d.stream).head? = some c → (nextCommand env k d).1 = c := by
  induction hn : d.stream.length using Nat.strongRecOn generalizing d with
  | ind n ih =>
    subst hn
    by_cases hs : d.stream = []
    · have hnone : (d.fgets (env.ahead k d.stream.length)).stream = [] := by
        rw [Stdin.fgets_stream, hs]
        rfl
      rw [nextCommand_end env k hs]
      dsimp only
      rw [hnone, hs, commands_nil]
      exact ⟨rfl, fun c hc => by cases hc⟩
    · rw [commands_of_ne_nil hs]
      cases hgot : commandOf (fgets NEWLINE (BUF_SIZE - 1) d.stream).1 with
      | none =>
        rw [nextCommand_skip hs hgot, ← d.fgets_stream (env.ahead k d.stream.length)]
        exact ih _ (Stdin.fgets_length hs _) _ rfl
      | some c =>
        rw [nextCommand_found hs hgot]
        dsimp only
        rw [Stdin.fgets_stream]
        exact ⟨rfl, fun c' hc' => Option.some.inj hc'⟩

/-! ### What the children leave -/

theorem spawnProc_child (os : Os) (t : Fds) (p : CmdNode) :
    (spawnProc os t p).map Exec.args =
      if os.fork 0 && (p.inFile.all os.openRead && p.outFile.all os.openWrite) then some p.args
      else none := by
  have hredirect := redirection_isSome os p t
  rw [← hredirect]
  unfold spawnProc
  cases os.fork 0 with
  | false => rfl
  | true => cases redirection os p t <;> rfl

theorem forkCmdNode_head (os : Os) (t t' : Fds) (cmd : Cmd) :
    (forkCmdNode os t cmd).children.head?.map (Option.map Exec.args) =
      (forkCmdNode os t' cmd).children.head?.map (Option.map Exec.args) := by
  have hpipes := makePipes_isSome os (cmd.nodes.length - 1) 0 t t'
  have hloop (pipes pipes' : List (ℕ × ℕ)) (t t' : Fds) :
      (forkLoop os pipes cmd.nodes.length 0 cmd.nodes t).children.head?.map (Option.map Exec.args) =
        (forkLoop os pipes' cmd.nodes.length 0 cmd.nodes t').children.head?.map
          (Option.map Exec.args) := by
    cases cmd.nodes with
    | nil => rfl
    | cons cur nodes =>
      by_cases h : os.fork 0 = true
      · simp only [forkLoop, h, ite_true, List.head?_cons, Option.map_some, pipelineChild]
      · simp only [forkLoop, h, Bool.false_eq_true, ite_false]
  unfold forkCmdNode
  dsimp only
  cases h : makePipes os 0 (cmd.nodes.length - 1) t with
  | none =>
    rw [h, Option.isSome_none, eq_comm, Option.isSome_eq_false_iff, Option.isNone_iff_eq_none]
      at hpipes
    rw [hpipes]
  | some r =>
    rw [h, Option.isSome_some, eq_comm, Option.isSome_iff_exists] at hpipes
    obtain ⟨r', h'⟩ := hpipes
    rw [h']
    exact hloop _ _ _ _

/-- Which child has the standard input of the shell does not depend on the other descriptors. -/
theorem stdinChild_fds (os : Os) (t t' : Fds) (cmd : Cmd) : stdinChild os t cmd = stdinChild os t' cmd := by
  unfold stdinChild
  split
  · simp only [spawnProc_child]
  · exact forkCmdNode_head os t t' cmd

theorem leaves_fds (env : Env) (k : ℕ) (t t' : Fds) (cmd : Cmd) (d : Stdin) :
    env.leaves k t cmd d = env.leaves k t' cmd d := by
  unfold Env.leaves
  rw [stdinChild_fds _ t t']

/-- What is left on standard input behind the command `line`. -/
def leftBehind (env : Env) (t : Fds) (k : ℕ) (line : Bytes) (d : Stdin) : Stdin :=
  (splitLine line).elim d fun cmd => env.leaves k t cmd d

/-- The standard input that the shell finds when it reads its `k`-th command. -/
def stdinAt (env : Env) (t : Fds) (stream : Bytes) : ℕ → Stdin
  | 0 => ⟨[], ⟨[], stream⟩, false⟩
  | k + 1 =>
    let read := nextCommand env k (stdinAt env t stream k)
    leftBehind env t k read.1 read.2

/-- The `k`-th command that the shell finds if it comes so far. -/
def commandAt (env : Env) (t : Fds) (stream : Bytes) (k : ℕ) : Bytes :=
  (nextCommand env k (stdinAt env t stream k)).1

/-! ### Passes of the loop -/

theorem splitLine_cstr (line : Bytes) : splitLine (cstr line) = splitLine line := by
  unfold splitLine
  rw [cstr_of_noNul (cstr_noNul line)]

theorem shellPass_call {env : Env} {s : Session} (t : Fds) {buffer : Bytes}
    (hrun : s.running = true)
    (hread : (readLine (env.fresh s.calls.length) s.stdin.stream).1 = some buffer) :
    let k := s.calls.length
    (shellPass env s).calls = s.calls ++ [cstr buffer] ∧
    (shellPass env s).running = !isLast env t k (cstr buffer) ∧
    ((shellPass env s).running = true → (shellPass env s).stdin =
      leftBehind env t k (cstr buffer) (s.stdin.fgets (env.ahead k s.stdin.stream.length))) := by
  have hstatus : lineStatus (env.os s.calls.length) t (cstr buffer) =
      ((splitLine buffer).bind (runCommand (env.os s.calls.length) s.fds)).map Prod.fst := by
    rw [lineStatus_fds _ t s.fds]
    unfold lineStatus
    rw [splitLine_cstr]
  dsimp only
  unfold leftBehind
  rw [splitLine_cstr]
  simp only [shellPass, hrun, ite_true, hread]
  cases hline : splitLine buffer with
  | none =>
    rw [hline] at hstatus
    refine ⟨rfl, ?_, fun h => by cases h⟩
    simp only [isLast, hstatus, Option.bind_none, Option.map_none, true_or, decide_true, Bool.not_true]
  | some cmd =>
    rw [hline, Option.bind_some] at hstatus
    cases hcmd : runCommand (env.os s.calls.length) s.fds cmd with
    | none =>
      rw [hcmd] at hstatus
      simp only [hcmd, isLast, hstatus, Option.map_none, true_or, decide_true, Bool.not_true,
        Bool.false_eq_true, false_implies, and_self]
    | some r =>
      rw [hcmd] at hstatus
      simp only [hcmd, true_and]
      refine ⟨?_, fun _ => leaves_fds ..⟩
      simp only [isLast, hstatus, Option.map_some, reduceCtorEq, Option.some.injEq, false_or,
        decide_not]

theorem shellPass_skip {env : Env} {s : Session} (hrun : s.running = true)
    (hread : (readLine (env.fresh s.calls.length) s.stdin.stream).1 = none) :
    shellPass env s =
      { s with stdin := s.stdin.fgets (env.ahead s.calls.length s.stdin.stream.length) } := by
  simp only [shellPass, hrun, ite_true, hread]

theorem shellPass_over {env : Env} {s : Session} (hrun : s.running = false) :
    shellPass env s = s := by
  simp only [shellPass, hrun, Bool.false_eq_true, ite_false]

theorem strcspn_cut (got fresh : Bytes) :
    cstr ((got ++ 0 :: fresh).set (strcspn (got ++ 0 :: fresh) NEWLINE) 0) =
      got.takeWhile fun b => b ≠ 0 ∧ b ≠ NEWLINE := by
  induction got with
  | nil => rfl
  | cons c got ih =>
    unfold cstr strcspn at ih ⊢
    rw [List.cons_append]
    by_cases hc : c ≠ 0 ∧ c ≠ NEWLINE
    · rw [List.takeWhile_cons_of_pos (by simpa using hc), List.length_cons, List.set_cons_succ,
        List.takeWhile_cons_of_pos (by simpa using hc.1), ih,
        List.takeWhile_cons_of_pos (by simpa using hc)]
    · rw [List.takeWhile_cons_of_neg (by simpa using hc), List.length_nil, List.set_cons_zero,
        List.takeWhile_cons_of_neg (by decide), List.takeWhile_cons_of_neg (by simpa using hc)]

theorem readLine_commandOf (fresh : Bytes) {s : Bytes} (hs : s ≠ []) :
    (readLine fresh s).1.map cstr = commandOf (fgets NEWLINE (BUF_SIZE - 1) s).1 ∧
    (readLine fresh s).2 = (fgets NEWLINE (BUF_SIZE - 1) s).2 := by
  unfold readLine commandOf
  by_cases h : Skipped (fgets NEWLINE (BUF_SIZE - 1) s).1
  · simp only [hs, h, ite_true, ite_false, Option.map_none, and_self]
  · simp only [hs, h, ite_false, Option.map_some, strcspn_cut, and_self]


/-! ### Runs of the loop -/

/-- From one command to the next. -/
theorem run_next (env : Env) (t : Fds) {s : Session} (hrun : s.running = true) :
    let k := s.calls.length
    let read := nextCommand env k s.stdin
    ∃ m, ((shellPass env)^[m] s).calls = s.calls ++ [read.1] ∧
      ((shellPass env)^[m] s).running = !isLast env t k read.1 ∧
      (((shellPass env)^[m] s).running = true →
        ((shellPass env)^[m] s).stdin = leftBehind env t k read.1 read.2) := by
  induction hn : s.stdin.stream.length using Nat.strongRecOn generalizing s with
  | ind n ih =>
    subst hn
    dsimp only
    by_cases hs : s.stdin.stream = []
    · -- the memory of the buffer is executed
      have hread : (readLine (env.fresh s.calls.length) s.stdin.stream).1 =
          some (env.fresh s.calls.length) := by
        unfold readLine
        rw [if_pos hs]
      rw [nextCommand_end env _ hs]
      exact ⟨1, shellPass_call t hrun hread⟩
    obtain ⟨htext, -⟩ := readLine_commandOf (env.fresh s.calls.length) hs
    cases hread : (readLine (env.fresh s.calls.length) s.stdin.stream).1 with
    | none =>
      rw [hread, Option.map_none] at htext
      have hlt := Stdin.fgets_length hs (env.ahead s.calls.length s.stdin.stream.length)
      obtain ⟨m, hm⟩ := ih _ hlt
        (s := { s with stdin := s.stdin.fgets (env.ahead s.calls.length s.stdin.stream.length) })
        hrun rfl
      refine ⟨m + 1, ?_⟩
      rw [Function.iterate_succ_apply, shellPass_skip hrun hread, nextCommand_skip hs htext.symm]
      exact hm
    | some buffer =>
      rw [hread, Option.map_some] at htext
      rw [nextCommand_found hs htext.symm]
      exact ⟨1, shellPass_call t hrun hread⟩

/-- As long as no command is the last one the shell comes to the next. -/
theorem run_commands (env : Env) (t : Fds) (stream : Bytes) {k : ℕ}
    (hfirst : ∀ i, i < k → isLast env t i (commandAt env t stream i) = false) :
    ∃ m, ((shellPass env)^[m] (shellStart t stream)).calls =
        (List.range k).map (commandAt env t stream) ∧
      ((shellPass env)^[m] (shellStart t stream)).running = true ∧
      ((shellPass env)^[m] (shellStart t stream)).stdin = stdinAt env t stream k := by
  induction k with
  | zero => exact ⟨0, rfl, rfl, rfl⟩
  | succ k ih =>
    obtain ⟨m, hcalls, hrun, hstdin⟩ := ih fun i hi => hfirst i (Nat.lt_succ_of_lt hi)
    obtain ⟨m', hcalls', hrun', hstdin'⟩ := run_next env t hrun
    have hlen : ((shellPass env)^[m] (shellStart t stream)).calls.length = k := by
      rw [hcalls, List.length_map, List.length_range]
    rw [hlen, hstdin, ← Function.iterate_add_apply] at hcalls' hrun' hstdin'
    have hgoes : ((shellPass env)^[m' + m] (shellStart t stream)).running = true := by
      rw [hrun']
      exact congrArg (!·) (hfirst k (Nat.lt_succ_self k))
    refine ⟨m' + m, ?_, hgoes, hstdin' hgoes⟩
    rw [hcalls', hcalls, List.range_succ, List.map_append]
    rfl

/-- After the first command that is the last one the calls stay as they are. -/
theorem run_last {env : Env} {t : Fds} {stream : Bytes} {n : ℕ}
    (hlast : isLast env t n (commandAt env t stream n) = true)
    (hfirst : ∀ i, i < n → isLast env t i (commandAt env t stream i) = false) :
    ∃ m, ∀ k, m ≤ k → ((shellPass env)^[k] (shellStart t stream)).calls =
      (List.range (n + 1)).map (commandAt env t stream) := by
  obtain ⟨m, hcalls, hrun, hstdin⟩ := run_commands env t stream hfirst
  obtain ⟨m', hcalls', hrun', -⟩ := run_next env t hrun
  have hlen : ((shellPass env)^[m] (shellStart t stream)).calls.length = n := by
    rw [hcalls, List.length_map, List.length_range]
  rw [hlen, hstdin, ← Function.iterate_add_apply] at hcalls' hrun'
  have hover : ((shellPass env)^[m' + m] (shellStart t stream)).running = false := by
    rw [hrun']
    exact congrArg (!·) hlast
  refine ⟨m' + m, fun k hk => ?_⟩
  obtain ⟨d, rfl⟩ := Nat.exists_eq_add_of_le hk
  rw [Nat.add_comm (m' + m) d, Function.iterate_add_apply,
    Function.iterate_fixed (shellPass_over hover), hcalls', hcalls, List.range_succ, List.map_append]
  rfl

theorem shellPass_calls_le (env : Env) (s : Session) :
    s.calls.length ≤ (shellPass env s).calls.length := by
  cases hrun : s.running with
  | false =>
    rw [shellPass_over hrun]
  | true =>
    cases hread : (readLine (env.fresh s.calls.length) s.stdin.stream).1 with
    | none =>
      rw [shellPass_skip hrun hread]
    | some buffer =>
      rw [(shellPass_call s.fds hrun hread).1, List.length_append]
      exact Nat.le_add_right _ _

theorem iterate_calls_le (env : Env) (s : Session) (n : ℕ) :
    s.calls.length ≤ ((shellPass env)^[n] s).calls.length := by
  induction n with
  | zero => exact Nat.le_refl _
  | succ n ih =>
    rw [Function.iterate_succ_apply']
    exact Nat.le_trans ih (shellPass_calls_le env _)

/-- A shell that is never stopped by a command goes on calling. -/
theorem not_callsAreLines {env : Env} {t : Fds} {stream : Bytes}
    (h : ∀ k, isLast env t k (commandAt env t stream k) = false) : ¬ CallsAreLines env t stream := by
  intro ⟨n, hcalls⟩
  let seen := (upTo (isZero env t) 0 (streamLines stream)).1
  obtain ⟨m, hm, -, -⟩ := run_commands env t stream (k := seen.length + 1) fun i _ => h i
  have hlate := iterate_calls_le env ((shellPass env)^[m] (shellStart t stream)) n
  rw [← Function.iterate_add_apply, hcalls _ (Nat.le_add_right _ _), hm, List.length_map,
    List.length_range] at hlate
  exact absurd hlate (Nat.not_succ_le_self _)

/-! ### Where the calls are the lines -/

/-- The `n`-th command is the first that ends the shell; up to it the shell finds the lines of the
stream, and it has status 0 or is the last line. -/
structure EndsAt (env : Env) (t : Fds) (stream : Bytes) (n : ℕ) : Prop where
  whole : (streamLines stream).take (n + 1) = (List.range (n + 1)).map (commandAt env t stream)
  last : isLast env t n (commandAt env t stream n) = true
  first : ∀ i, i < n → isLast env t i (commandAt env t stream i) = false
  status : isZero env t n (commandAt env t stream n) = true ∨ (streamLines stream).length = n + 1

theorem isLast_of_isZero {env : Env} {t : Fds} {k : ℕ} {line : Bytes}
    (h : isLast env t k line = false) : isZero env t k line = false := by
  simp only [isLast, isZero, decide_eq_false_iff_not, not_or] at h ⊢
  exact h.2

theorem upTo_eq_range {env : Env} {t : Fds} {stream : Bytes} {n : ℕ}
    (hfirst : ∀ i, i < n → isLast env t i (commandAt env t stream i) = false) :
    (upTo (isZero env t) 0 (streamLines stream)).1 = (List.range (n + 1)).map (commandAt env t stream) ↔
      (streamLines stream).take (n + 1) = (List.range (n + 1)).map (commandAt env t stream) ∧
      (isZero env t n (commandAt env t stream n) = true ∨ (streamLines stream).length = n + 1) := by
  have hget {i : ℕ} (hi : i < n + 1) : ((List.range (n + 1)).map (commandAt env t stream))[i]? =
      some (commandAt env t stream i) := by
    rw [List.getElem?_map, List.getElem?_range hi, Option.map_some]
  have heq : (upTo (isZero env t) 0 (streamLines stream)).1 =
      (List.range (n + 1)).map (commandAt env t stream) ↔ _ :=
    upTo_eq_iff (by rw [List.length_map, List.length_range]) (hget (Nat.lt_succ_self n)) (by
      intro i c hi hc
      rw [hget (Nat.lt_succ_of_lt hi), Option.some.injEq] at hc
      rw [Nat.zero_add, ← hc]
      exact isLast_of_isZero (hfirst i hi))
  rwa [Nat.zero_add] at heq

theorem callsAreLines_endsAt (env : Env) (t : Fds) (stream : Bytes) :
    CallsAreLines env t stream ↔ ∃ n, EndsAt env t stream n := by
  constructor
  · intro hcalls
    by_cases hstop : ∃ n, isLast env t n (commandAt env t stream n) = true
    · classical
      have hfirst (i : ℕ) (hi : i < Nat.find hstop) :
          isLast env t i (commandAt env t stream i) = false :=
        Bool.eq_false_iff.mpr (Nat.find_min hstop hi)
      have hlast := Nat.find_spec hstop
      obtain ⟨m, hm⟩ := run_last hlast hfirst
      obtain ⟨n', hn'⟩ := hcalls
      have hboth := (hn' (m + n') (Nat.le_add_left _ _)).symm.trans
        (hm (m + n') (Nat.le_add_right _ _))
      obtain ⟨hlines, hstatus⟩ := (upTo_eq_range hfirst).mp hboth
      exact ⟨_, hlines, hlast, hfirst, hstatus⟩
    · exact absurd hcalls (not_callsAreLines fun k =>
        Bool.eq_false_iff.mpr fun hk => hstop ⟨k, hk⟩)
  · intro ⟨n, h⟩
    obtain ⟨m, hm⟩ := run_last h.last h.first
    exact ⟨m, fun k hk => (hm k hk).trans ((upTo_eq_range h.first).mpr ⟨h.whole, h.status⟩).symm⟩

/-! ### Children that leave standard input alone -/

/-- The processes of the first `n` commands leave on standard input what the shell has left there. -/
def ChildrenSpare (env : Env) (t : Fds) (stream : Bytes) (n : ℕ) : Prop :=
  ∀ k, k < n → stdinAt env t stream (k + 1) = (nextCommand env k (stdinAt env t stream k)).2

/-- The same as `EndsAt` about the commands of the stream, whatever the children do. -/
structure StreamEndsAt (env : Env) (t : Fds) (stream : Bytes) (n : ℕ) (line : Bytes) : Prop where
  command : (commands stream)[n]? = some line
  last : isLast env t n line = true
  first : ∀ i c, i < n → (commands stream)[i]? = some c → isLast env t i c = false
  whole : (streamLines stream).take (n + 1) = (commands stream).take (n + 1)
  status : isZero env t n line = true ∨ (streamLines stream).length = n + 1

variable {env : Env} {t : Fds} {stream : Bytes} {n : ℕ}

/-- Nobody else uses the input, and it cannot be sought, such as a pipe or a terminal. -/
theorem childrenSpare_of_quiet (hseek : env.seekable = false) (huses : ∀ k i, env.uses k i = i)
    (n : ℕ) : ChildrenSpare env t stream n := by
  have hleaves (k : ℕ) (cmd : Cmd) (d : Stdin) : env.leaves k t cmd d = d := by
    unfold Env.leaves
    simp only [hseek, huses, Bool.false_eq_true, ite_false, ite_self]
    split
    · rfl
    · split <;> rfl
  intro k _
  change leftBehind env t k _ _ = _
  unfold leftBehind
  cases splitLine (nextCommand env k (stdinAt env t stream k)).1 with
  | none => rfl
  | some cmd => exact hleaves k cmd _

theorem ChildrenSpare.commands_drop (h : ChildrenSpare env t stream n) {i : ℕ} (hi : i ≤ n) :
    commands (stdinAt env t stream i).stream = (commands stream).drop i := by
  induction i with
  | zero => rfl
  | succ i ih =>
    rw [h i hi, (nextCommand_commands env i _).1, ih (Nat.le_of_succ_le hi), List.drop_drop]

theorem ChildrenSpare.commandAt_eq (h : ChildrenSpare env t stream n) {i : ℕ} (hi : i ≤ n) {c : Bytes}
    (hc : (commands stream)[i]? = some c) : commandAt env t stream i = c := by
  refine (nextCommand_commands env i (stdinAt env t stream i)).2 c ?_
  rw [h.commands_drop hi, List.head?_drop]
  exact hc

theorem ChildrenSpare.range_eq (h : ChildrenSpare env t stream n)
    (hlen : n + 1 ≤ (commands stream).length) :
    (List.range (n + 1)).map (commandAt env t stream) = (commands stream).take (n + 1) := by
  refine List.ext_getElem? fun i => ?_
  by_cases hi : i < n + 1
  · have hc : (commands stream)[i]? = some ((commands stream)[i]) := List.getElem?_eq_getElem _
    rw [List.getElem?_map, List.getElem?_range hi, Option.map_some, List.getElem?_take_of_lt hi, hc,
      h.commandAt_eq (Nat.le_of_lt_succ hi) hc]
  · rw [List.getElem?_eq_none (by rw [List.length_map, List.length_range]; omega),
      List.getElem?_eq_none (by rw [List.length_take]; omega)]

theorem ChildrenSpare.endsAt_iff (h : ChildrenSpare env t stream n) :
    EndsAt env t stream n ↔ ∃ line, StreamEndsAt env t stream n line := by
  constructor
  · intro hends
    have hlen : n + 1 ≤ (commands stream).length := by
      have htake := congrArg List.length hends.whole
      rw [List.length_take, List.length_map, List.length_range] at htake
      have hle := (commands_lines stream).1
      omega
    have hc : (commands stream)[n]? = some ((commands stream)[n]) := List.getElem?_eq_getElem _
    have hn := h.commandAt_eq (Nat.le_refl n) hc
    refine ⟨_, hc, hn ▸ hends.last, fun i c hi hic => ?_, hends.whole.trans (h.range_eq hlen),
      hn ▸ hends.status⟩
    rw [← h.commandAt_eq (Nat.le_of_lt hi) hic]
    exact hends.first i hi
  · intro ⟨line, hends⟩
    obtain ⟨hlen, -⟩ := List.getElem?_eq_some_iff.mp hends.command
    have hn := h.commandAt_eq (Nat.le_refl n) hends.command
    subst hn
    refine ⟨hends.whole.trans (h.range_eq hlen).symm, hends.last, fun i hi => ?_, hends.status⟩
    have hc : (commands stream)[i]? = some ((commands stream)[i]) := List.getElem?_eq_getElem _
    rw [h.commandAt_eq (Nat.le_of_lt hi) hc]
    exact hends.first i _ hi hc

/- A kernel that refuses nothing, programs that leave a file alone which is standard input, and `ls` in
the memory that `malloc` returns. -/
def envLs : Env :=
  { os _ := osAll, fresh _ := [108, 115, 0], ahead _ _ := 0, seekable := true, finds _ _ := true
    uses _ i := i }

/- `n` twice in a file, and no such program: the first child puts the second line back. -/
example : ((shellPass { envLs with ahead _ _ := 4096, finds _ _ := false })^[3]
    (shellStart shellFds.toFdTable [110, 10, 110, 10])).calls = [[110], [110], [110]] := by
  decide +kernel

end OSLab.Shell
