import OSLab.Shell.Loop
import OSLab.Shell.Pieces
import OSLab.Shell.Pipeline

/-!
# The arguments of a stage

The `args` array of a node has ten slots and `split_line` counts nothing: a
stage with ten arguments leaves no room for the NULL behind them, and one
without any leaves a node without a command name.
-/

namespace OSLab.Shell
open OSLab.Base

/-! ### The NULL behind the arguments -/

/- No argument is stored behind its array, and every array has its NULL behind the arguments. -/
def ArgsTerminated (line : Bytes) : Prop :=
  ∃ cmd, splitLine line = some cmd ∧
    ∀ n ∈ cmd.nodes, n.args.length = argsLength ∧ n.args[n.length]? = some none

theorem nodeOf_terminated_iff {args : List Bytes} (h : args.length ≤ argsLength)
    (i o : Option Bytes) :
    (nodeOf args i o).args[(nodeOf args i o).length]? = some none ↔ args.length < argsLength := by
  have hget : (nodeOf args i o).args[args.length]? =
      (List.replicate (argsLength - args.length) (none : Option Bytes))[0]? := by
    unfold nodeOf
    dsimp only
    rw [List.getElem?_append_right (by rw [List.length_map]), List.length_map, Nat.sub_self]
  refine (iff_of_eq (congrArg (· = some none) hget)).trans ?_
  rw [List.getElem?_replicate]
  constructor
  · intro hnull
    split at hnull
    · omega
    · cases hnull
  · intro hlt
    rw [if_pos (by omega)]

theorem nodeOf_args_length {args : List Bytes} (h : args.length ≤ argsLength) (i o : Option Bytes) :
    (nodeOf args i o).args.length = argsLength := by
  unfold nodeOf
  dsimp only
  rw [List.length_append, List.length_map, List.length_replicate]
  omega

theorem ArgsTerminated.short {line : Bytes} (h : ArgsTerminated line) :
    ∀ st ∈ lineStages line, (stageArgs st).length < argsLength := by
  obtain ⟨cmd, hcmd, hnodes⟩ := h
  obtain ⟨hfits, hmap⟩ := splitLine_some hcmd
  intro st hst
  rw [hmap, List.forall_mem_map] at hnodes
  exact (nodeOf_terminated_iff (hfits st hst) _ _).mp (hnodes st hst).2

/-- The arguments of every stage end in their array iff no stage of the line has more than nine. -/
theorem argsTerminated_iff (line : Bytes) :
    ArgsTerminated line ↔ ∀ st ∈ lineStages line, (stageArgs st).length < argsLength := by
  refine ⟨ArgsTerminated.short, fun h => ?_⟩
  have hfits : Fits (lineStages line) := fun st hst => Nat.le_of_lt (h st hst)
  unfold ArgsTerminated
  rw [splitLine_stages, if_pos hfits]
  refine ⟨_, rfl, fun n hn => ?_⟩
  obtain ⟨st, hst, rfl⟩ := List.mem_map.mp hn
  exact ⟨nodeOf_args_length (hfits st hst) _ _,
    (nodeOf_terminated_iff (hfits st hst) _ _).mpr (h st hst)⟩

/- A line of `n` arguments, as it is typed. -/
def typedArgs (n : ℕ) : Bytes := (List.replicate n [97]).flatMap fun t => t ++ [SPACE]

/-- With ten arguments the array is full, with eleven the last one is stored behind it. -/
theorem typedArgs_not_terminated :
    readLine [] (typedArgs 10 ++ [NEWLINE]) = (some (typedArgs 10 ++ [0, 0]), []) ∧
      ¬ ArgsTerminated (typedArgs 10 ++ [0, 0]) ∧
      splitLine (typedArgs 11 ++ [0, 0]) = none := by
  refine ⟨by decide, fun h => absurd h.short (by decide), ?_⟩
  rw [splitLine_stages, if_neg (by decide)]

/-! ### The command name -/

/- `shell` does not compare a NULL with the names of its built-in commands, and no child execs one
(`shell.c:195-221`). -/
def NamesGiven (os : Os) (t : Fds) (cmd : Cmd) : Prop :=
  match cmd.nodes with
  | [temp] => ∃ status, searchBuiltInCommand temp = some status ∧
      (status = -1 → ∀ e, spawnProc os t temp = some e → e.args.headD none ≠ none)
  | _ => ∀ e, some e ∈ (forkCmdNode os t cmd).children → e.args.headD none ≠ none

/- The line is parsed within the arrays, and whatever the kernel answers no command name is NULL. -/
def CommandsNamed (line : Bytes) : Prop :=
  ∃ cmd, splitLine line = some cmd ∧ ∀ os t, NamesGiven os t cmd

theorem stageNode_name (st : List Piece) :
    (stageNode st).args.headD none = (stageArgs st).head? := by
  unfold stageNode nodeOf
  cases stageArgs st <;> rfl

theorem searchBuiltInCommand_isSome (n : CmdNode) :
    (∃ status, searchBuiltInCommand n = some status) ↔ n.args.headD none ≠ none := by
  unfold searchBuiltInCommand
  cases n.args.headD none with
  | none => exact iff_of_false (fun ⟨_, h⟩ => by cases h) (fun h => h rfl)
  | some name =>
    refine iff_of_true ?_ (Option.some_ne_none name)
    dsimp only
    split
    · exact ⟨_, rfl⟩
    · exact ⟨_, rfl⟩

theorem spawnProc_args {os : Os} {t : Fds} {n : CmdNode} {e : Exec}
    (h : spawnProc os t n = some e) : e.args = n.args := by
  unfold spawnProc at h
  split at h
  · obtain ⟨fds, -, rfl⟩ := Option.map_eq_some_iff.mp h
    rfl
  · cases h

theorem forkLoop_args {os : Os} {pipes : List (ℕ × ℕ)} {count : ℕ} {t : Fds}
    {nodes : List CmdNode} {e : Exec} : ∀ {idx : ℕ},
    some e ∈ (forkLoop os pipes count idx nodes t).children → ∃ n ∈ nodes, e.args = n.args := by
  induction nodes with
  | nil =>
    intro idx h
    exact absurd h List.not_mem_nil
  | cons cur nodes ih =>
    intro idx h
    unfold forkLoop at h
    split at h
    · rcases List.mem_cons.mp h with he | hrest
      · obtain rfl := Option.some.inj he
        exact ⟨cur, List.mem_cons_self .., rfl⟩
      · obtain ⟨n, hn, hargs⟩ := ih hrest
        exact ⟨n, List.mem_cons_of_mem _ hn, hargs⟩
    · exact absurd h List.not_mem_nil

theorem forkCmdNode_args {os : Os} {t : Fds} {cmd : Cmd} {e : Exec}
    (h : some e ∈ (forkCmdNode os t cmd).children) : ∃ n ∈ cmd.nodes, e.args = n.args := by
  unfold forkCmdNode at h
  dsimp only at h
  split at h
  · exact absurd h List.not_mem_nil
  · exact forkLoop_args h

/-- When the kernel refuses nothing, every node is exec'ed. -/
theorem forkCmdNode_execs (t : Fds) {cmd : Cmd} {n : CmdNode} (hn : n ∈ cmd.nodes) :
    ∃ e, some e ∈ (forkCmdNode osAll t cmd).children ∧ e.args = n.args := by
  have hpipe : ∀ i, i + 1 < cmd.nodes.length → osAll.pipe i = true := fun _ _ => rfl
  have hfork : ∀ k, k < cmd.nodes.length → osAll.fork k = true := fun _ _ => rfl
  obtain ⟨pipes, t', -, hforked⟩ := forkCmdNode_forked t hpipe hfork
  obtain ⟨k, hk, rfl⟩ := List.mem_iff_getElem.mp hn
  refine ⟨pipelineChild pipes cmd.nodes.length k cmd.nodes[k] t', ?_, rfl⟩
  rw [hforked]
  exact List.mem_mapIdx.mpr ⟨k, hk, rfl⟩

theorem children_named_iff (cmd : Cmd) :
    (∀ os t e, some e ∈ (forkCmdNode os t cmd).children → e.args.headD none ≠ none) ↔
      ∀ n ∈ cmd.nodes, n.args.headD none ≠ none := by
  constructor
  · intro h n hn
    obtain ⟨e, he, hargs⟩ := forkCmdNode_execs shellFds.toFdTable hn
    rw [← hargs]
    exact h _ _ e he
  · intro h os t e he
    obtain ⟨n, hn, hargs⟩ := forkCmdNode_args he
    rw [hargs]
    exact h n hn

theorem namesGiven_iff (cmd : Cmd) :
    (∀ os t, NamesGiven os t cmd) ↔ ∀ n ∈ cmd.nodes, n.args.headD none ≠ none := by
  obtain ⟨nodes, m⟩ := cmd
  cases nodes with
  | nil => exact children_named_iff ⟨[], m⟩
  | cons temp ns =>
    cases ns with
    | nil =>
      rw [List.forall_mem_singleton]
      constructor
      · intro h
        obtain ⟨status, hstatus, -⟩ := h osAll shellFds.toFdTable
        exact (searchBuiltInCommand_isSome temp).mp ⟨status, hstatus⟩
      · intro h os t
        obtain ⟨status, hstatus⟩ := (searchBuiltInCommand_isSome temp).mpr h
        refine ⟨status, hstatus, fun _ e he => ?_⟩
        rw [spawnProc_args he]
        exact h
    | cons n ns => exact children_named_iff ⟨temp :: n :: ns, m⟩

theorem stageNode_named_iff (st : List Piece) :
    (stageNode st).args.headD none ≠ none ↔ 1 ≤ (stageArgs st).length := by
  rw [stageNode_name, ne_eq, List.head?_eq_none_iff]
  exact List.length_pos_iff.symm

theorem CommandsNamed.args {line : Bytes} (h : CommandsNamed line) :
    ∀ st ∈ lineStages line, 1 ≤ (stageArgs st).length ∧ (stageArgs st).length ≤ argsLength := by
  obtain ⟨cmd, hcmd, hgiven⟩ := h
  obtain ⟨hfits, hmap⟩ := splitLine_some hcmd
  intro st hst
  have hnames := (namesGiven_iff cmd).mp hgiven
  rw [hmap, List.forall_mem_map] at hnames
  exact ⟨(stageNode_named_iff st).mp (hnames st hst), hfits st hst⟩

/-- Every command that `shell` compares or execs has a name iff each stage of the line has at least
one argument, and no more than its array takes. -/
theorem commandsNamed_iff (line : Bytes) :
    CommandsNamed line ↔
      ∀ st ∈ lineStages line, 1 ≤ (stageArgs st).length ∧ (stageArgs st).length ≤ argsLength := by
  refine ⟨CommandsNamed.args, fun h => ?_⟩
  have hfits : Fits (lineStages line) := fun st hst => (h st hst).2
  unfold CommandsNamed
  rw [splitLine_stages, if_pos hfits]
  refine ⟨_, rfl, (namesGiven_iff _).mpr fun n hn => ?_⟩
  obtain ⟨st, hst, rfl⟩ := List.mem_map.mp hn
  exact (stageNode_named_iff st).mpr (h st hst).1

/- `< a`, `a |` and `a || a` as they are typed. -/
def typedInput : Bytes := [LESS, SPACE, 97]
def typedTrailing : Bytes := [97, SPACE, BAR]
def typedDoubled : Bytes := [97, SPACE, BAR, SPACE, BAR, SPACE, 97]

/-- A line made of a redirection, and a bar with nothing on one side. -/
theorem typed_unnamed :
    readLine [] (typedInput ++ [NEWLINE]) = (some (typedInput ++ [0, 0]), []) ∧
      ¬ CommandsNamed (typedInput ++ [0, 0]) ∧ ¬ CommandsNamed (typedTrailing ++ [0, 0]) ∧
      ¬ CommandsNamed (typedDoubled ++ [0, 0]) :=
  ⟨by decide, fun h => absurd h.args (by decide), fun h => absurd h.args (by decide),
    fun h => absurd h.args (by decide)⟩

end OSLab.Shell
