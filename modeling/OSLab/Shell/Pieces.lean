import OSLab.Shell.Command

/-!
# What split_line makes of any line

The loop takes the tokens of a line in pieces: a bar, a redirection with the
token behind it, or an argument. The bars cut the pieces into stages, and each
stage becomes one node.
-/

namespace OSLab.Shell
open OSLab.Base

inductive Direction where
  | input
  | output
  deriving DecidableEq

/-- What one pass of the loop takes off the line. The first byte of a token decides; a redirection
takes the next token for its file, if there is one. -/
inductive Piece where
  | bar (op : Bytes)
  | redirect (d : Direction) (op : Bytes) (file : Option Bytes)
  | arg (token : Bytes)
  deriving DecidableEq

def commandPieces : List Bytes → List Piece
  | [] => []
  | t :: ts =>
    if t.head? = some BAR then .bar t :: commandPieces ts
    else if t.head? = some LESS then
      match ts with
      | [] => [.redirect .input t none]
      | f :: ts => .redirect .input t (some f) :: commandPieces ts
    else if t.head? = some GREATER then
      match ts with
      | [] => [.redirect .output t none]
      | f :: ts => .redirect .output t (some f) :: commandPieces ts
    else .arg t :: commandPieces ts

theorem commandPieces_cons (t : Bytes) (ts : List Bytes) : commandPieces (t :: ts) =
    if t.head? = some BAR then .bar t :: commandPieces ts
    else if t.head? = some LESS then .redirect .input t ts.head? :: commandPieces ts.tail
    else if t.head? = some GREATER then .redirect .output t ts.head? :: commandPieces ts.tail
    else .arg t :: commandPieces ts := by
  cases ts <;> rfl

/-- A piece leaves the tokens behind its first one, or one less. -/
theorem tokens_induction {P : List Bytes → Prop} (nil : P [])
    (cons : ∀ t ts, P ts → P ts.tail → P (t :: ts)) (ts : List Bytes) : P ts := by
  have hboth : P ts ∧ P ts.tail := by
    induction ts with
    | nil => exact ⟨nil, nil⟩
    | cons t ts ih => exact ⟨cons t ts ih.1 ih.2, ih.1⟩
  exact hboth.1

def Piece.isBar : Piece → Bool
  | bar _ => true
  | _ => false

def Piece.arg? : Piece → Option Bytes
  | arg t => some t
  | _ => none

def Piece.file? (d : Direction) : Piece → Option (Option Bytes)
  | redirect d' _ f => if d' = d then some f else none
  | _ => none

/-- The arguments of a stage, and the files of its redirections in order. -/
def stageArgs (st : List Piece) : List Bytes := st.filterMap Piece.arg?

def stageFiles (d : Direction) (st : List Piece) : List (Option Bytes) :=
  st.filterMap (Piece.file? d)

def stageFile (d : Direction) (st : List Piece) : Option Bytes :=
  (stageFiles d st).getLast?.getD none

/- A node that holds these arguments and files, the other slots NULL. -/
def nodeOf (args : List Bytes) (inFile outFile : Option Bytes) : CmdNode :=
  { args := args.map some ++ List.replicate (argsLength - args.length) none, length := args.length,
    inFile, outFile, fdIn := 0, fdOut := 1 }

/- The node of a stage: of several files for one direction the last one stays. -/
def stageNode (st : List Piece) : CmdNode :=
  nodeOf (stageArgs st) (stageFile .input st) (stageFile .output st)

def stages (ps : List Piece) : List (List Piece) := ps.splitOnP Piece.isBar

def linePieces (line : Bytes) : List Piece := commandPieces (tokens SPACE (cstr line))

def lineStages (line : Bytes) : List (List Piece) := stages (linePieces line)

/-! ### The loop over the pieces -/

def CmdNode.setFile (n : CmdNode) (f : Option Bytes) : Direction → CmdNode
  | .input => { n with inFile := f }
  | .output => { n with outFile := f }

/- One pass of the loop. -/
def Parse.piece (p : Parse) : Piece → Option Parse
  | .bar _ =>
    some { before := p.before ++ [p.temp], temp := .empty, pipeNum := p.pipeNum + 1 }
  | .redirect d _ f => some { p with temp := p.temp.setFile f d, pipeNum := p.pipeNum + 1 }
  | .arg t => (p.temp.addArg t).map fun temp => { p with temp, pipeNum := p.pipeNum + 1 }

def Parse.run (p : Parse) (ps : List Piece) : Option Parse := ps.foldlM Parse.piece p

theorem Parse.run_cons (p : Parse) (q : Piece) (ps : List Piece) :
    p.run (q :: ps) = (p.piece q).bind fun p' => p'.run ps := List.foldlM_cons ..

theorem splitLoop_end {p : Parse} {s : Bytes} (h : strtok SPACE s = none) :
    splitLoop p s = some p.cmd := by
  rw [splitLoop]
  split
  · rfl
  · rename_i h'
    rw [h] at h'
    cases h'

theorem splitLoop_next {p : Parse} {s t rest : Bytes} (h : strtok SPACE s = some (t, rest)) :
    splitLoop p s = (p.token t rest).bind fun r =>
      splitLoop { r.1 with pipeNum := r.1.pipeNum + 1 } r.2 := by
  rw [splitLoop]
  split
  · rename_i h'
    rw [h] at h'
    cases h'
  · rename_i h'
    rw [h] at h'
    obtain ⟨rfl, rfl⟩ := Prod.mk.inj (Option.some.inj h')
    split
    · rename_i htoken
      rw [htoken]
      rfl
    · rename_i htoken
      rw [htoken]
      rfl

theorem nextToken_cons {t s : Bytes} {ts : List Bytes} (h : Spaced SPACE (t :: ts) s) :
    (nextToken s).1 = some t ∧ Spaced SPACE ts (nextToken s).2 := by
  obtain ⟨rest, hnext, hrest⟩ := h.strtok_cons
  unfold nextToken
  rw [hnext]
  exact ⟨rfl, hrest⟩

theorem nextToken_spaced {ts : List Bytes} {s : Bytes} (h : Spaced SPACE ts s) :
    (nextToken s).1 = ts.head? ∧ Spaced SPACE ts.tail (nextToken s).2 := by
  cases ts with
  | nil =>
    unfold nextToken
    rw [h.strtok_nil]
    exact ⟨rfl, .nil 0⟩
  | cons t ts => exact nextToken_cons h

theorem splitLoop_pieces (ts : List Bytes) (p : Parse) {s : Bytes} (hs : Spaced SPACE ts s) :
    splitLoop p s = (p.run (commandPieces ts)).map Parse.cmd := by
  induction ts using tokens_induction generalizing p s with
  | nil => exact splitLoop_end hs.strtok_nil
  | cons t ts ih ihtail =>
    obtain ⟨rest, hnext, hrest⟩ := hs.strtok_cons
    obtain ⟨hfile, hrest'⟩ := nextToken_spaced hrest
    rw [splitLoop_next hnext, commandPieces_cons]
    unfold Parse.token
    split
    · exact ih _ hrest
    · split
      · dsimp only
        rw [hfile]
        exact ihtail _ hrest'
      · split
        · dsimp only
          rw [hfile]
          exact ihtail _ hrest'
        · rw [Parse.run_cons, Parse.piece]
          cases p.temp.addArg t with
          | none => rfl
          | some temp => exact ih _ hrest

/-! ### The stages -/

/-- While there is a free slot the argument goes behind the others. -/
theorem addArg_nodeOf {args : List Bytes} (h : args.length < argsLength) (i o : Option Bytes)
    (t : Bytes) : (nodeOf args i o).addArg t = some (nodeOf (args ++ [t]) i o) := by
  obtain ⟨k, hk⟩ : ∃ k, argsLength - args.length = k + 1 := ⟨argsLength - args.length - 1, by omega⟩
  have hk' : argsLength - (args.length + 1) = k := by omega
  have hlen : args.length = (args.map some).length := (List.length_map _).symm
  have hset : (args.map some ++ List.replicate (k + 1) none).set args.length (some t) =
      args.map some ++ some t :: List.replicate k none := by
    rw [hlen, List.set_append_right _ _ (Nat.le_refl _), Nat.sub_self, List.replicate_succ,
      List.set_cons_zero]
  simp only [CmdNode.addArg, nodeOf, h, ite_true, hk, hset, List.length_append, List.length_singleton,
    hk', List.map_append, List.map_cons, List.map_nil, List.append_assoc, List.cons_append,
    List.nil_append]

theorem stages_ne_nil (ps : List Piece) : stages ps ≠ [] := List.splitOnP_ne_nil _ _

theorem stages_nil : stages [] = [[]] := rfl

theorem stages_bar (op : Bytes) (ps : List Piece) : stages (.bar op :: ps) = [] :: stages ps := by
  unfold stages
  rw [List.splitOnP_cons_eq_if_modifyHead]
  rfl

theorem stages_cons {q : Piece} {ps st : List Piece} {sts : List (List Piece)}
    (hq : q.isBar = false) (h : stages ps = st :: sts) : stages (q :: ps) = (q :: st) :: sts := by
  unfold stages at h ⊢
  rw [List.splitOnP_cons_eq_if_modifyHead, hq, h]
  rfl

/- The arguments of every stage fit into the array. -/
def Fits (sts : List (List Piece)) : Prop := ∀ st ∈ sts, (stageArgs st).length ≤ argsLength

instance (sts : List (List Piece)) : Decidable (Fits sts) := inferInstanceAs (Decidable (∀ _ ∈ _, _))

/-- From a node that holds `args` on, the loop adds the first stage to that node and makes a node of
every other stage, as long as they fit. -/
theorem run_stages (ps : List Piece) (before : List CmdNode) (args : List Bytes)
    (i o : Option Bytes) (n : ℕ) (hargs : args.length ≤ argsLength) {st : List Piece}
    {sts : List (List Piece)} (hst : stages ps = st :: sts) :
    (Parse.run ⟨before, nodeOf args i o, n⟩ ps).map Parse.cmd =
      if args.length + (stageArgs st).length ≤ argsLength ∧ Fits sts then
        some ⟨before ++ nodeOf (args ++ stageArgs st) ((stageFiles .input st).getLast?.getD i)
          ((stageFiles .output st).getLast?.getD o) :: sts.map stageNode, n + ps.length⟩
      else none := by
  induction ps generalizing before args i o n st sts with
  | nil =>
    obtain ⟨rfl, rfl⟩ := List.cons.inj (stages_nil.symm.trans hst)
    have hfits : args.length + (stageArgs []).length ≤ argsLength ∧ Fits [] :=
      ⟨hargs, fun st hst => absurd hst List.not_mem_nil⟩
    rw [if_pos hfits]
    simp only [Parse.run, List.foldlM_nil, stageArgs, List.filterMap_nil, List.append_nil]
    rfl
  | cons q ps ih =>
    obtain ⟨st', sts', hst'⟩ := List.exists_cons_of_ne_nil (stages_ne_nil ps)
    rw [Parse.run_cons]
    cases q with
    | bar op =>
      rw [stages_bar, hst'] at hst
      obtain ⟨rfl, rfl⟩ := List.cons.inj hst
      refine (ih (before ++ [nodeOf args i o]) [] none none (n + 1) (Nat.zero_le _) hst').trans ?_
      have hfits : ([] : List Bytes).length + (stageArgs st').length ≤ argsLength ∧ Fits sts' ↔
          args.length + (stageArgs []).length ≤ argsLength ∧ Fits (st' :: sts') := by
        unfold Fits
        rw [List.forall_mem_cons, List.length_nil, Nat.zero_add]
        exact (and_iff_right hargs).symm
      simp only [hfits, List.length_cons, stageNode, stageFile, Nat.add_assoc, Nat.add_comm 1,
        List.append_assoc, List.singleton_append, List.map_cons, List.nil_append]
      simp only [stageArgs, List.filterMap_nil, List.append_nil]
      rfl
    | redirect d op f =>
      rw [stages_cons rfl hst'] at hst
      obtain ⟨rfl, rfl⟩ := List.cons.inj hst
      cases d with
      | input =>
        refine (ih before args f o (n + 1) hargs hst').trans ?_
        simp only [stageArgs, stageFiles, List.filterMap_cons, Piece.arg?, Piece.file?, ite_true,
          reduceCtorEq, ite_false, List.getLast?_cons, Option.getD_some, List.length_cons,
          Nat.add_assoc, Nat.add_comm 1]
      | output =>
        refine (ih before args i f (n + 1) hargs hst').trans ?_
        simp only [stageArgs, stageFiles, List.filterMap_cons, Piece.arg?, Piece.file?, ite_true,
          reduceCtorEq, ite_false, List.getLast?_cons, Option.getD_some, List.length_cons,
          Nat.add_assoc, Nat.add_comm 1]
    | arg t =>
      rw [stages_cons rfl hst'] at hst
      obtain ⟨rfl, rfl⟩ := List.cons.inj hst
      have hcons : stageArgs (.arg t :: st') = t :: stageArgs st' := rfl
      rw [Parse.piece, hcons, List.length_cons]
      by_cases hroom : args.length < argsLength
      · rw [addArg_nodeOf hroom]
        refine (ih before (args ++ [t]) i o (n + 1) ?_ hst').trans ?_
        · rw [List.length_append]
          exact hroom
        · simp only [List.length_append, List.length_cons, List.length_nil, Nat.zero_add,
            Nat.add_assoc, Nat.add_comm 1, List.append_assoc, List.singleton_append]
          rfl
      · have hfull : (nodeOf args i o).addArg t = none := if_neg hroom
        have hnot : ¬ (args.length + ((stageArgs st').length + 1) ≤ argsLength ∧ Fits sts') := by
          omega
        rw [hfull, if_neg hnot]
        rfl

/-- Of a text with the tokens `ts` the loop makes a node for every stage, unless the arguments of one
do not fit. -/
theorem splitLoop_stages {ts : List Bytes} {s : Bytes} (hs : Spaced SPACE ts s) :
    splitLoop ⟨[], .empty, 0⟩ s =
      if Fits (stages (commandPieces ts)) then
        some ⟨(stages (commandPieces ts)).map stageNode, (commandPieces ts).length⟩
      else none := by
  obtain ⟨st, sts, hst⟩ := List.exists_cons_of_ne_nil (stages_ne_nil (commandPieces ts))
  have hrun := run_stages (commandPieces ts) [] [] none none 0 (Nat.zero_le _) hst
  have hfits : ([] : List Bytes).length + (stageArgs st).length ≤ argsLength ∧ Fits sts ↔
      Fits (stages (commandPieces ts)) := by
    unfold Fits
    rw [hst, List.forall_mem_cons, List.length_nil, Nat.zero_add]
  simp only [hfits, List.nil_append, Nat.zero_add] at hrun
  rw [splitLoop_pieces ts _ hs]
  refine hrun.trans ?_
  rw [hst]
  rfl

/-- `split_line` makes a node of every stage of the line, unless the arguments of one do not fit. -/
theorem splitLine_stages (line : Bytes) : splitLine line =
    if Fits (lineStages line) then
      some ⟨(lineStages line).map stageNode, (linePieces line).length⟩
    else none := splitLoop_stages (tokens_spaced SPACE (cstr line))

theorem splitLine_some {line : Bytes} {cmd : Cmd} (h : splitLine line = some cmd) :
    Fits (lineStages line) ∧ cmd.nodes = (lineStages line).map stageNode := by
  rw [splitLine_stages] at h
  split at h
  case isTrue hfits =>
    obtain rfl := Option.some.inj h
    exact ⟨hfits, rfl⟩
  case isFalse => cases h

end OSLab.Shell
