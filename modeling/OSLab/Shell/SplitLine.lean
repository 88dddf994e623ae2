import OSLab.Base.Format
import OSLab.Shell.Pieces

/-!
# Reading a rendered command line back

A pipeline is rendered as tokens: the arguments of each stage in order, with
its redirections anywhere among them, and a bar between two stages.
`split_line` gives the pipeline back, however many spaces separate the tokens.
-/

namespace OSLab.Shell
open OSLab.Base

/-- A token: a C string without spaces. -/
structure Word where
  text : Bytes
  ne : text ≠ []
  noSpace : SPACE ∉ text
  noNul : ∀ b ∈ text, b ≠ 0

/-- A token that is no redirection and no bar. -/
structure Arg extends Word where
  plain : text.head? ≠ some BAR ∧ text.head? ≠ some LESS ∧ text.head? ≠ some GREATER

structure Stage where
  args : List Arg
  someArg : 1 ≤ args.length
  short : args.length ≤ 9
  inFile : Option Word
  outFile : Option Word

/-- The `cmd_node` of a stage. -/
def Stage.node (st : Stage) : CmdNode :=
  nodeOf (st.args.map fun a => a.text) (st.inFile.map Word.text) (st.outFile.map Word.text)

/-! ### Rendering -/

/-- What stands in a stage: an argument, `< file`, or `> file`. -/
inductive Item where
  | arg (a : Arg)
  | input (f : Word)
  | output (f : Word)

def Item.tokens : Item → List Bytes
  | arg a => [a.text]
  | input f => [[LESS], f.text]
  | output f => [[GREATER], f.text]

def Item.arg? : Item → Option Arg
  | arg a => some a
  | _ => none

def Item.input? : Item → Option Word
  | input f => some f
  | _ => none

def Item.output? : Item → Option Word
  | output f => some f
  | _ => none

/-- A stage with the places of its redirections among the arguments. -/
structure Laid where
  stage : Stage
  items : List Item
  args : items.filterMap Item.arg? = stage.args
  input : items.filterMap Item.input? = stage.inFile.toList
  output : items.filterMap Item.output? = stage.outFile.toList

def Laid.tokens (l : Laid) : List Bytes := l.items.flatMap Item.tokens

def lineTokens : List Laid → List Bytes
  | [] => []
  | [l] => l.tokens
  | l :: ls => l.tokens ++ [BAR] :: lineTokens ls

theorem lineTokens_cons (l l' : Laid) (ls : List Laid) :
    lineTokens (l :: l' :: ls) = l.tokens ++ [BAR] :: lineTokens (l' :: ls) := rfl

/-! ### The pieces of a rendered line -/

def Item.piece : Item → Piece
  | arg a => .arg a.text
  | input f => .redirect .input [LESS] (some f.text)
  | output f => .redirect .output [GREATER] (some f.text)

def Laid.pieces (l : Laid) : List Piece := l.items.map Item.piece

theorem commandPieces_items (items : List Item) (ts : List Bytes) :
    commandPieces (items.flatMap Item.tokens ++ ts) = items.map Item.piece ++ commandPieces ts := by
  induction items with
  | nil => rfl
  | cons item items ih =>
    rw [List.flatMap_cons, List.append_assoc, List.map_cons, List.cons_append, ← ih]
    cases item with
    | arg a =>
      refine (commandPieces_cons a.text _).trans ?_
      rw [if_neg a.plain.1, if_neg a.plain.2.1, if_neg a.plain.2.2]
      rfl
    | input f => rfl
    | output f => rfl

/-- The bars of a rendered line cut it into its stages. -/
theorem stages_line {ls : List Laid} (hne : ls ≠ []) :
    stages (commandPieces (lineTokens ls)) = ls.map Laid.pieces := by
  have hbar (l : Laid) : ∀ q ∈ l.pieces, q.isBar = false := by
    intro q hq
    obtain ⟨item, -, rfl⟩ := List.mem_map.mp hq
    cases item <;> rfl
  induction ls with
  | nil => exact absurd rfl hne
  | cons l ls ih =>
    cases ls with
    | nil =>
      have hpieces := commandPieces_items l.items []
      rw [List.append_nil] at hpieces
      refine (congrArg stages hpieces).trans ?_
      rw [commandPieces, List.append_nil]
      exact List.splitOnP_eq_singleton (hbar l)
    | cons l' ls =>
      have hpieces := commandPieces_items l.items ([BAR] :: lineTokens (l' :: ls))
      have hcons : commandPieces ([BAR] :: lineTokens (l' :: ls)) =
          .bar [BAR] :: commandPieces (lineTokens (l' :: ls)) :=
        (commandPieces_cons [BAR] _).trans (if_pos rfl)
      rw [hcons] at hpieces
      rw [lineTokens_cons, List.map_cons, ← ih (List.cons_ne_nil _ _)]
      refine (congrArg stages hpieces).trans ?_
      exact List.splitOnP_append_cons_of_forall_mem (hbar l) _ rfl _

theorem Laid.stageArgs (l : Laid) : stageArgs l.pieces = l.stage.args.map fun a => a.text := by
  have hpiece : (fun item : Item => item.piece.arg?) = fun item => item.arg?.map fun a => a.text := by
    funext item
    cases item <;> rfl
  unfold Shell.stageArgs Laid.pieces
  rw [List.filterMap_map, ← l.args, List.map_filterMap]
  exact congrArg (List.filterMap · l.items) hpiece

theorem Laid.stageFile (l : Laid) {d : Direction} {file? : Item → Option Word} {f : Option Word}
    (hpiece : ∀ item : Item, item.piece.file? d = (file? item).map fun f => some f.text)
    (hfile : l.items.filterMap file? = f.toList) :
    stageFile d l.pieces = f.map Word.text := by
  have hfiles : stageFiles d l.pieces = f.toList.map fun f => some f.text := by
    unfold stageFiles Laid.pieces
    rw [List.filterMap_map, ← hfile, List.map_filterMap]
    exact congrArg (List.filterMap · l.items) (funext hpiece)
  unfold Shell.stageFile
  rw [hfiles]
  cases f <;> rfl

theorem Laid.stageNode (l : Laid) : stageNode l.pieces = l.stage.node := by
  unfold Shell.stageNode Stage.node
  rw [l.stageArgs, l.stageFile (fun item => by cases item <;> rfl) l.input,
    l.stageFile (fun item => by cases item <;> rfl) l.output]

theorem noNul_single {c : Byte} (h : c ≠ 0) : ∀ b ∈ [c], b ≠ 0 := by
  intro b hb
  rw [List.mem_singleton.mp hb]
  exact h

theorem Item.tokens_noNul (item : Item) : ∀ t ∈ item.tokens, ∀ b ∈ t, b ≠ 0 := by
  intro t ht
  cases item with
  | arg a =>
    obtain rfl := List.mem_singleton.mp ht
    exact a.noNul
  | input f =>
    simp only [Item.tokens, List.mem_cons, List.not_mem_nil, or_false] at ht
    rcases ht with rfl | rfl
    · exact noNul_single (by decide)
    · exact f.noNul
  | output f =>
    simp only [Item.tokens, List.mem_cons, List.not_mem_nil, or_false] at ht
    rcases ht with rfl | rfl
    · exact noNul_single (by decide)
    · exact f.noNul

theorem lineTokens_noNul (ls : List Laid) : ∀ t ∈ lineTokens ls, ∀ b ∈ t, b ≠ 0 := by
  have hstage (l : Laid) : ∀ t ∈ l.tokens, ∀ b ∈ t, b ≠ 0 := by
    intro t ht
    obtain ⟨item, -, hitem⟩ := List.mem_flatMap.mp ht
    exact item.tokens_noNul t hitem
  induction ls with
  | nil => exact fun t ht => absurd ht List.not_mem_nil
  | cons l ls ih =>
    cases ls with
    | nil => exact hstage l
    | cons l' ls =>
      intro t ht
      rw [lineTokens_cons] at ht
      rcases List.mem_append.mp ht with ht | ht
      · exact hstage l t ht
      · rcases List.mem_cons.mp ht with rfl | ht
        · exact noNul_single (by decide)
        · exact ih t ht

/-- Whatever the places of the redirections and the numbers of spaces, `split_line` gives back the
stages that were rendered. -/
theorem splitLine_rendered {ls : List Laid} (hne : ls ≠ []) {line : Bytes}
    (hline : Spaced SPACE (lineTokens ls) line) :
    (splitLine line).map Cmd.nodes = some (ls.map fun l => l.stage.node) := by
  have hnul : ∀ b ∈ line, b ≠ 0 := hline.forall_mem (by decide) (lineTokens_noNul ls)
  have hfits : Fits (stages (commandPieces (lineTokens ls))) := by
    rw [stages_line hne]
    intro st hst
    obtain ⟨l, -, rfl⟩ := List.mem_map.mp hst
    rw [l.stageArgs, List.length_map]
    exact Nat.le_succ_of_le l.stage.short
  unfold splitLine
  rw [cstr_of_noNul hnul, splitLoop_stages hline, if_pos hfits, stages_line hne, Option.map_some,
    List.map_map]
  exact congrArg some (List.map_congr_left fun l _ => l.stageNode)

/-- An argument that is not empty, without spaces and NULs, and no redirection or bar. -/
def argOf (text : Bytes) (h : text ≠ [] ∧ SPACE ∉ text ∧ 0 ∉ text ∧ text.head? ≠ some BAR ∧
    text.head? ≠ some LESS ∧ text.head? ≠ some GREATER) : Arg :=
  { text, ne := h.1, noSpace := h.2.1, noNul := fun _ hb hc => h.2.2.1 (hc ▸ hb), plain := h.2.2.2 }

/- `cut < a -c 1`, with the redirection in front of the options. -/
def laidCut : Laid :=
  let cut := argOf (chars "cut") (by decide)
  let option := argOf (chars "-c") (by decide)
  let column := argOf (chars "1") (by decide)
  let a := (argOf (chars "a") (by decide)).toWord
  { stage := ⟨[cut, option, column], by decide, by decide, some a, none⟩
    items := [.arg cut, .input a, .arg option, .arg column], args := rfl, input := rfl, output := rfl }

/- `wc -l > b`. -/
def laidWc : Laid :=
  let wc := argOf (chars "wc") (by decide)
  let option := argOf (chars "-l") (by decide)
  let b := (argOf (chars "b") (by decide)).toWord
  { stage := ⟨[wc, option], by decide, by decide, none, some b⟩
    items := [.arg wc, .arg option, .output b], args := rfl, input := rfl, output := rfl }

theorem lineCut_spaced :
    Spaced SPACE (lineTokens [laidCut, laidWc]) (chars "  cut < a -c   1 | wc  -l > b ") := by
  refine .cons 2 (by decide) (by decide) (.inr ⟨_, rfl⟩) ?_
  refine .cons 1 (by decide) (by decide) (.inr ⟨_, rfl⟩) ?_
  refine .cons 1 (by decide) (by decide) (.inr ⟨_, rfl⟩) ?_
  refine .cons 1 (by decide) (by decide) (.inr ⟨_, rfl⟩) ?_
  refine .cons 3 (by decide) (by decide) (.inr ⟨_, rfl⟩) ?_
  refine .cons 1 (by decide) (by decide) (.inr ⟨_, rfl⟩) ?_
  refine .cons 1 (by decide) (by decide) (.inr ⟨_, rfl⟩) ?_
  refine .cons 2 (by decide) (by decide) (.inr ⟨_, rfl⟩) ?_
  refine .cons 1 (by decide) (by decide) (.inr ⟨_, rfl⟩) ?_
  exact .cons 1 (by decide) (by decide) (.inr ⟨_, rfl⟩) (.nil 1)

theorem splitLine_rendered_cut :
    (splitLine (chars "  cut < a -c   1 | wc  -l > b ")).map Cmd.nodes =
      some [laidCut.stage.node, laidWc.stage.node] :=
  splitLine_rendered (List.cons_ne_nil laidCut [laidWc]) lineCut_spaced

end OSLab.Shell
