import OSLab.Base.Replay
import OSLab.Shell.Loop
import OSLab.Shell.Pieces

/-!
# Where the text of a line goes

Each piece of a line stores a token into a place of the parsed command: an
argument slot or one of the two file names of a node. A file name that is given
twice is stored over, and so is one in front of a redirection at the end of the
line; what stands behind the first byte of an operator is stored nowhere.
-/

namespace OSLab.Shell
open OSLab.Base

/- A token that is one of the operators. -/
def IsOperator (t : Bytes) : Prop := t = [BAR] ∨ t = [LESS] ∨ t = [GREATER]

instance (t : Bytes) : Decidable (IsOperator t) := inferInstanceAs (Decidable (_ ∨ _))

inductive Slot where
  | arg (i : ℕ)
  | file (d : Direction)
  deriving DecidableEq

/-- A place for a token: a slot of a node. -/
structure Place where
  node : ℕ
  slot : Slot
  deriving DecidableEq

def CmdNode.slot (n : CmdNode) : Slot → Option Bytes
  | .arg i => n.args[i]?.join
  | .file .input => n.inFile
  | .file .output => n.outFile

def Cmd.text (cmd : Cmd) (p : Place) : Option Bytes := cmd.nodes[p.node]?.bind fun n => n.slot p.slot

/- Of two arguments of a node the first one comes first. -/
def Slot.Before : Slot → Slot → Prop
  | .arg i, .arg j => i < j
  | s, s' => s ≠ s'

def Place.Before (p q : Place) : Prop :=
  p.node < q.node ∨ p.node = q.node ∧ p.slot.Before q.slot

/-- The tokens of the line that are no operators are in different places of the command, in the order
of the line, and no other such token is in it. -/
def KeepsText (line : Bytes) (cmd : Cmd) : Prop :=
  ∃ placed : List (Place × Bytes),
    placed.map Prod.snd = (tokens SPACE (cstr line)).filter (fun t => ¬ IsOperator t) ∧
    placed.Pairwise (fun a b => a.1.Before b.1) ∧
    ∀ p t, (p, t) ∈ placed ↔ cmd.text p = some t ∧ ¬ IsOperator t

def LosesNoText (line : Bytes) : Prop := ∃ cmd, splitLine line = some cmd ∧ KeepsText line cmd

/-! ### What the line says -/

/- The operator is one of the three, and nothing more. -/
def Piece.Exact : Piece → Prop
  | .bar op => IsOperator op
  | .redirect _ op _ => IsOperator op
  | .arg _ => True

instance : DecidablePred Piece.Exact
  | .bar op => inferInstanceAs (Decidable (IsOperator op))
  | .redirect _ op _ => inferInstanceAs (Decidable (IsOperator op))
  | .arg _ => inferInstanceAs (Decidable True)

/- In each direction only the last file is the name of one, the others are operators or missing. -/
def OneFile (st : List Piece) : Prop :=
  ∀ d t, some t ∈ (stageFiles d st).dropLast → IsOperator t

/-! ### The stores -/

/- The stores of the pieces, from argument `i` of node `j` on. -/
def stores (j i : ℕ) : List Piece → List (Place × Option Bytes)
  | [] => []
  | .bar _ :: ps => stores (j + 1) 0 ps
  | .redirect d _ f :: ps => (⟨j, .file d⟩, f) :: stores j i ps
  | .arg t :: ps => (⟨j, .arg i⟩, some t) :: stores j (i + 1) ps

theorem setFile_slot (n : CmdNode) (f : Option Bytes) (d : Direction) :
    (n.setFile f d).slot = Function.update n.slot (.file d) f := by
  funext s
  rw [Function.update_apply]
  cases s with
  | arg i => cases d <;> rfl
  | file d' => cases d <;> cases d' <;> rfl

theorem addArg_slot {n n' : CmdNode} {t : Bytes} (hargs : n.args.length = argsLength)
    (h : n.addArg t = some n') :
    n'.args.length = argsLength ∧ n'.length = n.length + 1 ∧
      n'.slot = Function.update n.slot (.arg n.length) (some t) := by
  unfold CmdNode.addArg at h
  split at h
  case isTrue hroom =>
    obtain rfl := Option.some.inj h
    refine ⟨(List.length_set ..).trans hargs, rfl, ?_⟩
    funext s
    by_cases hs : s = .arg n.length
    · subst hs
      rw [Function.update_self]
      show (n.args.set n.length (some t))[n.length]?.join = some t
      rw [List.getElem?_set_self (by omega)]
      rfl
    · rw [Function.update_of_ne hs]
      cases s with
      | arg i =>
        have hi : n.length ≠ i := fun he => hs (congrArg Slot.arg he.symm)
        show (n.args.set n.length (some t))[i]?.join = n.args[i]?.join
        rw [List.getElem?_set_ne hi]
      | file d => cases d <;> rfl
  case isFalse => cases h

theorem empty_slot (s : Slot) : CmdNode.empty.slot s = none := by
  cases s with
  | arg i =>
    show (List.replicate argsLength none)[i]?.join = none
    rw [List.getElem?_replicate]
    split <;> rfl
  | file d => cases d <;> rfl

theorem text_last {before : List CmdNode} {temp temp' : CmdNode} {s : Slot} {v : Option Bytes}
    (h : temp'.slot = Function.update temp.slot s v) (m n : ℕ) :
    Cmd.text ⟨before ++ [temp'], m⟩ =
      Function.update (Cmd.text ⟨before ++ [temp], n⟩) ⟨before.length, s⟩ v := by
  funext p
  obtain ⟨k, s'⟩ := p
  by_cases hk : k = before.length
  · subst hk
    have hget (temp : CmdNode) (m : ℕ) :
        Cmd.text ⟨before ++ [temp], m⟩ ⟨before.length, s'⟩ = temp.slot s' := by
      unfold Cmd.text
      dsimp only
      rw [List.getElem?_append_right (Nat.le_refl _), Nat.sub_self]
      rfl
    rw [hget, h]
    by_cases hs : s' = s
    · subst hs
      rw [Function.update_self, Function.update_self]
    · rw [Function.update_of_ne hs, Function.update_of_ne (fun he => hs (congrArg Place.slot he)),
        hget]
  · rw [Function.update_of_ne (fun he => hk (congrArg Place.node he))]
    unfold Cmd.text
    dsimp only
    rw [List.getElem?_append, List.getElem?_append]
    split
    · rfl
    · rw [List.getElem?_eq_none (by rw [List.length_singleton]; omega),
        List.getElem?_eq_none (by rw [List.length_singleton]; omega)]

theorem text_bar (before : List CmdNode) (m n : ℕ) :
    Cmd.text ⟨before ++ [.empty], m⟩ = Cmd.text ⟨before, n⟩ := by
  funext p
  unfold Cmd.text
  dsimp only
  rw [List.getElem?_append]
  split
  · rfl
  · rename_i hge
    have hnone : before[p.node]? = none := List.getElem?_eq_none (Nat.le_of_not_lt hge)
    rw [hnone]
    cases hk : p.node - before.length with
    | zero => exact empty_slot p.slot
    | succ k => rfl

/-- The command that the loop makes of the pieces holds what they store. -/
theorem run_text {ps : List Piece} {p p' : Parse} (hargs : p.temp.args.length = argsLength)
    (h : p.run ps = some p') :
    p'.cmd.text = replay p.cmd.text (stores p.before.length p.temp.length ps) := by
  induction ps generalizing p with
  | nil =>
    obtain rfl := Option.some.inj h
    rfl
  | cons q ps ih =>
    rw [Parse.run_cons] at h
    obtain ⟨p₁, hq, hrest⟩ := Option.bind_eq_some_iff.mp h
    cases q with
    | bar op =>
      obtain rfl := Option.some.inj hq
      have hlen : (List.replicate argsLength (none : Option Bytes)).length = argsLength :=
        List.length_replicate ..
      rw [ih hlen hrest, List.length_append]
      exact congrArg (replay · _) (text_bar (p.before ++ [p.temp]) _ _)
    | redirect d op f =>
      obtain rfl := Option.some.inj hq
      have hkeep : (p.temp.setFile f d).args = p.temp.args ∧
          (p.temp.setFile f d).length = p.temp.length := by
        cases d <;> exact ⟨rfl, rfl⟩
      rw [ih ((congrArg List.length hkeep.1).trans hargs) hrest]
      dsimp only
      rw [hkeep.2, stores, replay_cons]
      exact congrArg (replay · _) (text_last (setFile_slot p.temp f d) _ _)
    | arg t =>
      obtain ⟨temp, hadd, rfl⟩ := Option.map_eq_some_iff.mp hq
      obtain ⟨hargs', hlen, hslot⟩ := addArg_slot hargs hadd
      rw [ih hargs' hrest]
      dsimp only
      rw [hlen, stores, replay_cons]
      exact congrArg (replay · _) (text_last hslot _ _)

theorem splitLine_text {line : Bytes} {cmd : Cmd} (h : splitLine line = some cmd) :
    cmd.text = replay (fun _ => none) (stores 0 0 (linePieces line)) := by
  unfold splitLine at h
  rw [splitLoop_pieces _ _ (tokens_spaced SPACE (cstr line))] at h
  obtain ⟨p, hrun, rfl⟩ := Option.map_eq_some_iff.mp h
  have hlen : (List.replicate argsLength (none : Option Bytes)).length = argsLength :=
    List.length_replicate ..
  refine (run_text hlen hrun).trans (congrArg (replay · _) ?_)
  exact text_bar [] 0 0

/-! ### The order of the stores -/

theorem stores_behind (ps : List Piece) (j i : ℕ) : ∀ w ∈ stores j i ps,
    j ≤ w.1.node ∧ (w.1.node = j → ∀ k, w.1.slot = .arg k → i ≤ k) := by
  induction ps generalizing j i with
  | nil => exact fun w hw => absurd hw List.not_mem_nil
  | cons q ps ih =>
    intro w hw
    cases q with
    | bar op =>
      have hnode := (ih (j + 1) 0 w hw).1
      exact ⟨by omega, fun he => by omega⟩
    | redirect d op f =>
      rcases List.mem_cons.mp hw with rfl | hw
      · exact ⟨Nat.le_refl j, fun _ k hk => by cases hk⟩
      · exact ih j i w hw
    | arg t =>
      rcases List.mem_cons.mp hw with rfl | hw
      · exact ⟨Nat.le_refl j, fun _ k hk => Nat.le_of_eq (Slot.arg.inj hk)⟩
      · obtain ⟨hnode, harg⟩ := ih j (i + 1) w hw
        exact ⟨hnode, fun he k hk => Nat.le_of_succ_le (harg he k hk)⟩

/-- The stores follow the line, but for those to the same file name. -/
theorem stores_ordered (ps : List Piece) (j i : ℕ) :
    (stores j i ps).Pairwise fun w w' => w.1.Before w'.1 ∨ w.1 = w'.1 := by
  induction ps generalizing j i with
  | nil => exact .nil
  | cons q ps ih =>
    cases q with
    | bar op => exact ih (j + 1) 0
    | redirect d op f =>
      refine List.pairwise_cons.mpr ⟨fun w hw => ?_, ih j i⟩
      obtain ⟨⟨n, slot⟩, v⟩ := w
      rcases Nat.lt_or_eq_of_le (stores_behind ps j i _ hw).1 with hlt | rfl
      · exact .inl (.inl hlt)
      · by_cases hslot : Slot.file d = slot
        · exact .inr (congrArg (Place.mk j) hslot)
        · exact .inl (.inr ⟨rfl, hslot⟩)
    | arg t =>
      refine List.pairwise_cons.mpr ⟨fun w hw => ?_, ih j (i + 1)⟩
      obtain ⟨⟨n, slot⟩, v⟩ := w
      obtain ⟨hnode, harg⟩ := stores_behind ps j (i + 1) _ hw
      rcases Nat.lt_or_eq_of_le hnode with hlt | rfl
      · exact .inl (.inl hlt)
      · refine .inl (.inr ⟨rfl, ?_⟩)
        cases slot with
        | arg k => exact harg rfl k rfl
        | file d => exact Slot.noConfusion

/-! ### Files that are stored over -/

/- The value is a token that has to be found again. -/
def isText (v : Option Bytes) : Bool := v.any fun t => ¬ IsOperator t

theorem isText_iff {v : Option Bytes} : isText v = true ↔ ∃ t, v = some t ∧ ¬ IsOperator t := by
  unfold isText
  rw [Option.any_eq_true]
  simp only [decide_eq_true_eq]

theorem stageFiles_redirect (d d' : Direction) (op : Bytes) (f : Option Bytes) (st : List Piece) :
    stageFiles d (.redirect d' op f :: st) =
      if d' = d then f :: stageFiles d st else stageFiles d st := by
  unfold stageFiles
  by_cases hd : d' = d
  · have hfile : Piece.file? d (.redirect d' op f) = some f := if_pos hd
    rw [if_pos hd, List.filterMap_cons_some hfile]
  · have hfile : Piece.file? d (.redirect d' op f) = none := if_neg hd
    rw [if_neg hd, List.filterMap_cons_none hfile]

/-- A file of the current node is stored to again iff its stage goes on with such a redirection. -/
theorem stores_file (d : Direction) (ps : List Piece) (j i : ℕ) {st : List Piece}
    {sts : List (List Piece)} (hst : stages ps = st :: sts) :
    (∃ w ∈ stores j i ps, w.1 = ⟨j, .file d⟩) ↔ stageFiles d st ≠ [] := by
  induction ps generalizing i st sts with
  | nil =>
    obtain ⟨rfl, rfl⟩ := List.cons.inj (stages_nil.symm.trans hst)
    exact iff_of_false (fun ⟨w, hw, _⟩ => List.not_mem_nil hw) (fun h => h rfl)
  | cons q ps ih =>
    obtain ⟨st', sts', hst'⟩ := List.exists_cons_of_ne_nil (stages_ne_nil ps)
    cases q with
    | bar op =>
      rw [stages_bar] at hst
      obtain ⟨rfl, rfl⟩ := List.cons.inj hst
      refine iff_of_false ?_ (fun h => h rfl)
      rintro ⟨w, hw, he⟩
      have hnode := (stores_behind ps (j + 1) 0 w hw).1
      rw [he] at hnode
      exact absurd hnode (Nat.not_succ_le_self j)
    | redirect d' op f =>
      rw [stages_cons rfl hst'] at hst
      obtain ⟨rfl, rfl⟩ := List.cons.inj hst
      rw [stageFiles_redirect, stores, List.exists_mem_cons_iff, ih i hst', Place.mk.injEq,
        Slot.file.injEq]
      by_cases hd : d' = d
      · rw [if_pos hd]
        exact iff_of_true (.inl ⟨rfl, hd⟩) (List.cons_ne_nil _ _)
      · rw [if_neg hd]
        exact or_iff_right fun h => hd h.2
    | arg t =>
      rw [stages_cons rfl hst'] at hst
      obtain ⟨rfl, rfl⟩ := List.cons.inj hst
      rw [stores, List.exists_mem_cons_iff, ih (i + 1) hst', Place.mk.injEq]
      exact or_iff_right fun h => Slot.noConfusion h.2

theorem oneFile_redirect (d : Direction) (op : Bytes) (f : Option Bytes) (st : List Piece) :
    OneFile (.redirect d op f :: st) ↔
      (isText f = true → stageFiles d st = []) ∧ OneFile st := by
  unfold OneFile
  constructor
  · intro h
    constructor
    · intro hf
      obtain ⟨t, rfl, ht⟩ := isText_iff.mp hf
      by_contra hne
      apply ht
      apply h d t
      rw [stageFiles_redirect, if_pos rfl, List.dropLast_cons_of_ne_nil hne]
      exact List.mem_cons_self ..
    · intro d' t ht
      apply h d' t
      rw [stageFiles_redirect]
      split
      · have hne : stageFiles d' st ≠ [] := by
          intro he
          rw [he] at ht
          exact List.not_mem_nil ht
        rw [List.dropLast_cons_of_ne_nil hne]
        exact List.mem_cons_of_mem _ ht
      · exact ht
  · rintro ⟨hf, h⟩ d' t ht
    rw [stageFiles_redirect] at ht
    split at ht
    · rename_i hd
      subst hd
      by_cases hne : stageFiles d st = []
      · rw [hne] at ht
        exact absurd ht List.not_mem_nil
      · rw [List.dropLast_cons_of_ne_nil hne] at ht
        rcases List.mem_cons.mp ht with rfl | ht
        · by_contra hop
          exact hne (hf (isText_iff.mpr ⟨t, rfl, hop⟩))
        · exact h d t ht
    · exact h d' t ht

/-- Along a line no token is stored over iff each stage names one file in each direction. -/
theorem stores_noneLost_iff (ps : List Piece) (j i : ℕ) :
    NoneLost isText (stores j i ps) ↔ ∀ st ∈ stages ps, OneFile st := by
  induction ps generalizing j i with
  | nil =>
    rw [stages_nil, List.forall_mem_singleton]
    exact iff_of_true .nil fun d t ht => absurd ht List.not_mem_nil
  | cons q ps ih =>
    obtain ⟨st, sts, hst⟩ := List.exists_cons_of_ne_nil (stages_ne_nil ps)
    cases q with
    | bar op =>
      rw [stages_bar, List.forall_mem_cons, stores, ih]
      refine (and_iff_right fun d t ht => ?_).symm
      exact absurd ht List.not_mem_nil
    | redirect d op f =>
      have hrest := ih j i
      rw [hst, List.forall_mem_cons] at hrest
      rw [stages_cons rfl hst, List.forall_mem_cons, stores]
      unfold NoneLost at hrest ⊢
      rw [List.pairwise_cons, hrest, oneFile_redirect, and_assoc]
      have hfile := stores_file d ps j i hst
      refine and_congr_left fun _ => ⟨fun h hf => ?_, fun h w hw hf he => ?_⟩
      · by_contra hne
        obtain ⟨w, hw, he⟩ := hfile.mpr hne
        exact h w hw hf he
      · exact hfile.mp ⟨w, hw, he⟩ (h hf)
    | arg t =>
      have hrest := ih j (i + 1)
      rw [hst] at hrest
      rw [stages_cons rfl hst, stores]
      unfold NoneLost at hrest ⊢
      rw [List.pairwise_cons, hrest, List.forall_mem_cons, List.forall_mem_cons]
      refine and_iff_right fun w hw _ he => ?_
      have hle := (stores_behind ps j (i + 1) w hw).2 (congrArg Place.node he) i
        (congrArg Place.slot he)
      omega

/-! ### The tokens of the pieces -/

/- The tokens of a piece that are stored, and the one before them that is not. -/
def Piece.op : Piece → List Bytes
  | .bar op => [op]
  | .redirect _ op _ => [op]
  | .arg _ => []

def Piece.stored : Piece → List Bytes
  | .bar _ => []
  | .redirect _ _ f => f.toList
  | .arg t => [t]

/- The tokens that have to be found again. -/
def texts (ts : List Bytes) : List Bytes := ts.filter fun t => ¬ IsOperator t

theorem commandPieces_tokens (ts : List Bytes) :
    (commandPieces ts).flatMap (fun q => q.op ++ q.stored) = ts := by
  induction ts using tokens_induction with
  | nil => rfl
  | cons t ts ih ihtail =>
    have hfile : ts.head?.toList ++ ts.tail = ts := by
      cases ts <;> rfl
    rw [commandPieces_cons]
    split
    · exact congrArg (t :: ·) ih
    · split
      · rw [List.flatMap_cons, ihtail]
        exact congrArg (t :: ·) hfile
      · split
        · rw [List.flatMap_cons, ihtail]
          exact congrArg (t :: ·) hfile
        · exact congrArg (t :: ·) ih

theorem stages_mem {ps st : List Piece} {q : Piece} (hst : st ∈ stages ps) (hq : q ∈ st) : q ∈ ps := by
  induction ps generalizing st with
  | nil =>
    rw [stages_nil, List.mem_singleton] at hst
    subst hst
    exact hq
  | cons p ps ih =>
    cases hbar : p.isBar with
    | true =>
      obtain ⟨op, rfl⟩ : ∃ op, p = .bar op := by
        cases p with
        | bar op => exact ⟨op, rfl⟩
        | redirect d op file => cases hbar
        | arg token => cases hbar
      rw [stages_bar] at hst
      rcases List.mem_cons.mp hst with rfl | hst
      · exact absurd hq List.not_mem_nil
      · exact List.mem_cons_of_mem _ (ih hst hq)
    | false =>
      obtain ⟨st', sts, hstages⟩ := List.exists_cons_of_ne_nil (stages_ne_nil ps)
      rw [stages_cons hbar hstages] at hst
      rcases List.mem_cons.mp hst with rfl | hst
      · rcases List.mem_cons.mp hq with rfl | hq
        · exact List.mem_cons_self ..
        · refine List.mem_cons_of_mem _ (ih ?_ hq)
          rw [hstages]
          exact List.mem_cons_self ..
      · refine List.mem_cons_of_mem _ (ih ?_ hq)
        rw [hstages]
        exact List.mem_cons_of_mem _ hst

/-- An argument is a token of the line. -/
theorem splitLine_arg {line a : Bytes} {cmd : Cmd} (h : splitLine line = some cmd) {n : CmdNode}
    (hn : n ∈ cmd.nodes) (ha : some a ∈ n.args) : a ≠ [] ∧ ∀ b ∈ a, b ∈ cstr line := by
  rw [(splitLine_some h).2] at hn
  obtain ⟨st, hst, rfl⟩ := List.mem_map.mp hn
  have harg : a ∈ stageArgs st := by
    rcases List.mem_append.mp ha with ha | ha
    · obtain ⟨a', ha', he⟩ := List.mem_map.mp ha
      rwa [← Option.some.inj he]
    · cases List.eq_of_mem_replicate ha
  obtain ⟨q, hq, hpiece⟩ := List.mem_filterMap.mp harg
  have htoken : a ∈ tokens SPACE (cstr line) := by
    rw [← commandPieces_tokens (tokens SPACE (cstr line))]
    refine List.mem_flatMap.mpr ⟨q, stages_mem hst hq, ?_⟩
    cases q with
    | bar op => cases hpiece
    | redirect d op file => cases hpiece
    | arg token =>
      obtain rfl := Option.some.inj hpiece
      exact List.mem_append_right _ (List.mem_singleton_self _)
  exact (tokens_spaced SPACE (cstr line)).of_mem htoken

theorem commandPieces_texts (ts : List Bytes) :
    texts ts = (commandPieces ts).flatMap fun q => texts q.op ++ texts q.stored := by
  rw [← commandPieces_tokens ts]
  unfold texts
  rw [List.filter_flatMap, commandPieces_tokens]
  simp only [List.filter_append]

theorem exact_iff (q : Piece) : q.Exact ↔ texts q.op = [] := by
  have hop (op : Bytes) : IsOperator op ↔ texts [op] = [] := by
    unfold texts
    rw [List.filter_eq_nil_iff, List.forall_mem_singleton, decide_eq_true_eq, not_not]
  cases q with
  | bar op => exact hop op
  | redirect d op f => exact hop op
  | arg t => exact iff_of_true trivial rfl

theorem stored_length_le (ps : List Piece) : (ps.flatMap fun q => texts q.stored).length ≤
    (ps.flatMap fun q => texts q.op ++ texts q.stored).length := by
  induction ps with
  | nil => exact Nat.le_refl _
  | cons q ps ih =>
    rw [List.flatMap_cons, List.flatMap_cons, List.length_append, List.length_append,
      List.length_append]
    omega

theorem exact_of_length {ps : List Piece}
    (h : (ps.flatMap fun q => texts q.op ++ texts q.stored).length ≤
      (ps.flatMap fun q => texts q.stored).length) : ∀ q ∈ ps, q.Exact := by
  induction ps with
  | nil => exact fun q hq => absurd hq List.not_mem_nil
  | cons q ps ih =>
    have hrest := stored_length_le ps
    rw [List.flatMap_cons, List.flatMap_cons, List.length_append, List.length_append,
      List.length_append] at h
    rw [List.forall_mem_cons, exact_iff, ← List.length_eq_zero_iff]
    exact ⟨by omega, ih (by omega)⟩

/- The texts that a log stores, with their places. -/
def placedOf (log : List (Place × Option Bytes)) : List (Place × Bytes) :=
  log.flatMap fun w => (texts w.2.toList).map fun t => (w.1, t)

theorem mem_placedOf {log : List (Place × Option Bytes)} {p : Place} {t : Bytes} :
    (p, t) ∈ placedOf log ↔ (p, some t) ∈ log ∧ ¬ IsOperator t := by
  have htexts (v : Option Bytes) : t ∈ texts v.toList ↔ v = some t ∧ ¬ IsOperator t := by
    unfold texts
    rw [List.mem_filter, Option.mem_toList, decide_eq_true_eq]
  unfold placedOf
  rw [List.mem_flatMap]
  constructor
  · rintro ⟨⟨p', v⟩, hw, h⟩
    obtain ⟨t', ht', he⟩ := List.mem_map.mp h
    obtain ⟨rfl, rfl⟩ := Prod.mk.inj he
    obtain ⟨rfl, hop⟩ := (htexts v).mp ht'
    exact ⟨hw, hop⟩
  · rintro ⟨hw, hop⟩
    exact ⟨(p, some t), hw, List.mem_map_of_mem ((htexts (some t)).mpr ⟨rfl, hop⟩)⟩

theorem placedOf_length (log : List (Place × Option Bytes)) :
    (placedOf log).length = (log.filter fun w => isText w.2).length := by
  have hone (v : Option Bytes) : (texts v.toList).length = if isText v = true then 1 else 0 := by
    cases v with
    | none => rfl
    | some t =>
      by_cases hop : IsOperator t
      · simp [texts, isText, hop]
      · simp [texts, isText, hop]
  induction log with
  | nil => rfl
  | cons w log ih =>
    have hcons : placedOf (w :: log) =
        (texts w.2.toList).map (fun t => (w.1, t)) ++ placedOf log := List.flatMap_cons
    rw [hcons, List.length_append, List.length_map, ih, hone, List.filter_cons]
    split
    · rw [List.length_cons, Nat.add_comm]
    · exact Nat.zero_add _

/-- A relation between the places of the stores holds between those of the texts. -/
theorem placedOf_pairwise {R : Place → Place → Prop} {log : List (Place × Option Bytes)}
    (h : log.Pairwise fun w w' => isText w.2 = true → R w.1 w'.1) :
    (placedOf log).Pairwise fun a b => R a.1 b.1 := by
  unfold placedOf
  rw [List.pairwise_flatMap]
  constructor
  · intro w _
    have hone : ((w.2.toList.map fun t => (w.1, t))).Pairwise fun a b => R a.1 b.1 := by
      cases w.2 with
      | none => exact .nil
      | some t => exact List.pairwise_singleton ..
    exact hone.sublist (List.filter_sublist.map _)
  · refine h.imp fun {w w'} hR a ha b hb => ?_
    obtain ⟨t, ht, rfl⟩ := List.mem_map.mp ha
    obtain ⟨t', -, rfl⟩ := List.mem_map.mp hb
    apply hR
    obtain ⟨hmem, hop⟩ := List.mem_filter.mp ht
    exact isText_iff.mpr ⟨t, Option.mem_toList.mp hmem, of_decide_eq_true hop⟩

theorem placedOf_stores (ps : List Piece) (j i : ℕ) :
    (placedOf (stores j i ps)).map Prod.snd = ps.flatMap fun q => texts q.stored := by
  induction ps generalizing j i with
  | nil => rfl
  | cons q ps ih =>
    cases q with
    | bar op => exact ih (j + 1) 0
    | redirect d op f =>
      unfold placedOf at ih ⊢
      rw [stores, List.flatMap_cons, List.map_append, ih, List.map_map, List.flatMap_cons]
      exact congrArg (· ++ _) (List.map_id _)
    | arg t =>
      unfold placedOf at ih ⊢
      rw [stores, List.flatMap_cons, List.map_append, ih, List.map_map, List.flatMap_cons]
      exact congrArg (· ++ _) (List.map_id _)

/-! ### The whole line -/

theorem Place.before_irrefl (p : Place) : ¬ p.Before p := by
  rintro (hlt | ⟨-, hslot⟩)
  · exact Nat.lt_irrefl _ hlt
  · cases hp : p.slot with
    | arg i =>
      rw [hp] at hslot
      exact Nat.lt_irrefl _ (show i < i from hslot)
    | file d =>
      rw [hp] at hslot
      exact hslot rfl

/-- As many places for the tokens that are no operators as there are such tokens: the operators are
exact and no file name was stored over. -/
theorem KeepsText.exact {line : Bytes} {cmd : Cmd} (hcmd : splitLine line = some cmd)
    (h : KeepsText line cmd) :
    (∀ q ∈ linePieces line, q.Exact) ∧ ∀ st ∈ lineStages line, OneFile st := by
  obtain ⟨placed, hmap, hbefore, hplaced⟩ := h
  have hnodup : (placed.map Prod.fst).Nodup := by
    refine List.pairwise_map.mpr (hbefore.imp fun {a b} hab he => ?_)
    rw [he] at hab
    exact Place.before_irrefl _ hab
  have hlen : (placed.map Prod.fst).length =
      ((linePieces line).flatMap fun q => texts q.op ++ texts q.stored).length := by
    have htexts := commandPieces_texts (tokens SPACE (cstr line))
    rw [List.length_map, ← List.length_map Prod.snd, hmap]
    exact congrArg List.length htexts
  have hstored : ((stores 0 0 (linePieces line)).filter fun w => isText w.2).length =
      ((linePieces line).flatMap fun q => texts q.stored).length := by
    rw [← placedOf_length, ← placedOf_stores (linePieces line) 0 0, List.length_map]
  have hplaces : ∀ p ∈ placed.map Prod.fst,
      isText (replay (fun _ => none) (stores 0 0 (linePieces line)) p) = true := by
    intro p hp
    obtain ⟨⟨p, t⟩, hmem, rfl⟩ := List.mem_map.mp hp
    obtain ⟨htext, hop⟩ := (hplaced p t).mp hmem
    rw [← splitLine_text hcmd]
    exact isText_iff.mpr ⟨t, htext, hop⟩
  obtain ⟨hnone, heq⟩ := noneLost_of_length (fun _ => rfl) hnodup
    (by rw [hstored, hlen]; exact stored_length_le _) hplaces
  refine ⟨exact_of_length ?_, (stores_noneLost_iff (linePieces line) 0 0).mp hnone⟩
  rw [← hlen, ← heq, hstored]

/-- When the operators are exact and no file name is stored over, the stores give each token its
place. -/
theorem keepsText_of_exact {line : Bytes} {cmd : Cmd} (hcmd : splitLine line = some cmd)
    (hexact : ∀ q ∈ linePieces line, q.Exact) (hfile : ∀ st ∈ lineStages line, OneFile st) :
    KeepsText line cmd := by
  have hnone := (stores_noneLost_iff (linePieces line) 0 0).mpr hfile
  refine ⟨placedOf (stores 0 0 (linePieces line)), ?_, ?_, ?_⟩
  · rw [placedOf_stores]
    refine Eq.trans ?_ (commandPieces_texts (tokens SPACE (cstr line))).symm
    refine List.flatMap_congr fun q hq => ?_
    rw [(exact_iff q).mp (hexact q hq), List.nil_append]
  · apply placedOf_pairwise
    refine ((stores_ordered (linePieces line) 0 0).and hnone).imp fun h htext => ?_
    exact h.1.resolve_right fun he => h.2 htext he.symm
  · intro p t
    rw [mem_placedOf, splitLine_text hcmd]
    refine and_congr_left fun hop => ⟨fun hw => ?_, fun htext => ?_⟩
    · exact hnone.replay_eq _ hw (isText_iff.mpr ⟨t, rfl, hop⟩)
    · have hmem : p ∈ (stores 0 0 (linePieces line)).map Prod.fst := by
        by_contra hnot
        rw [replay_of_notMem hnot] at htext
        cases htext
      rw [← htext]
      exact replay_mem hmem

/-- `split_line` loses no text iff every operator of the line stands by itself, each stage names at
most one file in each direction, and the arguments fit into their arrays. -/
theorem losesNoText_iff (line : Bytes) :
    LosesNoText line ↔ (∀ q ∈ linePieces line, q.Exact) ∧
      ∀ st ∈ lineStages line, OneFile st ∧ (stageArgs st).length ≤ argsLength := by
  constructor
  · rintro ⟨cmd, hcmd, hkeeps⟩
    obtain ⟨hexact, hfile⟩ := hkeeps.exact hcmd
    exact ⟨hexact, fun st hst => ⟨hfile st hst, (splitLine_some hcmd).1 st hst⟩⟩
  · rintro ⟨hexact, hstages⟩
    have hfits : Fits (lineStages line) := fun st hst => (hstages st hst).2
    have hcmd := (splitLine_stages line).trans (if_pos hfits)
    exact ⟨_, hcmd, keepsText_of_exact hcmd hexact fun st hst => (hstages st hst).1⟩

/- `a |b` and `a < b < c` as they are typed. -/
def typedGlued : Bytes := [97, SPACE, BAR, 98]
def typedTwice : Bytes := [97, SPACE, LESS, SPACE, 98, SPACE, LESS, SPACE, 99]

/-- The `b` is lost, behind the bar as well as in front of the second file name. -/
theorem typed_loses :
    readLine [] (typedGlued ++ [NEWLINE]) = (some (typedGlued ++ [0, 0]), []) ∧
      ¬ LosesNoText (typedGlued ++ [0, 0]) ∧
      readLine [] (typedTwice ++ [NEWLINE]) = (some (typedTwice ++ [0, 0]), []) ∧
      ¬ LosesNoText (typedTwice ++ [0, 0]) := by
  refine ⟨by decide, ?_, by decide, ?_⟩
  · rintro ⟨cmd, hcmd, h⟩
    exact absurd (h.exact hcmd).1 (by decide)
  · rintro ⟨cmd, hcmd, h⟩
    have hmem : ∃ st ∈ lineStages (typedTwice ++ [0, 0]),
        some [98] ∈ (stageFiles .input st).dropLast := by decide
    obtain ⟨st, hst, hb⟩ := hmem
    exact absurd ((h.exact hcmd).2 st hst .input [98] hb) (by decide)

end OSLab.Shell
