import OSLab.Shell.Exec
import OSLab.Shell.SplitLine

/-!
# Pipelines and redirections

What each stage of a pipeline reads and writes. `fork_cmd_node` connects the
stages by pipes but does not look at their files, which `spawn_proc` does.
-/

namespace OSLab.Shell
open OSLab.Base

/-- The descriptors of the shell: all of them inherited, with 0 and 1 open. -/
structure ShellFds extends FdTable Desc where
  inherited : ∀ fd d, desc fd = some d → ∃ n, d = .inherited n
  stdin : ∃ d, desc STDIN_FILENO = some d
  stdout : ∃ d, desc STDOUT_FILENO = some d

/-- What an exec'ed command is, reads and writes. -/
structure Stdio where
  args : List (Option Bytes)
  stdin : Option Desc
  stdout : Option Desc
  deriving DecidableEq

def Exec.stdio (e : Exec) : Stdio :=
  { args := e.args, stdin := e.fds.desc STDIN_FILENO, stdout := e.fds.desc STDOUT_FILENO }

/-- What stage `k` reads when it has no file: the pipe behind stage `k - 1`, or the shell's stdin. -/
def stageStdin (t : Fds) (k : ℕ) : Option Desc :=
  if k = 0 then t.desc STDIN_FILENO else some (.pipeRead (k - 1))

/-- What stage `k` writes when it has no file: its pipe, or the shell's stdout for the last one. -/
def stageStdout (t : Fds) (count k : ℕ) : Option Desc :=
  if k + 1 < count then some (.pipeWrite k) else t.desc STDOUT_FILENO

/-- Stage `k` as it was asked for: its files take the place of the pipes, and a file that cannot be
opened ends the child. -/
def requested (os : Os) (t : Fds) (count k : ℕ) (n : CmdNode) : Option Stdio :=
  if n.inFile.all os.openRead ∧ n.outFile.all os.openWrite then
    some
      { args := n.args
        stdin := (n.inFile.map Desc.readFile).or (stageStdin t k)
        stdout := (n.outFile.map Desc.writeFile).or (stageStdout t count k) }
  else none

/-- Every stage of the pipeline is exec'ed as it was asked for. -/
def Plumbed (os : Os) (t : Fds) (cmd : Cmd) : Prop :=
  (forkCmdNode os t cmd).children.map (fun child => child.map Exec.stdio) =
    cmd.nodes.mapIdx (requested os t cmd.nodes.length)

instance (os : Os) (t : Fds) (cmd : Cmd) : Decidable (Plumbed os t cmd) :=
  inferInstanceAs (Decidable (_ = _))

/-! ### The pipes -/

theorem makePipe_spec (t : Fds) (i : ℕ) :
    t.desc (makePipe t i).1.1 = none ∧ t.desc (makePipe t i).1.2 = none ∧
    (makePipe t i).2.desc (makePipe t i).1.1 = some (.pipeRead i) ∧
    (makePipe t i).2.desc (makePipe t i).1.2 = some (.pipeWrite i) ∧
    ∀ fd, fd ≠ (makePipe t i).1.1 → fd ≠ (makePipe t i).1.2 →
      (makePipe t i).2.desc fd = t.desc fd := by
  let r := t.alloc (.pipeRead i)
  have hread : r.2.desc r.1 = some (.pipeRead i) := t.alloc_same _
  have hfree : r.2.desc r.2.lowest = none := r.2.lowest_free
  have hne : r.2.lowest ≠ t.lowest := (FdTable.ne_lowest hread).symm
  refine ⟨t.lowest_free, ?_, FdTable.alloc_open _ hread, r.2.alloc_same _, ?_⟩
  · exact (t.alloc_other _ hne).symm.trans hfree
  · intro fd h1 h2
    exact (r.2.alloc_other _ h2).trans (t.alloc_other _ h1)

/-- The pipes of `makePipes`, opened at numbers that were free. -/
structure PipesMade (i n : ℕ) (t t' : Fds) (pipes : List (ℕ × ℕ)) : Prop where
  length : pipes.length = n
  free : ∀ fd ∈ pipeEnds pipes, t.desc fd = none
  keeps : ∀ fd, fd ∉ pipeEnds pipes → t'.desc fd = t.desc fd
  ends : ∀ k p, pipes[k]? = some p →
    t'.desc p.1 = some (.pipeRead (i + k)) ∧ t'.desc p.2 = some (.pipeWrite (i + k))

theorem PipesMade.notMem {i n : ℕ} {t t' : Fds} {pipes : List (ℕ × ℕ)} (h : PipesMade i n t t' pipes)
    {fd : ℕ} {d : Desc} (hopen : t.desc fd = some d) : fd ∉ pipeEnds pipes := by
  intro hmem
  have hfree := h.free fd hmem
  rw [hopen] at hfree
  cases hfree

theorem PipesMade.getD_ends {n : ℕ} {t t' : Fds} {pipes : List (ℕ × ℕ)}
    (h : PipesMade 0 n t t' pipes) {k : ℕ} (hk : k < n) :
    t'.desc (pipes.getD k (0, 0)).1 = some (.pipeRead k) ∧
    t'.desc (pipes.getD k (0, 0)).2 = some (.pipeWrite k) := by
  have hk' : k < pipes.length := by
    rw [h.length]
    exact hk
  have hends := h.ends k _ (List.getElem?_eq_getElem hk')
  rw [List.getD_eq_getElem _ _ hk']
  rwa [Nat.zero_add] at hends

theorem mem_pipeEnds_cons {fd : ℕ} {p : ℕ × ℕ} {pipes : List (ℕ × ℕ)} :
    fd ∈ pipeEnds (p :: pipes) ↔ fd = p.1 ∨ fd = p.2 ∨ fd ∈ pipeEnds pipes := by
  simp only [pipeEnds, List.flatMap_cons, List.mem_append, List.mem_cons, List.not_mem_nil, or_false,
    or_assoc]

theorem makePipes_opens {os : Os} {n : ℕ} : ∀ {i : ℕ} {t : Fds} {r : List (ℕ × ℕ) × Fds},
    makePipes os i n t = some r → ∀ k, k < n → os.pipe (i + k) = true := by
  induction n with
  | zero => exact fun _ k hk => absurd hk (Nat.not_lt_zero k)
  | succ n ih =>
    intro i t r hr k hk
    by_cases hpipe : os.pipe i = true
    · simp only [makePipes, hpipe, ite_true, Option.map_eq_some_iff] at hr
      obtain ⟨r', hr', -⟩ := hr
      cases k with
      | zero => exact hpipe
      | succ k =>
        have hrest := ih hr' k (by omega)
        rwa [show i + 1 + k = i + (k + 1) by omega] at hrest
    · simp only [makePipes, hpipe, Bool.false_eq_true, ite_false, reduceCtorEq] at hr

theorem makePipes_made {os : Os} {n : ℕ} : ∀ {i : ℕ} (t : Fds),
    (∀ k, k < n → os.pipe (i + k) = true) →
    ∃ pipes t', makePipes os i n t = some (pipes, t') ∧ PipesMade i n t t' pipes := by
  induction n with
  | zero =>
    intro i t _
    refine ⟨[], t, rfl, rfl, fun fd h => absurd h List.not_mem_nil, fun _ _ => rfl, ?_⟩
    intro k p h
    cases h
  | succ n ih =>
    intro i t hos
    obtain ⟨hr, hw, hread, hwrite, hother⟩ := makePipe_spec t i
    obtain ⟨pipes, t', heq, hmade⟩ := ih (i := i + 1) (makePipe t i).2 (by
      intro k hk
      have h := hos (k + 1) (by omega)
      rwa [show i + 1 + k = i + (k + 1) by omega])
    have hos0 : os.pipe i = true := hos 0 (by omega)
    -- the ends of this pipe are open while the others are made
    have hkept {fd : ℕ} {d : Desc} (h : (makePipe t i).2.desc fd = some d) :
        fd ∉ pipeEnds pipes ∧ t'.desc fd = some d :=
      ⟨hmade.notMem h, (hmade.keeps fd (hmade.notMem h)).trans h⟩
    refine ⟨(makePipe t i).1 :: pipes, t', ?_, ?_, ?_, ?_, ?_⟩
    · simp only [makePipes, hos0, ite_true, heq, Option.map_some]
    · rw [List.length_cons, hmade.length]
    · intro fd hfd
      rcases mem_pipeEnds_cons.mp hfd with rfl | rfl | hmem
      · exact hr
      · exact hw
      · have hfree := hmade.free fd hmem
        have h1 : fd ≠ (makePipe t i).1.1 := by
          rintro rfl
          exact (hkept hread).1 hmem
        have h2 : fd ≠ (makePipe t i).1.2 := by
          rintro rfl
          exact (hkept hwrite).1 hmem
        exact (hother fd h1 h2).symm.trans hfree
    · intro fd hfd
      rw [mem_pipeEnds_cons, not_or, not_or] at hfd
      exact (hmade.keeps fd hfd.2.2).trans (hother fd hfd.1 hfd.2.1)
    · intro k p hp
      cases k with
      | zero =>
        obtain rfl := Option.some.inj hp
        exact ⟨(hkept hread).2, (hkept hwrite).2⟩
      | succ k =>
        have h := hmade.ends k p hp
        rwa [show i + 1 + k = i + (k + 1) by omega] at h

/-! ### The children -/

/-- When no `fork` fails, every node has its child, and the shell closes the pipes. -/
theorem forkLoop_forked {os : Os} (pipes : List (ℕ × ℕ)) (count : ℕ) (t : Fds)
    (nodes : List CmdNode) : ∀ (idx : ℕ), (∀ k, k < nodes.length → os.fork (idx + k) = true) →
    forkLoop os pipes count idx nodes t =
      { children := nodes.mapIdx fun k n => some (pipelineChild pipes count (idx + k) n t)
        shell := some (closePipes pipes t) } := by
  induction nodes with
  | nil =>
    intro idx _
    rfl
  | cons cur nodes ih =>
    intro idx hos
    have hos0 : os.fork idx = true := hos 0 (Nat.succ_pos _)
    have hrest := ih (idx + 1) (by
      intro k hk
      have h := hos (k + 1) (Nat.succ_lt_succ hk)
      rwa [show idx + 1 + k = idx + (k + 1) by omega])
    simp only [forkLoop, hos0, ite_true, hrest, List.mapIdx_cons, Nat.add_zero, Nat.add_assoc,
      Nat.add_comm 1]

theorem forkCmdNode_forked {os : Os} (t : Fds) {cmd : Cmd}
    (hpipe : ∀ i, i + 1 < cmd.nodes.length → os.pipe i = true)
    (hfork : ∀ k, k < cmd.nodes.length → os.fork k = true) :
    ∃ pipes t', PipesMade 0 (cmd.nodes.length - 1) t t' pipes ∧ forkCmdNode os t cmd =
      { children := cmd.nodes.mapIdx fun k n =>
          some (pipelineChild pipes cmd.nodes.length k n t')
        shell := some (closePipes pipes t') } := by
  obtain ⟨pipes, t', heq, hmade⟩ := makePipes_made (n := cmd.nodes.length - 1) (i := 0) t (by
    intro k hk
    rw [Nat.zero_add]
    exact hpipe k (by omega))
  have hforked := forkLoop_forked pipes cmd.nodes.length t' cmd.nodes 0 (by
    intro k hk
    rw [Nat.zero_add]
    exact hfork k hk)
  refine ⟨pipes, t', hmade, ?_⟩
  simp only [forkCmdNode, heq, hforked, Nat.zero_add]

/-- A child of a pipeline reads and writes the pipes beside it, whatever files its stage has. -/
theorem pipelineChild_stdio {t : ShellFds} {t' : Fds} {pipes : List (ℕ × ℕ)} {count idx : ℕ}
    (hmade : PipesMade 0 (count - 1) t.toFdTable t' pipes) (hidx : idx < count) (cur : CmdNode) :
    (pipelineChild pipes count idx cur t').stdio =
      { args := cur.args, stdin := stageStdin t.toFdTable idx,
        stdout := stageStdout t.toFdTable count idx } := by
  obtain ⟨d0, h0⟩ := t.stdin
  obtain ⟨d1, h1⟩ := t.stdout
  -- the pipes are neither 0 nor 1
  have hstd0 : t'.desc STDIN_FILENO = t.desc STDIN_FILENO := hmade.keeps _ (hmade.notMem h0)
  have hstd1 : t'.desc STDOUT_FILENO = t.desc STDOUT_FILENO := hmade.keeps _ (hmade.notMem h1)
  let t1 := if 0 < idx then t'.dup2 (pipes.getD (idx - 1) (0, 0)).1 STDIN_FILENO else t'
  have hin : t1.desc STDIN_FILENO = stageStdin t.toFdTable idx := by
    by_cases hpos : 0 < idx
    · simp only [t1, hpos, ite_true, stageStdin, Nat.pos_iff_ne_zero.mp hpos, ite_false]
      exact FdTable.dup2_same (hmade.getD_ends (by omega)).1 _
    · simp only [t1, stageStdin, Nat.eq_zero_of_not_pos hpos, Nat.lt_irrefl, ite_true, ite_false]
      exact hstd0
  have hother {fd : ℕ} (h : fd ≠ STDIN_FILENO) : t1.desc fd = t'.desc fd := by
    by_cases hpos : 0 < idx
    · simp only [t1, hpos, ite_true]
      exact t'.dup2_other _ h
    · simp only [t1, hpos, ite_false]
  let t2 := if idx + 1 < count then t1.dup2 (pipes.getD idx (0, 0)).2 STDOUT_FILENO else t1
  have hout : t2.desc STDOUT_FILENO = stageStdout t.toFdTable count idx := by
    by_cases hlast : idx + 1 < count
    · have hwrite := (hmade.getD_ends (k := idx) (by omega)).2
      have hne : (pipes.getD idx (0, 0)).2 ≠ STDIN_FILENO := by
        intro he
        rw [he, hstd0, h0] at hwrite
        obtain ⟨n, hn⟩ := t.inherited _ _ h0
        rw [hn] at hwrite
        cases hwrite
      simp only [t2, hlast, ite_true, stageStdout]
      exact FdTable.dup2_same ((hother hne).trans hwrite) _
    · simp only [t2, hlast, ite_false, stageStdout]
      exact (hother (by decide)).trans hstd1
  have hin2 : t2.desc STDIN_FILENO = t1.desc STDIN_FILENO := by
    by_cases hlast : idx + 1 < count
    · simp only [t2, hlast, ite_true]
      exact t1.dup2_other _ (by decide)
    · simp only [t2, hlast, ite_false]
  have hclose {fd : ℕ} {d : Desc} (h : t.desc fd = some d) :
      (closePipes pipes t2).desc fd = t2.desc fd := t2.closeAll_other (hmade.notMem h)
  change Stdio.mk cur.args ((closePipes pipes t2).desc STDIN_FILENO)
    ((closePipes pipes t2).desc STDOUT_FILENO) = _
  rw [hclose h0, hclose h1, hin2, hin, hout]

theorem forkCmdNode_children {os : Os} {t : ShellFds} {cmd : Cmd}
    (hpipe : ∀ i, i + 1 < cmd.nodes.length → os.pipe i = true)
    (hfork : ∀ k, k < cmd.nodes.length → os.fork k = true) :
    (forkCmdNode os t.toFdTable cmd).children.map (fun child => child.map Exec.stdio) =
      cmd.nodes.mapIdx fun k n => some
        { args := n.args, stdin := stageStdin t.toFdTable k,
          stdout := stageStdout t.toFdTable cmd.nodes.length k } := by
  obtain ⟨pipes, t', hmade, hforked⟩ := forkCmdNode_forked t.toFdTable hpipe hfork
  rw [hforked]
  refine List.ext_getElem (by rw [List.length_map, List.length_mapIdx, List.length_mapIdx]) ?_
  intro k hk _
  rw [List.length_map, List.length_mapIdx] at hk
  rw [List.getElem_map, List.getElem_mapIdx, List.getElem_mapIdx, Option.map_some,
    pipelineChild_stdio hmade hk]

/-! ### A single command -/

theorem redirectFile_spec {t : Fds} (file : Option Bytes) (opens : Bytes → Bool)
    (desc : Bytes → Desc) {target : ℕ} {d : Desc} (htarget : t.desc target = some d) :
    match redirectFile t file opens desc target with
    | none => file.all opens = false
    | some t' => file.all opens = true ∧
        t'.desc target = (file.map desc).or (t.desc target) ∧
        ∀ fd d', fd ≠ target → t.desc fd = some d' → t'.desc fd = some d' := by
  cases file with
  | none => exact ⟨rfl, rfl, fun _ _ _ h => h⟩
  | some path =>
    by_cases hopen : opens path = true
    · simp only [redirectFile, hopen, ite_true, Option.all_some, Option.map_some, Option.some_or,
        true_and]
      have hsame := t.alloc_same (desc path)
      have hne := FdTable.ne_lowest htarget
      constructor
      · exact (FdTable.close_other _ hne).trans (FdTable.dup2_same hsame _)
      · intro fd d' hfd h
        exact (FdTable.close_other _ (FdTable.ne_lowest h)).trans
          ((FdTable.dup2_other _ _ hfd).trans (FdTable.alloc_open _ h))
    · simp only [redirectFile, hopen, Option.all_some, Bool.false_eq_true, ite_false]

theorem splitLine_fds {line : Bytes} {cmd : Cmd} (h : splitLine line = some cmd) :
    ∀ n ∈ cmd.nodes, n.fdIn = 0 ∧ n.fdOut = 1 := by
  intro n hn
  rw [(splitLine_some h).2] at hn
  obtain ⟨st, -, rfl⟩ := List.mem_map.mp hn
  exact ⟨rfl, rfl⟩

/-- A single command is exec'ed as it was asked for. -/
theorem spawnProc_requested {os : Os} (hfork : os.fork 0 = true) (t : ShellFds) {n : CmdNode}
    (hin : n.fdIn = 0) (hout : n.fdOut = 1) :
    (spawnProc os t.toFdTable n).map Exec.stdio = requested os t.toFdTable 1 0 n := by
  obtain ⟨d0, h0⟩ := t.stdin
  obtain ⟨d1, h1⟩ := t.stdout
  have hpipes (t : Fds) : redirectPipe (redirectPipe t n.fdIn STDIN_FILENO) n.fdOut STDOUT_FILENO =
      t := by
    rw [hin, hout]
    rfl
  have hspec := redirectFile_spec n.inFile os.openRead .readFile h0
  simp only [spawnProc, hfork, ite_true, redirection]
  cases hfile : redirectFile t.toFdTable n.inFile os.openRead .readFile STDIN_FILENO with
  | none =>
    rw [hfile] at hspec
    simp only [requested, hspec, Option.bind_eq_bind, Option.bind_none, Option.map_none,
      Bool.false_eq_true, false_and, ite_false]
  | some t1 =>
    rw [hfile] at hspec
    obtain ⟨hall, hstdin, hkept⟩ := hspec
    have h1' := hkept STDOUT_FILENO d1 (by decide) h1
    have hspec := redirectFile_spec n.outFile os.openWrite .writeFile h1'
    cases hfile' : redirectFile t1 n.outFile os.openWrite .writeFile STDOUT_FILENO with
    | none =>
      rw [hfile'] at hspec
      simp only [requested, hspec, Option.bind_eq_bind, Option.bind_some, Option.bind_none,
        Option.map_none, Bool.false_eq_true, and_false, ite_false, hfile']
    | some t2 =>
      rw [hfile'] at hspec
      obtain ⟨hall', hstdout, hkept'⟩ := hspec
      have hstdin' : t2.desc STDIN_FILENO = t1.desc STDIN_FILENO := by
        obtain ⟨d, hd⟩ : ∃ d, t1.desc STDIN_FILENO = some d := by
          rw [hstdin, h0, Option.or_some]
          exact ⟨_, rfl⟩
        rw [hd]
        exact hkept' _ _ (by decide) hd
      simp only [requested, hall, hall', Option.bind_eq_bind, Option.bind_some, Option.map_some,
        hfile', hpipes, and_self, ite_true, Exec.stdio, hstdin', hstdin, hstdout, h1', h1, stageStdin,
        stageStdout, Nat.lt_irrefl, Nat.zero_add, ite_false]

/-! ### The two paths -/

/-- Without its files a stage is what was asked for when it has none. -/
theorem requested_eq_iff (os : Os) (t : ShellFds) (count k : ℕ) (n : CmdNode) :
    some { args := n.args, stdin := stageStdin t.toFdTable k,
           stdout := stageStdout t.toFdTable count k } = requested os t.toFdTable count k n ↔
      n.inFile = none ∧ n.outFile = none := by
  have hin (path : Bytes) : stageStdin t.toFdTable k ≠ some (.readFile path) := by
    intro h
    unfold stageStdin at h
    split at h
    · obtain ⟨_, hd⟩ := t.inherited _ _ h
      cases hd
    · cases h
  have hout (path : Bytes) : stageStdout t.toFdTable count k ≠ some (.writeFile path) := by
    intro h
    unfold stageStdout at h
    split at h
    · cases h
    · obtain ⟨_, hd⟩ := t.inherited _ _ h
      cases hd
  constructor
  · intro h
    unfold requested at h
    split at h
    · obtain ⟨-, hi, ho⟩ := Stdio.mk.inj (Option.some.inj h)
      constructor
      · cases hfile : n.inFile with
        | none => rfl
        | some path =>
          rw [hfile] at hi
          exact absurd hi (hin path)
      · cases hfile : n.outFile with
        | none => rfl
        | some path =>
          rw [hfile] at ho
          exact absurd ho (hout path)
    · cases h
  · intro ⟨hi, ho⟩
    simp only [requested, hi, ho, Option.all_none, and_self, ite_true, Option.map_none,
      Option.none_or]

/-- `spawn_proc` execs each command of the line as it was asked for, and `fork_cmd_node` does so for
the pipeline exactly when no stage of it has a file. -/
theorem forkCmdNode_plumbed_iff {os : Os} {t : ShellFds} {line : Bytes} {cmd : Cmd}
    (hcmd : splitLine line = some cmd) (hlen : 2 ≤ cmd.nodes.length)
    (hpipe : ∀ i, i + 1 < cmd.nodes.length → os.pipe i = true)
    (hfork : ∀ k, k < cmd.nodes.length → os.fork k = true) :
    (∀ n ∈ cmd.nodes,
      (spawnProc os t.toFdTable n).map Exec.stdio = requested os t.toFdTable 1 0 n) ∧
    (Plumbed os t.toFdTable cmd ↔ ∀ n ∈ cmd.nodes, n.inFile = none ∧ n.outFile = none) := by
  constructor
  · intro n hn
    obtain ⟨hin, hout⟩ := splitLine_fds hcmd n hn
    exact spawnProc_requested (hfork 0 (by omega)) t hin hout
  · unfold Plumbed
    rw [forkCmdNode_children hpipe hfork, List.mapIdx_eq_mapIdx_iff]
    constructor
    · intro h n hn
      obtain ⟨k, hk, rfl⟩ := List.mem_iff_getElem.mp hn
      exact (requested_eq_iff ..).mp (h k hk)
    · intro h k hk
      exact (requested_eq_iff ..).mpr (h _ (List.getElem_mem hk))

/- A kernel that refuses nothing, and a shell with descriptors 0, 1 and 2. -/
def osAll : Os := ⟨fun _ => true, fun _ => true, fun _ => true, fun _ => true⟩

def shellFds : ShellFds where
  desc fd := if fd < 3 then some (.inherited fd) else none
  limit := 3
  closed := by
    intro fd h
    simp only [Nat.not_lt.mpr h, ite_false]
  inherited := by
    intro fd d h
    split at h
    · exact ⟨fd, (Option.some.inj h).symm⟩
    · cases h
  stdin := ⟨_, rfl⟩
  stdout := ⟨_, rfl⟩

/- `cat < a | wc`. -/
def linePipe : Bytes := [99, 97, 116, 32, 60, 32, 97, 32, 124, 32, 119, 99]

def cmdPipe : Cmd :=
  ⟨[nodeOf [[99, 97, 116]] (some [97]) none, nodeOf [[119, 99]] none none], 4⟩

theorem splitLine_linePipe : splitLine linePipe = some cmdPipe := by
  rw [splitLine_stages, if_pos (by decide)]
  decide

/-- The first stage of `cat < a | wc` reads the shell's stdin. -/
theorem linePipe_not_plumbed :
    splitLine linePipe = some cmdPipe ∧ ¬ Plumbed osAll shellFds.toFdTable cmdPipe :=
  ⟨splitLine_linePipe, by decide +kernel⟩

theorem linePipe_plumbed_iff :
    (∀ n ∈ cmdPipe.nodes, (spawnProc osAll shellFds.toFdTable n).map Exec.stdio =
      requested osAll shellFds.toFdTable 1 0 n) ∧
    (Plumbed osAll shellFds.toFdTable cmdPipe ↔
      ∀ n ∈ cmdPipe.nodes, n.inFile = none ∧ n.outFile = none) :=
  forkCmdNode_plumbed_iff splitLine_linePipe (by decide) (fun _ _ => rfl) (fun _ _ => rfl)

end OSLab.Shell
