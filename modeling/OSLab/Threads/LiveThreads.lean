import OSLab.Base.ForkJoin
import OSLab.Base.Stdio
import OSLab.Threads.RowFiles
import OSLab.Threads.ShortReads

/-!
# The program that prints its threads (Lab3/3_1)

`3_1.c` as a whole: `main` reads the matrices, creates the threads, prints the
proc file while they compute, joins them and writes `z`. A step is one access
to `z` or loop condition of a thread, one system call of `main` with the
`fgets` around it, or one `printf`.
-/

namespace OSLab.LiveThreads
open OSLab.Base OSLab.Matrix
open OSLab.RowThreads (Sizes dataProcessing headerText entriesText)
open OSLab.ThreadInfo (Task Process line)

/-- What the kernel has of the process when `main` reads: the entries of its threads, and whether a
thread that has ended is still in the list. `buf` is the global of the module. -/
structure Env where
  tgid : CInt
  leader : Task
  task : Thread → Task
  lingers : Thread → Bool
  leader_pid : leader.pid = tgid
  pid_ne : ∀ t, (task t).pid ≠ tgid
  buf : ℕ
  mem : Mem

def Env.process (env : Env) (threads : List Thread) : Process :=
  ⟨env.tgid, env.leader :: threads.map env.task⟩

def Env.lines (env : Env) (threads : List Thread) : Bytes :=
  threads.flatMap fun t => line env.tgid (env.task t)

/-! ### What `main` prints -/

/-- Where `main` is in its loop; `file` is what the library has read and not handed out yet. -/
inductive Reader where
  | fgets (file : Bytes)
  | print (piece file : Bytes)
  | done

/-- The loop over the proc file, the offset of `fptr4`, and the standard output. -/
structure Console where
  reader : Reader
  offset : ℕ
  stdout : Bytes

/- `fgets(buffer, sizeof(buffer), fptr4)`; the library reads into a buffer of 1024 bytes. -/
def fgetsProc (env : Env) (threads : List Thread) (offset : ℕ) (file : Bytes) : Bytes × Bytes × ℕ :=
  let r := ThreadInfo.myread env.buf (env.process threads) env.mem ⟨1024, 0⟩ offset
  fgetsFile 10 49 file (ShortReads.delivered r, r.offset) offset

/- `3_1.c:97-99`, while `for_each_thread` would come to `threads`. -/
def Console.step (env : Env) (threads : List Thread) (c : Console) : Console :=
  match c.reader with
  | .fgets file =>
    let got := fgetsProc env threads c.offset file
    { c with offset := got.2.2, reader := if got.1 = [] then .done else .print got.1 got.2.1 }
  | .print piece file => { c with stdout := c.stdout ++ piece, reader := .fgets file }
  | .done => c

/- What has been read and not printed yet. -/
def Reader.pending : Reader → Bytes
  | .fgets file => file
  | .print piece file => piece ++ file
  | .done => []

/-- `main` has not read the proc file. -/
def Waits (stdout : Bytes) (c : Console) : Prop := c = ⟨.fgets [], 0, stdout⟩

def Reader.Behind (offset : ℕ) : Reader → Prop
  | .fgets _ => 0 < offset
  | .print piece _ => 0 < offset ∧ piece ≠ []
  | .done => True

/-- `main` has read `text` and prints it. -/
def Prints (stdout text : Bytes) (c : Console) : Prop :=
  c.stdout ++ c.reader.pending = stdout ++ text ∧ c.reader.Behind c.offset

variable {env : Env} {threads : List Thread} {stdout text : Bytes} {c : Console}

theorem process_text (env : Env) (threads : List Thread) :
    (env.process threads).text = env.lines threads := by
  unfold Process.text Env.process
  rw [ThreadInfo.textOf_leader env.leader_pid]
  induction threads with
  | nil => rfl
  | cons t threads ih =>
    rw [List.map_cons, ThreadInfo.textOf_cons (env.pid_ne t), ih]
    rfl

theorem lines_le (env : Env) (threads : List Thread) :
    (env.lines threads).length ≤ 78 * threads.length := by
  induction threads with
  | nil => exact le_refl _
  | cons t threads ih =>
    have hline := ThreadInfo.line_le env.tgid (env.task t)
    unfold Env.lines at ih ⊢
    rw [List.flatMap_cons, List.length_append, List.length_cons]
    omega

/-- The first `fgets` reads the lines of all threads there are. -/
theorem fgetsProc_first (env : Env) (hfew : threads.length ≤ 2) :
    fgetsProc env threads 0 [] = ((fgets 10 49 (env.lines threads)).1,
      (fgets 10 49 (env.lines threads)).2, (env.lines threads).length) := by
  have hlines := lines_le env threads
  have htext := process_text env threads
  have hshort : (env.process threads).text.length < ThreadInfo.BUFSIZE := by
    rw [htext]
    unfold ThreadInfo.BUFSIZE
    omega
  have hshot : ShortReads.OneShot _ (fun _ => ⟨1024, 0⟩) _ :=
    ShortReads.threadInfo_oneShot hshort env.buf fun _ => env.mem
  obtain ⟨hread, -, hoffset⟩ := hshot.whole 0 (hshort.le)
  unfold fgetsProc
  dsimp only at hread hoffset ⊢
  rw [hread, hoffset, htext]
  exact fgetsFile_first 10 (by decide) ..

theorem fgetsProc_behind (env : Env) (threads : List Thread) {offset : ℕ} (h : 0 < offset)
    (file : Bytes) :
    let got := fgetsProc env threads offset file
    got.1 ++ got.2.1 = file ∧ got.2.2 = offset ∧ (got.1 = [] → file = []) := by
  have hread : ThreadInfo.myread env.buf (env.process threads) env.mem ⟨1024, 0⟩ offset =
      .nothing offset := by simp only [ThreadInfo.myread, h, ite_true]
  unfold fgetsProc
  rw [hread]
  exact fgetsFile_behind 10 (by decide) file offset

theorem Waits.step_eq (h : Waits stdout c) (env : Env) (hfew : threads.length ≤ 2) :
    let got := fgets 10 49 (env.lines threads)
    c.step env threads =
      ⟨if got.1 = [] then .done else .print got.1 got.2, (env.lines threads).length, stdout⟩ := by
  subst h
  unfold Console.step
  dsimp only
  rw [fgetsProc_first env hfew]

theorem Waits.step (h : Waits stdout c) (env : Env) (hfew : threads.length ≤ 2) :
    Prints stdout (env.lines threads) (c.step env threads) := by
  have happend := fgets_append 10 49 (env.lines threads)
  rw [h.step_eq env hfew]
  unfold Prints
  dsimp only
  split
  next hnil =>
    have hempty := fgets_some (by decide) hnil
    rw [hempty]
    exact ⟨rfl, trivial⟩
  next hsome =>
    have hlines : env.lines threads ≠ [] := by
      intro hempty
      rw [hempty] at hsome
      exact hsome rfl
    exact ⟨congrArg (stdout ++ ·) happend, List.length_pos_iff.mpr hlines, hsome⟩

theorem Prints.step (h : Prints stdout text c) (env : Env) (threads : List Thread) :
    Prints stdout text (c.step env threads) := by
  obtain ⟨htext, hbehind⟩ := h
  obtain ⟨reader, offset, shown⟩ := c
  cases reader with
  | fgets file =>
    obtain ⟨hfile, hoffset, hend⟩ := fgetsProc_behind env threads hbehind file
    unfold Console.step Prints
    dsimp only
    rw [hoffset]
    split
    next hnil =>
      rw [Reader.pending, hend hnil] at htext
      exact ⟨htext, trivial⟩
    next hsome =>
      refine ⟨?_, hbehind, hsome⟩
      rw [Reader.pending, hfile]
      exact htext
  | print piece file =>
    refine ⟨?_, hbehind.1⟩
    rw [← htext]
    exact List.append_assoc ..
  | done => exact ⟨htext, hbehind⟩

theorem Prints.begins (h : Prints stdout text c) : c.stdout <+: stdout ++ text := by
  rw [← h.1]
  exact List.prefix_append ..

/- Two lines are 156 characters at most. -/
def Console.left (c : Console) : ℕ :=
  match c.reader with
  | .fgets file => 2 * (file.length + if c.offset = 0 then 156 else 0) + 1
  | .print piece file => 2 * (piece.length + file.length)
  | .done => 0

theorem Waits.left_lt (h : Waits stdout c) (env : Env) (hfew : threads.length ≤ 2) :
    (c.step env threads).left < c.left := by
  have hlines := lines_le env threads
  have hlen := congrArg List.length (fgets_append 10 49 (env.lines threads))
  rw [List.length_append] at hlen
  have hleft : c.left = 313 := by
    subst h
    rfl
  rw [hleft, h.step_eq env hfew]
  unfold Console.left
  dsimp only
  by_cases hnil : (fgets 10 49 (env.lines threads)).1 = []
  · rw [if_pos hnil]
    exact Nat.succ_pos _
  · rw [if_neg hnil]
    dsimp only
    omega

theorem Prints.left_lt (h : Prints stdout text c) (env : Env) (threads : List Thread)
    (hopen : c.reader ≠ .done) : (c.step env threads).left < c.left := by
  obtain ⟨-, hbehind⟩ := h
  obtain ⟨reader, offset, shown⟩ := c
  cases reader with
  | fgets file =>
    obtain ⟨hfile, -, -⟩ := fgetsProc_behind env threads hbehind file
    have hlen := congrArg List.length hfile
    rw [List.length_append] at hlen
    dsimp only at hlen
    unfold Console.step Console.left
    dsimp only
    by_cases hnil : (fgetsProc env threads offset file).1 = []
    · rw [if_pos hnil]
      exact Nat.succ_pos _
    · rw [if_neg hnil]
      dsimp only
      omega
  | print piece file =>
    obtain ⟨hpos, hsome⟩ := hbehind
    have hlen := List.length_pos_iff.mpr hsome
    have hpositive : offset ≠ 0 := Nat.ne_of_gt hpos
    unfold Console.step Console.left
    simp only [hpositive, ite_false]
    omega
  | done => exact absurd rfl hopen

/-! ### The steps -/

inductive Stage where
  | unborn
  | rows
  | done
  deriving DecidableEq

/- `out` is what has been appended to `3_1.txt`. -/
structure State where
  toCreate : List Thread
  toJoin : List Thread
  ended : Bool
  stage : Thread → Stage
  rows : RowThreads.State
  console : Console
  out : Bytes

def State.setStage (s : State) (t : Thread) (st : Stage) : State :=
  { s with stage := Function.update s.stage t st }

/- The threads besides `main` that `for_each_thread` comes to. -/
def listed (env : Env) (s : State) : List Thread :=
  [.thread1, .thread2].filter fun t =>
    match s.stage t with
    | .unborn => false
    | .rows => true
    | .done => env.lingers t

/- `3_1.c:50-68`; a thread ends in the step after its loops. -/
def threadStep (w : Sizes) (x y : IntMatrix) (s : State) (t : Thread) : State :=
  match s.stage t with
  | .unborn | .done => s
  | .rows =>
    if (s.rows.regs t).pc = .done then s.setStage t .done
    else { s with rows := (RowThreads.threads w x y).next s.rows t }

/- `3_1.c:95-107`. -/
def mainStep (env : Env) (w : Sizes) (s : State) : State :=
  match s.toCreate with
  | t :: ts => { s with toCreate := ts }.setStage t .rows
  | [] =>
    match s.console.reader with
    | .fgets _ | .print _ _ => { s with console := s.console.step env (listed env s) }
    | .done =>
      match s.toJoin with
      | t :: ts => if s.stage t = .done then { s with toJoin := ts } else s
      | [] => if s.ended then s else { s with ended := true, out := s.out ++ entriesText w s.rows.z }

/-- A schedule says who has the next turn: a thread, or `main` for `none`. -/
def program (env : Env) (w : Sizes) (x y : IntMatrix) : Machine State (Option Thread) Unit where
  step s turn := ((), match turn with
    | none => mainStep env w s
    | some t => threadStep w x y s t)

/- `main` in front of its first `pthread_create`; `old` was in `3_1.txt`. -/
def start (w : Sizes) (z : IntMatrix) (stdout old : Bytes) : State where
  toCreate := [.thread1, .thread2]
  toJoin := [.thread1, .thread2]
  ended := false
  stage := fun _ => .unborn
  rows := RowThreads.atStart w z
  console := ⟨.fgets [], 0, stdout⟩
  out := old ++ headerText w

/-- The program on two files, with what `malloc` has left in the matrices. -/
def run (env : Env) (w : Sizes) (file1 file2 old : Bytes) (x y z : IntMatrix)
    (sched : ℕ → Option Thread) (n : ℕ) : State :=
  let data := dataProcessing w file1 file2 x y
  (program env w data.x data.y).follow (start w z data.stdout old) sched n

structure Inv (w : Sizes) (x y z0 : IntMatrix) (stdout out : Bytes) (s : State) : Prop where
  forked : Forked .unborn .done s.toCreate s.toJoin s.ended s.stage
  rows : RowThreads.Inv w x y z0 s.rows
  through : ∀ t, s.stage t = .done → (s.rows.regs t).pc = .done
  reads : Waits stdout s.console ∨ ∃ text, Prints stdout text s.console
  behind : s.ended = true → s.console.reader = .done
  out : s.out = out ++ if s.ended then entriesText w s.rows.z else []

/-! ### What is left to do -/

def State.leftOf (w : Sizes) (s : State) (t : Thread) : ℕ :=
  match s.stage t with
  | .unborn => (s.rows.regs t).stepsLeft w (w.last t) + 2
  | .rows => (s.rows.regs t).stepsLeft w (w.last t) + 1
  | .done => 0

def State.left (w : Sizes) (s : State) : ℕ :=
  s.toCreate.length + s.toJoin.length + (if s.ended then 0 else 1) + s.console.left +
    s.leftOf w .thread1 + s.leftOf w .thread2

variable {w : Sizes} {x y z0 : IntMatrix} {out : Bytes} {s s' : State} {t : Thread}

/-- Thread `t` goes on, and of the rest only the threads to be created may change. -/
structure Moves (t : Thread) (s s' : State) : Prop where
  create : s'.toCreate.length ≤ s.toCreate.length
  join : s'.toJoin = s.toJoin
  ended : s'.ended = s.ended
  console : s'.console = s.console
  out : s'.out = s.out
  stage : ∀ u, u ≠ t → s'.stage u = s.stage u
  regs : ∀ u, u ≠ t → s'.rows.regs u = s.rows.regs u

theorem Moves.leftOf_other (h : Moves t s s') (w : Sizes) {u : Thread} (hu : u ≠ t) :
    s'.leftOf w u = s.leftOf w u := by
  unfold State.leftOf
  rw [h.stage u hu, h.regs u hu]

theorem Moves.left (h : Moves t s s') (hless : s'.leftOf w t < s.leftOf w t) :
    s'.left w < s.left w := by
  have hcreate := h.create
  unfold State.left
  rw [h.join, h.ended, h.console]
  cases t with
  | thread1 =>
    rw [h.leftOf_other w (u := .thread2) (by decide)]
    omega
  | thread2 =>
    rw [h.leftOf_other w (u := .thread1) (by decide)]
    omega

/-! ### The steps of a thread -/

theorem Inv.moves (h : Inv w x y z0 stdout out s) (hmoves : Moves t s s') (hopen : s.stage t ≠ .done)
    (hforked : Forked .unborn .done s'.toCreate s'.toJoin s'.ended s'.stage)
    (hrows : RowThreads.Inv w x y z0 s'.rows)
    (hthrough : s'.stage t = .done → (s'.rows.regs t).pc = .done) : Inv w x y z0 stdout out s' := by
  constructor
  case forked => exact hforked
  case rows => exact hrows
  case through =>
    intro u hdone
    by_cases hu : u = t
    · subst hu
      exact hthrough hdone
    · rw [hmoves.stage u hu] at hdone
      rw [hmoves.regs u hu]
      exact h.through u hdone
  case reads =>
    rw [hmoves.console]
    exact h.reads
  case behind =>
    rw [hmoves.ended, hmoves.console]
    exact h.behind
  case out =>
    have hrunning : ¬ s.ended = true := by
      rw [h.forked.not_ended hopen]
      decide
    rw [hmoves.out, h.out, hmoves.ended, if_neg hrunning, if_neg hrunning]

theorem Inv.computes (h : Inv w x y z0 stdout out s) (hstage : s.stage t = .rows)
    (hpc : (s.rows.regs t).pc ≠ .done) :
    let s' := { s with rows := (RowThreads.threads w x y).next s.rows t }
    Inv w x y z0 stdout out s' ∧ s'.left w < s.left w := by
  intro s'
  have hmoves : Moves t s s' :=
    ⟨le_refl _, rfl, rfl, rfl, rfl, fun _ _ => rfl, fun u hu => Function.update_of_ne hu ..⟩
  constructor
  · apply h.moves hmoves (by simp [hstage]) h.forked (h.rows.step t)
    intro hdone
    rw [hstage] at hdone
    cases hdone
  · apply hmoves.left
    have hstep := RowThreads.stepsLeft_step w x y s.rows.z (w.last t) (s.rows.regs t)
    have hsome : (s.rows.regs t).stepsLeft w (w.last t) ≠ 0 :=
      fun hzero => hpc (RowThreads.done_of_stepsLeft hzero)
    have hregs : s'.rows.regs t = (RowThreads.threadStep w x y (w.last t) (s.rows.regs t) s.rows.z).1 :=
      Function.update_self ..
    unfold State.leftOf
    rw [hstage, hregs, hstep]
    dsimp only
    omega

theorem Inv.leaves (h : Inv w x y z0 stdout out s) (hstage : s.stage t = .rows)
    (hpc : (s.rows.regs t).pc = .done) :
    Inv w x y z0 stdout out (s.setStage t .done) ∧ (s.setStage t .done).left w < s.left w := by
  have hmoves : Moves t s (s.setStage t .done) :=
    ⟨le_refl _, rfl, rfl, rfl, rfl, fun u hu => Function.update_of_ne hu .., fun _ _ => rfl⟩
  constructor
  · have hforked : Forked .unborn .done s.toCreate s.toJoin s.ended (Function.update s.stage t .done) :=
      h.forked.moves (by simp [hstage]) (by simp [hstage]) (by simp)
    exact h.moves hmoves (by simp [hstage]) hforked h.rows fun _ => hpc
  · apply hmoves.left
    have hstage' : (s.setStage t .done).stage t = .done := Function.update_self ..
    unfold State.leftOf
    rw [hstage', hstage]
    exact Nat.succ_pos _

/-- A thread that is born and has not ended gets on in each of its turns. -/
theorem Inv.thread_moves (h : Inv w x y z0 stdout out s) (hborn : s.stage t ≠ .unborn)
    (hopen : s.stage t ≠ .done) : Inv w x y z0 stdout out (threadStep w x y s t) ∧
      (threadStep w x y s t).left w < s.left w := by
  unfold threadStep
  cases hstage : s.stage t with
  | unborn => exact absurd hstage hborn
  | done => exact absurd hstage hopen
  | rows =>
    dsimp only
    split
    next hpc => exact h.leaves hstage hpc
    next hpc => exact h.computes hstage hpc

theorem threadStep_idle (h : s.stage t = .unborn ∨ s.stage t = .done) : threadStep w x y s t = s := by
  unfold threadStep
  rcases h with h | h <;> rw [h]

theorem threadStep_console (w : Sizes) (x y : IntMatrix) (s : State) (t : Thread) :
    (threadStep w x y s t).console = s.console := by
  unfold threadStep
  split
  next => rfl
  next => rfl
  next =>
    split
    next => rfl
    next => rfl

/-! ### The steps of `main` -/

theorem listed_le (env : Env) (s : State) : (listed env s).length ≤ 2 := List.length_filter_le ..

theorem Inv.creates (h : Inv w x y z0 stdout out s) {ts : List Thread} (hcreate : s.toCreate = t :: ts) :
    let s' := { s with toCreate := ts }.setStage t .rows
    Inv w x y z0 stdout out s' ∧ s'.left w < s.left w := by
  intro s'
  have hforked := h.forked
  rw [hcreate] at hforked
  have hunborn := (hforked.born t).mp List.mem_cons_self
  have hmoves : Moves t s s' :=
    { create := by
        rw [hcreate]
        exact Nat.le_succ _
      join := rfl
      ended := rfl
      console := rfl
      out := rfl
      stage := fun u hu => Function.update_of_ne hu ..
      regs := fun _ _ => rfl }
  have hstage' : s'.stage t = .rows := Function.update_self ..
  constructor
  · apply h.moves hmoves (by simp [hunborn]) (hforked.created (by simp) (by simp)) h.rows
    intro hdone
    rw [hstage'] at hdone
    cases hdone
  · apply hmoves.left
    have hrows : s'.rows = s.rows := rfl
    unfold State.leftOf
    rw [hstage', hunborn, hrows]
    exact Nat.lt_succ_self _

theorem Inv.prints (h : Inv w x y z0 stdout out s) (env : Env) (hopen : s.console.reader ≠ .done) :
    let s' := { s with console := s.console.step env (listed env s) }
    Inv w x y z0 stdout out s' ∧ s'.left w < s.left w := by
  intro s'
  have hless : s'.console.left < s.console.left := by
    rcases h.reads with hwaits | ⟨text, hprints⟩
    · exact hwaits.left_lt env (listed_le env s)
    · exact hprints.left_lt env _ hopen
  constructor
  · refine ⟨h.forked, h.rows, h.through, .inr ?_, fun hended => absurd (h.behind hended) hopen, h.out⟩
    rcases h.reads with hwaits | ⟨text, hprints⟩
    · exact ⟨_, hwaits.step env (listed_le env s)⟩
    · exact ⟨text, hprints.step env _⟩
  · unfold State.left
    change s.toCreate.length + s.toJoin.length + (if s.ended = true then 0 else 1) + s'.console.left +
      s.leftOf w .thread1 + s.leftOf w .thread2 < _
    omega

theorem Inv.joins (h : Inv w x y z0 stdout out s) {ts : List Thread} (hjoin : s.toJoin = t :: ts)
    (hdone : s.stage t = .done) : Inv w x y z0 stdout out { s with toJoin := ts } ∧
      State.left w { s with toJoin := ts } < s.left w := by
  have hforked := h.forked
  rw [hjoin] at hforked
  constructor
  · exact ⟨hforked.joins hdone, h.rows, h.through, h.reads, h.behind, h.out⟩
  · unfold State.left
    rw [hjoin, List.length_cons]
    change s.toCreate.length + ts.length + (if s.ended = true then 0 else 1) + s.console.left +
      s.leftOf w .thread1 + s.leftOf w .thread2 < _
    omega

theorem Inv.ends (h : Inv w x y z0 stdout out s) (hcreate : s.toCreate = []) (hjoin : s.toJoin = [])
    (hreader : s.console.reader = .done) (hopen : ¬ s.ended = true) :
    let s' := { s with ended := true, out := s.out ++ entriesText w s.rows.z }
    Inv w x y z0 stdout out s' ∧ s'.left w < s.left w := by
  intro s'
  have hforked := h.forked
  rw [hcreate, hjoin] at hforked
  have hforked' : Forked .unborn .done s.toCreate s.toJoin true s.stage := by
    rw [hcreate, hjoin]
    exact hforked.ends
  have hout := h.out
  rw [if_neg hopen, List.append_nil] at hout
  constructor
  · refine ⟨hforked', h.rows, h.through, h.reads, fun _ => hreader, ?_⟩
    change s.out ++ _ = out ++ if true = true then _ else _
    rw [if_pos rfl, hout]
  · unfold State.left
    rw [if_neg hopen]
    change s.toCreate.length + s.toJoin.length + (if true = true then 0 else 1) + s.console.left +
      s.leftOf w .thread1 + s.leftOf w .thread2 < _
    rw [if_pos rfl]
    omega

/-- All that a step of `main` does: it has ended or waits for a thread, or gets on. -/
theorem mainStep_inv (h : Inv w x y z0 stdout out s) (env : Env) :
    (mainStep env w s = s ∧ (s.ended = true ∨ ∃ t, s.toCreate = [] ∧ s.stage t ≠ .done)) ∨
    (Inv w x y z0 stdout out (mainStep env w s) ∧ (mainStep env w s).left w < s.left w) := by
  unfold mainStep
  split
  next t ts hcreate => exact .inr (h.creates hcreate)
  next hcreate =>
    split
    next hreader => exact .inr (h.prints env (by simp [hreader]))
    next hreader => exact .inr (h.prints env (by simp [hreader]))
    next hreader =>
      split
      next t ts hjoin =>
        split
        next hdone => exact .inr (h.joins hjoin hdone)
        next hopen => exact .inl ⟨rfl, .inr ⟨t, hcreate, hopen⟩⟩
      next hjoin =>
        split
        next hended => exact .inl ⟨rfl, .inl hended⟩
        next hopen => exact .inr (h.ends hcreate hjoin hreader hopen)

/-- A step of a run is none of the console's, or one of the loop behind the creation of the threads. -/
theorem next_console (env : Env) (w : Sizes) (x y : IntMatrix) (s : State) (turn : Option Thread) :
    ((program env w x y).next s turn).console = s.console ∨
      (s.toCreate = [] ∧
        ((program env w x y).next s turn).console = s.console.step env (listed env s)) := by
  cases turn with
  | some t => exact .inl (threadStep_console w x y s t)
  | none =>
    change (mainStep env w s).console = _ ∨ (_ ∧ (mainStep env w s).console = _)
    unfold mainStep
    split
    next => exact .inl rfl
    next hcreate =>
      split
      next => exact .inr ⟨hcreate, rfl⟩
      next => exact .inr ⟨hcreate, rfl⟩
      next =>
        left
        split
        next => split <;> rfl
        next => split <;> rfl

theorem Prints.next (h : Prints stdout text s.console) (env : Env) (w : Sizes) (x y : IntMatrix)
    (turn : Option Thread) : Prints stdout text ((program env w x y).next s turn).console := by
  rcases next_console env w x y s turn with hsame | ⟨-, hstep⟩
  · rw [hsame]
    exact h
  · rw [hstep]
    exact h.step env _

/-- The moment of the read: before it `main` has printed nothing of the proc file, and from then on it
prints the lines of the threads that were in the list. -/
theorem exists_moment (env : Env) (w : Sizes) (x y z : IntMatrix) (stdout old : Bytes)
    (sched : ℕ → Option Thread) {n : ℕ}
    (hread : ¬ Waits stdout ((program env w x y).follow (start w z stdout old) sched n).console) :
    let s := (program env w x y).follow (start w z stdout old) sched
    ∃ k, (s k).toCreate = [] ∧ (∀ n, n ≤ k → Waits stdout (s n).console) ∧
      ∀ n, k < n → Prints stdout (env.lines (listed env (s k))) (s n).console := by
  intro s
  obtain ⟨k, hwaits, hmoved⟩ := (program env w x y).follow_turning
    (P := fun s => Waits stdout s.console) (s := start w z stdout old) rfl hread
  have hnext : s (k + 1) = (program env w x y).next (s k) (sched k) := (program env w x y).follow_succ ..
  change ¬ Waits stdout (s (k + 1)).console at hmoved
  rw [hnext] at hmoved
  rcases next_console env w x y (s k) (sched k) with hsame | ⟨hcreate, hstep⟩
  · rw [hsame] at hmoved
    exact absurd (hwaits k (le_refl k)) hmoved
  · refine ⟨k, hcreate, hwaits, fun n hn => ?_⟩
    induction n, hn using Nat.le_induction with
    | base =>
      change Prints _ _ (s (k + 1)).console
      rw [hnext, hstep]
      exact (hwaits k (le_refl k)).step env (listed_le env _)
    | succ n _ ih =>
      have hnext' : s (n + 1) = (program env w x y).next (s n) (sched n) :=
        (program env w x y).follow_succ ..
      rw [hnext']
      exact ih.next env w x y _

/-! ### Fair schedules -/

/-- The program has `k` left to do. -/
def Underway (w : Sizes) (x y z0 : IntMatrix) (stdout out : Bytes) (k : ℕ) (s : State) : Prop :=
  Inv w x y z0 stdout out s ∧ s.left w = k

def Ended (w : Sizes) (x y z0 : IntMatrix) (stdout out : Bytes) (s : State) : Prop :=
  Inv w x y z0 stdout out s ∧ s.ended = true

/-- Short of the end of `main`, it gets on itself or the thread does that it waits for. -/
theorem getsOn (env : Env) (w : Sizes) (x y z0 : IntMatrix) (stdout out : Bytes) :
    GetsOn (program env w x y) (Underway w x y z0 stdout out) (Ended w x y z0 stdout out)
      fun s t => s.stage t ≠ .unborn ∧ s.stage t ≠ .done where
  main := by
    rintro _ s ⟨hinv, rfl⟩
    rcases mainStep_inv hinv env with ⟨hsame, hended | ⟨t, hcreate, hopen⟩⟩ | ⟨hinv', hless⟩
    · exact .inl ⟨hsame, .inl ⟨hinv, hended⟩⟩
    · have hborn : s.stage t ≠ .unborn := by
        rw [ne_eq, ← hinv.forked.born t, hcreate]
        exact List.not_mem_nil
      exact .inl ⟨hsame, .inr ⟨t, hborn, hopen⟩⟩
    · exact .inr ⟨_, hless, hinv', rfl⟩
  thread := by
    rintro _ s t ⟨hinv, rfl⟩ ⟨hborn, hopen⟩
    obtain ⟨hinv', hless⟩ := hinv.thread_moves hborn hopen
    exact ⟨_, hless, hinv', rfl⟩
  idle s t hidle := by
    apply threadStep_idle
    by_cases hborn : s.stage t = .unborn
    · exact .inl hborn
    · exact .inr (by_contra fun hopen => hidle ⟨hborn, hopen⟩)

theorem next_ended (env : Env) (s : State) (turn : Option Thread) (h : Ended w x y z0 stdout out s) :
    Ended w x y z0 stdout out ((program env w x y).next s turn) := by
  obtain ⟨hinv, hended⟩ := h
  obtain ⟨hcreate, hjoin⟩ := hinv.forked.atEnd hended
  have hreader := hinv.behind hended
  have hsame : (program env w x y).next s turn = s := by
    cases turn with
    | none =>
      change mainStep env w s = s
      unfold mainStep
      rw [hcreate, hreader, hjoin]
      dsimp only
      rw [if_pos hended]
    | some t => exact threadStep_idle (.inr (hinv.forked.all_done hended t))
  rw [hsame]
  exact ⟨hinv, hended⟩

theorem start_inv (w : Sizes) (x y z : IntMatrix) (stdout old : Bytes) :
    Inv w x y z stdout (old ++ headerText w) (start w z stdout old) where
  forked := .start Thread.two_nodup Thread.mem_two
  rows := (RowThreads.atStart_initial w z).inv
  through _ h := by cases h
  reads := .inl rfl
  behind h := by cases h
  out := (List.append_nil _).symm

/-- A thread that has not ended is in the list. -/
theorem listed_of_live {env : Env} (hborn : s.stage t ≠ .unborn) (hopen : s.stage t ≠ .done) :
    t ∈ listed env s := by
  refine List.mem_filter.mpr ⟨by cases t <;> simp, ?_⟩
  cases hstage : s.stage t with
  | unborn => exact absurd hstage hborn
  | rows => rfl
  | done => exact absurd hstage hopen

theorem run_inv (env : Env) (w : Sizes) (x y z : IntMatrix) (stdout old : Bytes)
    (sched : ℕ → Option Thread) (n : ℕ) : Inv w x y z stdout (old ++ headerText w)
      ((program env w x y).follow (start w z stdout old) sched n) := by
  obtain ⟨k, hinv, -⟩ := (getsOn env w x y z stdout _).run ⟨start_inv w x y z stdout old, rfl⟩
    (turns sched 0 n)
  exact hinv

/-- The rows of both threads together are the whole product. -/
theorem Inv.product (h : Inv w x y z0 stdout out s) (hdone : ∀ t, s.stage t = .done) :
    s.rows.z = RowThreads.singleThread w x y z0 :=
  h.rows.single fun t => h.through t (hdone t)

/-- Under a fair schedule there is one moment, behind the creation of the threads, whose list of threads
`main` prints and nothing else, with a line for each thread that has not ended; the program ends, and
`3_1.txt` is as one thread alone would write it. -/
theorem prints_live_threads (env : Env) (w : Sizes) (file1 file2 old : Bytes) (x y z : IntMatrix)
    {sched : ℕ → Option Thread} (hfair : Fair Set.univ sched) :
    let data := dataProcessing w file1 file2 x y
    let s := run env w file1 file2 old x y z sched
    ∃ k, let threads := listed env (s k)
      (s k).toCreate = [] ∧ (∀ t, (s k).stage t ≠ .done → t ∈ threads) ∧
      (∀ n, n ≤ k → (s n).console.stdout = data.stdout) ∧
      (∀ n, (s n).console.stdout <+: data.stdout ++ env.lines threads) ∧
      ∃ n, ∀ n', n ≤ n' → (s n').ended = true ∧
        (s n').console.stdout = data.stdout ++ env.lines threads ∧
        (s n').out = old ++ headerText w ++ entriesText w (RowThreads.singleThread w data.x data.y z) := by
  intro data s
  have hinv (n : ℕ) : Inv w data.x data.y z data.stdout (old ++ headerText w) (s n) := run_inv ..
  obtain ⟨m, hm⟩ := (getsOn env w data.x data.y z data.stdout _).final (next_ended env) hfair
    ⟨start_inv w data.x data.y z data.stdout old, rfl⟩
  have hread (n : ℕ) (hn : m ≤ n) : ¬ Waits data.stdout (s n).console := by
    intro hwaits
    have hreader : (s n).console.reader = .done := (hm n hn).1.behind (hm n hn).2
    have hfirst : (s n).console = ⟨.fgets [], 0, data.stdout⟩ := hwaits
    rw [hfirst] at hreader
    cases hreader
  obtain ⟨k, hcreate, hwaits, hprints⟩ : ∃ k, (s k).toCreate = [] ∧
      (∀ n, n ≤ k → Waits data.stdout (s n).console) ∧
      ∀ n, k < n → Prints data.stdout (env.lines (listed env (s k))) (s n).console :=
    exists_moment env w data.x data.y z data.stdout old sched (hread m (le_refl m))
  have hbefore (n : ℕ) (hn : n ≤ k) : (s n).console.stdout = data.stdout :=
    congrArg Console.stdout (hwaits n hn)
  refine ⟨k, hcreate, ?_, hbefore, ?_, m, ?_⟩
  · intro t hopen
    apply listed_of_live _ hopen
    rw [ne_eq, ← (hinv k).forked.born t, hcreate]
    exact List.not_mem_nil
  · intro n
    rcases Nat.lt_or_ge k n with hlt | hle
    · exact (hprints n hlt).begins
    · rw [hbefore n hle]
      exact List.prefix_append ..
  · intro n hn
    obtain ⟨h, hended⟩ : Ended w data.x data.y z data.stdout (old ++ headerText w) (s n) := hm n hn
    have hlater : k < n := by
      by_contra hle
      exact hread n hn (hwaits n (Nat.le_of_not_lt hle))
    have hall := (hprints n hlater).1
    have hreader : (s n).console.reader = .done := h.behind hended
    rw [hreader] at hall
    refine ⟨hended, (List.append_nil _).symm.trans hall, ?_⟩
    rw [h.out, if_pos hended, h.product (h.forked.all_done hended)]

/- A small process; `thread1` stays in the list when it has ended. -/
def smallEnv : Env where
  tgid := 7
  leader := ⟨7, 120, 0⟩
  task := fun t => if t = .thread1 then ⟨8, 120, 0⟩ else ⟨9, 120, 0⟩
  lingers := fun t => t = .thread1
  leader_pid := rfl
  pid_ne := fun t => by cases t <;> decide
  buf := 0
  mem := Mem.zero

theorem prints_live_threads_two :
    let data := dataProcessing RowThreads.twoRows [] [] (fun _ _ => 2) fun _ _ => 3
    let s := run smallEnv RowThreads.twoRows [] [] [] (fun _ _ => 2) (fun _ _ => 3) (fun _ _ => 0)
      (inTurn .thread1 .thread2)
    ∃ k, let threads := listed smallEnv (s k)
      (s k).toCreate = [] ∧ (∀ t, (s k).stage t ≠ .done → t ∈ threads) ∧
      (∀ n, n ≤ k → (s n).console.stdout = data.stdout) ∧
      (∀ n, (s n).console.stdout <+: data.stdout ++ smallEnv.lines threads) ∧
      ∃ n, ∀ n', n ≤ n' → (s n').ended = true ∧
        (s n').console.stdout = data.stdout ++ smallEnv.lines threads ∧
        (s n').out = [] ++ headerText RowThreads.twoRows ++ entriesText RowThreads.twoRows
          (RowThreads.singleThread RowThreads.twoRows data.x data.y fun _ _ => 0) :=
  prints_live_threads smallEnv RowThreads.twoRows [] [] [] (fun _ _ => 2) (fun _ _ => 3) (fun _ _ => 0)
    Thread.inTurn_fair

end OSLab.LiveThreads
