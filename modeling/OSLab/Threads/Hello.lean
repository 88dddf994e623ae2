import OSLab.Base.ForkJoin
import OSLab.Base.Stdio
import OSLab.Threads.ProcFile
import OSLab.Threads.RowFiles

/-!
# The program of the two messages (Lab3/3_2)

`3_2.c` with two threads, as a whole: `main` reads the matrices, creates the
threads, joins them and writes `z`; a thread computes its rows without a lock,
writes its message to the proc file and prints what it reads back. A step is
one access to `z`, one system call with the `fgets` around it, or one `printf`.
-/

namespace OSLab.Hello
open OSLab.Base OSLab.Matrix OSLab.ProcFile
open OSLab.RowThreads (Sizes dataProcessing headerText entriesText)

/-- The identities, the time each thread has run when it reads, and whether it may open the proc file
for writing. -/
structure Env where
  ids : Ids
  utime : Thread → ℕ
  opens : Thread → Bool

/-- `file` is what the library has read of the proc file and not handed out yet. -/
inductive Stage where
  | unborn
  | rows
  | write
  | fgets (file : Bytes)
  | print (piece file : Bytes)
  | done

/- `printed` are the calls of `printf`, `out` is what has been appended to `3_2.txt`. -/
structure State where
  toCreate : List Thread
  toJoin : List Thread
  ended : Bool
  stage : Thread → Stage
  rows : RowThreads.State
  proc : Module
  printed : List (Thread × Bytes)
  out : Bytes

def State.setStage (s : State) (t : Thread) (st : Stage) : State :=
  { s with stage := Function.update s.stage t st }

/- `fgets(buffer, sizeof(buffer), fptr)` of thread `t`. -/
def fgetsProc (env : Env) (t : Thread) (file : Bytes) (m : Module) : Bytes × Bytes × Module :=
  fgetsFile 10 49 file (myread env.ids m t (env.utime t)) m

/-! ### The steps -/

/- `3_2.c:52-115`, for `THREAD_NUMBER` 2. A thread leaves its loops on the way to its `open`. -/
def threadStep (env : Env) (w : Sizes) (x y : IntMatrix) (s : State) (t : Thread) : State :=
  match s.stage t with
  | .unborn | .done => s
  | .rows =>
    if (s.rows.regs t).pc = .done then s.setStage t .write
    else { s with rows := (RowThreads.threads w x y).next s.rows t }
  | .write =>
    let proc := if env.opens t then (mywrite s.proc (message t)).2 else s.proc
    { s with proc }.setStage t (.fgets [])
  | .fgets file =>
    let got := fgetsProc env t file s.proc
    { s with proc := got.2.2 }.setStage t (if got.1 = [] then .done else .print got.1 got.2.1)
  | .print piece file => { s with printed := s.printed ++ [(t, piece)] }.setStage t (.fgets file)

def Stage.isDone : Stage → Bool
  | .done => true
  | _ => false

/- `3_2.c:142-154`. -/
def mainStep (w : Sizes) (s : State) : State :=
  match s.toCreate with
  | t :: ts => { s with toCreate := ts }.setStage t .rows
  | [] =>
    match s.toJoin with
    | t :: ts => if (s.stage t).isDone then { s with toJoin := ts } else s
    | [] => if s.ended then s else { s with ended := true, out := s.out ++ entriesText w s.rows.z }

/-- A schedule says who has the next turn: a thread, or `main` for `none`. -/
def program (env : Env) (w : Sizes) (x y : IntMatrix) : Machine State (Option Thread) Unit where
  step s turn := ((), match turn with
    | none => mainStep w s
    | some t => threadStep env w x y s t)

/- `main` in front of its first `pthread_create`; `old` was in `3_2.txt`. The module has just been
loaded, and nothing has been written to its proc file yet. -/
def start (w : Sizes) (z : IntMatrix) (old : Bytes) : State where
  toCreate := [.thread1, .thread2]
  toJoin := [.thread1, .thread2]
  ended := false
  stage := fun _ => .unborn
  rows := RowThreads.atStart w z
  proc := Module.init
  printed := []
  out := old ++ headerText w

/-- The program on two files, with what `malloc` has left in the matrices. -/
def run (env : Env) (w : Sizes) (file1 file2 old : Bytes) (x y z : IntMatrix)
    (sched : ℕ → Option Thread) (n : ℕ) : State :=
  let data := dataProcessing w file1 file2 x y
  (program env w data.x data.y).follow (start w z old) sched n

/-! ### What a thread prints -/

def State.shown (s : State) (t : Thread) : Bytes :=
  (s.printed.filter fun call => call.1 = t).flatMap Prod.snd

/- What has been read and not printed yet. -/
def Stage.pending : Stage → Bytes
  | .fgets file => file
  | .print piece file => piece ++ file
  | _ => []

def State.text (s : State) (t : Thread) : Bytes := s.shown t ++ (s.stage t).pending

def Env.line (env : Env) (t : Thread) : Bytes := idLine env.ids t (env.utime t)

/-- One message as a whole, or none where the reader could not write one, and the identity of the
reader. -/
def Whole (env : Env) (t : Thread) (text : Bytes) : Prop :=
  ∃ msg, ((msg = [] ∧ ¬ env.opens t = true) ∨ ∃ u, env.opens u = true ∧ msg = message u) ∧
    text = msg ++ env.line t

/-- How far a thread has got with the proc file: the offset of its file, and what it has printed. -/
def Stage.Ok (env : Env) (t : Thread) (offset : ℕ) (shown : Bytes) : Stage → Prop
  | .unborn | .rows | .write => offset = 0 ∧ shown = []
  | .fgets file => (offset = 0 ∧ shown = [] ∧ file = []) ∨ (0 < offset ∧ Whole env t (shown ++ file))
  | .print piece file => 0 < offset ∧ piece ≠ [] ∧ Whole env t (shown ++ (piece ++ file))
  | .done => 0 < offset ∧ Whole env t shown

def Stage.HasWritten : Stage → Prop
  | .unborn | .rows | .write => False
  | _ => True

/-- Whose message is in the module: nobody's yet, or that of a thread that reads it unless it has read
before. -/
def LastWriter (env : Env) (s : State) : Prop :=
  (cstr s.proc.buf = [] ∧ ∀ t, env.opens t = true → ¬ (s.stage t).HasWritten) ∨
  ∃ t, env.opens t = true ∧ cstr s.proc.buf = message t ∧ (s.stage t).HasWritten ∧
    (0 < s.proc.offset t → s.text t = message t ++ env.line t)

structure Inv (env : Env) (w : Sizes) (x y z0 : IntMatrix) (out : Bytes) (s : State) : Prop where
  forked : Forked .unborn .done s.toCreate s.toJoin s.ended s.stage
  rows : RowThreads.Inv w x y z0 s.rows
  through : ∀ t, s.stage t ≠ .unborn → s.stage t ≠ .rows → (s.rows.regs t).pc = .done
  reads : ∀ t, (s.stage t).Ok env t (s.proc.offset t) (s.shown t)
  writer : LastWriter env s
  out : s.out = out ++ if s.ended then entriesText w s.rows.z else []

variable {env : Env} {w : Sizes} {x y z0 : IntMatrix} {out : Bytes} {s : State} {t : Thread}

theorem line_ne_nil (env : Env) (t : Thread) : env.line t ≠ [] := by
  unfold Env.line idLine
  apply List.append_ne_nil_of_right_ne_nil
  decide

/-- Once a thread has read, `fgets` hands out what it has, and nothing when that is nothing. -/
theorem fgetsProc_behind (env : Env) {m : Module} (h : 0 < m.offset t) (file : Bytes) :
    (fgetsProc env t file m).1 ++ (fgetsProc env t file m).2.1 = file ∧
      (fgetsProc env t file m).2.2 = m ∧ ((fgetsProc env t file m).1 = [] → file = []) := by
  have hread : myread env.ids m t (env.utime t) = ([], m) := by simp only [myread, h, ite_true]
  unfold fgetsProc
  rw [hread]
  exact fgetsFile_behind _ (by decide) file m

/-- The first `fgets` of a thread reads the whole text of the module, and hands out a part of it. -/
theorem fgetsProc_first (env : Env) {m : Module} (h : m.offset t = 0) :
    let r := fgetsProc env t [] m
    r.1 ++ r.2.1 = cstr m.buf ++ env.line t ∧ r.1 ≠ [] ∧ r.2.2.buf = m.buf ∧ 0 < r.2.2.offset t ∧
      ∀ u, u ≠ t → r.2.2.offset u = m.offset u := by
  intro r
  obtain ⟨htext, hoffset⟩ := myread_first env.ids h (env.utime t)
  have hr : r = ((fgets 10 49 (cstr m.buf ++ env.line t)).1, (fgets 10 49 (cstr m.buf ++ env.line t)).2,
      (myread env.ids m t (env.utime t)).2) := by
    rw [Env.line, ← htext]
    exact fgetsFile_first _ (by decide) ..
  rw [hr]
  refine ⟨fgets_append .., ?_, (myread_frame (t := t) env.ids m t _).1, hoffset, fun u hu => ?_⟩
  · intro hnil
    have hall := fgets_some (by decide) hnil
    exact line_ne_nil env t (List.append_eq_nil_iff.mp hall).2
  · exact (myread_frame env.ids m t _).2 hu

theorem shown_snoc (s : State) (t u : Thread) (piece : Bytes) :
    State.shown { s with printed := s.printed ++ [(u, piece)] } t =
      s.shown t ++ if u = t then piece else [] := by
  unfold State.shown
  rw [List.filter_append, List.flatMap_append]
  by_cases hu : u = t
  · simp [hu]
  · simp [hu]

/-- Thread `t` goes on to the stage `st`, and the other thread stays where it was. -/
structure Moves (t : Thread) (st : Stage) (s s' : State) : Prop where
  create : s'.toCreate.length ≤ s.toCreate.length
  join : s'.toJoin = s.toJoin
  ended : s'.ended = s.ended
  out : s'.out = s.out
  stage : s'.stage = Function.update s.stage t st
  regs : ∀ u, u ≠ t → s'.rows.regs u = s.rows.regs u
  offset : ∀ u, u ≠ t → s'.proc.offset u = s.proc.offset u
  shown : ∀ u, u ≠ t → s'.shown u = s.shown u

variable {st : Stage} {s' : State}

theorem Moves.self (h : Moves t st s s') : s'.stage t = st := by rw [h.stage, Function.update_self]

theorem Moves.other (h : Moves t st s s') {u : Thread} (hu : u ≠ t) : s'.stage u = s.stage u := by
  rw [h.stage, Function.update_of_ne hu]

theorem Inv.moves (h : Inv env w x y z0 out s) (hmoves : Moves t st s s') (hopen : s.stage t ≠ .done)
    (hforked : Forked .unborn .done s'.toCreate s'.toJoin s'.ended s'.stage)
    (hrows : RowThreads.Inv w x y z0 s'.rows)
    (hthrough : st ≠ .rows → (s'.rows.regs t).pc = .done)
    (hreads : st.Ok env t (s'.proc.offset t) (s'.shown t)) (hwriter : LastWriter env s') :
    Inv env w x y z0 out s' := by
  constructor
  case forked => exact hforked
  case rows => exact hrows
  case through =>
    intro u hne hne'
    by_cases hu : u = t
    · subst hu
      rw [hmoves.self] at hne'
      exact hthrough hne'
    · rw [hmoves.other hu] at hne hne'
      rw [hmoves.regs u hu]
      exact h.through u hne hne'
  case reads =>
    intro u
    by_cases hu : u = t
    · subst hu
      rw [hmoves.self]
      exact hreads
    · rw [hmoves.other hu, hmoves.offset u hu, hmoves.shown u hu]
      exact h.reads u
  case writer => exact hwriter
  case out =>
    have hrunning : ¬ s.ended = true := by
      rw [h.forked.not_ended hopen]
      decide
    rw [hmoves.out, h.out, hmoves.ended, if_neg hrunning, if_neg hrunning]

/-- A thread behind its loops goes on. -/
theorem Inv.goes (h : Inv env w x y z0 out s) (hmoves : Moves t st s s') (hborn : s.stage t ≠ .unborn)
    (hopen : s.stage t ≠ .done) (hnew : st ≠ .unborn) (hthrough : (s.rows.regs t).pc = .done)
    (hcreate : s'.toCreate = s.toCreate) (hrows : s'.rows = s.rows)
    (hreads : st.Ok env t (s'.proc.offset t) (s'.shown t)) (hwriter : LastWriter env s') :
    Inv env w x y z0 out s' := by
  apply h.moves hmoves hopen
  · rw [hcreate, hmoves.join, hmoves.ended, hmoves.stage]
    exact h.forked.moves hborn hopen hnew
  · rw [hrows]
    exact h.rows
  · intro _
    rw [hrows]
    exact hthrough
  · exact hreads
  · exact hwriter

theorem Moves.text_other (h : Moves t st s s') {u : Thread} (hu : u ≠ t) : s'.text u = s.text u := by
  unfold State.text
  rw [h.shown u hu, h.other hu]

/-- The last writer stays the last writer when thread `t` does not write. -/
theorem LastWriter.kept (h : LastWriter env s) (hmoves : Moves t st s s')
    (hbuf : cstr s'.proc.buf = cstr s.proc.buf)
    (hwritten : env.opens t = true → (st.HasWritten ↔ (s.stage t).HasWritten))
    (htext : cstr s.proc.buf = message t → 0 < s'.proc.offset t →
      (0 < s.proc.offset t ∧ s'.text t = s.text t) ∨ s'.text t = message t ++ env.line t) :
    LastWriter env s' := by
  have hsame (u : Thread) (hopens : env.opens u = true) :
      (s'.stage u).HasWritten ↔ (s.stage u).HasWritten := by
    by_cases hu : u = t
    · subst hu
      rw [hmoves.self]
      exact hwritten hopens
    · rw [hmoves.other hu]
  rcases h with ⟨hnil, hnone⟩ | ⟨u, hopens, hmsg, hhas, hread⟩
  · left
    rw [hbuf]
    exact ⟨hnil, fun u hu => (not_congr (hsame u hu)).mpr (hnone u hu)⟩
  · right
    refine ⟨u, hopens, hbuf.trans hmsg, (hsame u hopens).mpr hhas, fun hoffset => ?_⟩
    by_cases hu : u = t
    · subst hu
      rcases htext hmsg hoffset with ⟨hold, htext'⟩ | hnow
      · rw [htext']
        exact hread hold
      · exact hnow
    · rw [hmoves.offset u hu] at hoffset
      rw [hmoves.text_other hu]
      exact hread hoffset

/-! ### What is left to do -/

/- No text of the module is longer for this reader. -/
def Env.room (env : Env) (t : Thread) : ℕ := 21 + (env.line t).length

def Stage.left (env : Env) (t : Thread) (steps offset : ℕ) : Stage → ℕ
  | .unborn => steps + 2 * env.room t + 4
  | .rows => steps + 2 * env.room t + 3
  | .write => 2 * env.room t + 2
  | .fgets file => 2 * (file.length + if offset = 0 then env.room t else 0) + 1
  | .print piece file => 2 * (piece.length + file.length)
  | .done => 0

def State.leftOf (env : Env) (w : Sizes) (s : State) (t : Thread) : ℕ :=
  (s.stage t).left env t ((s.rows.regs t).stepsLeft w (w.last t)) (s.proc.offset t)

def State.left (env : Env) (w : Sizes) (s : State) : ℕ :=
  s.toCreate.length + s.toJoin.length + (if s.ended then 0 else 1) + s.leftOf env w .thread1 +
    s.leftOf env w .thread2

theorem Moves.leftOf_other (h : Moves t st s s') (env : Env) (w : Sizes) {u : Thread} (hu : u ≠ t) :
    s'.leftOf env w u = s.leftOf env w u := by
  unfold State.leftOf
  rw [h.other hu, h.regs u hu, h.offset u hu]

theorem Moves.left (h : Moves t st s s') (hless : s'.leftOf env w t < s.leftOf env w t) :
    s'.left env w < s.left env w := by
  have hcreate := h.create
  unfold State.left
  rw [h.join, h.ended]
  cases t with
  | thread1 =>
    rw [h.leftOf_other env w (u := .thread2) (by decide)]
    omega
  | thread2 =>
    rw [h.leftOf_other env w (u := .thread1) (by decide)]
    omega

/-! ### The steps of a thread -/

theorem Inv.computes (h : Inv env w x y z0 out s) (hstage : s.stage t = .rows)
    (hpc : (s.rows.regs t).pc ≠ .done) :
    let s' := { s with rows := (RowThreads.threads w x y).next s.rows t }
    Inv env w x y z0 out s' ∧ s'.left env w < s.left env w := by
  intro s'
  have hmoves : Moves t .rows s s' :=
    { create := le_refl _
      join := rfl
      ended := rfl
      out := rfl
      stage := by rw [← hstage, Function.update_eq_self]
      regs := fun u hu => Function.update_of_ne hu ..
      offset := fun _ _ => rfl
      shown := fun _ _ => rfl }
  have hreads := h.reads t
  rw [hstage] at hreads
  constructor
  · exact h.moves hmoves (by simp [hstage]) h.forked (h.rows.step t) (by simp) hreads h.writer
  · apply hmoves.left
    have hstep := RowThreads.stepsLeft_step w x y s.rows.z (w.last t) (s.rows.regs t)
    have hsome : (s.rows.regs t).stepsLeft w (w.last t) ≠ 0 :=
      fun hzero => hpc (RowThreads.done_of_stepsLeft hzero)
    have hregs : s'.rows.regs t = (RowThreads.threadStep w x y (w.last t)
        (s.rows.regs t) s.rows.z).1 := Function.update_self ..
    unfold State.leftOf
    rw [hmoves.self, hregs, hstep]
    simp only [Stage.left]
    omega

theorem Inv.leaves (h : Inv env w x y z0 out s) (hstage : s.stage t = .rows)
    (hpc : (s.rows.regs t).pc = .done) :
    Inv env w x y z0 out (s.setStage t .write) ∧ (s.setStage t .write).left env w < s.left env w := by
  have hmoves : Moves t .write s (s.setStage t .write) :=
    ⟨le_refl _, rfl, rfl, rfl, rfl, fun _ _ => rfl, fun _ _ => rfl, fun _ _ => rfl⟩
  have hreads := h.reads t
  rw [hstage] at hreads
  constructor
  · apply h.goes hmoves (by simp [hstage]) (by simp [hstage]) (by simp) hpc rfl rfl hreads
    refine h.writer.kept hmoves rfl (fun _ => by rw [hstage]; rfl) ?_
    intro _ hoffset
    exact absurd hreads.1 hoffset.ne'
  · apply hmoves.left
    unfold State.leftOf
    rw [hmoves.self, hstage]
    simp only [Stage.left]
    omega

theorem Inv.writes (h : Inv env w x y z0 out s) (hstage : s.stage t = .write) :
    let proc := if env.opens t then (mywrite s.proc (message t)).2 else s.proc
    let s' := { s with proc }.setStage t (.fgets [])
    Inv env w x y z0 out s' ∧ s'.left env w < s.left env w := by
  intro proc s'
  have hoffset (u : Thread) : proc.offset u = s.proc.offset u := by
    change (if env.opens t = true then _ else _ : Module).offset u = _
    split <;> rfl
  have hmoves : Moves t (.fgets []) s s' :=
    ⟨le_refl _, rfl, rfl, rfl, rfl, fun _ _ => rfl, fun u _ => hoffset u, fun _ _ => rfl⟩
  have hreads := h.reads t
  rw [hstage] at hreads
  obtain ⟨hzero, hnone⟩ := hreads
  have hpc := h.through t (by simp [hstage]) (by simp [hstage])
  constructor
  · apply h.goes hmoves (by simp [hstage]) (by simp [hstage]) (by simp) hpc rfl rfl
    · exact .inl ⟨(hoffset t).trans hzero, hnone, rfl⟩
    · by_cases hopens : env.opens t = true
      · right
        refine ⟨t, hopens, ?_, ?_, ?_⟩
        · change cstr (if env.opens t = true then _ else _ : Module).buf = _
          rw [if_pos hopens, mywrite_text]
        · rw [hmoves.self]
          trivial
        · intro hpos
          exact absurd ((hoffset t).trans hzero) hpos.ne'
      · apply h.writer.kept hmoves
        · change cstr (if env.opens t = true then _ else _ : Module).buf = _
          rw [if_neg hopens]
        · exact fun hyes => absurd hyes hopens
        · intro _ hpos
          exact absurd ((hoffset t).trans hzero) hpos.ne'
  · apply hmoves.left
    unfold State.leftOf
    rw [hmoves.self, hstage]
    simp only [Stage.left, List.length_nil]
    split <;> omega

theorem message_le (u : Thread) : (message u).length ≤ 21 := (message_length u).le

/-- The text of the module is a whole message, or none when the reader has not written. -/
theorem LastWriter.text (h : LastWriter env s) (hhas : (s.stage t).HasWritten) :
    Whole env t (cstr s.proc.buf ++ env.line t) ∧ (cstr s.proc.buf ++ env.line t).length ≤ env.room t := by
  have hroom (msg : Bytes) (hlen : msg.length ≤ 21) : (msg ++ env.line t).length ≤ env.room t := by
    rw [List.length_append]
    exact Nat.add_le_add_right hlen _
  rcases h with ⟨hnil, hnone⟩ | ⟨u, hopens, hmsg, -⟩
  · rw [hnil]
    exact ⟨⟨[], .inl ⟨rfl, fun hyes => hnone t hyes hhas⟩, rfl⟩, hroom [] (Nat.zero_le _)⟩
  · rw [hmsg]
    exact ⟨⟨message u, .inr ⟨u, hopens, rfl⟩, rfl⟩, hroom _ (message_le u)⟩

/-- The first `fgets` of a thread. -/
theorem Inv.reads_first (h : Inv env w x y z0 out s) (hstage : s.stage t = .fgets [])
    (hzero : s.proc.offset t = 0) (hnone : s.shown t = []) :
    let got := fgetsProc env t [] s.proc
    let s' := { s with proc := got.2.2 }.setStage t (.print got.1 got.2.1)
    Inv env w x y z0 out s' ∧ s'.left env w < s.left env w := by
  intro got s'
  obtain ⟨htext, hsome, hbuf, hpos, hoffset⟩ := fgetsProc_first env hzero
  have hmoves : Moves t (.print got.1 got.2.1) s s' :=
    ⟨le_refl _, rfl, rfl, rfl, rfl, fun _ _ => rfl, hoffset, fun _ _ => rfl⟩
  have hpc := h.through t (by simp [hstage]) (by simp [hstage])
  obtain ⟨hwhole, hroom⟩ := h.writer.text (t := t) (by rw [hstage]; trivial)
  have hshown : s'.shown t = [] := hnone
  constructor
  · apply h.goes hmoves (by simp [hstage]) (by simp [hstage]) (by simp) hpc rfl rfl
    · refine ⟨hpos, hsome, ?_⟩
      rw [hshown, List.nil_append, htext]
      exact hwhole
    · apply h.writer.kept hmoves (congrArg cstr hbuf)
      · intro _
        rw [hstage]
        rfl
      · intro hmsg _
        right
        unfold State.text
        rw [hshown, hmoves.self, List.nil_append, ← hmsg]
        exact htext
  · apply hmoves.left
    have hlen := congrArg List.length htext
    rw [List.length_append] at hlen
    change got.1.length + got.2.1.length = _ at hlen
    unfold State.leftOf
    rw [hmoves.self, hstage]
    simp only [Stage.left, hzero, ite_true, List.length_nil]
    omega

/-- A later `fgets` hands out the next piece. -/
theorem Inv.reads_on (h : Inv env w x y z0 out s) {file : Bytes} (hstage : s.stage t = .fgets file)
    (hpos : 0 < s.proc.offset t) (hwhole : Whole env t (s.shown t ++ file)) :
    let got := fgetsProc env t file s.proc
    let s' := { s with proc := got.2.2 }.setStage t (if got.1 = [] then .done else .print got.1 got.2.1)
    Inv env w x y z0 out s' ∧ s'.left env w < s.left env w := by
  intro got s'
  obtain ⟨hfile, hproc, hend⟩ := fgetsProc_behind env hpos file
  have hpc := h.through t (by simp [hstage]) (by simp [hstage])
  have hpositive : s.proc.offset t ≠ 0 := hpos.ne'
  have hshown : s'.shown t = s.shown t := rfl
  have hproc' : s'.proc = s.proc := hproc
  have hmoves : Moves t (if got.1 = [] then .done else .print got.1 got.2.1) s s' :=
    ⟨le_refl _, rfl, rfl, rfl, rfl, fun _ _ => rfl, fun u _ => by rw [hproc'], fun _ _ => rfl⟩
  have hpending : (s'.stage t).pending = file := by
    rw [hmoves.self]
    split
    next hnil => exact (hend hnil).symm
    next => exact hfile
  constructor
  · apply h.goes hmoves (by simp [hstage]) (by simp [hstage]) (by split <;> simp) hpc rfl rfl
    · rw [hproc', hshown]
      split
      next hnil =>
        rw [hend hnil, List.append_nil] at hwhole
        exact ⟨hpos, hwhole⟩
      next hsome =>
        refine ⟨hpos, hsome, ?_⟩
        rw [hfile]
        exact hwhole
    · apply h.writer.kept hmoves
      · rw [hproc']
      · intro _
        rw [hstage]
        split <;> rfl
      · intro _ _
        left
        refine ⟨hpos, ?_⟩
        unfold State.text
        rw [hshown, hpending, hstage]
        rfl
  · apply hmoves.left
    have hlen := congrArg List.length hfile
    rw [List.length_append] at hlen
    unfold State.leftOf
    rw [hmoves.self, hstage, hproc']
    split
    next => simp only [Stage.left, Nat.zero_lt_succ]
    next =>
      simp only [Stage.left, hpositive, ite_false]
      change got.1.length + got.2.1.length = file.length at hlen
      omega

theorem Inv.prints (h : Inv env w x y z0 out s) {piece file : Bytes}
    (hstage : s.stage t = .print piece file) :
    let s' := { s with printed := s.printed ++ [(t, piece)] }.setStage t (.fgets file)
    Inv env w x y z0 out s' ∧ s'.left env w < s.left env w := by
  intro s'
  have hreads := h.reads t
  rw [hstage] at hreads
  obtain ⟨hpos, hsome, hwhole⟩ := hreads
  have hpc := h.through t (by simp [hstage]) (by simp [hstage])
  have hshown : s'.shown t = s.shown t ++ piece := by
    refine (shown_snoc s t t piece).trans ?_
    rw [if_pos rfl]
  have hmoves : Moves t (.fgets file) s s' :=
    { create := le_refl _
      join := rfl
      ended := rfl
      out := rfl
      stage := rfl
      regs := fun _ _ => rfl
      offset := fun _ _ => rfl
      shown := fun u hu => by
        refine (shown_snoc s u t piece).trans ?_
        rw [if_neg hu.symm, List.append_nil] }
  constructor
  · apply h.goes hmoves (by simp [hstage]) (by simp [hstage]) (by simp) hpc rfl rfl
    · refine .inr ⟨hpos, ?_⟩
      rw [hshown, List.append_assoc]
      exact hwhole
    · apply h.writer.kept hmoves rfl
      · intro _
        rw [hstage]
        rfl
      · intro _ _
        left
        refine ⟨hpos, ?_⟩
        unfold State.text
        rw [hshown, hmoves.self, hstage, List.append_assoc]
        rfl
  · apply hmoves.left
    have hlen := List.length_pos_iff.mpr hsome
    have hpositive : s.proc.offset t ≠ 0 := hpos.ne'
    have hoffset : s'.proc.offset t ≠ 0 := hpositive
    unfold State.leftOf
    rw [hmoves.self, hstage]
    simp only [Stage.left, hoffset, ite_false]
    omega

/-- A thread that is born and has not ended gets on in each of its turns. -/
theorem Inv.thread_moves (h : Inv env w x y z0 out s) (hborn : s.stage t ≠ .unborn)
    (hopen : s.stage t ≠ .done) : Inv env w x y z0 out (threadStep env w x y s t) ∧
      (threadStep env w x y s t).left env w < s.left env w := by
  unfold threadStep
  cases hstage : s.stage t with
  | unborn => exact absurd hstage hborn
  | done => exact absurd hstage hopen
  | rows =>
    dsimp only
    split
    next hpc => exact h.leaves hstage hpc
    next hpc => exact h.computes hstage hpc
  | write => exact h.writes hstage
  | fgets file =>
    have hreads := h.reads t
    rw [hstage] at hreads
    rcases hreads with ⟨hzero, hnone, rfl⟩ | ⟨hpos, hwhole⟩
    · have hsome := (fgetsProc_first env hzero).2.1
      dsimp only
      rw [if_neg hsome]
      exact h.reads_first hstage hzero hnone
    · exact h.reads_on hstage hpos hwhole
  | print piece file => exact h.prints hstage

theorem threadStep_idle (h : s.stage t = .unborn ∨ s.stage t = .done) :
    threadStep env w x y s t = s := by
  unfold threadStep
  rcases h with h | h <;> rw [h]

/-! ### The steps of `main` -/

theorem Inv.creates (h : Inv env w x y z0 out s) {ts : List Thread} (hcreate : s.toCreate = t :: ts) :
    let s' := { s with toCreate := ts }.setStage t .rows
    Inv env w x y z0 out s' ∧ s'.left env w < s.left env w := by
  intro s'
  have hforked := h.forked
  rw [hcreate] at hforked
  have hunborn := (hforked.born t).mp List.mem_cons_self
  have hreads := h.reads t
  rw [hunborn] at hreads
  have hmoves : Moves t .rows s s' :=
    { create := by
        rw [hcreate]
        exact Nat.le_succ _
      join := rfl
      ended := rfl
      out := rfl
      stage := rfl
      regs := fun _ _ => rfl
      offset := fun _ _ => rfl
      shown := fun _ _ => rfl }
  constructor
  · apply h.moves hmoves (by simp [hunborn]) (hforked.created (by simp) (by simp)) h.rows (by simp) hreads
    apply h.writer.kept hmoves rfl
    · intro _
      rw [hunborn]
      rfl
    · intro _ hpos
      exact absurd hreads.1 hpos.ne'
  · apply hmoves.left
    have hrows : s'.rows = s.rows := rfl
    unfold State.leftOf
    rw [hmoves.self, hunborn, hrows]
    simp only [Stage.left]
    omega

theorem isDone_iff {st : Stage} : st.isDone = true ↔ st = .done := by
  cases st <;> simp [Stage.isDone]

theorem Inv.joins (h : Inv env w x y z0 out s) {ts : List Thread} (hjoin : s.toJoin = t :: ts)
    (hdone : s.stage t = .done) : Inv env w x y z0 out { s with toJoin := ts } ∧
      State.left env w { s with toJoin := ts } < s.left env w := by
  have hforked := h.forked
  rw [hjoin] at hforked
  constructor
  · exact ⟨hforked.joins hdone, h.rows, h.through, h.reads, h.writer, h.out⟩
  · unfold State.left
    rw [hjoin, List.length_cons]
    change s.toCreate.length + ts.length + (if s.ended = true then 0 else 1) +
      s.leftOf env w .thread1 + s.leftOf env w .thread2 < _
    omega

theorem Inv.ends (h : Inv env w x y z0 out s) (hcreate : s.toCreate = []) (hjoin : s.toJoin = [])
    (hopen : ¬ s.ended = true) :
    let s' := { s with ended := true, out := s.out ++ entriesText w s.rows.z }
    Inv env w x y z0 out s' ∧ s'.left env w < s.left env w := by
  intro s'
  have hforked := h.forked
  rw [hcreate, hjoin] at hforked
  have hforked' : Forked .unborn .done s.toCreate s.toJoin true s.stage := by
    rw [hcreate, hjoin]
    exact hforked.ends
  have hout := h.out
  rw [if_neg hopen, List.append_nil] at hout
  constructor
  · refine ⟨hforked', h.rows, h.through, h.reads, h.writer, ?_⟩
    change s.out ++ _ = out ++ if true = true then _ else _
    rw [if_pos rfl, hout]
  · unfold State.left
    rw [if_neg hopen]
    change _ + _ + (if true = true then 0 else 1) + s.leftOf env w .thread1 + s.leftOf env w .thread2 < _
    rw [if_pos rfl]
    exact Nat.add_lt_add_right (Nat.add_lt_add_right (Nat.lt_succ_self _) _) _

/-- All that a step of `main` does: it has ended or waits for a thread, or gets on. -/
theorem mainStep_inv (h : Inv env w x y z0 out s) :
    (mainStep w s = s ∧
      (s.ended = true ∨ ∃ t, s.toCreate = [] ∧ s.stage t ≠ .done)) ∨
    (Inv env w x y z0 out (mainStep w s) ∧ (mainStep w s).left env w < s.left env w) := by
  unfold mainStep
  split
  next t ts hcreate => exact .inr (h.creates hcreate)
  next hcreate =>
    split
    next t ts hjoin =>
      split
      next hdone => exact .inr (h.joins hjoin (isDone_iff.mp hdone))
      next hopen => exact .inl ⟨rfl, .inr ⟨t, hcreate, fun hdone => hopen (isDone_iff.mpr hdone)⟩⟩
    next hjoin =>
      split
      next hended => exact .inl ⟨rfl, .inl hended⟩
      next hopen => exact .inr (h.ends hcreate hjoin hopen)

/-! ### Fair schedules -/

/-- The program has `k` left to do. -/
def Underway (env : Env) (w : Sizes) (x y z0 : IntMatrix) (out : Bytes) (k : ℕ) (s : State) : Prop :=
  Inv env w x y z0 out s ∧ s.left env w = k

def Ended (env : Env) (w : Sizes) (x y z0 : IntMatrix) (out : Bytes) (s : State) : Prop :=
  Inv env w x y z0 out s ∧ s.ended = true

/-- Short of the end of `main`, it gets on itself or the thread does that it waits for. -/
theorem getsOn (env : Env) (w : Sizes) (x y z0 : IntMatrix) (out : Bytes) :
    GetsOn (program env w x y) (Underway env w x y z0 out) (Ended env w x y z0 out)
      fun s t => s.stage t ≠ .unborn ∧ s.stage t ≠ .done where
  main := by
    rintro _ s ⟨hinv, rfl⟩
    rcases mainStep_inv hinv with ⟨hsame, hended | ⟨t, hcreate, hopen⟩⟩ | ⟨hinv', hless⟩
    · exact .inl ⟨hsame, .inl ⟨hinv, hended⟩⟩
    · have hborn : s.stage t ≠ .unborn := by
        rw [ne_eq, ← hinv.forked.born t, hcreate]
        exact List.not_mem_nil
      exact .inl ⟨hsame, .inr ⟨t, hborn, hopen⟩⟩
    · exact .inr ⟨_, hless, hinv', rfl⟩
  thread := by
    rintro _ s t ⟨hinv, rfl⟩ ⟨hborn, hopen⟩
    obtain ⟨hinv', hless⟩ := hinv.thread_moves hborn hopen
    exact ⟨_, hless, hinv', rfl⟩
  idle s t hidle := by
    apply threadStep_idle
    by_cases hborn : s.stage t = .unborn
    · exact .inl hborn
    · exact .inr (by_contra fun hopen => hidle ⟨hborn, hopen⟩)

theorem next_ended (s : State) (turn : Option Thread) (h : Ended env w x y z0 out s) :
    Ended env w x y z0 out ((program env w x y).next s turn) := by
  obtain ⟨hinv, hended⟩ := h
  obtain ⟨hcreate, hjoin⟩ := hinv.forked.atEnd hended
  have hsame : (program env w x y).next s turn = s := by
    cases turn with
    | none =>
      change mainStep w s = s
      unfold mainStep
      rw [hcreate, hjoin]
      dsimp only
      rw [if_pos hended]
    | some t => exact threadStep_idle (.inr (hinv.forked.all_done hended t))
  rw [hsame]
  exact ⟨hinv, hended⟩

theorem start_inv (env : Env) (w : Sizes) (x y z : IntMatrix) (old : Bytes) :
    Inv env w x y z (old ++ headerText w) (start w z old) where
  forked := .start Thread.two_nodup Thread.mem_two
  rows := (RowThreads.atStart_initial w z).inv
  through t h := absurd rfl h
  reads _ := ⟨rfl, rfl⟩
  writer := by
    left
    refine ⟨?_, fun _ _ h => h⟩
    change cstr (List.replicate BUFSIZE 0) = []
    rfl
  out := (List.append_nil _).symm

theorem run_inv (env : Env) (w : Sizes) (x y z : IntMatrix) (old : Bytes) (turns : List (Option Thread)) :
    Inv env w x y z (old ++ headerText w) ((program env w x y).run (start w z old) turns) := by
  obtain ⟨k, hinv, -⟩ := (getsOn env w x y z _).run ⟨start_inv env w x y z old, rfl⟩ turns
  exact hinv

theorem Inv.shown_begins (h : Inv env w x y z0 out s) (t : Thread) :
    ∃ text, Whole env t text ∧ s.shown t <+: text := by
  have hreads := h.reads t
  have hnone (hnil : s.shown t = []) : ∃ text, Whole env t text ∧ s.shown t <+: text := by
    rw [hnil]
    by_cases hopens : env.opens t = true
    · exact ⟨_, ⟨message t, .inr ⟨t, hopens, rfl⟩, rfl⟩, List.nil_prefix⟩
    · exact ⟨_, ⟨[], .inl ⟨rfl, hopens⟩, rfl⟩, List.nil_prefix⟩
  cases hstage : s.stage t with
  | unborn =>
    rw [hstage] at hreads
    exact hnone hreads.2
  | rows =>
    rw [hstage] at hreads
    exact hnone hreads.2
  | write =>
    rw [hstage] at hreads
    exact hnone hreads.2
  | fgets file =>
    rw [hstage] at hreads
    rcases hreads with ⟨-, hnil, -⟩ | ⟨-, hwhole⟩
    · exact hnone hnil
    · exact ⟨_, hwhole, List.prefix_append ..⟩
  | print piece file =>
    rw [hstage] at hreads
    exact ⟨_, hreads.2.2, List.prefix_append ..⟩
  | done =>
    rw [hstage] at hreads
    exact ⟨_, hreads.2, List.prefix_rfl⟩

/-- The rows of both threads together are the whole product. -/
theorem Inv.product (h : Inv env w x y z0 out s) (hdone : ∀ t, s.stage t = .done) :
    s.rows.z = RowThreads.singleThread w x y z0 := by
  have hfinished : RowThreads.Finished s.rows := by
    intro t
    cases t with
    | thread1 => exact h.through .thread1 (by simp [hdone]) (by simp [hdone])
    | thread2 => exact h.through .thread2 (by simp [hdone]) (by simp [hdone])
  exact h.rows.single hfinished

/-- Who has written last has printed its own message. -/
theorem Inv.own_message (h : Inv env w x y z0 out s) (hdone : ∀ t, s.stage t = .done)
    (hopens : ∃ t, env.opens t = true) :
    ∃ t, env.opens t = true ∧ s.shown t = message t ++ env.line t := by
  rcases h.writer with ⟨-, hnone⟩ | ⟨t, hyes, -, -, htext⟩
  · obtain ⟨t, ht⟩ := hopens
    refine absurd ?_ (hnone t ht)
    rw [hdone t]
    trivial
  · have hreads := h.reads t
    rw [hdone t] at hreads
    have hshown := htext hreads.1
    unfold State.text at hshown
    rw [hdone t] at hshown
    refine ⟨t, hyes, ?_⟩
    rw [← hshown]
    exact (List.append_nil _).symm

/-- In every run what a thread has printed is the beginning of one whole message, or none, and its own
line. -/
theorem shown_begins (env : Env) (w : Sizes) (file1 file2 old : Bytes) (x y z : IntMatrix)
    (sched : ℕ → Option Thread) (n : ℕ) (t : Thread) :
    ∃ text, Whole env t text ∧ (run env w file1 file2 old x y z sched n).shown t <+: text :=
  let data := dataProcessing w file1 file2 x y
  (run_inv env w data.x data.y z old (turns sched 0 n)).shown_begins t

/-- Under a fair schedule the program ends too, `3_2.txt` is as one thread alone would write it, each
thread has printed such a text, and one that could write has printed its own message. -/
theorem threads_say_hello (env : Env) (w : Sizes) (file1 file2 old : Bytes) (x y z : IntMatrix)
    {sched : ℕ → Option Thread} (hfair : Fair Set.univ sched) :
    let data := dataProcessing w file1 file2 x y
    (∀ n t, ∃ text, Whole env t text ∧ (run env w file1 file2 old x y z sched n).shown t <+: text) ∧
    ∃ n, ∀ n', n ≤ n' →
      let s := run env w file1 file2 old x y z sched n'
      s.ended = true ∧
        s.out = old ++ headerText w ++ entriesText w (RowThreads.singleThread w data.x data.y z) ∧
        (∀ t, Whole env t (s.shown t)) ∧
        ((∃ t, env.opens t = true) → ∃ t, env.opens t = true ∧ s.shown t = message t ++ env.line t) := by
  intro data
  refine ⟨shown_begins env w file1 file2 old x y z sched, ?_⟩
  obtain ⟨n, hn⟩ := (getsOn env w data.x data.y z _).final next_ended hfair
    ⟨start_inv env w data.x data.y z old, rfl⟩
  refine ⟨n, ?_⟩
  intro n' hle s
  obtain ⟨h, hended⟩ : Ended env w data.x data.y z (old ++ headerText w) s := hn n' hle
  have hdone := h.forked.all_done hended
  refine ⟨hended, ?_, ?_, h.own_message hdone⟩
  · rw [h.out, if_pos hended, h.product hdone]
  · intro t
    have hreads := h.reads t
    rw [hdone t] at hreads
    exact hreads.2

/- Two small processes, the second of which may not write. -/
def twoEnv : Env := ⟨⟨7, fun _ => 8⟩, fun _ => 0, fun t => t = .thread1⟩

theorem threads_say_hello_two :
    let data := dataProcessing RowThreads.twoRows [] [] (fun _ _ => 2) fun _ _ => 3
    let s (n : ℕ) : State := run twoEnv RowThreads.twoRows [] [] [] (fun _ _ => 2) (fun _ _ => 3)
      (fun _ _ => 0) (Base.inTurn .thread1 .thread2) n
    (∀ n t, ∃ text, Whole twoEnv t text ∧ (s n).shown t <+: text) ∧
    ∃ n, ∀ n', n ≤ n' → (s n').ended = true ∧
      (s n').out = [] ++ headerText RowThreads.twoRows ++ entriesText RowThreads.twoRows
        (RowThreads.singleThread RowThreads.twoRows data.x data.y fun _ _ => 0) ∧
      (∀ t, Whole twoEnv t ((s n').shown t)) ∧
      ((∃ t, twoEnv.opens t = true) → ∃ t, twoEnv.opens t = true ∧
        (s n').shown t = message t ++ twoEnv.line t) :=
  threads_say_hello twoEnv RowThreads.twoRows [] [] [] (fun _ _ => 2) (fun _ _ => 3) (fun _ _ => 0)
    Thread.inTurn_fair

end OSLab.Hello
