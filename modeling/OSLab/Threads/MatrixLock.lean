import OSLab.Base.Locked
import OSLab.Threads.MatrixFile

/-!
# The two threads of `2_2.c`, step by step (Lab3/2)

A step of a thread is one loop condition or one of the three parts of
`z[i][j] += x[i][k] * y[k][j]`, all of them inside the spinlock. So each run is
one of the two that `runThreads` knows.
-/

namespace OSLab.Matrix
open OSLab.Base

/- The terms of a thread: `first <= k < last`. -/
def firstTerm : Thread → ℕ
  | .thread1 => 0
  | .thread2 => matrixRowY / 2

def lastTerm : Thread → ℕ
  | .thread1 => matrixRowY / 2
  | .thread2 => matrixRowY

/- In front of one of the three loop conditions, or of the load, the addition or the store. -/
inductive Pc where
  | rows
  | cols
  | terms
  | load
  | add
  | store

/- `val` is the register between the load and the store of `z[i][j]`. -/
structure Regs where
  pc : Pc
  i : ℕ
  j : ℕ
  k : ℕ
  val : CInt

/- `out` is what has been appended to `2.txt`, behind what was there. -/
structure Memory where
  z : IntMatrix
  out : Bytes

/- `2_2.c:54-60` and `2_2.c:70-76`. -/
def loopStep (x y : IntMatrix) (t : Thread) (c : Regs) (m : Memory) : Option (Regs × Memory) :=
  match c.pc with
  | .rows => if c.i < matrixRowX then some ({ c with pc := .cols, j := 0 }, m) else none
  | .cols =>
    some (if c.j < matrixColY then { c with pc := .terms, k := firstTerm t }
      else { c with pc := .rows, i := c.i + 1 }, m)
  | .terms =>
    some (if c.k < lastTerm t then { c with pc := .load } else { c with pc := .cols, j := c.j + 1 }, m)
  | .load => some ({ c with pc := .add, val := m.z c.i c.j }, m)
  | .add => some ({ c with pc := .store, val := c.val + x c.i c.k * y c.k c.j }, m)
  | .store => some ({ c with pc := .terms, k := c.k + 1 }, { m with z := setAt m.z c.i c.j c.val })

/-- `2_2.c:50-80` and `2_2.c:102-115`. -/
def lockedProgram (x y : IntMatrix) : Locked Thread Memory Regs where
  threads := [.thread1, .thread2]
  init _ := { pc := .rows, i := 0, j := 0, k := 0, val := 0 }
  step := loopStep x y
  finish m := { m with out := m.out ++ (printEntries m.z []).flatMap Printed.text }

/-- `main` of `2_2.c`, in a run in which `sched` gives the turns. -/
def lockedRun (file1 file2 old : Bytes) (x y z : IntMatrix) (sched : ℕ → Option Thread) (n : ℕ) :
    Locked.State Thread Memory Regs :=
  let data := dataProcessing file1 file2 x y
  let l := lockedProgram data.x data.y
  l.machine.follow (l.start { z, out := old ++ headerText }) sched n

/-! ### One critical section -/

variable {x y : IntMatrix} {t : Thread} {c c' : Regs} {m m' m'' : Memory}

def body (x y : IntMatrix) (t : Thread) (m : Memory) : Memory :=
  { m with z := accumulate x y (firstTerm t) (lastTerm t) m.z }

/- The loops that are behind a thread in front of row `i`, of column `j` and of term `k`. -/
def rowsDone (x y : IntMatrix) (t : Thread) (z : IntMatrix) (i : ℕ) : IntMatrix :=
  forLoop 0 i (fun i => forLoop 0 matrixColY fun j => forLoop (firstTerm t) (lastTerm t) fun k z =>
    addAt z i j (x i k * y k j)) z

def colsDone (x y : IntMatrix) (t : Thread) (z : IntMatrix) (i j : ℕ) : IntMatrix :=
  forLoop 0 j (fun j => forLoop (firstTerm t) (lastTerm t) fun k z => addAt z i j (x i k * y k j))
    (rowsDone x y t z i)

def termsDone (x y : IntMatrix) (t : Thread) (z : IntMatrix) (i j k : ℕ) : IntMatrix :=
  forLoop (firstTerm t) k (fun k z => addAt z i j (x i k * y k j)) (colsDone x y t z i j)

section Loops
variable (x y : IntMatrix) (t : Thread) (z : IntMatrix) (i j : ℕ)

theorem colsDone_zero : colsDone x y t z i 0 = rowsDone x y t z i := forLoop_empty ..

theorem rowsDone_succ : rowsDone x y t z (i + 1) = colsDone x y t z i matrixColY :=
  forLoop_last (Nat.zero_le i) ..

theorem termsDone_first : termsDone x y t z i j (firstTerm t) = colsDone x y t z i j := forLoop_empty ..

theorem colsDone_succ : colsDone x y t z i (j + 1) = termsDone x y t z i j (lastTerm t) :=
  forLoop_last (Nat.zero_le j) ..

theorem termsDone_succ {k : ℕ} (h : firstTerm t ≤ k) : termsDone x y t z i j (k + 1) =
    addAt (termsDone x y t z i j k) i j (x i k * y k j) := forLoop_last h ..

end Loops

/-- The bounds of the loops around each place of a thread, what it has made of the matrix `z`, and what is
in its register. -/
def Regs.Adds (x y : IntMatrix) (t : Thread) (z : IntMatrix) (c : Regs) (z' : IntMatrix) : Prop :=
  match c.pc with
  | .rows => c.i ≤ matrixRowX ∧ z' = rowsDone x y t z c.i
  | .cols => c.i < matrixRowX ∧ c.j ≤ matrixColY ∧ z' = colsDone x y t z c.i c.j
  | .terms => c.i < matrixRowX ∧ c.j < matrixColY ∧ firstTerm t ≤ c.k ∧ c.k ≤ lastTerm t ∧
      z' = termsDone x y t z c.i c.j c.k
  | .load => c.i < matrixRowX ∧ c.j < matrixColY ∧ firstTerm t ≤ c.k ∧ c.k < lastTerm t ∧
      z' = termsDone x y t z c.i c.j c.k
  | .add => c.i < matrixRowX ∧ c.j < matrixColY ∧ firstTerm t ≤ c.k ∧ c.k < lastTerm t ∧
      z' = termsDone x y t z c.i c.j c.k ∧ c.val = z' c.i c.j
  | .store => c.i < matrixRowX ∧ c.j < matrixColY ∧ firstTerm t ≤ c.k ∧ c.k < lastTerm t ∧
      z' = termsDone x y t z c.i c.j c.k ∧ c.val = z' c.i c.j + x c.i c.k * y c.k c.j

/- The passes and accesses that are left to a thread, the longest for each loop. -/
def Regs.rank (t : Thread) (c : Regs) : ℕ :=
  let col := 4 * matrixRowY + 3
  let row := col * matrixColY + 2
  match c.pc with
  | .rows => row * (matrixRowX - c.i)
  | .cols => row * (matrixRowX - c.i - 1) + col * (matrixColY - c.j) + 1
  | .terms => row * (matrixRowX - c.i - 1) + col * (matrixColY - c.j - 1) + 4 * (lastTerm t - c.k) + 2
  | .load => row * (matrixRowX - c.i - 1) + col * (matrixColY - c.j - 1) + 4 * (lastTerm t - c.k) + 1
  | .add => row * (matrixRowX - c.i - 1) + col * (matrixColY - c.j - 1) + 4 * (lastTerm t - c.k)
  | .store => row * (matrixRowX - c.i - 1) + col * (matrixColY - c.j - 1) + 4 * (lastTerm t - c.k) - 1

theorem setAt_eq_addAt (z : IntMatrix) (i j : ℕ) (v : CInt) : setAt z i j (z i j + v) = addAt z i j v :=
  rfl

theorem first_le_last (t : Thread) : firstTerm t ≤ lastTerm t := by cases t <;> decide

theorem last_le (t : Thread) : lastTerm t ≤ matrixRowY := by cases t <;> decide

/-- A step goes on in the loops, writes nothing to the file and leaves less to do. -/
theorem Regs.Adds.step {z : IntMatrix} (h : c.Adds x y t z m.z)
    (hstep : loopStep x y t c m = some (c', m')) :
    c'.Adds x y t z m'.z ∧ m'.out = m.out ∧ c'.rank t < c.rank t := by
  have hlast := last_le t
  obtain ⟨pc, i, j, k, val⟩ := c
  unfold loopStep at hstep
  cases pc with
  | rows =>
    obtain ⟨hle, hz⟩ := h
    dsimp only at hstep hle hz
    split at hstep
    next hlt =>
      obtain ⟨rfl, rfl⟩ := Prod.mk.inj (Option.some.inj hstep)
      refine ⟨⟨hlt, Nat.zero_le _, hz.trans (colsDone_zero ..).symm⟩, rfl, ?_⟩
      simp only [Regs.rank, matrixRowX, matrixRowY, matrixColY] at hlt ⊢
      omega
    next => exact absurd hstep.symm (Option.some_ne_none _)
  | cols =>
    obtain ⟨hi, hle, hz⟩ := h
    obtain ⟨rfl, rfl⟩ := Prod.mk.inj (Option.some.inj hstep)
    dsimp only at hi hle hz ⊢
    split
    next hlt =>
      refine ⟨⟨hi, hlt, le_refl _, first_le_last t, hz.trans (termsDone_first ..).symm⟩, rfl, ?_⟩
      simp only [Regs.rank, matrixRowX, matrixRowY, matrixColY] at hlt hlast ⊢
      omega
    next hge =>
      obtain rfl : j = matrixColY := Nat.le_antisymm hle (Nat.le_of_not_lt hge)
      refine ⟨⟨hi, hz.trans (rowsDone_succ ..).symm⟩, rfl, ?_⟩
      simp only [Regs.rank, matrixRowX, matrixRowY, matrixColY]
      omega
  | terms =>
    obtain ⟨hi, hj, hfirst, hle, hz⟩ := h
    obtain ⟨rfl, rfl⟩ := Prod.mk.inj (Option.some.inj hstep)
    dsimp only at hi hj hfirst hle hz ⊢
    split
    next hlt =>
      refine ⟨⟨hi, hj, hfirst, hlt, hz⟩, rfl, ?_⟩
      simp only [Regs.rank]
      omega
    next hge =>
      obtain rfl : k = lastTerm t := Nat.le_antisymm hle (Nat.le_of_not_lt hge)
      refine ⟨⟨hi, hj, hz.trans (colsDone_succ ..).symm⟩, rfl, ?_⟩
      simp only [Regs.rank, matrixRowX, matrixRowY, matrixColY] at hj ⊢
      omega
  | load =>
    obtain ⟨hi, hj, hfirst, hlt, hz⟩ := h
    obtain ⟨rfl, rfl⟩ := Prod.mk.inj (Option.some.inj hstep)
    refine ⟨⟨hi, hj, hfirst, hlt, hz, rfl⟩, rfl, ?_⟩
    simp only [Regs.rank]
    omega
  | add =>
    obtain ⟨hi, hj, hfirst, hlt, hz, hval⟩ := h
    obtain ⟨rfl, rfl⟩ := Prod.mk.inj (Option.some.inj hstep)
    dsimp only at hlt
    refine ⟨⟨hi, hj, hfirst, hlt, hz, congrArg (· + x i k * y k j) hval⟩, rfl, ?_⟩
    simp only [Regs.rank]
    omega
  | store =>
    obtain ⟨hi, hj, hfirst, hlt, hz, hval⟩ := h
    obtain ⟨rfl, rfl⟩ := Prod.mk.inj (Option.some.inj hstep)
    dsimp only at hi hj hfirst hlt hz hval ⊢
    refine ⟨⟨hi, hj, Nat.le_succ_of_le hfirst, hlt, ?_⟩, rfl, ?_⟩
    · dsimp only
      rw [hval, setAt_eq_addAt, hz, termsDone_succ x y t z i j hfirst]
    · simp only [Regs.rank]
      omega

theorem Regs.Adds.of_within (h : (lockedProgram x y).Within t m c m') :
    c.Adds x y t m.z m'.z ∧ m'.out = m.out := by
  induction h with
  | enter => exact ⟨⟨Nat.zero_le _, (forLoop_empty ..).symm⟩, rfl⟩
  | step _ hstep ih =>
    obtain ⟨hadds, hout, -⟩ := ih.1.step hstep
    exact ⟨hadds, hout.trans ih.2⟩

theorem loopStep_end (h : loopStep x y t c m = none) : c.pc = .rows ∧ matrixRowX ≤ c.i := by
  unfold loopStep at h
  split at h
  next hpc =>
    split at h
    next => exact absurd h (Option.some_ne_none _)
    next hge => exact ⟨hpc, Nat.le_of_not_lt hge⟩
  all_goals exact absurd h (Option.some_ne_none _)

theorem locked_computes (x y : IntMatrix) :
    (lockedProgram x y).Computes (body x y) Regs.rank where
  result hwithin hend := by
    obtain ⟨hadds, hout⟩ := Regs.Adds.of_within hwithin
    obtain ⟨hpc, hge⟩ := loopStep_end hend
    unfold Regs.Adds at hadds
    rw [hpc] at hadds
    obtain ⟨hle, hz⟩ := hadds
    rw [Nat.le_antisymm hle hge] at hz
    unfold body
    rw [← hout]
    exact congrArg (Memory.mk · _) hz
  less hwithin hstep := ((Regs.Adds.of_within hwithin).1.step hstep).2.2

/-! ### The program -/

theorem body_out (t : Thread) (m : Memory) : (body x y t m).out = m.out := by
  simp only [body]

theorem serially_body (order : List Thread) (m : Memory) :
    Locked.serially (body x y) order m =
      { m with z := Locked.serially (fun t => accumulate x y (firstTerm t) (lastTerm t)) order m.z } := by
  induction order generalizing m with
  | nil => rfl
  | cons t order ih =>
    rw [Locked.serially_cons, Locked.serially_cons, ih]
    simp only [body]

theorem printEntries_text (z : IntMatrix) :
    headerText ++ (printEntries z []).flatMap Printed.text = outputText (printEntries z header) := by
  unfold outputText
  rw [printEntries_eq, printEntries_eq z header, List.drop_left, List.nil_append]

theorem thread1_eq (x y z : IntMatrix) : accumulate x y (firstTerm .thread1) (lastTerm .thread1) z = thread1 x y z := by
  unfold thread1
  congr 1

theorem thread2_eq (x y z : IntMatrix) : accumulate x y (firstTerm .thread2) (lastTerm .thread2) z = thread2 x y z := by
  unfold thread2
  congr 1

/-- The two orders are those of `runThreads`. -/
theorem serially_runThreads {order : List Thread} (honce : order.Nodup) (hall : ∀ t, t ∈ order)
    (z : IntMatrix) : ∃ lockOrder, Locked.serially (fun t => accumulate x y (firstTerm t) (lastTerm t)) order z =
      runThreads x y lockOrder z := by
  rcases Locked.order_of_two Thread.eq_one_or_two (by decide) honce hall with rfl | rfl
  · refine ⟨.thread1First, ?_⟩
    rw [Locked.serially_cons, Locked.serially_cons, thread1_eq, thread2_eq]
    unfold runThreads
    exact Locked.serially_nil ..
  · refine ⟨.thread2First, ?_⟩
    rw [Locked.serially_cons, Locked.serially_cons, thread1_eq, thread2_eq]
    unfold runThreads
    exact Locked.serially_nil ..

/-- In every run, whenever the lock is free, `z` is what the threads that have had it make of it one
after the other, and nothing is written before both have ended. -/
theorem free_serial (file1 file2 old : Bytes) (x y z : IntMatrix) (sched : ℕ → Option Thread) (n : ℕ) :
    let data := dataProcessing file1 file2 x y
    let s := lockedRun file1 file2 old x y z sched n
    (s.lock = none → ∃ order : List Thread, order.Nodup ∧ (∀ t, t ∈ order ↔ s.phase t = .done) ∧
      s.shared.z =
        Locked.serially (fun t => accumulate data.x data.y (firstTerm t) (lastTerm t)) order z) ∧
    (s.shared.out ≠ old ++ headerText → ∀ t, s.phase t = .done) := by
  intro data s
  obtain ⟨order, hinv⟩ := Locked.run_inv Thread.two_nodup Thread.mem_two
    (locked_computes data.x data.y) { z, out := old ++ headerText } (turns sched 0 n)
  constructor
  · intro hlock
    refine ⟨order, hinv.serial.once, hinv.serial.had, ?_⟩
    have hshared := hinv.serial.free hlock
    have hz : s.shared.z = (Locked.serially (body data.x data.y) order ⟨z, old ++ headerText⟩).z := by
      rw [show s.shared = _ from hshared]
      split <;> rfl
    rw [hz, serially_body]
  · intro hwritten
    apply hinv.forked.all_done
    by_contra hopen
    exact hwritten (hinv.frame body_out (fun h => (Regs.Adds.of_within h).2) hopen)

/-- Under every fair schedule `2.txt` ends up with what the program writes for one of the two orders. -/
theorem threads_take_turns (file1 file2 old : Bytes) (x y z : IntMatrix) {sched : ℕ → Option Thread}
    (hfair : Fair Set.univ sched) :
    let data := dataProcessing file1 file2 x y
    (∀ n, let s := lockedRun file1 file2 old x y z sched n
      (s.lock = none → ∃ order : List Thread, order.Nodup ∧ (∀ t, t ∈ order ↔ s.phase t = .done) ∧
        s.shared.z =
          Locked.serially (fun t => accumulate data.x data.y (firstTerm t) (lastTerm t)) order z) ∧
      (s.shared.out ≠ old ++ headerText → ∀ t, s.phase t = .done)) ∧
    ∃ order n, ∀ n', n ≤ n' →
      let s := lockedRun file1 file2 old x y z sched n'
      s.ended = true ∧ s.lock = none ∧ s.shared.out = (program2 file1 file2 old x y z order).file := by
  intro data
  refine ⟨free_serial file1 file2 old x y z sched, ?_⟩
  obtain ⟨order, honce, hall, n, hn⟩ :=
    Locked.follow_ends Thread.two_nodup Thread.mem_two
      (locked_computes data.x data.y) { z, out := old ++ headerText } hfair
  obtain ⟨lockOrder, horder⟩ := serially_runThreads (x := data.x) (y := data.y) honce hall z
  refine ⟨lockOrder, n, ?_⟩
  intro n' hle s
  obtain ⟨hended, hlock, hshared⟩ := hn n' hle
  refine ⟨hended, hlock, ?_⟩
  have hz : s.shared.out = old ++ headerText ++ (printEntries (runThreads data.x data.y lockOrder z) []).flatMap
      Printed.text := by
    rw [show s.shared = _ from hshared, serially_body, ← horder]
    rfl
  rw [hz, List.append_assoc, printEntries_text]
  rfl

def onesRun : ℕ → Locked.State Thread Memory Regs :=
  lockedRun onesX onesY [] (fun _ _ => 7) (fun _ _ => 7) (fun _ _ => 0) (inTurn .thread1 .thread2)

theorem threads_take_turns_ones :
    let data := dataProcessing onesX onesY (fun _ _ => 7) fun _ _ => 7
    (∀ n, let s := onesRun n
      (s.lock = none → ∃ order : List Thread, order.Nodup ∧ (∀ t, t ∈ order ↔ s.phase t = .done) ∧
        s.shared.z = Locked.serially (fun t => accumulate data.x data.y (firstTerm t) (lastTerm t)) order
          fun _ _ => 0) ∧
      (s.shared.out ≠ [] ++ headerText → ∀ t, s.phase t = .done)) ∧
    ∃ order n, ∀ n', n ≤ n' →
      let s := onesRun n'
      s.ended = true ∧ s.lock = none ∧
        s.shared.out = (program2 onesX onesY [] (fun _ _ => 7) (fun _ _ => 7) (fun _ _ => 0) order).file :=
  threads_take_turns onesX onesY [] (fun _ _ => 7) (fun _ _ => 7) (fun _ _ => 0)
    Thread.inTurn_fair

end OSLab.Matrix
