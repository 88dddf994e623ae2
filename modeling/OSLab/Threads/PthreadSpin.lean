import Mathlib.Data.BitVec
import OSLab.Base.Format
import OSLab.Base.Locked

/-!
# The counter under `pthread_spin_lock` (Lab3/1_1)

The whole program: `main` creates two threads, joins them and writes `a`; each
thread adds to `a` in a loop, inside one critical section. An attempt to take the
lock of `libpthread` is one step, which a thread that has to wait repeats.
-/

namespace OSLab.PthreadSpin
open OSLab.Base

abbrev Word := BitVec 32

def ITERATIONS : ℕ := 10000

/- In front of the test of the loop, or of one of the two accesses of `a = a + 1`. -/
inductive Pc where
  | test
  | load
  | store

/- The local `i`, and the register of `a = a + 1`. -/
structure Regs where
  pc : Pc
  i : ℕ
  reg : Word

/- `out` is what has been appended to `1.txt`. -/
structure Memory where
  a : Word
  out : Bytes

/- `1_1.c:14`. -/
def loopStep (c : Regs) (m : Memory) : Option (Regs × Memory) :=
  match c.pc with
  | .test => if c.i < ITERATIONS then some ({ c with pc := .load }, m) else none
  | .load => some ({ c with reg := m.a, pc := .store }, m)
  | .store => some ({ c with i := c.i + 1, pc := .test }, { m with a := c.reg + 1 })

/-- `1_1.c:11-34`. -/
def program : Locked Thread Memory Regs where
  threads := [.thread1, .thread2]
  init _ := { pc := .test, i := 0, reg := 0 }
  step _ := loopStep
  finish m := { m with out := m.out ++ printInt m.a.toInt ++ chars " " }

/-- A run in which `sched` gives the turns; `text` is in the file before. -/
def run (text : Bytes) (sched : ℕ → Option Thread) (n : ℕ) : Locked.State Thread Memory Regs :=
  program.machine.follow (program.start { a := 0, out := text }) sched n

/-! ### One critical section -/

def addAll (m : Memory) : Memory := { m with a := m.a + BitVec.ofNat 32 ITERATIONS }

/-- What the local variables and the memory hold inside a section that has started with `m`. -/
structure Adding (m : Memory) (c : Regs) (m' : Memory) : Prop where
  le : c.i ≤ ITERATIONS
  a : m'.a = m.a + BitVec.ofNat 32 c.i
  out : m'.out = m.out
  pc : match c.pc with
    | .test => True
    | .load => c.i < ITERATIONS
    | .store => c.i < ITERATIONS ∧ c.reg = m'.a

theorem loopStep_cases {c c' : Regs} {m m' : Memory} (h : loopStep c m = some (c', m')) :
    (c.pc = .test ∧ c.i < ITERATIONS ∧ c' = { c with pc := .load } ∧ m' = m) ∨
    (c.pc = .load ∧ c' = { c with reg := m.a, pc := .store } ∧ m' = m) ∨
    (c.pc = .store ∧ c' = { c with i := c.i + 1, pc := .test } ∧ m' = { m with a := c.reg + 1 }) := by
  unfold loopStep at h
  split at h
  next hpc =>
    split at h
    next hlt =>
      obtain ⟨rfl, rfl⟩ := Prod.mk.inj (Option.some.inj h)
      exact .inl ⟨hpc, hlt, rfl, rfl⟩
    next => exact absurd h.symm (Option.some_ne_none _)
  next hpc =>
    obtain ⟨rfl, rfl⟩ := Prod.mk.inj (Option.some.inj h)
    exact .inr (.inl ⟨hpc, rfl, rfl⟩)
  next hpc =>
    obtain ⟨rfl, rfl⟩ := Prod.mk.inj (Option.some.inj h)
    exact .inr (.inr ⟨hpc, rfl, rfl⟩)

theorem loopStep_end {c : Regs} {m : Memory} (h : loopStep c m = none) : ITERATIONS ≤ c.i := by
  unfold loopStep at h
  split at h
  next =>
    split at h
    next => exact absurd h (Option.some_ne_none _)
    next hge => exact Nat.le_of_not_lt hge
  all_goals exact absurd h (Option.some_ne_none _)

theorem Adding.of_within {t : Thread} {m m' : Memory} {c : Regs} (h : program.Within t m c m') :
    Adding m c m' := by
  induction h with
  | enter => exact ⟨Nat.zero_le _, (BitVec.add_zero _).symm, rfl, trivial⟩
  | step _ hstep ih =>
    obtain ⟨hle, ha, hout, hpc⟩ := ih
    rcases loopStep_cases hstep with ⟨-, hlt, rfl, rfl⟩ | ⟨htest, rfl, rfl⟩ | ⟨htest, rfl, rfl⟩
    · exact ⟨hle, ha, hout, hlt⟩
    · rw [htest] at hpc
      exact ⟨hle, ha, hout, hpc, rfl⟩
    · rw [htest] at hpc
      obtain ⟨hlt, hreg⟩ := hpc
      refine ⟨hlt, ?_, hout, trivial⟩
      dsimp only
      rw [hreg, ha, BitVec.ofNat_add, BitVec.add_assoc]
      rfl

def Regs.rank (c : Regs) : ℕ :=
  match c.pc with
  | .test => 3 * (ITERATIONS - c.i) + 2
  | .load => 3 * (ITERATIONS - c.i) + 1
  | .store => 3 * (ITERATIONS - c.i)

theorem computes : program.Computes (fun _ => addAll) (fun _ => Regs.rank) where
  result hwithin hend := by
    obtain ⟨hle, ha, hout, -⟩ := Adding.of_within hwithin
    have hi := Nat.le_antisymm hle (loopStep_end hend)
    rw [hi] at ha
    unfold addAll
    rw [← ha, ← hout]
  less hwithin hstep := by
    have hpc := (Adding.of_within hwithin).pc
    rcases loopStep_cases hstep with ⟨htest, hlt, rfl, -⟩ | ⟨htest, rfl, -⟩ | ⟨htest, rfl, -⟩
    · simp only [Regs.rank, htest]
      omega
    · simp only [Regs.rank, htest]
      omega
    · rw [htest] at hpc
      have hlt := hpc.1
      simp only [Regs.rank, htest]
      omega

theorem addAll_out (_ : Thread) (m : Memory) : (addAll m).out = m.out := by
  simp only [addAll]

theorem add_times (a : Word) (k n : ℕ) :
    a + BitVec.ofNat 32 k + BitVec.ofNat 32 (k * n) = a + BitVec.ofNat 32 (k * (n + 1)) := by
  rw [BitVec.add_assoc, ← BitVec.ofNat_add, Nat.mul_succ, Nat.add_comm k]

theorem serially_addAll (order : List Thread) (m : Memory) :
    Locked.serially (fun _ => addAll) order m =
      { m with a := m.a + BitVec.ofNat 32 (ITERATIONS * order.length) } := by
  induction order generalizing m with
  | nil => simp [Locked.serially]
  | cons t order ih =>
    rw [Locked.serially_cons, ih, List.length_cons, ← add_times]
    simp only [addAll]

theorem length_of_all {order : List Thread} (honce : order.Nodup) (hall : ∀ t, t ∈ order) :
    order.length = 2 := by
  rcases Locked.order_of_two Thread.eq_one_or_two (by decide) honce hall with rfl | rfl <;> rfl

theorem printInt_total : printInt (20000 : Word).toInt ++ chars " " = chars "20000 " := by decide

/-! ### The program -/

/-- In every run at most one thread is inside its critical section, and `main` writes to the file only
once both threads have ended. -/
theorem one_inside (text : Bytes) (sched : ℕ → Option Thread) (n : ℕ) :
    let s := run text sched n
    (∀ t u c c', s.phase t = .inside c → s.phase u = .inside c' → t = u) ∧
      (s.shared.out ≠ text → ∀ t, s.phase t = .done) := by
  intro s
  obtain ⟨order, hinv⟩ :=
    Locked.run_inv Thread.two_nodup Thread.mem_two computes { a := 0, out := text } (turns sched 0 n)
  constructor
  · intro t u c c' ht hu
    have hlock := hinv.serial.holder t c ht
    exact Option.some.inj (hlock.symm.trans (hinv.serial.holder u c' hu))
  · intro hwritten
    apply hinv.forked.all_done
    by_contra hopen
    exact hwritten (hinv.frame addAll_out (fun h => (Adding.of_within h).out) hopen)

/-- Under a fair schedule the program ends too, and has written 20000. -/
theorem counts_to_20000 (text : Bytes) {sched : ℕ → Option Thread} (hfair : Fair Set.univ sched) :
    (∀ n, let s := run text sched n
      (∀ t u c c', s.phase t = .inside c → s.phase u = .inside c' → t = u) ∧
      (s.shared.out ≠ text → ∀ t, s.phase t = .done)) ∧
    ∃ n, ∀ n', n ≤ n' →
      let s := run text sched n'
      s.ended = true ∧ s.lock = none ∧ s.shared.out = text ++ chars "20000 " := by
  refine ⟨one_inside text sched, ?_⟩
  obtain ⟨order, honce, hall, n, hn⟩ :=
    Locked.follow_ends Thread.two_nodup Thread.mem_two computes { a := 0, out := text } hfair
  refine ⟨n, ?_⟩
  intro n' hle s
  obtain ⟨hended, hlock, hshared⟩ := hn n' hle
  refine ⟨hended, hlock, ?_⟩
  have ha : (0 : Word) + BitVec.ofNat 32 (ITERATIONS * 2) = 20000 := by decide
  have hout : s.shared.out = text ++ printInt (20000 : Word).toInt ++ chars " " := by
    rw [show s.shared = _ from hshared, serially_addAll, length_of_all honce hall, ha]
    rfl
  rw [hout, List.append_assoc, printInt_total]

theorem counts_to_20000_in_turn :
    (∀ n, let s := run [] (inTurn .thread1 .thread2) n
      (∀ t u c c', s.phase t = .inside c → s.phase u = .inside c' → t = u) ∧
      (s.shared.out ≠ [] → ∀ t, s.phase t = .done)) ∧
    ∃ n, ∀ n', n ≤ n' →
      let s := run [] (inTurn .thread1 .thread2) n'
      s.ended = true ∧ s.lock = none ∧ s.shared.out = [] ++ chars "20000 " :=
  counts_to_20000 [] Thread.inTurn_fair

end OSLab.PthreadSpin
