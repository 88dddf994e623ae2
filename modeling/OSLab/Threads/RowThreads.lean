import OSLab.Base.ForkJoin
import OSLab.Base.Machine
import OSLab.Threads.Matrix

/-!
# Two threads on the rows of one matrix (Lab3/3_1 and 3_2)

Each thread of `3_1.c`, and of `3_2.c` with two threads, adds the whole
product to its own rows of `z`, without a lock. A step of a thread is one
loop condition or one of the three parts of `z[i][j] += x[i][k] * y[k][j]`.
-/

namespace OSLab.RowThreads
open OSLab.Base OSLab.Matrix

/-- The sizes of the matrices, and the first row of `thread2`. -/
structure Sizes where
  matrixRowX : ℕ
  matrixRowY : ℕ
  matrixColY : ℕ
  split : ℕ
  split_le : split ≤ matrixRowX

def sizes31 : Sizes := ⟨1234, 250, 4, 1234 / 2, by decide⟩

def sizes32 : Sizes := ⟨1234, 250, 1234, 1234 / 2, by decide⟩

/- The rows of a thread: `first <= i < last`. -/
def Sizes.first (w : Sizes) : Thread → ℕ
  | .thread1 => 0
  | .thread2 => w.split

def Sizes.last (w : Sizes) : Thread → ℕ
  | .thread1 => w.split
  | .thread2 => w.matrixRowX

/-! ### One thread -/

/-- Where a thread is: before one of the three loop conditions, before the load of `z[i][j]`, the
multiplication and addition, or the store, or behind the loops. -/
inductive Pc where
  | rows
  | cols
  | terms
  | load
  | add
  | store
  | done
  deriving DecidableEq

/-- The local variables of a thread; `val` is the register between load and store. -/
structure Regs where
  pc : Pc
  i : ℕ
  j : ℕ
  k : ℕ
  val : CInt

variable (w : Sizes) (x y : IntMatrix)

/- `3_1.c:50-68`, `3_2.c:65-71` and `3_2.c:94-100`, with the rows up to `last`. -/
def threadStep (last : ℕ) (t : Regs) (z : IntMatrix) : Regs × IntMatrix :=
  match t.pc with
  | .rows => (if t.i < last then { t with pc := .cols, j := 0 } else { t with pc := .done }, z)
  | .cols =>
    (if t.j < w.matrixColY then { t with pc := .terms, k := 0 }
     else { t with pc := .rows, i := t.i + 1 }, z)
  | .terms =>
    (if t.k < w.matrixRowY then { t with pc := .load } else { t with pc := .cols, j := t.j + 1 }, z)
  | .load => ({ t with pc := .add, val := z t.i t.j }, z)
  | .add => ({ t with pc := .store, val := t.val + x t.i t.k * y t.k t.j }, z)
  | .store => ({ t with pc := .terms, k := t.k + 1 }, setAt z t.i t.j t.val)
  | .done => (t, z)

/- The loops of `3_2.c:57-63`, for one thread. -/
def singleThread (z : IntMatrix) : IntMatrix :=
  forLoop 0 w.matrixRowX (fun i => forLoop 0 w.matrixColY fun j => forLoop 0 w.matrixRowY fun k z =>
    addAt z i j (x i k * y k j)) z

/-! ### Two threads -/

structure State where
  z : IntMatrix
  regs : Thread → Regs

/- The scheduler lets one of the threads take a step. -/
def threads : Machine State Thread Unit :=
  ⟨fun s t =>
    let q := threadStep w x y (w.last t) (s.regs t) s.z
    ((), { z := q.2, regs := Function.update s.regs t q.1 })⟩

/-- Both threads are in front of their loops. -/
def Initial (s : State) : Prop := ∀ t, (s.regs t).pc = .rows ∧ (s.regs t).i = w.first t

def Finished (s : State) : Prop := ∀ t, (s.regs t).pc = .done

instance (s : State) : Decidable (Finished s) :=
  decidable_of_iff ((s.regs .thread1).pc = .done ∧ (s.regs .thread2).pc = .done)
    ⟨fun h t => by cases t <;> [exact h.1; exact h.2], fun h => ⟨h _, h _⟩⟩

/-! ### The rows of one thread -/

/-- The number of terms that a thread has added to `z[i][j]`, a row of its own. -/
def Regs.added (t : Regs) (i j : ℕ) : ℕ :=
  if i < t.i then w.matrixRowY
  else if t.i < i then 0
  else
    match t.pc with
    | .rows => 0
    | .done => 0
    | .cols => if j < t.j then w.matrixRowY else 0
    | _ => if j < t.j then w.matrixRowY else if j = t.j then t.k else 0

/-- The bounds of the loops around each place of a thread, and what is in its register. -/
def Regs.Ok (last : ℕ) (z : IntMatrix) (t : Regs) : Prop :=
  match t.pc with
  | .rows => True
  | .cols => t.i < last ∧ t.j ≤ w.matrixColY
  | .terms => t.i < last ∧ t.j < w.matrixColY ∧ t.k ≤ w.matrixRowY
  | .load => t.i < last ∧ t.j < w.matrixColY ∧ t.k < w.matrixRowY
  | .add => t.i < last ∧ t.j < w.matrixColY ∧ t.k < w.matrixRowY ∧ t.val = z t.i t.j
  | .store => t.i < last ∧ t.j < w.matrixColY ∧ t.k < w.matrixRowY ∧
      t.val = z t.i t.j + x t.i t.k * y t.k t.j
  | .done => last ≤ t.i

/-- What a thread has made of its rows `lo <= i < hi` of `z0`. -/
structure Works (z0 : IntMatrix) (lo hi : ℕ) (t : Regs) (z : IntMatrix) : Prop where
  first : lo ≤ t.i
  ok : t.Ok w x y hi z
  entries : ∀ i j, lo ≤ i → i < hi → j < w.matrixColY →
    z i j = z0 i j + partialDot x y 0 (t.added w i j) i j

variable {w x y} {z0 z z' : IntMatrix} {lo hi : ℕ} {t : Regs}

/-- Stores into other rows do not disturb a thread. -/
theorem Works.congr (h : Works w x y z0 lo hi t z)
    (hz : ∀ i j, lo ≤ i → i < hi → z' i j = z i j) : Works w x y z0 lo hi t z' := by
  refine ⟨h.first, ?_, fun i j hlo hhi hj => (hz i j hlo hhi).trans (h.entries i j hlo hhi hj)⟩
  have hok := h.ok
  have hfirst := h.first
  obtain ⟨pc, i, j, k, val⟩ := t
  cases pc with
  | rows => exact hok
  | cols => exact hok
  | terms => exact hok
  | load => exact hok
  | add => exact ⟨hok.1, hok.2.1, hok.2.2.1, hok.2.2.2.trans (hz i j hfirst hok.1).symm⟩
  | store =>
    refine ⟨hok.1, hok.2.1, hok.2.2.1, hok.2.2.2.trans ?_⟩
    rw [hz i j hfirst hok.1]
  | done => exact hok

/-- A thread stores into its own rows. -/
theorem Works.frame (h : Works w x y z0 lo hi t z) {i j : ℕ}
    (hout : i < lo ∨ hi ≤ i ∨ w.matrixColY ≤ j) :
    (threadStep w x y hi t z).2 i j = z i j := by
  have hok := h.ok
  have hfirst := h.first
  obtain ⟨pc, i', j', k, val⟩ := t
  cases pc with
  | store =>
    obtain ⟨hrow, hj, -, -⟩ := hok
    have hne : ¬ (i = i' ∧ j = j') := by
      rintro ⟨rfl, rfl⟩
      dsimp only at hfirst hrow hj
      omega
    exact if_neg hne
  | _ => rfl

/-- One step of a thread keeps what it has made of its rows. -/
theorem Works.step (h : Works w x y z0 lo hi t z) :
    Works w x y z0 lo hi (threadStep w x y hi t z).1 (threadStep w x y hi t z).2 := by
  obtain ⟨hfirst, hok, hentries⟩ := h
  obtain ⟨pc, i, j, k, val⟩ := t
  dsimp only at hfirst
  cases pc with
  | rows =>
    by_cases hrow : i < hi
    · simp only [threadStep, hrow, ite_true]
      refine ⟨hfirst, ⟨hrow, Nat.zero_le _⟩, fun i' j' hlo hhi hj' => ?_⟩
      rw [hentries i' j' hlo hhi hj']
      simp only [Regs.added, Nat.not_lt_zero, ite_false]
    · simp only [threadStep, hrow, ite_false]
      refine ⟨hfirst, Nat.le_of_not_lt hrow, fun i' j' hlo hhi hj' => ?_⟩
      rw [hentries i' j' hlo hhi hj']
      simp only [Regs.added]
  | cols =>
    obtain ⟨hrow, hle⟩ := hok
    dsimp only at hrow hle
    by_cases hj : j < w.matrixColY
    · simp only [threadStep, hj, ite_true]
      refine ⟨hfirst, ⟨hrow, hj, Nat.zero_le _⟩, fun i' j' hlo hhi hj' => ?_⟩
      rw [hentries i' j' hlo hhi hj']
      simp only [Regs.added, ite_self]
    · simp only [threadStep, hj, ite_false]
      refine ⟨Nat.le_succ_of_le hfirst, trivial, fun i' j' hlo hhi hj' => ?_⟩
      have hadded : Regs.added w ⟨.rows, i + 1, j, k, val⟩ i' j' =
          Regs.added w ⟨.cols, i, j, k, val⟩ i' j' := by
        simp only [Regs.added]
        split_ifs <;> omega
      rw [hentries i' j' hlo hhi hj', hadded]
  | terms =>
    obtain ⟨hrow, hj, hle⟩ := hok
    dsimp only at hrow hj hle
    by_cases hk : k < w.matrixRowY
    · simp only [threadStep, hk, ite_true]
      refine ⟨hfirst, ⟨hrow, hj, hk⟩, fun i' j' hlo hhi hj' => ?_⟩
      rw [hentries i' j' hlo hhi hj']
      simp only [Regs.added]
    · simp only [threadStep, hk, ite_false]
      refine ⟨hfirst, ⟨hrow, hj⟩, fun i' j' hlo hhi hj' => ?_⟩
      have hadded : Regs.added w ⟨.cols, i, j + 1, k, val⟩ i' j' =
          Regs.added w ⟨.terms, i, j, k, val⟩ i' j' := by
        simp only [Regs.added]
        split_ifs <;> omega
      rw [hentries i' j' hlo hhi hj', hadded]
  | load =>
    obtain ⟨hrow, hj, hk⟩ := hok
    refine ⟨hfirst, ⟨hrow, hj, hk, rfl⟩, fun i' j' hlo hhi hj' => ?_⟩
    exact hentries i' j' hlo hhi hj'
  | add =>
    obtain ⟨hrow, hj, hk, hval⟩ := hok
    dsimp only at hval
    refine ⟨hfirst, ⟨hrow, hj, hk, ?_⟩, fun i' j' hlo hhi hj' => ?_⟩
    · simp only [threadStep, hval]
    · exact hentries i' j' hlo hhi hj'
  | store =>
    obtain ⟨hrow, hj, hk, hval⟩ := hok
    dsimp only at hrow hj hk hval
    refine ⟨hfirst, ⟨hrow, hj, hk⟩, fun i' j' hlo hhi hj' => ?_⟩
    have hold := hentries i' j' hlo hhi hj'
    simp only [threadStep]
    by_cases hij : i' = i ∧ j' = j
    · -- the entry of the store has one term more
      obtain ⟨rfl, rfl⟩ := hij
      simp only [Regs.added, Nat.lt_irrefl, ite_false, ite_true] at hold ⊢
      simp only [setAt, and_self, ite_true]
      rw [hval, hold]
      unfold partialDot
      rw [Finset.sum_Ico_succ_top (Nat.zero_le k), add_assoc]
    · have hadded : Regs.added w ⟨.terms, i, j, k + 1, val⟩ i' j' =
          Regs.added w ⟨.store, i, j, k, val⟩ i' j' := by
        simp only [Regs.added]
        split_ifs <;> omega
      simp only [setAt, hij, ite_false]
      rw [hold, hadded]
  | done =>
    exact ⟨hfirst, hok, hentries⟩

/-! ### Both threads -/

/-- Both threads work on their rows, and nothing else of the matrix has changed. -/
structure Inv (w : Sizes) (x y z0 : IntMatrix) (s : State) : Prop where
  works : ∀ t, Works w x y z0 (w.first t) (w.last t) (s.regs t) s.z
  outside : ∀ i j, w.matrixRowX ≤ i ∨ w.matrixColY ≤ j → s.z i j = z0 i j

variable {s : State}

theorem rows_disjoint (w : Sizes) {t u : Thread} (hne : u ≠ t) {i : ℕ} (hlo : w.first u ≤ i)
    (hhi : i < w.last u) : i < w.first t ∨ w.last t ≤ i := by
  cases t with
  | thread1 =>
    cases u with
    | thread1 => exact absurd rfl hne
    | thread2 => exact .inr hlo
  | thread2 =>
    cases u with
    | thread1 => exact .inl hhi
    | thread2 => exact absurd rfl hne

theorem last_le (w : Sizes) (t : Thread) : w.last t ≤ w.matrixRowX := by
  cases t with
  | thread1 => exact w.split_le
  | thread2 => exact Nat.le_refl _

theorem Initial.inv (h : Initial w s) : Inv w x y s.z s := by
  refine ⟨fun t => ?_, fun _ _ _ => rfl⟩
  obtain ⟨hpc, hi⟩ := h t
  generalize s.regs t = r at hpc hi
  obtain ⟨pc, row, col, term, val⟩ := r
  dsimp only at hpc hi
  subst hpc hi
  refine ⟨Nat.le_refl _, trivial, fun i j hlo _ _ => ?_⟩
  have hadded : Regs.added w ⟨.rows, w.first t, col, term, val⟩ i j = 0 := by
    simp only [Regs.added, Nat.not_lt_of_le hlo, ite_false, ite_self]
  rw [hadded, partialDot, Finset.Ico_self, Finset.sum_empty, add_zero]

theorem Inv.step (h : Inv w x y z0 s) (t : Thread) : Inv w x y z0 ((threads w x y).next s t) := by
  have hstep := (h.works t).step
  have hframe {i j : ℕ} := (h.works t).frame (i := i) (j := j)
  refine ⟨fun u => ?_, fun i j hout => ?_⟩
  · by_cases hu : u = t
    · subst hu
      simp only [threads, Machine.next, Function.update_self]
      exact hstep
    · simp only [threads, Machine.next, Function.update_of_ne hu]
      refine (h.works u).congr fun i j hlo hhi => hframe ?_
      rcases rows_disjoint w hu hlo hhi with hlt | hle
      · exact .inl hlt
      · exact .inr (.inl hle)
  · have hlast := last_le w t
    refine (hframe ?_).trans (h.outside i j hout)
    omega

theorem Inv.run (h : Inv w x y z0 s) (sched : List Thread) :
    Inv w x y z0 ((threads w x y).run s sched) :=
  (threads w x y).run_invariant_all (fun _ t hs => hs.step t) sched h

theorem Works.finished (h : Works w x y z0 lo hi t z) (hdone : t.pc = .done) {i j : ℕ}
    (hlo : lo ≤ i) (hhi : i < hi) (hj : j < w.matrixColY) :
    z i j = z0 i j + partialDot x y 0 w.matrixRowY i j := by
  have hentry := h.entries i j hlo hhi hj
  have hok := h.ok
  obtain ⟨pc, i', j', k, val⟩ := t
  dsimp only at hdone
  subst hdone
  have hlt : i < i' := Nat.lt_of_lt_of_le hhi hok
  simp only [Regs.added, hlt, ite_true] at hentry
  exact hentry

theorem Inv.finished (h : Inv w x y z0 s) (hdone : Finished s) (i j : ℕ) :
    s.z i j = if i < w.matrixRowX ∧ j < w.matrixColY then
      z0 i j + partialDot x y 0 w.matrixRowY i j else z0 i j := by
  split
  · rename_i hij
    by_cases hsplit : i < w.split
    · exact (h.works .thread1).finished (hdone _) (Nat.zero_le i) hsplit hij.2
    · exact (h.works .thread2).finished (hdone _) (Nat.le_of_not_lt hsplit) hij.1 hij.2
  · exact h.outside i j (by omega)

theorem singleThread_apply (w : Sizes) (x y z : IntMatrix) (i j : ℕ) :
    singleThread w x y z i j = if i < w.matrixRowX ∧ j < w.matrixColY then
      z i j + partialDot x y 0 w.matrixRowY i j else z i j :=
  loops_apply (Nat.zero_le _) w.matrixRowX w.matrixColY x y z i j

/-! ### Every fair schedule finishes -/

/- The steps of a pass of the loop over `j`, and of a pass of the loop over `i`. -/
def Sizes.colSteps (w : Sizes) : ℕ := 4 * w.matrixRowY + 2
def Sizes.rowSteps (w : Sizes) : ℕ := w.colSteps * w.matrixColY + 2

/-- The steps a thread has to take until it is done. -/
def Regs.stepsLeft (w : Sizes) (last : ℕ) (t : Regs) : ℕ :=
  let rows := w.rowSteps * (last - (t.i + 1)) + 1
  let cols := w.colSteps * (w.matrixColY - (t.j + 1)) + 1 + rows
  let terms := 4 * (w.matrixRowY - (t.k + 1)) + 1 + cols
  match t.pc with
  | .rows => w.rowSteps * (last - t.i) + 1
  | .cols => w.colSteps * (w.matrixColY - t.j) + 1 + rows
  | .terms => 4 * (w.matrixRowY - t.k) + 1 + cols
  | .load => 3 + terms
  | .add => 2 + terms
  | .store => 1 + terms
  | .done => 0

theorem sub_step {i n : ℕ} (h : i < n) (c : ℕ) : c * (n - i) = c * (n - (i + 1)) + c := by
  have hsub : n - i = n - (i + 1) + 1 := by omega
  rw [hsub, Nat.mul_succ]

theorem stepsLeft_step (w : Sizes) (x y z : IntMatrix) (last : ℕ) (t : Regs) :
    (threadStep w x y last t z).1.stepsLeft w last = t.stepsLeft w last - 1 := by
  obtain ⟨pc, i, j, k, val⟩ := t
  cases pc with
  | rows =>
    by_cases hi : i < last
    · have hrow := sub_step hi w.rowSteps
      have hsteps : w.rowSteps = w.colSteps * w.matrixColY + 2 := rfl
      simp only [threadStep, hi, ite_true, Regs.stepsLeft, Nat.sub_zero]
      omega
    · have hzero : last - i = 0 := by omega
      simp only [threadStep, hi, ite_false, Regs.stepsLeft, hzero, Nat.mul_zero]
  | cols =>
    by_cases hj : j < w.matrixColY
    · have hcol := sub_step hj w.colSteps
      have hsteps : w.colSteps = 4 * w.matrixRowY + 2 := rfl
      simp only [threadStep, hj, ite_true, Regs.stepsLeft, Nat.sub_zero]
      omega
    · have hzero : w.matrixColY - j = 0 := by omega
      simp only [threadStep, hj, ite_false, Regs.stepsLeft, hzero, Nat.mul_zero]
      omega
  | terms =>
    by_cases hk : k < w.matrixRowY
    · simp only [threadStep, hk, ite_true, Regs.stepsLeft]
      omega
    · simp only [threadStep, hk, ite_false, Regs.stepsLeft]
      omega
  | load =>
    simp only [threadStep, Regs.stepsLeft]
    omega
  | add =>
    simp only [threadStep, Regs.stepsLeft]
    omega
  | store =>
    simp only [threadStep, Regs.stepsLeft]
    omega
  | done => rfl

theorem done_of_stepsLeft {last : ℕ} (h : t.stepsLeft w last = 0) : t.pc = .done := by
  obtain ⟨pc, i, j, k, val⟩ := t
  cases pc with
  | done => rfl
  | _ =>
    simp only [Regs.stepsLeft] at h
    omega

theorem run_stepsLeft (w : Sizes) (x y : IntMatrix) (s : State) (sched : List Thread) (t : Thread) :
    (((threads w x y).run s sched).regs t).stepsLeft w (w.last t) =
      (s.regs t).stepsLeft w (w.last t) - sched.count t := by
  induction sched generalizing s with
  | nil => rfl
  | cons u sched ih =>
    rw [Machine.run_cons, ih]
    by_cases hu : u = t
    · subst hu
      simp only [threads, Machine.next, Function.update_self, stepsLeft_step, List.count_cons_self]
      omega
    · have hne : t ≠ u := fun he => hu he.symm
      simp only [threads, Machine.next, Function.update_of_ne hne, List.count_cons_of_ne hu]

/-- A schedule that gives each thread its steps lets both finish. -/
theorem run_finished (w : Sizes) (x y : IntMatrix) (s : State) {sched : List Thread}
    (h : ∀ t, (s.regs t).stepsLeft w (w.last t) ≤ sched.count t) :
    Finished ((threads w x y).run s sched) := by
  intro t
  have hleft := run_stepsLeft w x y s sched t
  rw [Nat.sub_eq_zero_of_le (h t)] at hleft
  exact done_of_stepsLeft hleft

/-- From the start a thread needs one pass for each of its rows. -/
theorem Initial.run_finished (h : Initial w s) (x y : IntMatrix) {sched : List Thread}
    (hsched : ∀ t, w.rowSteps * (w.last t - w.first t) + 1 ≤ sched.count t) :
    Finished ((threads w x y).run s sched) := by
  refine RowThreads.run_finished w x y s fun t => ?_
  obtain ⟨hpc, hi⟩ := h t
  simp only [Regs.stepsLeft, hpc, hi]
  exact hsched t

/- In `3_1.c` and in `3_2.c`. -/
example : sizes31.rowSteps * (sizes31.last .thread2 - sizes31.first .thread2) + 1 = 2474171 := rfl
example : sizes32.rowSteps * (sizes32.last .thread2 - sizes32.first .thread2) + 1 = 762901991 := rfl

/-! ### The result -/

/-- In every interleaving, when both threads are through, the product has been added to every entry
once, as the single thread does it. -/
theorem run_product (w : Sizes) (x y : IntMatrix) {s : State} (h : Initial w s)
    (sched : List Thread) (hdone : Finished ((threads w x y).run s sched)) :
    ((threads w x y).run s sched).z = singleThread w x y s.z ∧
    ∀ i j, i < w.matrixRowX → j < w.matrixColY → ((threads w x y).run s sched).z i j =
      s.z i j + ∑ k ∈ Finset.range w.matrixRowY, x i k * y k j := by
  have hinv : Inv w x y s.z ((threads w x y).run s sched) := h.inv.run sched
  constructor
  · funext i j
    rw [hinv.finished hdone, singleThread_apply]
  · intro i j hi hj
    rw [hinv.finished hdone, if_pos ⟨hi, hj⟩, partialDot, Finset.range_eq_Ico]

def atStart (w : Sizes) (z : IntMatrix) : State := ⟨z, fun t => ⟨.rows, w.first t, 0, 0, 0⟩⟩

theorem atStart_initial (w : Sizes) (z : IntMatrix) : Initial w (atStart w z) := fun _ => ⟨rfl, rfl⟩

/- Two rows with one entry each, and the threads in turn. -/
def twoRows : Sizes := ⟨2, 1, 1, 1, by decide⟩
def inTurn : List Thread := (List.replicate 9 [.thread1, .thread2]).flatten

theorem run_product_twoRows :
    ((threads twoRows (fun _ _ => 2) fun _ _ => 3).run (atStart twoRows fun _ _ => 1) inTurn).z =
      singleThread twoRows (fun _ _ => 2) (fun _ _ => 3) fun _ _ => 1 :=
  have hdone : Finished ((threads twoRows (fun _ _ => 2) fun _ _ => 3).run
      (atStart twoRows fun _ _ => 1) inTurn) :=
    run_finished twoRows _ _ _ fun t => by cases t <;> decide
  (run_product twoRows _ _ (atStart_initial twoRows _) inTurn hdone).1

end OSLab.RowThreads
