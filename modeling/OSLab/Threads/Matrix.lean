import OSLab.Base.Loop
import Mathlib.Data.BitVec

/-!
# The matrix product of one and of two threads (Lab3/2)

`2_1.c` sums each entry in a local variable; the threads of `2_2.c` each add
half of the sum to `z[i][j]` under a spinlock, so one of them runs after the
other. An `int` is a word of 32 bits.
-/

namespace OSLab.Matrix
open OSLab.Base

abbrev CInt := BitVec 32

abbrev IntMatrix := ℕ → ℕ → CInt

def setAt (z : IntMatrix) (i j : ℕ) (v : CInt) : IntMatrix :=
  fun i' j' => if i' = i ∧ j' = j then v else z i' j'

def matrixRowX : ℕ := 1234
def matrixRowY : ℕ := 250
def matrixColY : ℕ := 4

/-! ### The threads of `2_2.c` -/

/- `z[i][j] += v`. -/
def addAt (z : IntMatrix) (i j : ℕ) (v : CInt) : IntMatrix :=
  fun i' j' => if i' = i ∧ j' = j then z i j + v else z i' j'

/- The loops of a thread, for the terms with `lo <= k < hi`. -/
def accumulate (x y : IntMatrix) (lo hi : ℕ) (z : IntMatrix) : IntMatrix :=
  forLoop 0 matrixRowX (fun i => forLoop 0 matrixColY fun j => forLoop lo hi fun k z =>
    addAt z i j (x i k * y k j)) z

/- `2_2.c:50-64`. -/
def thread1 (x y z : IntMatrix) : IntMatrix := accumulate x y 0 (matrixRowY / 2) z

/- `2_2.c:66-80`. -/
def thread2 (x y z : IntMatrix) : IntMatrix := accumulate x y (matrixRowY / 2) matrixRowY z

/-- Which thread gets the spinlock first. -/
inductive LockOrder where
  | thread1First
  | thread2First
  deriving DecidableEq

def runThreads (x y : IntMatrix) (order : LockOrder) (z : IntMatrix) : IntMatrix :=
  match order with
  | .thread1First => thread2 x y (thread1 x y z)
  | .thread2First => thread1 x y (thread2 x y z)

/-! ### The output file -/

inductive Printed where
  | num (v : CInt)
  | newline
  deriving DecidableEq

/- `fprintf(fptr3, "%d ", v)`, and the end of the line behind the last column. -/
def printEntry (j : ℕ) (v : CInt) : List Printed :=
  .num v :: if j = matrixColY - 1 then [.newline] else []

def printEntries (entry : IntMatrix) (out : List Printed) : List Printed :=
  forLoop 0 matrixRowX (fun i => forLoop 0 matrixColY fun j out => out ++ printEntry j (entry i j))
    out

/- `fprintf(fptr3, "%d %d\n", matrix_row_x, matrix_col_y)`. -/
def header : List Printed :=
  [.num (BitVec.ofNat 32 matrixRowX), .num (BitVec.ofNat 32 matrixColY), .newline]

/- What `2_1.c` writes; `res` is the local variable of its thread (`2_1.c:47-62`). -/
def main1 (x y : IntMatrix) : List Printed :=
  printEntries (fun i j => forLoop 0 matrixRowY (fun k res => res + x i k * y k j) 0) header

/- What `2_2.c` writes, when the rows of `z` hold `z` after `malloc` (`2_2.c:82-115`). -/
def main2 (x y z : IntMatrix) (order : LockOrder) : List Printed :=
  printEntries (runThreads x y order z) header

/-! ### Sums -/

/-- The terms `lo <= k < hi` of an entry of the product. -/
def partialDot (x y : IntMatrix) (lo hi i j : ℕ) : CInt := ∑ k ∈ Finset.Ico lo hi, x i k * y k j

/-- The matrix product. -/
def product (x y : IntMatrix) : IntMatrix := fun i j => ∑ k ∈ Finset.range matrixRowY, x i k * y k j

theorem addAt_addAt (z : IntMatrix) (i j : ℕ) (v w : CInt) :
    addAt (addAt z i j v) i j w = addAt z i j (v + w) := by
  funext i' j'
  unfold addAt
  by_cases h : i' = i ∧ j' = j
  · simp only [h, and_self, ite_true, add_assoc]
  · simp only [h, ite_false]

theorem addAt_zero (z : IntMatrix) (i j : ℕ) : addAt z i j 0 = z := by
  funext i' j'
  unfold addAt
  split
  · rename_i h
    rw [h.1, h.2, add_zero]
  · rfl

theorem innerLoop_eq {lo hi : ℕ} (h : lo ≤ hi) (x y z : IntMatrix) (i j : ℕ) :
    forLoop lo hi (fun k z => addAt z i j (x i k * y k j)) z =
      addAt z i j (partialDot x y lo hi i j) := by
  refine forLoop_invariant (P := fun k a => a = addAt z i j (partialDot x y lo k i j)) h ?_ ?_
  · unfold partialDot
    rw [Finset.Ico_self, Finset.sum_empty, addAt_zero]
  · intro k a hlo _ ha
    unfold partialDot at ha ⊢
    rw [ha, addAt_addAt, Finset.sum_Ico_succ_top hlo]

theorem rowLoop_apply {lo hi : ℕ} (h : lo ≤ hi) (cols : ℕ) (x y z : IntMatrix) (i i' j' : ℕ) :
    forLoop 0 cols (fun j => forLoop lo hi fun k z => addAt z i j (x i k * y k j)) z i' j' =
      if i' = i ∧ j' < cols then z i' j' + partialDot x y lo hi i' j' else z i' j' := by
  refine forLoop_invariant (P := fun j (a : IntMatrix) => a i' j' =
    if i' = i ∧ j' < j then z i' j' + partialDot x y lo hi i' j' else z i' j')
    (Nat.zero_le _) ?_ ?_
  · simp only [Nat.not_lt_zero, and_false, ite_false]
  · intro j a _ _ ha
    rw [innerLoop_eq h]
    unfold addAt
    by_cases hij : i' = i ∧ j' = j
    · obtain ⟨rfl, rfl⟩ := hij
      simp only [Nat.lt_irrefl, and_false, ite_false] at ha
      simp only [and_self, ite_true, ha, Nat.lt_succ_self]
    · have hlt : (i' = i ∧ j' < j + 1) ↔ (i' = i ∧ j' < j) := by omega
      simp only [hij, ite_false, ha, hlt]

/-- The three loops add their terms to every entry. -/
theorem loops_apply {lo hi : ℕ} (h : lo ≤ hi) (rows cols : ℕ) (x y z : IntMatrix) (i j : ℕ) :
    forLoop 0 rows (fun i => forLoop 0 cols fun j => forLoop lo hi fun k z =>
        addAt z i j (x i k * y k j)) z i j =
      if i < rows ∧ j < cols then z i j + partialDot x y lo hi i j else z i j := by
  refine forLoop_invariant (P := fun n (a : IntMatrix) => a i j =
    if i < n ∧ j < cols then z i j + partialDot x y lo hi i j else z i j)
    (Nat.zero_le _) ?_ ?_
  · simp only [Nat.not_lt_zero, false_and, ite_false]
  · intro n a _ _ ha
    rw [rowLoop_apply h, ha]
    by_cases hin : i = n
    · subst hin
      simp only [true_and, Nat.lt_irrefl, false_and, ite_false, Nat.lt_succ_self]
    · have hlt : (i < n + 1 ∧ j < cols) ↔ (i < n ∧ j < cols) := by omega
      simp only [hin, false_and, ite_false, hlt]

theorem accumulate_apply {lo hi : ℕ} (h : lo ≤ hi) (x y z : IntMatrix) (i j : ℕ) :
    accumulate x y lo hi z i j =
      if i < matrixRowX ∧ j < matrixColY then z i j + partialDot x y lo hi i j else z i j :=
  loops_apply h matrixRowX matrixColY x y z i j

/-- In either order the two halves make up the product. -/
theorem runThreads_apply (x y z : IntMatrix) (order : LockOrder) {i j : ℕ} (hi : i < matrixRowX)
    (hj : j < matrixColY) : runThreads x y order z i j = z i j + product x y i j := by
  have hsplit : partialDot x y 0 (matrixRowY / 2) i j +
      partialDot x y (matrixRowY / 2) matrixRowY i j = product x y i j := by
    unfold partialDot product
    rw [Finset.sum_Ico_consecutive _ (Nat.zero_le _) (Nat.div_le_self _ _),
      ← Finset.range_eq_Ico]
  have hhalf : matrixRowY / 2 ≤ matrixRowY := Nat.div_le_self _ _
  cases order with
  | thread1First =>
    simp only [runThreads, thread1, thread2, accumulate_apply (Nat.zero_le _),
      accumulate_apply hhalf, hi, hj, and_self, ite_true]
    rw [add_assoc, hsplit]
  | thread2First =>
    simp only [runThreads, thread1, thread2, accumulate_apply (Nat.zero_le _),
      accumulate_apply hhalf, hi, hj, and_self, ite_true]
    rw [add_assoc, add_comm (partialDot x y (matrixRowY / 2) matrixRowY i j), hsplit]

/-! ### Printing -/

theorem printEntries_eq (entry : IntMatrix) (out : List Printed) :
    printEntries entry out = out ++ (List.range' 0 matrixRowX).flatMap fun i =>
      (List.range' 0 matrixColY).flatMap fun j => printEntry j (entry i j) := by
  have hrow : (fun i => forLoop 0 matrixColY fun j out => out ++ printEntry j (entry i j)) =
      fun i out => out ++ (List.range' 0 matrixColY).flatMap fun j => printEntry j (entry i j) := by
    funext i out
    exact forLoop_append (Nat.zero_le _) _ out
  unfold printEntries
  rw [hrow]
  exact forLoop_append (Nat.zero_le _) _ out

theorem printEntries_inj {f g : IntMatrix} {out : List Printed} :
    printEntries f out = printEntries g out ↔
      ∀ i, i < matrixRowX → ∀ j, j < matrixColY → f i j = g i j := by
  have hentry (i j : ℕ) : (printEntry j (f i j)).length = (printEntry j (g i j)).length := rfl
  have hrow (i : ℕ) :
      ((List.range' 0 matrixColY).flatMap fun j => printEntry j (f i j)).length =
        ((List.range' 0 matrixColY).flatMap fun j => printEntry j (g i j)).length := by
    simp only [List.length_flatMap, hentry i]
  have hcells (i : ℕ) := flatMap_inj (l := List.range' 0 matrixColY) fun j _ => hentry i j
  rw [printEntries_eq, printEntries_eq, List.append_cancel_left_eq, flatMap_inj fun i _ => hrow i]
  simp only [hcells, List.mem_range'_1, Nat.zero_le, Nat.zero_add, true_and]
  simp only [printEntry, List.cons.injEq, Printed.num.injEq, and_true]

theorem main1_eq (x y : IntMatrix) : main1 x y = printEntries (product x y) header := by
  unfold main1 product
  simp only [forLoop_sum (Nat.zero_le _), zero_add, Finset.range_eq_Ico]

/-- `2_1.c` writes the product; `2_2.c` writes the same exactly when `malloc` handed out rows of
zeros for `z`. -/
theorem main2_eq_main1_iff (x y z : IntMatrix) (order : LockOrder) :
    main1 x y = printEntries (product x y) header ∧
      (main2 x y z order = main1 x y ↔
        ∀ i, i < matrixRowX → ∀ j, j < matrixColY → z i j = 0) := by
  refine ⟨main1_eq x y, ?_⟩
  rw [main1_eq, main2, printEntries_inj]
  constructor
  · intro h i hi j hj
    have hij := h i hi j hj
    rw [runThreads_apply x y z order hi hj] at hij
    exact add_eq_right.mp hij
  · intro h i hi j hj
    rw [runThreads_apply x y z order hi hj, h i hi j hj, zero_add]

/-- A row of `z` that starts with 1. -/
theorem main2_keeps_garbage :
    ¬ ∀ (x y z : IntMatrix) (order : LockOrder), main2 x y z order = main1 x y := by
  intro h
  have hall := h (fun _ _ => 0) (fun _ _ => 0) (fun _ _ => 1) .thread1First
  rw [main1_eq, main2, printEntries_inj] at hall
  have h00 := hall 0 (by decide) 0 (by decide)
  rw [runThreads_apply _ _ _ _ (by decide) (by decide)] at h00
  exact absurd (add_eq_right.mp h00) (by decide)

end OSLab.Matrix
