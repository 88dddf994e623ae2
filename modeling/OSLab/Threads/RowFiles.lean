import OSLab.Threads.MatrixFile
import OSLab.Threads.RowThreads

/-!
# The files of the programs with the proc file (Lab3/3_1 and 3_2)

`3_1.c` and `3_2.c` read and write their matrices in the same way, for matrices
of different sizes.
-/

namespace OSLab.RowThreads
open OSLab.Base OSLab.Matrix

/- `3_1.c:25-48` and `3_2.c:27-50`; `matrix_col_x` is `matrix_row_y`. -/
def dataProcessing (w : Sizes) (file1 file2 : Bytes) (x y : IntMatrix) : Data :=
  let r1 := readEntries (skipHeader file1) x (cells w.matrixRowX w.matrixRowY)
  if r1.ok then
    let r2 := readEntries (skipHeader file2) y (cells w.matrixRowY w.matrixColY)
    { x := r1.m, y := r2.m, stdout := if r2.ok then [] else readError }
  else { x := r1.m, y, stdout := readError }

/- `fprintf(fptr3, "%d %d\n", matrix_row_x, matrix_col_y)`. -/
def headerText (w : Sizes) : Bytes :=
  printInt w.matrixRowX ++ chars " " ++ printInt w.matrixColY ++ chars "\n"

/- `3_1.c:102-107` and `3_2.c:149-154`. -/
def entriesText (w : Sizes) (z : IntMatrix) : Bytes :=
  forLoop 0 w.matrixRowX (fun i => forLoop 0 w.matrixColY fun j out =>
    out ++ printInt (z i j).toInt ++ chars " " ++ if j = w.matrixColY - 1 then chars "\n" else []) []

/-- When both threads are through their rows, the matrix is what one thread alone makes of it. -/
theorem Inv.single {w : Sizes} {x y z0 : IntMatrix} {s : State} (h : Inv w x y z0 s) (hdone : Finished s) :
    s.z = singleThread w x y z0 := by
  funext i j
  rw [h.finished hdone, singleThread_apply]

end OSLab.RowThreads
