import OSLab.Base.Scan
import OSLab.Threads.Matrix

/-!
# The files of the matrix programs (Lab3/2)

`data_processing` reads two matrices as decimal numbers, and both programs
append the product in the same form, so that the result can be read back by the
same loops.
-/

namespace OSLab.Matrix
open OSLab.Base

def matrixColX : ℕ := 250

/- The order in which the loops over `i` and `j` pass the entries. -/
def cells (rows cols : ℕ) : List (ℕ × ℕ) :=
  (List.range rows).flatMap fun i => (List.range cols).map fun j => (i, j)

structure Reading where
  ok : Bool
  file : Bytes
  m : IntMatrix

/- `fscanf(fp, "%d", &m[i][j])` for each entry, up to the first one that does not return 1. An `int`
takes the low bits of a number that is too large for it, as long as this fits 64 bits. -/
def readEntries (file : Bytes) (m : IntMatrix) : List (ℕ × ℕ) → Reading
  | [] => ⟨true, file, m⟩
  | (i, j) :: rest =>
    match scanInt file with
    | (none, file) => ⟨false, file, m⟩
    | (some n, file) => readEntries file (setAt m i j (BitVec.ofInt 32 n)) rest

/- The two numbers in front of a matrix are read into `tmp`; nobody looks whether they are there. -/
def skipHeader (file : Bytes) : Bytes := (scanInt (scanInt file).2).2

structure Data where
  x : IntMatrix
  y : IntMatrix
  stdout : Bytes

def readError : Bytes := chars "Error reading from file"

/- `2_1.c:22-45`, and the same in `2_2.c`; `x` and `y` hold what `malloc` left there. -/
def dataProcessing (file1 file2 : Bytes) (x y : IntMatrix) : Data :=
  let r1 := readEntries (skipHeader file1) x (cells matrixRowX matrixColX)
  if r1.ok then
    let r2 := readEntries (skipHeader file2) y (cells matrixRowY matrixColY)
    { x := r1.m, y := r2.m, stdout := if r2.ok then [] else readError }
  else { x := r1.m, y, stdout := readError }

/-! ### The text of the output -/

def Printed.text : Printed → Bytes
  | .num v => printInt v.toInt ++ [32]
  | .newline => [10]

/- `fprintf(fptr3, "%d %d\n", matrix_row_x, matrix_col_y)`. -/
def headerText : Bytes := printInt matrixRowX ++ ([32] ++ (printInt matrixColY ++ [10]))

def outputText (out : List Printed) : Bytes :=
  headerText ++ (out.drop header.length).flatMap Printed.text

/-- What a program leaves: `2.txt` and its standard output. -/
structure Result where
  file : Bytes
  stdout : Bytes

/- `main` of `2_1.c`; `2.txt` is opened for appending. -/
def program1 (file1 file2 old : Bytes) (x y : IntMatrix) : Result :=
  let data := dataProcessing file1 file2 x y
  { file := old ++ outputText (main1 data.x data.y), stdout := data.stdout }

/- `main` of `2_2.c`; `z` holds what `malloc` left there. -/
def program2 (file1 file2 old : Bytes) (x y z : IntMatrix) (order : LockOrder) : Result :=
  let data := dataProcessing file1 file2 x y
  { file := old ++ outputText (main2 data.x data.y z order), stdout := data.stdout }

/-! ### Reading -/

/- The entries of `v` at these places, `m` elsewhere. -/
def filled (m v : IntMatrix) (places : List (ℕ × ℕ)) : IntMatrix :=
  fun i j => if (i, j) ∈ places then v i j else m i j

def entryInts (v : IntMatrix) (places : List (ℕ × ℕ)) : List ℤ := places.map fun p => (v p.1 p.2).toInt

theorem mem_cells {rows cols i j : ℕ} : (i, j) ∈ cells rows cols ↔ i < rows ∧ j < cols := by
  simp only [cells, List.mem_flatMap, List.mem_map, List.mem_range, Prod.mk.injEq]
  constructor
  · rintro ⟨i', hi, j', hj, rfl, rfl⟩
    exact ⟨hi, hj⟩
  · intro ⟨hi, hj⟩
    exact ⟨i, hi, j, hj, rfl, rfl⟩

theorem filled_setAt (m v : IntMatrix) (i j : ℕ) (places : List (ℕ × ℕ)) :
    filled (setAt m i j (v i j)) v places = filled m v ((i, j) :: places) := by
  funext i' j'
  unfold filled setAt
  by_cases hmem : (i', j') ∈ places
  · simp only [hmem, ite_true, List.mem_cons, or_true]
  · by_cases heq : i' = i ∧ j' = j
    · obtain ⟨rfl, rfl⟩ := heq
      simp only [hmem, ite_false, List.mem_cons, and_self, ite_true, true_or]
    · simp only [hmem, heq, ite_false, List.mem_cons, Prod.mk.injEq, or_self]

/-- The loops get exactly the numbers that the text spells, and go on behind them. -/
theorem readEntries_spells {rest file : Bytes} (v m : IntMatrix) {places : List (ℕ × ℕ)}
    (h : Spells rest (entryInts v places) file) (more : List (ℕ × ℕ)) :
    readEntries file m (places ++ more) = readEntries rest (filled m v places) more := by
  induction places generalizing file m with
  | nil =>
    cases h with
    | nil => rfl
  | cons p places ih =>
    obtain ⟨i, j⟩ := p
    cases h with
    | cons n hblanks hend htail =>
      rw [List.cons_append, readEntries, scanInt_printInt _ hblanks hend]
      dsimp only
      rw [ih _ htail, BitVec.ofInt_toInt, filled_setAt]

theorem skipHeader_spells {rest file : Bytes} {r c : ℤ} {ns : List ℤ}
    (h : Spells rest (r :: c :: ns) file) : Spells rest ns (skipHeader file) := by
  cases h with
  | cons r hblanks hend htail =>
    cases htail with
    | cons c hblanks' hend' htail' =>
      unfold skipHeader
      rw [scanInt_printInt _ hblanks hend]
      dsimp only
      rw [scanInt_printInt _ hblanks' hend']
      exact htail'

theorem readEntries_all {rest file : Bytes} (v m : IntMatrix) {places : List (ℕ × ℕ)}
    (h : Spells rest (entryInts v places) file) :
    readEntries file m places = ⟨true, rest, filled m v places⟩ := by
  have hall := readEntries_spells v m h []
  rw [List.append_nil] at hall
  exact hall

/-! ### Writing -/

/-- A text that begins with a blank does not go on with a digit. -/
def StartsBlank (text : Bytes) : Prop := ∀ b, text.head? = some b → isSpace b = true

theorem StartsBlank.not_digit {text : Bytes} (h : StartsBlank text) (b : Byte)
    (hb : text.head? = some b) : isDigit b = false := by
  by_contra hdigit
  rw [Bool.not_eq_false] at hdigit
  have hspace := h b hb
  rw [(isDigit_not_space hdigit).1] at hspace
  cases hspace

/-- The text of some entries, behind blanks: numbers with a blank behind each, and newlines. -/
theorem spells_entries (entry : IntMatrix) (places : List (ℕ × ℕ)) {blanks : Bytes}
    (hblanks : ∀ b ∈ blanks, isSpace b = true) : ∃ rest, (∀ b ∈ rest, isSpace b = true) ∧
      Spells rest (entryInts entry places)
        (blanks ++ places.flatMap fun p => (printEntry p.2 (entry p.1 p.2)).flatMap Printed.text) := by
  induction places generalizing blanks with
  | nil =>
    refine ⟨blanks, hblanks, ?_⟩
    rw [List.flatMap_nil, List.append_nil]
    exact .nil
  | cons p places ih =>
    have hentry : ∃ after : Bytes, (∀ b ∈ after, isSpace b = true) ∧ StartsBlank after ∧
        after ≠ [] ∧ (printEntry p.2 (entry p.1 p.2)).flatMap Printed.text =
          printInt (entry p.1 p.2).toInt ++ after := by
      have hblank : isSpace 32 = true := by decide
      have hnewline : isSpace 10 = true := by decide
      unfold printEntry
      by_cases hlast : p.2 = matrixColY - 1
      · refine ⟨[32, 10], List.forall_mem_cons.mpr ⟨hblank, List.forall_mem_singleton.mpr hnewline⟩, ?_,
          List.cons_ne_nil _ _, ?_⟩
        · intro b hb
          rw [← Option.some.inj hb]
          exact hblank
        · simp only [hlast, ite_true, List.flatMap_cons, List.flatMap_nil, List.append_nil,
            Printed.text, List.append_assoc, List.cons_append, List.nil_append]
      · refine ⟨[32], List.forall_mem_singleton.mpr hblank, ?_, List.cons_ne_nil _ _, ?_⟩
        · intro b hb
          rw [← Option.some.inj hb]
          exact hblank
        · simp only [hlast, ite_false, List.flatMap_cons, List.flatMap_nil, List.append_nil,
            Printed.text]
    obtain ⟨after, hafter, hstart, hne, htext⟩ := hentry
    obtain ⟨rest, hrest, hspells⟩ := ih hafter
    refine ⟨rest, hrest, ?_⟩
    rw [List.flatMap_cons, htext, List.append_assoc]
    refine .cons _ hblanks ?_ hspells
    intro b hb
    refine hstart.not_digit b ?_
    cases after with
    | nil => exact absurd rfl hne
    | cons a after => exact hb

theorem printEntries_flatMap (entry : IntMatrix) :
    (printEntries entry header).drop header.length =
      (cells matrixRowX matrixColY).flatMap fun p => printEntry p.2 (entry p.1 p.2) := by
  have hrange (n : ℕ) : List.range' 0 n = List.range n := List.range_eq_range'.symm
  rw [printEntries_eq, List.drop_left, cells, List.flatMap_assoc, hrange, hrange]
  simp only [List.flatMap_map]

theorem header_spells (r c : ℤ) {rest text : Bytes} {ns : List ℤ} (h : Spells rest ns ([10] ++ text)) :
    Spells rest (r :: c :: ns) (printInt r ++ ([32] ++ (printInt c ++ ([10] ++ text)))) := by
  have hblank : isSpace 32 = true := by decide
  refine Spells.cons r (fun b hb => absurd hb (List.not_mem_nil (a := b))) ?_
    (.cons _ (List.forall_mem_singleton.mpr hblank) ?_ h)
  · intro b hb
    rw [← Option.some.inj hb]
    decide
  · intro b hb
    rw [← Option.some.inj hb]
    decide

/-- What is appended to `2.txt` spells the two numbers of the header and the entries of the matrix. -/
theorem outputText_spells (entry : IntMatrix) : ∃ rest, Spells rest
    (matrixRowX :: matrixColY :: entryInts entry (cells matrixRowX matrixColY))
    (outputText (printEntries entry header)) := by
  have hnewline : isSpace 10 = true := by decide
  obtain ⟨rest, -, hspells⟩ :=
    spells_entries entry (cells matrixRowX matrixColY) (List.forall_mem_singleton.mpr hnewline)
  refine ⟨rest, ?_⟩
  unfold outputText headerText
  rw [printEntries_flatMap, List.flatMap_assoc, List.append_assoc, List.append_assoc, List.append_assoc]
  exact header_spells _ _ hspells

/-! ### The programs -/

/- A file with a matrix of these numbers of rows and columns. -/
def HoldsMatrix (v : IntMatrix) (rows cols : ℕ) (file : Bytes) : Prop :=
  ∃ r c rest, Spells rest (r :: c :: entryInts v (cells rows cols)) file

theorem readEntries_holds {v : IntMatrix} {rows cols : ℕ} {file : Bytes}
    (h : HoldsMatrix v rows cols file) (m : IntMatrix) : ∃ rest,
      readEntries (skipHeader file) m (cells rows cols) = ⟨true, rest, filled m v (cells rows cols)⟩ := by
  obtain ⟨r, c, rest, hspells⟩ := h
  exact ⟨rest, readEntries_all v m (skipHeader_spells hspells)⟩

theorem filled_cells (m v : IntMatrix) {rows cols i j : ℕ} (hi : i < rows) (hj : j < cols) :
    filled m v (cells rows cols) i j = v i j := by
  unfold filled
  rw [if_pos (mem_cells.mpr ⟨hi, hj⟩)]

theorem product_congr {x x' y y' : IntMatrix} {i j : ℕ}
    (hx : ∀ k, k < matrixRowY → x i k = x' i k) (hy : ∀ k, k < matrixRowY → y k j = y' k j) :
    product x y i j = product x' y' i j := by
  unfold product
  apply Finset.sum_congr rfl
  intro k hk
  have hlt := Finset.mem_range.mp hk
  rw [hx k hlt, hy k hlt]

/-- Both programs read the two matrices, however their files are laid out, and append a text from which
the same loops read the product; `2_2.c` does so if `malloc` hands out zeros for `z`. -/
theorem programs_append_product {x y : IntMatrix} {file1 file2 : Bytes}
    (h1 : HoldsMatrix x matrixRowX matrixColX file1) (h2 : HoldsMatrix y matrixRowY matrixColY file2)
    (old : Bytes) (x0 y0 : IntMatrix) :
    ∃ text, HoldsMatrix (product x y) matrixRowX matrixColY text ∧
      program1 file1 file2 old x0 y0 = ⟨old ++ text, []⟩ ∧
      ∀ z order, (∀ i, i < matrixRowX → ∀ j, j < matrixColY → z i j = 0) →
        program2 file1 file2 old x0 y0 z order = ⟨old ++ text, []⟩ := by
  obtain ⟨rest1, hr1⟩ := readEntries_holds h1 x0
  obtain ⟨rest2, hr2⟩ := readEntries_holds h2 y0
  let x' := filled x0 x (cells matrixRowX matrixColX)
  let y' := filled y0 y (cells matrixRowY matrixColY)
  have hdata : dataProcessing file1 file2 x0 y0 = ⟨x', y', []⟩ := by
    simp only [dataProcessing, hr1, hr2, ite_true, x', y']
  -- what is in memory outside the two matrices is not looked at
  have hproduct (i : ℕ) (hi : i < matrixRowX) (j : ℕ) (hj : j < matrixColY) :
      product x' y' i j = product x y i j :=
    product_congr (fun k hk => filled_cells x0 x hi hk) fun k hk => filled_cells y0 y hk hj
  have hmain1 : main1 x' y' = printEntries (product x y) header := by
    rw [main1_eq, printEntries_inj]
    exact hproduct
  obtain ⟨rest, hspells⟩ := outputText_spells (product x y)
  refine ⟨_, ⟨_, _, rest, hspells⟩, ?_, ?_⟩
  · simp only [program1, hdata, hmain1]
  · intro z order hz
    have hmain2 : main2 x' y' z order = printEntries (product x y) header := by
      unfold main2
      rw [printEntries_inj]
      intro i hi j hj
      rw [runThreads_apply x' y' z order hi hj, hz i hi j hj, zero_add, hproduct i hi j hj]
    simp only [program2, hdata, hmain2]

/- A text of a matrix, with a blank in front of each number. -/
def blankText (ns : List ℤ) : Bytes := ns.flatMap fun n => 32 :: printInt n

theorem blankText_spells (ns : List ℤ) : Spells [] ns (blankText ns) := by
  have hblank : isSpace 32 = true := by decide
  induction ns with
  | nil => exact .nil
  | cons n ns ih =>
    have hsplit : blankText (n :: ns) = [32] ++ (printInt n ++ blankText ns) := by
      simp only [blankText, List.flatMap_cons, List.cons_append, List.nil_append]
    rw [hsplit]
    refine .cons n (List.forall_mem_singleton.mpr hblank) ?_ ih
    intro b hb
    cases ns with
    | nil => cases hb
    | cons m ns =>
      rw [← Option.some.inj hb]
      decide

/- Two matrices of ones, and one of ones to be read. -/
def onesX : Bytes := blankText (1234 :: 250 :: entryInts (fun _ _ => 1) (cells matrixRowX matrixColX))

def onesY : Bytes := blankText (250 :: 4 :: entryInts (fun _ _ => 1) (cells matrixRowY matrixColY))

theorem programs_append_ones :
    ∃ text, HoldsMatrix (product (fun _ _ => 1) fun _ _ => 1) matrixRowX matrixColY text ∧
      program1 onesX onesY [] (fun _ _ => 7) (fun _ _ => 7) = ⟨[] ++ text, []⟩ ∧
      ∀ z order, (∀ i, i < matrixRowX → ∀ j, j < matrixColY → z i j = 0) →
        program2 onesX onesY [] (fun _ _ => 7) (fun _ _ => 7) z order = ⟨[] ++ text, []⟩ :=
  programs_append_product ⟨1234, 250, [], blankText_spells _⟩ ⟨250, 4, [], blankText_spells _⟩ []
    (fun _ _ => 7) fun _ _ => 7

/-- A first file that ends after some of its entries: the error is printed, the entries read so far are
kept, and neither the others nor the second matrix are what the files say. -/
theorem short_file_stops {x : IntMatrix} {file1 rest : Bytes} {r c : ℤ} {places more : List (ℕ × ℕ)}
    (hsplit : cells matrixRowX matrixColX = places ++ more) (hmore : more ≠ [])
    (h : Spells rest (r :: c :: entryInts x places) file1) (hend : (scanInt rest).1 = none)
    (file2 : Bytes) (x0 y0 : IntMatrix) :
    dataProcessing file1 file2 x0 y0 = ⟨filled x0 x places, y0, readError⟩ := by
  have hread := readEntries_spells x x0 (skipHeader_spells h) more
  obtain ⟨p, more, rfl⟩ := List.exists_cons_of_ne_nil hmore
  have hstop : readEntries rest (filled x0 x places) (p :: more) =
      ⟨false, (scanInt rest).2, filled x0 x places⟩ := by
    obtain ⟨i, j⟩ := p
    unfold readEntries
    generalize scanInt rest = r at hend
    obtain ⟨n, file⟩ := r
    obtain rfl : n = none := hend
    rfl
  simp only [dataProcessing, hsplit, hread, hstop, Bool.false_eq_true, ite_false]

theorem cells_length (rows cols : ℕ) : (cells rows cols).length = rows * cols := by
  simp only [cells, List.length_flatMap, List.length_map, List.length_range, List.map_const',
    List.sum_replicate, Nat.nsmul_eq_mul]

/- Only the entry `x[0][0]`. -/
def onePlace : List (ℕ × ℕ) := (cells matrixRowX matrixColX).take 1

theorem short_file_stops_one :
    dataProcessing (blankText (1234 :: 250 :: entryInts (fun _ _ => 1) onePlace)) onesY
      (fun _ _ => 7) (fun _ _ => 7) =
        ⟨filled (fun _ _ => 7) (fun _ _ => 1) onePlace, fun _ _ => 7, readError⟩ := by
  have hlen := cells_length matrixRowX matrixColX
  have hmore : (cells matrixRowX matrixColX).drop 1 ≠ [] := by
    intro hnil
    have hshort := congrArg List.length hnil
    rw [List.length_drop, hlen] at hshort
    exact absurd hshort (by decide)
  exact short_file_stops (List.take_append_drop 1 _).symm hmore (blankText_spells _) rfl onesY
    (fun _ _ => 7) fun _ _ => 7

end OSLab.Matrix
