import OSLab.Base.Fgets

/-!
# `fgets` through a buffered file

The library keeps what it has read of a file and hands it out in pieces; it
reads on when a piece comes to the end of what it has.
-/

namespace OSLab.Base

variable {α μ : Type*} [DecidableEq α] {nl : α} {n : ℕ}

/-- `fgets(buffer, n + 1, fptr)`, when `file` is in the buffer of `fptr` and a `read` would give `more`:
the piece, what is then in the buffer, and the state of the system. -/
def fgetsFile (nl : α) (n : ℕ) (file : List α) (more : List α × μ) (m : μ) : List α × List α × μ :=
  let got := fgets nl n file
  if got.1.length = n ∨ got.1.getLast? = some nl then (got.1, got.2, m)
  else
    let rest := fgets nl (n - got.1.length) more.1
    (got.1 ++ rest.1, rest.2, more.2)

theorem fgets_nil (nl : α) (n : ℕ) : fgets nl n [] = ([], []) := by
  cases n with
  | zero => rfl
  | succ n => rfl

/-- A piece that is neither full nor ends with a newline is all there was. -/
theorem fgets_rest (nl : α) (n : ℕ) (file : List α) :
    (fgets nl n file).1.length = n ∨ (fgets nl n file).1.getLast? = some nl ∨ (fgets nl n file).2 = [] := by
  cases n with
  | zero => exact .inl rfl
  | succ n =>
    by_cases hfile : file = []
    · rw [hfile, fgets_nil]
      exact .inr (.inr rfl)
    · rcases fgets_cases nl n hfile with ⟨l, hgot, -⟩ | ⟨-, hrest, -⟩ | ⟨-, hfull, -⟩
      · right
        left
        rw [hgot, List.getLast?_concat]
      · exact .inr (.inr hrest)
      · exact .inl hfull

theorem fgets_some (hn : 0 < n) {file : List α} (h : (fgets nl n file).1 = []) : file = [] := by
  cases file with
  | nil => rfl
  | cons b file =>
    obtain ⟨n, rfl⟩ := Nat.exists_eq_succ_of_ne_zero hn.ne'
    have hlt := fgets_length nl n b file
    have happend := fgets_append nl (n + 1) (b :: file)
    rw [Nat.succ_eq_add_one] at h
    rw [h, List.nil_append] at happend
    rw [happend] at hlt
    exact absurd hlt (lt_irrefl _)

/-- Behind the last `read` that gives something, the pieces are cut off what is in the buffer. -/
theorem fgetsFile_behind (nl : α) (hn : 0 < n) (file : List α) (m : μ) :
    let r := fgetsFile nl n file ([], m) m
    r.1 ++ r.2.1 = file ∧ r.2.2 = m ∧ (r.1 = [] → file = []) := by
  intro r
  have happend := fgets_append nl n file
  change (fgetsFile nl n file ([], m) m).1 ++ (fgetsFile nl n file ([], m) m).2.1 = file ∧
    (fgetsFile nl n file ([], m) m).2.2 = m ∧ ((fgetsFile nl n file ([], m) m).1 = [] → file = [])
  unfold fgetsFile
  dsimp only
  split
  next => exact ⟨happend, rfl, fgets_some hn⟩
  next hend =>
    have hrest := (or_assoc.mpr (fgets_rest nl n file)).resolve_left hend
    rw [fgets_nil]
    rw [hrest, List.append_nil] at happend
    simp only [List.append_nil]
    exact ⟨happend, trivial, fun hnil => happend.symm.trans hnil⟩

/-- The first call reads the whole text and hands out a part of it. -/
theorem fgetsFile_first (nl : α) (hn : 0 < n) (text : List α) (m m' : μ) :
    fgetsFile nl n [] (text, m') m = ((fgets nl n text).1, (fgets nl n text).2, m') := by
  have hempty : ¬ (([] : List α).length = n ∨ ([] : List α).getLast? = some nl) := by
    rintro (hlen | hlast)
    · exact hn.ne hlen
    · exact Option.some_ne_none nl hlast.symm
  unfold fgetsFile
  dsimp only
  rw [fgets_nil, if_neg hempty]
  rfl

end OSLab.Base
