import Mathlib.Data.List.TakeWhile
import Mathlib.Data.Nat.Notation

/-!
# Reading lines

`fgets` on a finite stream, the pieces in which repeated calls read it, and
its lines. The pieces are the lines when each line fits the buffer together
with its newline.
-/

namespace OSLab.Base

variable {α : Type*} [DecidableEq α]

/-- What one call reads when the buffer takes `n` elements and the terminator, and what it leaves:
up to the first newline, which is kept. -/
def fgets (nl : α) : ℕ → List α → List α × List α
  | 0, s => ([], s)
  | _ + 1, [] => ([], [])
  | n + 1, c :: s =>
    if c = nl then ([c], s)
    else
      let read := fgets nl n s
      (c :: read.1, read.2)

/-- The lines of a stream, without their newlines; the last one may have none. -/
def lines (nl : α) : List α → List (List α)
  | [] => []
  | c :: s =>
    if c = nl then [] :: lines nl s
    else
      match lines nl s with
      | [] => [[c]]
      | l :: ls => (c :: l) :: ls

theorem fgets_append (nl : α) (n : ℕ) (s : List α) : (fgets nl n s).1 ++ (fgets nl n s).2 = s := by
  induction n generalizing s with
  | zero => rfl
  | succ n ih =>
    cases s with
    | nil => rfl
    | cons c s =>
      by_cases hc : c = nl
      · simp only [fgets, hc, ite_true, List.cons_append, List.nil_append]
      · simp only [fgets, hc, ite_false, List.cons_append, ih]

theorem fgets_drop (nl : α) (n : ℕ) (s : List α) :
    (fgets nl n s).2 = s.drop (fgets nl n s).1.length := by
  have happend := fgets_append nl n s
  generalize fgets nl n s = read at happend ⊢
  rw [← happend, List.drop_left]

theorem fgets_room (nl : α) (n : ℕ) (s : List α) : (fgets nl n s).1.length ≤ n := by
  induction n generalizing s with
  | zero => exact Nat.le_refl _
  | succ n ih =>
    cases s with
    | nil => exact Nat.zero_le _
    | cons c s =>
      by_cases hc : c = nl
      · simp only [fgets, hc, ite_true, List.length_singleton, Nat.le_add_left]
      · simp only [fgets, hc, ite_false, List.length_cons]
        exact Nat.succ_le_succ (ih s)

theorem fgets_length (nl : α) (n : ℕ) (c : α) (s : List α) :
    (fgets nl (n + 1) (c :: s)).2.length < (c :: s).length := by
  have happend := congrArg List.length (fgets_append nl (n + 1) (c :: s))
  have hread : 0 < (fgets nl (n + 1) (c :: s)).1.length := by
    by_cases hc : c = nl
    · simp only [fgets, hc, ite_true, List.length_singleton, Nat.zero_lt_one]
    · simp only [fgets, hc, ite_false, List.length_cons, Nat.succ_pos]
  rw [List.length_append] at happend
  omega

/-- The results of repeated calls, with room for `n + 1` elements, up to the end of the stream. -/
def pieces (nl : α) (n : ℕ) (s : List α) : List (List α) :=
  match s with
  | [] => []
  | c :: s => (fgets nl (n + 1) (c :: s)).1 :: pieces nl n (fgets nl (n + 1) (c :: s)).2
termination_by s.length
decreasing_by exact fgets_length nl n c s

theorem pieces_nil (nl : α) (n : ℕ) : pieces nl n [] = [] := by
  rw [pieces]

theorem pieces_of_ne_nil (nl : α) (n : ℕ) {s : List α} (h : s ≠ []) :
    pieces nl n s = (fgets nl (n + 1) s).1 :: pieces nl n (fgets nl (n + 1) s).2 := by
  cases s with
  | nil => exact absurd rfl h
  | cons c s => rw [pieces]

theorem lines_ne_nil (nl : α) {s : List α} (h : s ≠ []) : ∃ l ls, lines nl s = l :: ls := by
  cases s with
  | nil => exact absurd rfl h
  | cons c s =>
    unfold lines
    split
    · exact ⟨_, _, rfl⟩
    · split
      · exact ⟨_, _, rfl⟩
      · exact ⟨_, _, rfl⟩

theorem lines_cons {nl c : α} (hc : c ≠ nl) {s l : List α} {ls : List (List α)}
    (h : lines nl s = l :: ls) : lines nl (c :: s) = (c :: l) :: ls := by
  simp only [lines, hc, ite_false, h]

/-- One call reads a whole line with its newline, or the end of the stream, or it fills the buffer
with the beginning of the first line. -/
theorem fgets_cases (nl : α) (n : ℕ) {s : List α} (hs : s ≠ []) :
    (∃ l, (fgets nl (n + 1) s).1 = l ++ [nl] ∧ nl ∉ l ∧
      lines nl s = l :: lines nl (fgets nl (n + 1) s).2) ∨
    (nl ∉ (fgets nl (n + 1) s).1 ∧ (fgets nl (n + 1) s).2 = [] ∧
      lines nl s = [(fgets nl (n + 1) s).1]) ∨
    (nl ∉ (fgets nl (n + 1) s).1 ∧ (fgets nl (n + 1) s).1.length = n + 1 ∧
      ∃ l ls, lines nl (fgets nl (n + 1) s).2 = l :: ls ∧
        lines nl s = ((fgets nl (n + 1) s).1 ++ l) :: ls) := by
  induction n generalizing s with
  | zero =>
    cases s with
    | nil => exact absurd rfl hs
    | cons c s =>
      by_cases hc : c = nl
      · subst hc
        refine .inl ⟨[], ?_, List.not_mem_nil, ?_⟩
        · simp only [fgets, ite_true, List.nil_append]
        · simp only [fgets, lines, ite_true]
      · have hread : fgets nl 1 (c :: s) = ([c], s) := by simp only [fgets, hc, ite_false]
        have hmem : nl ∉ [c] := by
          rw [List.mem_singleton]
          exact fun h => hc h.symm
        rw [Nat.zero_add, hread]
        cases s with
        | nil =>
          refine .inr (.inl ⟨hmem, rfl, ?_⟩)
          simp only [lines, hc, ite_false]
        | cons c' s =>
          obtain ⟨l, ls, hl⟩ := lines_ne_nil nl (List.cons_ne_nil c' s)
          exact .inr (.inr ⟨hmem, rfl, l, ls, hl, lines_cons hc hl⟩)
  | succ n ih =>
    cases s with
    | nil => exact absurd rfl hs
    | cons c s =>
      by_cases hc : c = nl
      · subst hc
        refine .inl ⟨[], ?_, List.not_mem_nil, ?_⟩
        · simp only [fgets, ite_true, List.nil_append]
        · simp only [fgets, lines, ite_true]
      · have hread : fgets nl (n + 1 + 1) (c :: s) =
            (c :: (fgets nl (n + 1) s).1, (fgets nl (n + 1) s).2) := by
          rw [fgets, if_neg hc]
        have hmem {l : List α} (h : nl ∉ l) : nl ∉ c :: l := by
          rw [List.mem_cons, not_or]
          exact ⟨fun h => hc h.symm, h⟩
        rw [hread]
        cases s with
        | nil =>
          refine .inr (.inl ⟨hmem List.not_mem_nil, rfl, ?_⟩)
          simp only [lines, fgets, hc, ite_false]
        | cons c' s =>
          rcases ih (List.cons_ne_nil c' s) with ⟨l, h, hl, hls⟩ | ⟨h, hrest, hls⟩ |
            ⟨h, hlen, l, ls, hl, hls⟩
          · refine .inl ⟨c :: l, ?_, hmem hl, lines_cons hc hls⟩
            rw [h, List.cons_append]
          · exact .inr (.inl ⟨hmem h, hrest, lines_cons hc hls⟩)
          · refine .inr (.inr ⟨hmem h, ?_, l, ls, hl, lines_cons hc hls⟩)
            rw [List.length_cons, hlen]

/-! ### Lines and pieces -/

/-- The lines that end with a newline. -/
def endedLines (nl : α) : List α → List (List α)
  | [] => []
  | c :: s =>
    if c = nl then [] :: endedLines nl s
    else
      match endedLines nl s with
      | [] => []
      | l :: ls => (c :: l) :: ls

/- A piece without its newline. -/
def chomp (nl : α) (piece : List α) : List α := piece.takeWhile fun c => c ≠ nl

theorem endedLines_line {nl : α} {l : List α} (h : nl ∉ l) (s : List α) :
    endedLines nl (l ++ nl :: s) = l :: endedLines nl s := by
  induction l with
  | nil => simp only [List.nil_append, endedLines, ite_true]
  | cons c l ih =>
    rw [List.mem_cons, not_or] at h
    have hc : c ≠ nl := fun he => h.1 he.symm
    simp only [List.cons_append, endedLines, hc, ite_false, ih h.2]

theorem endedLines_unended {nl : α} {l : List α} (h : nl ∉ l) : endedLines nl l = [] := by
  induction l with
  | nil => rfl
  | cons c l ih =>
    rw [List.mem_cons, not_or] at h
    have hc : c ≠ nl := fun he => h.1 he.symm
    simp only [endedLines, hc, ite_false, ih h.2]

theorem endedLines_prefix_lines (nl : α) (s : List α) : endedLines nl s <+: lines nl s := by
  induction s with
  | nil => exact List.prefix_rfl
  | cons c s ih =>
    by_cases hc : c = nl
    · simp only [endedLines, lines, hc, ite_true]
      exact (List.prefix_cons_inj []).mpr ih
    · cases he : endedLines nl s with
      | nil =>
        simp only [endedLines, hc, ite_false, he]
        exact List.nil_prefix
      | cons l ls =>
        rw [he] at ih
        obtain ⟨ls', hls⟩ := ih
        rw [List.cons_append] at hls
        simp only [endedLines, hc, ite_false, he, lines_cons hc hls.symm]
        exact ⟨ls', rfl⟩

theorem decide_ne {nl : α} {l : List α} (h : nl ∉ l) : ∀ c ∈ l, decide (c ≠ nl) = true := by
  intro c hc
  have hne : c ≠ nl := fun he => h (he ▸ hc)
  exact decide_eq_true hne

theorem chomp_unended {nl : α} {l : List α} (h : nl ∉ l) : chomp nl l = l :=
  List.takeWhile_eq_self_iff.mpr (decide_ne h)

theorem chomp_line {nl : α} {l : List α} (h : nl ∉ l) (s : List α) : chomp nl (l ++ nl :: s) = l := by
  unfold chomp
  rw [List.takeWhile_append_of_pos (decide_ne h), List.takeWhile_cons]
  simp only [ne_eq, not_true_eq_false, decide_false, Bool.false_eq_true, ite_false, List.append_nil]

/-- A newline comes first when the first line is empty. -/
theorem lines_nil_cons {nl : α} {s : List α} {ls : List (List α)} (h : lines nl s = [] :: ls) :
    ∃ s', s = nl :: s' := by
  cases s with
  | nil => cases h
  | cons c s =>
    by_cases hc : c = nl
    · exact ⟨s, by rw [hc]⟩
    · cases hl : lines nl s with
      | nil => simp only [lines, hc, ite_false, hl, List.cons.injEq, reduceCtorEq, false_and] at h
      | cons l ls' =>
        rw [lines_cons hc hl] at h
        cases h

theorem lines_length_le (nl : α) (n : ℕ) (s : List α) :
    (lines nl s).length ≤ (pieces nl n s).length := by
  induction hk : s.length using Nat.strongRecOn generalizing s with
  | ind k ih =>
    subst hk
    by_cases hs : s = []
    · subst hs
      exact Nat.zero_le _
    obtain ⟨c, s', hcons⟩ := List.exists_cons_of_ne_nil hs
    have hlt : (fgets nl (n + 1) s).2.length < s.length := by
      rw [hcons]
      exact fgets_length nl n c s'
    have hrest := ih _ hlt _ rfl
    rw [pieces_of_ne_nil nl n hs, List.length_cons]
    rcases fgets_cases nl n hs with ⟨l, -, -, hls⟩ | ⟨-, -, hls⟩ | ⟨-, -, l, ls, hl, hls⟩
    · rw [hls, List.length_cons]
      exact Nat.succ_le_succ hrest
    · rw [hls]
      exact Nat.succ_le_succ (Nat.zero_le _)
    · rw [hl, List.length_cons] at hrest
      rw [hls, List.length_cons]
      exact Nat.le_succ_of_le hrest

/-- When no line is longer than the buffer takes, the pieces without their newlines are the lines iff
each line that ends with a newline leaves room for it. -/
theorem pieces_chomp_iff (nl : α) (n : ℕ) {s : List α} (hfits : ∀ l ∈ lines nl s, l.length ≤ n + 1) :
    (pieces nl n s).map (chomp nl) = lines nl s ↔ ∀ l ∈ endedLines nl s, l.length ≤ n := by
  induction hk : s.length using Nat.strongRecOn generalizing s with
  | ind k ih =>
    subst hk
    by_cases hs : s = []
    · subst hs
      rw [pieces_nil]
      exact iff_of_true rfl fun l hl => absurd hl List.not_mem_nil
    obtain ⟨c, s', hcons⟩ := List.exists_cons_of_ne_nil hs
    have hlt : (fgets nl (n + 1) s).2.length < s.length := by
      rw [hcons]
      exact fgets_length nl n c s'
    have happend := fgets_append nl (n + 1) s
    have hlen := fgets_room nl (n + 1) s
    rw [pieces_of_ne_nil nl n hs, List.map_cons]
    rcases fgets_cases nl n hs with ⟨l, hgot, hl, hls⟩ | ⟨hgot, hrest, hls⟩ |
      ⟨hgot, hfull, l, ls, hl, hls⟩
    · -- a line with its newline
      rw [hls, List.forall_mem_cons] at hfits
      rw [hgot] at happend hlen ⊢
      rw [List.append_assoc, List.singleton_append] at happend
      rw [List.length_append, List.length_singleton] at hlen
      have hended : endedLines nl s = l :: endedLines nl (fgets nl (n + 1) s).2 := by
        rw [← endedLines_line hl, happend]
      have hroom : l.length ≤ n := by omega
      rw [hls, hended, List.forall_mem_cons, and_iff_right hroom, chomp_line hl, List.cons.injEq,
        and_iff_right rfl]
      exact ih _ hlt hfits.2 rfl
    · -- the last line, without a newline
      rw [hrest, List.append_nil] at happend
      rw [happend] at hgot
      rw [hls, hrest, pieces_nil, happend, chomp_unended hgot, endedLines_unended hgot]
      exact iff_of_true rfl fun l hl => absurd hl List.not_mem_nil
    · -- a full buffer: the newline is left for the next call
      have hnil : l = [] := by
        have hle := hfits _ (by rw [hls]; exact List.mem_cons_self ..)
        rw [List.length_append, hfull] at hle
        exact List.length_eq_zero_iff.mp (by omega)
      subst hnil
      obtain ⟨r, hr⟩ := lines_nil_cons hl
      have hmore := lines_length_le nl n (fgets nl (n + 1) s).2
      rw [hl, List.length_cons] at hmore
      rw [hls]
      refine iff_of_false ?_ ?_
      · intro heq
        have hlength := congrArg List.length heq
        simp only [List.length_cons, List.length_map] at hlength
        omega
      · intro hshort
        rw [hr] at happend
        have hended : endedLines nl s = (fgets nl (n + 1) s).1 :: endedLines nl r := by
          rw [← endedLines_line hgot, happend]
        have hle := hshort (fgets nl (n + 1) s).1 (by
          rw [hended]
          exact List.mem_cons_self ..)
        omega

end OSLab.Base
