import OSLab.Base.Format

/-!
# Reading numbers

The conversion `%d` of `fscanf`, and texts that spell a list of numbers: what
`%d` prints, with blanks in front of it, is what `%d` reads.
-/

namespace OSLab.Base

def isSpace (b : Byte) : Bool := b = 32 || (9 ≤ b && b ≤ 13)

def isDigit (b : Byte) : Bool := 48 ≤ b && b ≤ 57

def digitsValue (ds : Bytes) : ℕ := ds.foldl (fun n b => 10 * n + (b.val - 48)) 0

/- A sign in front of a number, and what is behind it. -/
def scanSign (text : Bytes) : Bool × Bytes :=
  match text with
  | [] => (false, [])
  | b :: rest =>
    if b = 45 then (true, rest) else if b = 43 then (false, rest) else (false, text)

/- `fscanf(fp, "%d", &n)`: the number, nothing when there is none, and what is left of the file. The
number is that of the digits; the library has 64 bits for it and takes the nearest number of 64 bits
otherwise. -/
def scanInt (text : Bytes) : Option ℤ × Bytes :=
  let s := scanSign (text.dropWhile isSpace)
  let ds := s.2.takeWhile isDigit
  let rest := s.2.dropWhile isDigit
  if ds = [] then (none, rest)
  else (some (if s.1 then -(digitsValue ds : ℤ) else digitsValue ds), rest)

/-- The text is that of `ns`, with blanks in front of each number, and `rest` behind it. -/
inductive Spells (rest : Bytes) : List ℤ → Bytes → Prop where
  | nil : Spells rest [] rest
  | cons {ns : List ℤ} {text blanks : Bytes} (n : ℤ) (hblanks : ∀ b ∈ blanks, isSpace b = true)
      (hend : ∀ b, text.head? = some b → isDigit b = false) (h : Spells rest ns text) :
      Spells rest (n :: ns) (blanks ++ (printInt n ++ text))

theorem takeWhile_append_stop {p : Byte → Bool} {l rest : Bytes} (hl : ∀ b ∈ l, p b = true)
    (hrest : ∀ b, rest.head? = some b → p b = false) :
    (l ++ rest).takeWhile p = l ∧ (l ++ rest).dropWhile p = rest := by
  have hstop : rest.takeWhile p = [] ∧ rest.dropWhile p = rest := by
    cases rest with
    | nil => exact ⟨rfl, rfl⟩
    | cons b rest =>
      have hb := hrest b rfl
      simp only [List.takeWhile_cons, List.dropWhile_cons, hb, Bool.false_eq_true, ite_false,
        and_self]
  rw [List.takeWhile_append_of_pos hl, List.dropWhile_append_of_pos hl, hstop.1, hstop.2,
    List.append_nil]
  exact ⟨rfl, rfl⟩

/-! ### Natural numbers -/

theorem digit_val {d : ℕ} (h : d < 10) : (Fin.ofNat 256 (48 + d)).val = 48 + d := by
  simp only [Fin.ofNat]
  omega

theorem printNat_isDigit (n : ℕ) : ∀ b ∈ printNat n, isDigit b = true := by
  intro b hb
  unfold printNat at hb
  split at hb
  · rw [List.mem_singleton.mp hb]
    decide
  · obtain ⟨d, hd, rfl⟩ := List.mem_map.mp hb
    have hlt : d < 10 := Nat.digits_lt_base (by decide) (List.mem_reverse.mp hd)
    have hval := digit_val hlt
    simp only [isDigit, Bool.and_eq_true, decide_eq_true_eq, Fin.le_def, hval]
    exact ⟨Nat.le_add_right .., by change _ ≤ 57; omega⟩

theorem printNat_ne_nil (n : ℕ) : printNat n ≠ [] := by
  unfold printNat
  split
  · decide
  · rename_i hn
    rw [ne_eq, List.map_eq_nil_iff, List.reverse_eq_nil_iff, Nat.digits_eq_nil_iff_eq_zero]
    exact hn

theorem digitsValue_printNat (n : ℕ) : digitsValue (printNat n) = n := by
  unfold printNat digitsValue
  split
  · rename_i hn
    rw [hn]
    decide
  · have hdigits : ∀ l : List ℕ, (∀ d ∈ l, d < 10) →
        l.foldr (fun d m => 10 * m + ((Fin.ofNat 256 (48 + d)).val - 48)) 0 = Nat.ofDigits 10 l := by
      intro l hl
      induction l with
      | nil => rfl
      | cons d l ih =>
        rw [List.forall_mem_cons] at hl
        rw [List.foldr_cons, ih hl.2, Nat.ofDigits_cons, digit_val hl.1]
        omega
    rw [List.foldl_map, List.foldl_reverse]
    exact (hdigits _ fun d hd => Nat.digits_lt_base (by decide) hd).trans (Nat.ofDigits_digits 10 n)

/-! ### Numbers with a sign -/

/- Blanks, digits and signs are different. -/
theorem isDigit_not_space {b : Byte} (h : isDigit b = true) :
    isSpace b = false ∧ b ≠ 45 ∧ b ≠ 43 := by
  revert h
  revert b
  decide +kernel

theorem printInt_head (n : ℤ) (text : Bytes) :
    (printInt n ++ text).dropWhile isSpace = printInt n ++ text ∧
    scanSign (printInt n ++ text) = (decide (n < 0), printNat n.natAbs ++ text) := by
  unfold printInt
  by_cases hneg : n < 0
  · simp only [hneg, ite_true, decide_true]
    exact ⟨rfl, rfl⟩
  · simp only [hneg, ite_false, decide_false]
    cases hp : printNat n.natAbs with
    | nil => exact absurd hp (printNat_ne_nil _)
    | cons b bs =>
      have hb : isDigit b = true := printNat_isDigit n.natAbs b (by
        rw [hp]
        exact List.mem_cons_self ..)
      obtain ⟨hspace, hminus, hplus⟩ := isDigit_not_space hb
      constructor
      · simp only [List.cons_append, List.dropWhile_cons, hspace, Bool.false_eq_true, ite_false]
      · simp only [List.cons_append, scanSign, hminus, hplus, ite_false]

/-- What `%d` prints is what `%d` reads, behind any blanks and in front of anything but a digit. -/
theorem scanInt_printInt (n : ℤ) {blanks text : Bytes} (hblanks : ∀ b ∈ blanks, isSpace b = true)
    (hend : ∀ b, text.head? = some b → isDigit b = false) :
    scanInt (blanks ++ (printInt n ++ text)) = (some n, text) := by
  obtain ⟨hdrop, hsign⟩ := printInt_head n text
  have hskip : (blanks ++ (printInt n ++ text)).dropWhile isSpace = printInt n ++ text := by
    rw [List.dropWhile_append_of_pos hblanks, hdrop]
  obtain ⟨htake, hrest⟩ := takeWhile_append_stop (printNat_isDigit n.natAbs) hend
  have hne := printNat_ne_nil n.natAbs
  simp only [scanInt, hskip, hsign, htake, hrest, hne, ite_false, digitsValue_printNat,
    decide_eq_true_eq, Prod.mk.injEq, and_true, Option.some.injEq]
  split
  · omega
  · omega

theorem Spells.append {rest mid text : Bytes} {ns ms : List ℤ} (h : Spells mid ns text)
    (h' : Spells rest ms mid) : Spells rest (ns ++ ms) text := by
  induction h with
  | nil => exact h'
  | cons n hblanks hend _ ih => exact .cons n hblanks hend ih

end OSLab.Base
