import Mathlib.Data.Set.Finite.Basic
import Mathlib.Order.WellFounded
import OSLab.Base.Machine

/-!
# Fair schedules

When the inputs of a machine say whose turn it is, a schedule is fair if every
party has its turn again and again. A machine that cannot stand still and whose
steps use up a measure then comes to its end, whatever the schedule does else.
-/

namespace OSLab.Base

variable {σ ι ω : Type*}

/-- Each of `procs` has its turn after every moment. -/
def Fair (procs : Set ι) (sched : ℕ → ι) : Prop :=
  ∀ i ∈ procs, ∀ n, ∃ j, n ≤ j ∧ sched j = i

/- The turns `n`, …, `n + k - 1` of a schedule. -/
def turns (sched : ℕ → ι) (n k : ℕ) : List ι := (List.range' n k).map sched

theorem turns_add (sched : ℕ → ι) (n k l : ℕ) :
    turns sched n (k + l) = turns sched n k ++ turns sched (n + k) l := by
  unfold turns
  rw [← List.map_append, ← List.range'_append_1]

theorem mem_turns {sched : ℕ → ι} {n k j : ℕ} (hn : n ≤ j) (hk : j < n + k) :
    sched j ∈ turns sched n k :=
  List.mem_map_of_mem (List.mem_range'_1.mpr ⟨hn, hk⟩)

/-- From every moment on, some number of turns is enough for all of finitely many parties. -/
theorem Fair.round {procs : Set ι} {sched : ℕ → ι} (h : Fair procs sched) (hfin : procs.Finite)
    (n : ℕ) : ∃ k, ∀ i ∈ procs, i ∈ turns sched n k := by
  induction procs, hfin using Set.Finite.induction_on with
  | empty => exact ⟨0, fun i hi => absurd hi (Set.notMem_empty i)⟩
  | @insert i procs _ _ ih =>
    obtain ⟨k, hk⟩ := ih fun i hi => h i (Set.mem_insert_of_mem _ hi)
    obtain ⟨j, hj, hi⟩ := h i (Set.mem_insert ..) n
    refine ⟨k + (j + 1), ?_⟩
    intro i' hi'
    rcases Set.mem_insert_iff.mp hi' with rfl | hmem
    · rw [← hi]
      exact mem_turns hj (by omega)
    · rw [turns_add]
      exact List.mem_append_left _ (hk i' hmem)

namespace Machine
variable (m : Machine σ ι ω)

/-- The state of a run that follows a schedule, after `n` turns. -/
def follow (s : σ) (sched : ℕ → ι) (n : ℕ) : σ := m.run s (turns sched 0 n)

theorem follow_add (s : σ) (sched : ℕ → ι) (n k : ℕ) :
    m.follow s sched (n + k) = m.run (m.follow s sched n) (turns sched n k) := by
  unfold follow
  rw [turns_add, run_append, Nat.zero_add]

theorem follow_succ (s : σ) (sched : ℕ → ι) (n : ℕ) :
    m.follow s sched (n + 1) = m.next (m.follow s sched n) (sched n) :=
  m.follow_add s sched n 1

/-- What holds at first and not for ever ends with one step. -/
theorem follow_turning {P : σ → Prop} {s : σ} {sched : ℕ → ι} (h0 : P s) {n : ℕ}
    (hn : ¬ P (m.follow s sched n)) :
    ∃ k, (∀ j, j ≤ k → P (m.follow s sched j)) ∧ ¬ P (m.follow s sched (k + 1)) := by
  by_contra hkept
  push Not at hkept
  have hall : ∀ n, ∀ j, j ≤ n → P (m.follow s sched j) := by
    intro n
    induction n with
    | zero =>
      intro j hj
      rw [Nat.le_zero.mp hj]
      exact h0
    | succ n ih =>
      intro j hj
      rcases Nat.le_succ_iff.mp hj with hle | rfl
      · exact ih j hle
      · exact hkept n ih
  exact hn (hall n n (le_refl n))

section Measure
variable {κ : Type*} [Preorder κ] {P : κ → σ → Prop}

/-- If no step makes the measure more, no run does. -/
theorem run_le (hstep : ∀ k s i, P k s → ∃ k', k' ≤ k ∧ P k' (m.next s i)) {k : κ} {s : σ}
    (is : List ι) (h : P k s) : ∃ k', k' ≤ k ∧ P k' (m.run s is) := by
  induction is generalizing k s with
  | nil => exact ⟨k, le_refl k, h⟩
  | cons i is ih =>
    obtain ⟨k', hle, hk'⟩ := hstep k s i h
    obtain ⟨k'', hle', hk''⟩ := ih hk'
    exact ⟨k'', hle'.trans hle, hk''⟩

theorem step_le (hstep : ∀ k s i, P k s → m.next s i = s ∨ ∃ k', k' < k ∧ P k' (m.next s i))
    (k : κ) (s : σ) (i : ι) (h : P k s) : ∃ k', k' ≤ k ∧ P k' (m.next s i) := by
  rcases hstep k s i h with hsame | ⟨k', hlt, hk'⟩
  · rw [hsame]
    exact ⟨k, le_refl k, h⟩
  · exact ⟨k', hlt.le, hk'⟩

variable {H : ι → κ → σ → Prop}

/-- A helpful party uses up the measure in its turn, if no other has done so before. -/
theorem run_lt (hstep : ∀ k s i, P k s → ∃ k', k' ≤ k ∧ P k' (m.next s i))
    (hhelp : ∀ k s i j, H i k s → (∃ k', k' < k ∧ P k' (m.next s j)) ∨ (j ≠ i ∧ H i k (m.next s j)))
    {k : κ} {s : σ} {i : ι} {is : List ι} (h : H i k s) (hi : i ∈ is) :
    ∃ k', k' < k ∧ P k' (m.run s is) := by
  induction is generalizing s with
  | nil => exact absurd hi List.not_mem_nil
  | cons j is ih =>
    rcases hhelp k s i j h with ⟨k', hlt, hk'⟩ | ⟨hne, hkept⟩
    · obtain ⟨k'', hle, hk''⟩ := m.run_le hstep is hk'
      exact ⟨k'', lt_of_le_of_lt hle hlt, hk''⟩
    · exact ih hkept ((List.mem_cons.mp hi).resolve_left hne.symm)

variable [WellFoundedLT κ]

/-- A fair schedule gets to the end if at every moment some number of further turns gets to the end or
makes the measure less. -/
theorem follow_final_of_less {Final : σ → Prop} {sched : ℕ → ι}
    (hfinal : ∀ s i, Final s → Final (m.next s i))
    (hround : ∀ k s n, P k s → ∃ l, Final (m.run s (turns sched n l)) ∨
      ∃ k', k' < k ∧ P k' (m.run s (turns sched n l)))
    {k : κ} {s : σ} (h : P k s) : ∃ n, ∀ n', n ≤ n' → Final (m.follow s sched n') := by
  have hreach : ∀ k n, P k (m.follow s sched n) → ∃ n', Final (m.follow s sched n') := by
    intro k
    induction k using WellFoundedLT.induction with
    | ind k ih =>
      intro n hP
      obtain ⟨l, hl⟩ := hround k _ n hP
      rw [← follow_add] at hl
      rcases hl with hdone | ⟨k', hlt, hk'⟩
      · exact ⟨n + l, hdone⟩
      · exact ih k' hlt (n + l) hk'
  obtain ⟨n, hn⟩ := hreach k 0 h
  refine ⟨n, ?_⟩
  intro n' hle
  obtain ⟨l, rfl⟩ := Nat.exists_eq_add_of_le hle
  rw [follow_add]
  exact m.run_invariant_all hfinal _ hn

/-- The rule of the helpful party: short of the end there is one whose next turn uses up the measure,
and the turns of the others leave it helpful or use up the measure themselves. -/
theorem follow_final_of_helpful {procs : Set ι} (hprocs : procs.Finite) {Final : σ → Prop}
    (hstep : ∀ k s i, P k s → ∃ k', k' ≤ k ∧ P k' (m.next s i))
    (hhelp : ∀ k s i j, H i k s → (∃ k', k' < k ∧ P k' (m.next s j)) ∨ (j ≠ i ∧ H i k (m.next s j)))
    (hmoves : ∀ k s, P k s → ¬ Final s → ∃ i ∈ procs, H i k s)
    (hfinal : ∀ s i, Final s → Final (m.next s i))
    {sched : ℕ → ι} (hfair : Fair procs sched) {k : κ} {s : σ} (h : P k s) :
    ∃ n, ∀ n', n ≤ n' → Final (m.follow s sched n') := by
  apply m.follow_final_of_less hfinal _ h
  intro k s n hP
  by_cases hdone : Final s
  · exact ⟨0, .inl hdone⟩
  · obtain ⟨i, hi, hhelpful⟩ := hmoves k s hP hdone
    obtain ⟨l, hl⟩ := hfair.round hprocs n
    exact ⟨l, .inr (m.run_lt hstep hhelp hhelpful (hl i hi))⟩

/-- The rule for systems whose steps all count: a step that does not use up the measure does nothing,
and short of the end some party can use it up. -/
theorem follow_final {procs : Set ι} (hprocs : procs.Finite) {Final : σ → Prop}
    (hstep : ∀ k s i, P k s → m.next s i = s ∨ ∃ k', k' < k ∧ P k' (m.next s i))
    (hmoves : ∀ k s, P k s → ¬ Final s → ∃ i ∈ procs, ∃ k', k' < k ∧ P k' (m.next s i))
    (hfinal : ∀ s i, Final s → Final (m.next s i))
    {sched : ℕ → ι} (hfair : Fair procs sched) {k : κ} {s : σ} (h : P k s) :
    ∃ n, ∀ n', n ≤ n' → Final (m.follow s sched n') := by
  let Helps (i : ι) (k : κ) (s : σ) : Prop := P k s ∧ ∃ k', k' < k ∧ P k' (m.next s i)
  refine m.follow_final_of_helpful (H := Helps) hprocs (m.step_le hstep) ?_ ?_ hfinal hfair h
  · rintro k s i j ⟨hP, hmove⟩
    by_cases hij : j = i
    · subst hij
      exact .inl hmove
    · rcases hstep k s j hP with hsame | hless
      · rw [hsame]
        exact .inr ⟨hij, hP, hmove⟩
      · exact .inl hless
  · intro k s hP hopen
    obtain ⟨i, hi, hmove⟩ := hmoves k s hP hopen
    exact ⟨i, hi, hP, hmove⟩

end Measure

end Machine

end OSLab.Base
