import Mathlib.Algebra.BigOperators.Intervals

/-!
# Loops

`for (i = lo; i < hi; i++)` over a state, its invariant rule, and the two
loops that add up and that append. A loop over a list that stops at the first
element of a kind.
-/

namespace OSLab.Base

variable {σ α ι : Type*}

def forLoop (lo hi : ℕ) (body : ℕ → σ → σ) (s : σ) : σ :=
  (List.range' lo (hi - lo)).foldl (fun s i => body i s) s

theorem forLoop_empty (lo : ℕ) (body : ℕ → σ → σ) (s : σ) : forLoop lo lo body s = s := by
  simp only [forLoop, Nat.sub_self, List.range'_zero, List.foldl_nil]

theorem forLoop_last {lo hi : ℕ} (h : lo ≤ hi) (body : ℕ → σ → σ) (s : σ) :
    forLoop lo (hi + 1) body s = body hi (forLoop lo hi body s) := by
  obtain ⟨n, rfl⟩ := Nat.exists_eq_add_of_le h
  have hn : lo + n + 1 - lo = n + 1 := by omega
  simp only [forLoop, hn, Nat.add_sub_cancel_left, List.range'_1_concat, List.foldl_append,
    List.foldl_cons, List.foldl_nil]

/-- The invariant rule: `P i` holds before the pass with index `i`. -/
theorem forLoop_invariant {P : ℕ → σ → Prop} {lo hi : ℕ} {body : ℕ → σ → σ} {s : σ} (h : lo ≤ hi)
    (h0 : P lo s) (hstep : ∀ i a, lo ≤ i → i < hi → P i a → P (i + 1) (body i a)) :
    P hi (forLoop lo hi body s) := by
  induction hi, h using Nat.le_induction with
  | base =>
    rw [forLoop_empty]
    exact h0
  | succ hi hle ih =>
    have hprev := ih fun i a hlo hlt => hstep i a hlo (by omega)
    rw [forLoop_last hle]
    exact hstep hi _ hle (by omega) hprev

theorem forLoop_sum {M : Type*} [AddCommMonoid M] {lo hi : ℕ} (h : lo ≤ hi) (f : ℕ → M) (a : M) :
    forLoop lo hi (fun k acc => acc + f k) a = a + ∑ k ∈ Finset.Ico lo hi, f k := by
  refine forLoop_invariant (P := fun k acc => acc = a + ∑ k ∈ Finset.Ico lo k, f k) h ?_ ?_
  · rw [Finset.Ico_self, Finset.sum_empty, add_zero]
  · intro k acc hlo _ hacc
    rw [hacc, Finset.sum_Ico_succ_top hlo, add_assoc]

theorem forLoop_append {lo hi : ℕ} (h : lo ≤ hi) (f : ℕ → List α) (out : List α) :
    forLoop lo hi (fun i out => out ++ f i) out = out ++ (List.range' lo (hi - lo)).flatMap f := by
  refine forLoop_invariant
    (P := fun i o => o = out ++ (List.range' lo (i - lo)).flatMap f) h ?_ ?_
  · rw [Nat.sub_self, List.range'_zero, List.flatMap_nil, List.append_nil]
  · intro i o hlo _ ho
    have hi : i + 1 - lo = i - lo + 1 := by omega
    have hlast : lo + (i - lo) = i := by omega
    rw [ho, hi, List.range'_1_concat, List.flatMap_append, List.flatMap_singleton, hlast,
      List.append_assoc]

/-- Pieces of equal lengths can be told apart in their concatenation. -/
theorem flatMap_inj {f g : ι → List α} {l : List ι} (hlen : ∀ i ∈ l, (f i).length = (g i).length) :
    l.flatMap f = l.flatMap g ↔ ∀ i ∈ l, f i = g i := by
  induction l with
  | nil => exact ⟨fun _ i hi => absurd hi List.not_mem_nil, fun _ => rfl⟩
  | cons i l ih =>
    have hrec := ih fun j hj => hlen j (List.mem_cons_of_mem _ hj)
    rw [List.flatMap_cons, List.flatMap_cons, List.forall_mem_cons, ← hrec]
    constructor
    · intro h
      exact List.append_inj h (hlen i (List.mem_cons_self ..))
    · intro ⟨h1, h2⟩
      rw [h1, h2]

/-! ### Loops that stop -/

/-- What a loop sees of a list when it stops at the first element for which `stop` holds, the `i`-th
element being tested with `k + i`, and whether it stops. -/
def upTo (stop : ℕ → α → Bool) (k : ℕ) : List α → List α × Bool
  | [] => ([], false)
  | c :: cs =>
    if stop k c then ([c], true)
    else
      let rest := upTo stop (k + 1) cs
      (c :: rest.1, rest.2)

theorem upTo_ne_nil (stop : ℕ → α → Bool) (k : ℕ) (c : α) (l : List α) :
    (upTo stop k (c :: l)).1 ≠ [] := by
  unfold upTo
  split <;> exact List.cons_ne_nil _ _

theorem upTo_eq_singleton {stop : ℕ → α → Bool} {k : ℕ} {l : List α} {c d : α} :
    (upTo stop k (c :: l)).1 = [d] ↔ c = d ∧ (stop k d = true ∨ l = []) := by
  by_cases hc : stop k c = true
  · simp only [upTo, hc, ite_true, List.cons.injEq, and_true]
    constructor
    · intro h
      subst h
      exact ⟨rfl, .inl hc⟩
    · exact fun h => h.1
  · simp only [upTo, hc, Bool.false_eq_true, ite_false, List.cons.injEq]
    constructor
    · intro ⟨h, hrest⟩
      cases l with
      | nil => exact ⟨h, .inr rfl⟩
      | cons e l => exact absurd hrest (upTo_ne_nil stop (k + 1) e l)
    · intro ⟨h, hor⟩
      subst h
      obtain rfl := hor.resolve_left hc
      exact ⟨rfl, rfl⟩

/-- When the loop sees exactly `x` of a list: `x` is a beginning of the list, and it ends where the
loop stops or where the list ends. -/
theorem upTo_eq_iff {stop : ℕ → α → Bool} {k n : ℕ} {l x : List α} {c : α}
    (hlen : x.length = n + 1) (hc : x[n]? = some c)
    (hfirst : ∀ i c', i < n → x[i]? = some c' → stop (k + i) c' = false) :
    (upTo stop k l).1 = x ↔ l.take (n + 1) = x ∧ (stop (k + n) c = true ∨ l.length = n + 1) := by
  induction x generalizing k n l with
  | nil => cases hc
  | cons d x ih =>
    cases l with
    | nil =>
      constructor
      · intro h
        cases h
      · intro ⟨h, _⟩
        cases h
    | cons e l =>
      cases n with
      | zero =>
        obtain rfl : x = [] := List.length_eq_zero_iff.mp (Nat.succ.inj hlen)
        obtain rfl := Option.some.inj hc
        rw [upTo_eq_singleton]
        simp only [List.take_succ_cons, List.take_zero, List.cons.injEq, and_true, Nat.add_zero,
          Nat.zero_add, List.length_cons, Nat.add_eq_right, List.length_eq_zero_iff]
      | succ n =>
        have hd : stop k d = false := hfirst 0 d (Nat.succ_pos n) rfl
        have hrest := ih (k := k + 1) (l := l) (Nat.succ.inj hlen) hc (by
          intro i c' hi hc'
          have h := hfirst (i + 1) c' (by omega) hc'
          rwa [Nat.add_right_comm])
        rw [Nat.add_right_comm] at hrest
        by_cases he : stop k e = true
        · have hne : x ≠ [] := by
            rintro rfl
            cases hlen
          simp only [upTo, he, ite_true, List.take_succ_cons, List.cons.injEq]
          constructor
          · intro ⟨_, h⟩
            exact absurd h.symm hne
          · intro ⟨⟨h, _⟩, _⟩
            subst h
            rw [hd] at he
            cases he
        · simp only [upTo, he, Bool.false_eq_true, ite_false, List.take_succ_cons, List.cons.injEq,
            hrest, List.length_cons, Nat.add_right_cancel_iff, Nat.add_assoc, and_assoc]

end OSLab.Base
