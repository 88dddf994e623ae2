import Mathlib.Data.Nat.Count
import Mathlib.Logic.Function.Basic

/-!
# Allocation bitmaps

A bitmap with first-fit search and the number of its clear bits below a bound.
-/

namespace OSLab.Base

abbrev Bitmap := ℕ → Bool

namespace Bitmap

def empty : Bitmap := fun _ => false

def set (b : Bitmap) (i : ℕ) : Bitmap := Function.update b i true

/-- The number of clear bits among the bits `0 … n - 1`. -/
def clearCount (b : Bitmap) (n : ℕ) : ℕ := Nat.count (fun i => b i = false) n

/-- The first clear bit among the `n` bits from `i` on. -/
def findClear (b : Bitmap) : ℕ → ℕ → Option ℕ
  | _, 0 => none
  | i, n + 1 => if b i then findClear b (i + 1) n else some i

/-- The `n` bits from `i` on are clear. -/
def allClear (b : Bitmap) : ℕ → ℕ → Bool
  | _, 0 => true
  | i, n + 1 => !b i && allClear b (i + 1) n

/-- The first of the `k` positions from `i` on where `n` clear bits start. -/
def findRun (b : Bitmap) (n : ℕ) : ℕ → ℕ → Option ℕ
  | _, 0 => none
  | i, k + 1 => if allClear b i n then some i else findRun b n (i + 1) k

/-- The `n` bits from `i` on set. -/
def setRun (b : Bitmap) : ℕ → ℕ → Bitmap
  | _, 0 => b
  | i, n + 1 => setRun (b.set i) (i + 1) n

@[simp] theorem set_self (b : Bitmap) (i : ℕ) : b.set i i = true := Function.update_self ..

theorem set_ne (b : Bitmap) {i j : ℕ} (h : j ≠ i) : b.set i j = b j := Function.update_of_ne h ..

theorem set_apply (b : Bitmap) (i j : ℕ) : b.set i j = if j = i then true else b j :=
  Function.update_apply ..

theorem set_of_true (b : Bitmap) (i : ℕ) {j : ℕ} (h : b j = true) : b.set i j = true := by
  rw [set_apply]
  split
  · rfl
  · exact h

theorem clearCount_empty (n : ℕ) : empty.clearCount n = n := by
  induction n with
  | zero => rfl
  | succ n ih =>
    unfold clearCount at ih ⊢
    rw [Nat.count_succ, ih]
    simp [empty]

theorem clearCount_le (b : Bitmap) (n : ℕ) : b.clearCount n ≤ n := Nat.count_le ..

theorem clearCount_set_of_le (b : Bitmap) {i n : ℕ} (h : n ≤ i) :
    (b.set i).clearCount n = b.clearCount n := by
  induction n with
  | zero => rfl
  | succ n ih =>
    have hn : b.set i n = b n := b.set_ne (by omega)
    unfold clearCount at ih ⊢
    rw [Nat.count_succ, Nat.count_succ, ih (by omega), hn]

theorem clearCount_set (b : Bitmap) {i n : ℕ} (h : i < n) (hb : b i = false) :
    (b.set i).clearCount n + 1 = b.clearCount n := by
  induction n with
  | zero => omega
  | succ n ih =>
    have hset := b.clearCount_set_of_le (i := i) (n := n)
    unfold clearCount at ih hset ⊢
    rw [Nat.count_succ, Nat.count_succ]
    by_cases hi : i = n
    · subst hi
      rw [hset (Nat.le_refl i), set_self, hb]
      rfl
    · rw [b.set_ne (Ne.symm hi)]
      have hrec := ih (by omega)
      omega

theorem clearCount_pos {b : Bitmap} {n : ℕ} (h : 0 < b.clearCount n) :
    ∃ i, i < n ∧ b i = false := by
  induction n with
  | zero => exact absurd h (by simp [clearCount])
  | succ n ih =>
    cases hb : b n with
    | false => exact ⟨n, Nat.lt_succ_self n, hb⟩
    | true =>
      have hpos : 0 < b.clearCount n := by
        unfold clearCount at h ⊢
        rw [Nat.count_succ, hb] at h
        simpa using h
      obtain ⟨i, hi, hc⟩ := ih hpos
      exact ⟨i, by omega, hc⟩

theorem findClear_some {b : Bitmap} {i n j : ℕ} (h : b.findClear i n = some j) :
    i ≤ j ∧ j < i + n ∧ b j = false ∧ ∀ k, i ≤ k → k < j → b k = true := by
  induction n generalizing i with
  | zero => simp [findClear] at h
  | succ n ih =>
    unfold findClear at h
    split at h
    · rename_i hb
      obtain ⟨h1, h2, h3, h4⟩ := ih h
      refine ⟨by omega, by omega, h3, fun k hk hkj => ?_⟩
      by_cases he : k = i
      · rw [he, hb]
      · exact h4 k (by omega) hkj
    · rename_i hb
      obtain rfl := Option.some.inj h
      exact ⟨Nat.le_refl _, by omega, by simpa using hb, fun k hk hkj => by omega⟩

theorem findClear_none {b : Bitmap} {i n : ℕ} (h : b.findClear i n = none) (k : ℕ)
    (hk : i ≤ k) (hkn : k < i + n) : b k = true := by
  induction n generalizing i with
  | zero => omega
  | succ n ih =>
    unfold findClear at h
    split at h
    · rename_i hb
      by_cases he : k = i
      · rw [he, hb]
      · exact ih h (by omega) (by omega)
    · cases h

theorem findClear_isSome {b : Bitmap} {i n k : ℕ} (hk : i ≤ k) (hkn : k < i + n)
    (hb : b k = false) : ∃ j, b.findClear i n = some j := by
  cases h : b.findClear i n with
  | some j => exact ⟨j, rfl⟩
  | none =>
    have ht := findClear_none h k hk hkn
    rw [hb] at ht
    cases ht

/-- When the bits below `m` are the set ones, the search ends at `m`. -/
theorem findClear_prefix {b : Bitmap} {i n m : ℕ}
    (h : ∀ j, i ≤ j → j < i + n → b j = decide (j < m)) (him : i ≤ m) :
    b.findClear i n = if m < i + n then some m else none := by
  induction n generalizing i with
  | zero =>
    rw [if_neg (by omega)]
    rfl
  | succ n ih =>
    have hi := h i (Nat.le_refl i) (by omega)
    unfold findClear
    by_cases hlt : i < m
    · rw [hi, decide_eq_true hlt, if_pos rfl, ih (fun j h1 h2 => h j (by omega) (by omega)) hlt,
        show i + 1 + n = i + (n + 1) by omega]
    · obtain rfl : i = m := by omega
      rw [hi, decide_eq_false hlt, if_neg Bool.false_ne_true, if_pos (by omega)]

/-! ### Runs of bits -/

theorem allClear_iff {b : Bitmap} {i n : ℕ} :
    b.allClear i n = true ↔ ∀ j, i ≤ j → j < i + n → b j = false := by
  induction n generalizing i with
  | zero =>
    simp only [allClear, true_iff]
    intro j h1 h2
    omega
  | succ n ih =>
    simp only [allClear, Bool.and_eq_true, Bool.not_eq_true', ih]
    constructor
    · intro ⟨hi, hrest⟩ j h1 h2
      rcases Nat.eq_or_lt_of_le h1 with rfl | hlt
      · exact hi
      · exact hrest j hlt (by omega)
    · intro h
      exact ⟨h i (Nat.le_refl i) (by omega), fun j h1 h2 => h j (by omega) (by omega)⟩

theorem setRun_apply (b : Bitmap) (i n j : ℕ) :
    b.setRun i n j = if i ≤ j ∧ j < i + n then true else b j := by
  induction n generalizing b i with
  | zero =>
    have hn : ¬ (i ≤ j ∧ j < i + 0) := by omega
    simp only [setRun, hn, ite_false]
  | succ n ih =>
    simp only [setRun, ih, set_apply]
    split
    · have hin : i ≤ j ∧ j < i + (n + 1) := by omega
      simp only [hin, and_self, ite_true]
    · split
      · have hin : i ≤ j ∧ j < i + (n + 1) := by omega
        simp only [hin, and_self, ite_true]
      · have hout : ¬ (i ≤ j ∧ j < i + (n + 1)) := by omega
        simp only [hout, ite_false]

theorem setRun_of_true (b : Bitmap) (i n : ℕ) {j : ℕ} (h : b j = true) :
    b.setRun i n j = true := by
  rw [setRun_apply, h, ite_self]

theorem clearCount_setRun (b : Bitmap) {i n m : ℕ} (h : i + n ≤ m)
    (hb : ∀ j, i ≤ j → j < i + n → b j = false) :
    (b.setRun i n).clearCount m + n = b.clearCount m := by
  induction n generalizing b i with
  | zero => rfl
  | succ n ih =>
    have hrest := ih (b.set i) (i := i + 1) (by omega) fun j h1 h2 => by
      rw [b.set_ne (by omega)]
      exact hb j (by omega) (by omega)
    have hfirst := b.clearCount_set (i := i) (n := m) (by omega) (hb i (Nat.le_refl i) (by omega))
    simp only [setRun]
    omega

theorem findRun_some {b : Bitmap} {n i k s : ℕ} (h : b.findRun n i k = some s) :
    i ≤ s ∧ s < i + k ∧ ∀ j, s ≤ j → j < s + n → b j = false := by
  induction k generalizing i with
  | zero => simp only [findRun, reduceCtorEq] at h
  | succ k ih =>
    simp only [findRun] at h
    split at h
    · rename_i hc
      obtain rfl := Option.some.inj h
      exact ⟨Nat.le_refl i, by omega, allClear_iff.mp hc⟩
    · obtain ⟨h1, h2, h3⟩ := ih h
      exact ⟨by omega, by omega, h3⟩

/-- A run of clear bits is found, or one that starts before it. -/
theorem findRun_le {b : Bitmap} {n i k s : ℕ} (his : i ≤ s) (hsk : s < i + k)
    (hfree : ∀ j, s ≤ j → j < s + n → b j = false) : ∃ t, b.findRun n i k = some t ∧ t ≤ s := by
  induction k generalizing i with
  | zero => omega
  | succ k ih =>
    simp only [findRun]
    by_cases hc : b.allClear i n = true
    · rw [if_pos hc]
      exact ⟨i, rfl, his⟩
    · have hne : i ≠ s := by
        rintro rfl
        exact hc (allClear_iff.mpr hfree)
      rw [if_neg hc]
      exact ih (by omega) (by omega)

end Bitmap

end OSLab.Base
