import Mathlib.Logic.Function.Basic
import Mathlib.Data.Nat.Notation

/-!
# Descriptor tables

The open file descriptors of a process: allocation of the lowest free number,
`dup2` and `close`, over any type of open descriptions.
-/

namespace OSLab.Base

variable {δ : Type*}

/-- Descriptor numbers and what they refer to; behind `limit` nothing is open. -/
structure FdTable (δ : Type*) where
  desc : ℕ → Option δ
  limit : ℕ
  closed : ∀ fd, limit ≤ fd → desc fd = none

namespace FdTable

def set (t : FdTable δ) (fd : ℕ) (d : Option δ) : FdTable δ where
  desc := Function.update t.desc fd d
  limit := max t.limit (fd + 1)
  closed := by
    intro fd' h
    rw [Function.update_of_ne (by omega)]
    exact t.closed fd' (by omega)

/-- The lowest number that is not open. -/
def lowest (t : FdTable δ) : ℕ :=
  ((List.range t.limit).find? fun fd => (t.desc fd).isNone).getD t.limit

def alloc (t : FdTable δ) (d : δ) : ℕ × FdTable δ := (t.lowest, t.set t.lowest (some d))

/- Nothing changes when `old` is not open. -/
def dup2 (t : FdTable δ) (old new : ℕ) : FdTable δ :=
  match t.desc old with
  | none => t
  | some d => t.set new (some d)

/- `none` is the -1 for a number that is not open. -/
def dup (t : FdTable δ) (fd : ℕ) : Option ℕ × FdTable δ :=
  match t.desc fd with
  | none => (none, t)
  | some d =>
    let copy := t.alloc d
    (some copy.1, copy.2)

def close (t : FdTable δ) (fd : ℕ) : FdTable δ := t.set fd none

def closeAll (t : FdTable δ) (fds : List ℕ) : FdTable δ := fds.foldl close t

/- Some descriptor refers to `d`. -/
def has [DecidableEq δ] (t : FdTable δ) (d : δ) : Bool :=
  (List.range t.limit).any fun fd => t.desc fd = some d

theorem has_iff [DecidableEq δ] (t : FdTable δ) (d : δ) :
    t.has d = true ↔ ∃ fd, t.desc fd = some d := by
  simp only [has, List.any_eq_true, List.mem_range, decide_eq_true_eq]
  constructor
  · rintro ⟨fd, -, h⟩
    exact ⟨fd, h⟩
  · rintro ⟨fd, h⟩
    refine ⟨fd, ?_, h⟩
    by_contra hlimit
    rw [t.closed fd (Nat.not_lt.mp hlimit)] at h
    cases h

theorem set_same (t : FdTable δ) (fd : ℕ) (d : Option δ) : (t.set fd d).desc fd = d :=
  Function.update_self ..

theorem set_other (t : FdTable δ) {fd fd' : ℕ} (d : Option δ) (h : fd' ≠ fd) :
    (t.set fd d).desc fd' = t.desc fd' :=
  Function.update_of_ne h ..

theorem lowest_free (t : FdTable δ) : t.desc t.lowest = none := by
  unfold lowest
  cases h : (List.range t.limit).find? fun fd => (t.desc fd).isNone with
  | none => exact t.closed _ (Nat.le_refl _)
  | some fd =>
    have hfree := List.find?_some (p := fun fd => (t.desc fd).isNone) h
    exact Option.isNone_iff_eq_none.mp hfree

theorem ne_lowest {t : FdTable δ} {fd : ℕ} {d : δ} (h : t.desc fd = some d) : fd ≠ t.lowest := by
  rintro rfl
  rw [t.lowest_free] at h
  cases h

theorem alloc_same (t : FdTable δ) (d : δ) : (t.alloc d).2.desc (t.alloc d).1 = some d :=
  t.set_same ..

theorem alloc_other (t : FdTable δ) (d : δ) {fd : ℕ} (h : fd ≠ t.lowest) :
    (t.alloc d).2.desc fd = t.desc fd :=
  t.set_other _ h

theorem alloc_open {t : FdTable δ} (d : δ) {fd : ℕ} {d' : δ} (h : t.desc fd = some d') :
    (t.alloc d).2.desc fd = some d' :=
  (t.alloc_other d (ne_lowest h)).trans h

theorem dup2_same {t : FdTable δ} {old : ℕ} {d : δ} (h : t.desc old = some d) (new : ℕ) :
    (t.dup2 old new).desc new = some d := by
  unfold dup2
  rw [h]
  exact t.set_same ..

theorem dup2_other (t : FdTable δ) (old : ℕ) {new fd : ℕ} (h : fd ≠ new) :
    (t.dup2 old new).desc fd = t.desc fd := by
  unfold dup2
  split
  · rfl
  · exact t.set_other _ h

theorem close_other (t : FdTable δ) {fd fd' : ℕ} (h : fd' ≠ fd) :
    (t.close fd).desc fd' = t.desc fd' :=
  t.set_other _ h

/-- Closing a number that was not open in `t` undoes what has been opened there. -/
theorem close_free {t t' : FdTable δ} {n fd : ℕ} (hfree : t.desc n = none)
    (h : fd ≠ n → t'.desc fd = t.desc fd) : (t'.close n).desc fd = t.desc fd := by
  by_cases hfd : fd = n
  · subst hfd
    rw [hfree]
    exact t'.set_same ..
  · exact (t'.close_other hfd).trans (h hfd)

theorem closeAll_other (t : FdTable δ) {fds : List ℕ} {fd : ℕ} (h : fd ∉ fds) :
    (t.closeAll fds).desc fd = t.desc fd := by
  induction fds generalizing t with
  | nil => rfl
  | cons fd' fds ih =>
    rw [List.mem_cons, not_or] at h
    obtain ⟨hne, hmem⟩ := h
    exact (ih (t.close fd') hmem).trans (t.close_other hne)

theorem closeAll_mem (t : FdTable δ) {fds : List ℕ} {fd : ℕ} (h : fd ∈ fds) :
    (t.closeAll fds).desc fd = none := by
  induction fds generalizing t with
  | nil => exact absurd h List.not_mem_nil
  | cons fd' fds ih =>
    by_cases hmem : fd ∈ fds
    · exact ih (t.close fd') hmem
    · obtain rfl : fd = fd' := (List.mem_cons.mp h).resolve_right hmem
      exact ((t.close fd).closeAll_other hmem).trans (t.set_same ..)

/-! ### What is open decides everything -/

theorem lowest_least (t : FdTable δ) {fd : ℕ} (h : fd < t.lowest) : t.desc fd ≠ none := by
  intro hfree
  have hlimit : fd < t.limit := by
    unfold lowest at h
    cases hfind : (List.range t.limit).find? fun fd => (t.desc fd).isNone with
    | none =>
      rw [hfind] at h
      exact h
    | some fd' =>
      rw [hfind] at h
      exact Nat.lt_trans h (List.mem_range.mp (List.mem_of_find?_eq_some hfind))
  have hnone : (t.desc fd).isNone = true := Option.isNone_iff_eq_none.mpr hfree
  cases hfind : (List.range t.limit).find? fun fd => (t.desc fd).isNone with
  | none => exact absurd hnone (List.find?_eq_none.mp hfind fd (List.mem_range.mpr hlimit))
  | some fd' =>
    unfold lowest at h
    rw [hfind] at h
    have hbefore := (List.find?_range_eq_some.mp hfind).2.2 fd h
    rw [hnone] at hbefore
    exact absurd hbefore (by decide)

variable {t t' : FdTable δ}

theorem lowest_congr (h : t.desc = t'.desc) : t.lowest = t'.lowest := by
  have hle {a b : FdTable δ} (hab : a.desc = b.desc) : b.lowest ≤ a.lowest := by
    by_contra hlt
    refine b.lowest_least (Nat.not_le.mp hlt) ?_
    rw [← hab]
    exact a.lowest_free
  exact Nat.le_antisymm (hle h.symm) (hle h)

theorem set_congr (h : t.desc = t'.desc) (fd : ℕ) (d : Option δ) :
    (t.set fd d).desc = (t'.set fd d).desc :=
  congrArg (fun desc : ℕ → Option δ => Function.update desc fd d) h

theorem alloc_congr (h : t.desc = t'.desc) (d : δ) :
    (t.alloc d).1 = (t'.alloc d).1 ∧ (t.alloc d).2.desc = (t'.alloc d).2.desc := by
  unfold alloc
  rw [lowest_congr h]
  exact ⟨rfl, set_congr h _ _⟩

theorem dup2_congr (h : t.desc = t'.desc) (old new : ℕ) :
    (t.dup2 old new).desc = (t'.dup2 old new).desc := by
  unfold dup2
  rw [h]
  cases t'.desc old with
  | none => exact h
  | some d => exact set_congr h new (some d)

theorem close_congr (h : t.desc = t'.desc) (fd : ℕ) : (t.close fd).desc = (t'.close fd).desc :=
  set_congr h fd none

theorem closeAll_congr (h : t.desc = t'.desc) (fds : List ℕ) :
    (t.closeAll fds).desc = (t'.closeAll fds).desc := by
  induction fds generalizing t t' with
  | nil => exact h
  | cons fd fds ih => exact ih (close_congr h fd)

end FdTable

end OSLab.Base
