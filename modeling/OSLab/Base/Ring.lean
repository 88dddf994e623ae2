import Mathlib.Data.List.Range
import Mathlib.Tactic.Common

/-!
# Rings of slots

A sequence is written into `cap` slots round and round: entry `i` goes to slot
`i % cap`. The slots hold the last `cap` entries, and two ways of reading them
give these in order.
-/

namespace OSLab.Base

variable {α : Type*} {cap : ℕ} {slot slot' : ℕ → α} {entries : List α}

/-- The last `cap` entries stand in their slots. -/
def RingHolds (cap : ℕ) (slot : ℕ → α) (entries : List α) : Prop :=
  ∀ i, (h : i < entries.length) → entries.length ≤ i + cap → slot (i % cap) = entries[i]

namespace RingHolds

theorem nil : RingHolds cap slot [] := fun i h _ => absurd h (Nat.not_lt_zero i)

/-- The next entry is written, and no other slot changes. -/
theorem push (h : RingHolds cap slot entries) {e : α} (hself : slot' (entries.length % cap) = e)
    (hother : ∀ j, j < cap → j ≠ entries.length % cap → slot' j = slot j) :
    RingHolds cap slot' (entries ++ [e]) := by
  intro i hi hkept
  rw [List.length_append, List.length_singleton] at hi hkept
  by_cases hlast : i = entries.length
  · subst hlast
    rw [List.getElem_append_right (Nat.le_refl _)]
    simp only [Nat.sub_self, List.getElem_singleton]
    exact hself
  · have hlt : i < entries.length := by omega
    have hcap : 0 < cap := by omega
    -- fewer than `cap` entries lie between, so the slot is another one
    have hne : i % cap ≠ entries.length % cap := by
      intro he
      have hdvd := Nat.sub_mod_eq_zero_of_mod_eq he.symm
      have hle := Nat.le_of_dvd (by omega) (Nat.dvd_of_mod_eq_zero hdvd)
      omega
    rw [List.getElem_append_left hlt, hother _ (Nat.mod_lt _ hcap) hne]
    exact h i hlt (by omega)

/-- Before the slots are full they are read from the first one on. -/
theorem read_first (h : RingHolds cap slot entries) (hlen : entries.length ≤ cap) :
    (List.range entries.length).map slot = entries := by
  apply List.ext_getElem
  · rw [List.length_map, List.length_range]
  · intro i h1 h2
    rw [List.getElem_map, List.getElem_range]
    have hslot := h i h2 (by omega)
    rwa [Nat.mod_eq_of_lt (by omega)] at hslot

/-- Afterwards they are read from the oldest one on, once round. -/
theorem read_round (h : RingHolds cap slot entries) (hcap : 0 < cap) (hlen : cap ≤ entries.length) :
    (List.range' (entries.length % cap) cap).map (fun i => slot (i % cap)) =
      entries.drop (entries.length - cap) := by
  apply List.ext_getElem
  · rw [List.length_map, List.length_range', List.length_drop]
    omega
  · intro k h1 h2
    rw [List.length_map, List.length_range'] at h1
    rw [List.getElem_map, List.getElem_range', List.getElem_drop]
    have hslot := h (entries.length - cap + k) (by omega) (by omega)
    have hindex : (entries.length % cap + 1 * k) % cap = (entries.length - cap + k) % cap := by
      rw [Nat.one_mul, Nat.mod_add_mod]
      obtain ⟨d, hd⟩ := Nat.exists_eq_add_of_le hlen
      have hsub : entries.length - cap + k = d + k := by omega
      have hadd : entries.length + k = d + k + cap := by omega
      rw [hsub, hadd, Nat.add_mod_right]
    rw [hindex]
    exact hslot

end RingHolds

end OSLab.Base
