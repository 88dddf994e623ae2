import Mathlib.Data.List.Nodup
import Mathlib.Data.List.Perm.Subperm
import Mathlib.Logic.Function.Basic

/-!
# Stores into places

A log of stores, each into a place, where a place holds what was stored there
last. When every value of interest is to be found in a place of its own, none
of them has been stored over.
-/

namespace OSLab.Base

variable {κ ν : Type*} [DecidableEq κ]

/-- What the places hold after the stores of a log. -/
def replay (F : κ → ν) (log : List (κ × ν)) : κ → ν :=
  log.foldl (fun F w => Function.update F w.1 w.2) F

theorem replay_cons (F : κ → ν) (w : κ × ν) (log : List (κ × ν)) :
    replay F (w :: log) = replay (Function.update F w.1 w.2) log := rfl

theorem replay_of_notMem {F : κ → ν} {log : List (κ × ν)} {k : κ} (h : k ∉ log.map Prod.fst) :
    replay F log k = F k := by
  induction log generalizing F with
  | nil => rfl
  | cons w log ih =>
    rw [List.map_cons, List.mem_cons, not_or] at h
    rw [replay_cons, ih h.2, Function.update_of_ne h.1]

theorem replay_mem {F : κ → ν} {log : List (κ × ν)} {k : κ} (h : k ∈ log.map Prod.fst) :
    (k, replay F log k) ∈ log := by
  induction log generalizing F with
  | nil => exact absurd h List.not_mem_nil
  | cons w log ih =>
    rw [replay_cons]
    by_cases hk : k ∈ log.map Prod.fst
    · exact List.mem_cons_of_mem _ (ih hk)
    · have hw : k = w.1 := (List.mem_cons.mp h).resolve_right hk
      rw [replay_of_notMem hk, hw, Function.update_self]
      exact List.mem_cons_self ..

/-- No value that `C` picks is stored over. -/
def NoneLost (C : ν → Bool) (log : List (κ × ν)) : Prop :=
  log.Pairwise fun w w' => C w.2 = true → w'.1 ≠ w.1

variable {C : ν → Bool} {F : κ → ν} {log : List (κ × ν)}

theorem NoneLost.replay_eq (h : NoneLost C log) : ∀ w ∈ log, C w.2 = true → replay F log w.1 = w.2 := by
  unfold NoneLost at h
  induction log generalizing F with
  | nil => exact fun w hw => absurd hw List.not_mem_nil
  | cons v log ih =>
    obtain ⟨hhead, htail⟩ := List.pairwise_cons.mp h
    intro w hw hC
    rw [replay_cons]
    rcases List.mem_cons.mp hw with rfl | hw
    · have hnot : w.1 ∉ log.map Prod.fst := by
        intro hmem
        obtain ⟨w', hw', he⟩ := List.mem_map.mp hmem
        exact hhead w' hw' hC he
      rw [replay_of_notMem hnot, Function.update_self]
    · exact ih htail w hw hC

/-- When the picked values went to different places and each of these places ends with a picked
value, nothing came behind them. -/
theorem noneLost_of_places (hplaces : log.Pairwise fun w w' => C w.2 = true → C w'.2 = true →
      w.1 ≠ w'.1) (hlast : ∀ w ∈ log, C w.2 = true → C (replay F log w.1) = true) :
    NoneLost C log := by
  unfold NoneLost
  induction log generalizing F with
  | nil => exact .nil
  | cons w log ih =>
    obtain ⟨hhead, htail⟩ := List.pairwise_cons.mp hplaces
    refine List.pairwise_cons.mpr ⟨?_, ?_⟩
    · intro w' hw' hC he
      have hmem : w.1 ∈ log.map Prod.fst := he ▸ List.mem_map_of_mem hw'
      have hfinal := hlast w (List.mem_cons_self ..) hC
      exact hhead _ (replay_mem hmem) hC hfinal rfl
    · exact ih htail fun v hv hC => hlast v (List.mem_cons_of_mem _ hv) hC

/-- As many different places that end with a picked value as values were picked: none was lost, and
these are all places that values went to. -/
theorem noneLost_of_length (hF : ∀ k, C (F k) = false) {ks : List κ} (hnodup : ks.Nodup)
    (hlen : (log.filter fun w => C w.2).length ≤ ks.length)
    (hks : ∀ k ∈ ks, C (replay F log k) = true) :
    NoneLost C log ∧ (log.filter fun w => C w.2).length = ks.length := by
  have hsub : ks ⊆ (log.filter fun w => C w.2).map Prod.fst := by
    intro k hk
    have hfinal := hks k hk
    have hmem : k ∈ log.map Prod.fst := by
      by_contra hnot
      rw [replay_of_notMem hnot, hF] at hfinal
      cases hfinal
    exact List.mem_map.mpr ⟨_, List.mem_filter.mpr ⟨replay_mem hmem, hfinal⟩, rfl⟩
  have hperm : ks.Perm ((log.filter fun w => C w.2).map Prod.fst) :=
    (hnodup.subperm hsub).perm_of_length_le (by rw [List.length_map]; exact hlen)
  have hpairwise := hperm.nodup_iff.mp hnodup
  unfold List.Nodup at hpairwise
  rw [List.pairwise_map, List.pairwise_filter] at hpairwise
  constructor
  · apply noneLost_of_places (F := F)
    · exact hpairwise.imp fun h hC hC' => h hC hC'
    · intro w hw hC
      apply hks
      exact hperm.mem_iff.mpr (List.mem_map_of_mem (List.mem_filter.mpr ⟨hw, hC⟩))
  · rw [hperm.length_eq, List.length_map]

end OSLab.Base
