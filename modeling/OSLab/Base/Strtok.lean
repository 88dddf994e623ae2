import Mathlib.Data.List.TakeWhile

/-!
# Tokens separated by a delimiter

`strtok` with one delimiter, and the texts that separate given tokens by at
least one delimiter each.
-/

namespace OSLab.Base

variable {α : Type*}

/-- The next token of `s` and what is left behind the delimiter that ends it. -/
def strtok [DecidableEq α] (d : α) (s : List α) : Option (List α × List α) :=
  match s.dropWhile fun c => c = d with
  | [] => none
  | c :: cs => some ((c :: cs).takeWhile fun c => c ≠ d, ((c :: cs).dropWhile fun c => c ≠ d).drop 1)

theorem strtok_length [DecidableEq α] {d : α} {s t rest : List α} (h : strtok d s = some (t, rest)) :
    rest.length < s.length := by
  have hskip : (s.dropWhile fun c => c = d).length ≤ s.length :=
    (List.dropWhile_suffix _).length_le
  unfold strtok at h
  split at h
  · cases h
  · rename_i c cs hs
    rw [hs] at hskip
    obtain ⟨-, rfl⟩ := Prod.mk.inj (Option.some.inj h)
    have hhead : c ≠ d := by
      intro he
      have hne : s.dropWhile (fun c => c = d) ≠ [] := by
        rw [hs]
        exact List.cons_ne_nil _ _
      have hfirst := List.head_dropWhile_not (fun c => decide (c = d)) hne
      simp only [hs, List.head_cons, decide_eq_false_iff_not] at hfirst
      exact hfirst he
    have htail : ((c :: cs).dropWhile fun c => c ≠ d).length ≤ cs.length := by
      rw [List.dropWhile_cons_of_pos (by simpa using hhead)]
      exact (List.dropWhile_suffix _).length_le
    rw [List.length_drop]
    simp only [List.length_cons] at hskip
    omega

/-- The text `s` consists of the tokens, with delimiters around them and at least one between two
tokens. -/
inductive Spaced (d : α) : List (List α) → List α → Prop where
  | nil (n : ℕ) : Spaced d [] (List.replicate n d)
  | cons (n : ℕ) {t : List α} {ts : List (List α)} {rest : List α} :
      t ≠ [] → d ∉ t → (rest = [] ∨ ∃ r, rest = d :: r) → Spaced d ts rest →
      Spaced d (t :: ts) (List.replicate n d ++ (t ++ rest))

namespace Spaced

variable {d : α} {t s : List α} {ts : List (List α)}

theorem skip [DecidableEq α] (n : ℕ) (s : List α) :
    (List.replicate n d ++ s).dropWhile (fun c => c = d) = s.dropWhile fun c => c = d :=
  List.dropWhile_append_of_pos fun _ hc => decide_eq_true (List.eq_of_mem_replicate hc)

/-- Behind a delimiter that comes first the tokens are the same. -/
theorem behind {r : List α} (h : Spaced d ts (d :: r)) : Spaced d ts r := by
  generalize hs : d :: r = s at h
  cases h with
  | nil n =>
    cases n with
    | zero => cases hs
    | succ n =>
      obtain ⟨-, rfl⟩ := List.cons.inj hs
      exact .nil n
  | cons n hne hd hrest htail =>
    rename_i t ts rest
    cases n with
    | zero =>
      obtain ⟨c, cs, rfl⟩ := List.exists_cons_of_ne_nil hne
      obtain ⟨rfl, -⟩ := List.cons.inj hs
      exact absurd (List.mem_cons_self ..) hd
    | succ n =>
      obtain ⟨-, rfl⟩ := List.cons.inj hs
      exact .cons n hne hd hrest htail

theorem strtok_nil [DecidableEq α] (h : Spaced d [] s) : strtok d s = none := by
  cases h with
  | nil n =>
    have hnil := skip (d := d) n []
    rw [List.append_nil, List.dropWhile_nil] at hnil
    unfold strtok
    rw [hnil]

theorem strtok_cons [DecidableEq α] (h : Spaced d (t :: ts) s) :
    ∃ rest, strtok d s = some (t, rest) ∧ Spaced d ts rest := by
  cases h with
  | cons n hne hd hrest htail =>
    rename_i rest
    obtain ⟨c, cs, rfl⟩ := List.exists_cons_of_ne_nil hne
    have hc : c ≠ d := fun he => hd (he ▸ List.mem_cons_self ..)
    have hall : ∀ x ∈ c :: cs, decide (x ≠ d) = true := fun x hx =>
      decide_eq_true fun he => hd (he ▸ hx)
    have hskip : (List.replicate n d ++ (c :: cs ++ rest)).dropWhile (fun c => c = d) =
        c :: (cs ++ rest) := by
      rw [skip, List.cons_append]
      exact List.dropWhile_cons_of_neg (by simpa using hc)
    have htake : (c :: (cs ++ rest)).takeWhile (fun c => c ≠ d) = c :: cs := by
      rw [← List.cons_append, List.takeWhile_append_of_pos hall]
      rcases hrest with rfl | ⟨r, rfl⟩ <;> simp
    have hdrop : ((c :: (cs ++ rest)).dropWhile fun c => c ≠ d).drop 1 = rest.drop 1 := by
      rw [← List.cons_append, List.dropWhile_append_of_pos hall]
      rcases hrest with rfl | ⟨r, rfl⟩ <;> simp
    refine ⟨rest.drop 1, ?_, ?_⟩
    · unfold strtok
      simp only [hskip, htake, hdrop]
    · rcases hrest with rfl | ⟨r, rfl⟩
      · exact htail
      · exact htail.behind

theorem forall_mem {P : α → Prop} (h : Spaced d ts s) (hd : P d) (hts : ∀ t ∈ ts, ∀ c ∈ t, P c) :
    ∀ c ∈ s, P c := by
  have hgap (n : ℕ) : ∀ c ∈ List.replicate n d, P c := fun c hc => by
    rw [List.eq_of_mem_replicate hc]
    exact hd
  induction h with
  | nil n => exact hgap n
  | cons n _ _ _ _ ih =>
    intro c hc
    rcases List.mem_append.mp hc with hc | hc
    · exact hgap n c hc
    · rcases List.mem_append.mp hc with hc | hc
      · exact hts _ (List.mem_cons_self ..) c hc
      · exact ih (fun t ht => hts t (List.mem_cons_of_mem _ ht)) c hc

/-- A token is not empty, and all of it stands in the text. -/
theorem of_mem (h : Spaced d ts s) (ht : t ∈ ts) : t ≠ [] ∧ ∀ c ∈ t, c ∈ s := by
  induction h with
  | nil n => exact absurd ht List.not_mem_nil
  | cons n hne _ _ _ ih =>
    rcases List.mem_cons.mp ht with rfl | ht
    · exact ⟨hne, fun c hc => List.mem_append_right _ (List.mem_append_left _ hc)⟩
    · obtain ⟨hne', hmem⟩ := ih ht
      exact ⟨hne', fun c hc => List.mem_append_right _ (List.mem_append_right _ (hmem c hc))⟩

theorem delim (h : Spaced d ts s) : Spaced d ts (d :: s) := by
  cases h with
  | nil n => exact .nil (n + 1)
  | cons n hne hd hrest htail => exact .cons (n + 1) hne hd hrest htail

/-- A run in front of the other tokens is one of them, unless it is empty. -/
theorem run {rest : List α} (ht : d ∉ t)
    (hrest : rest = [] ∨ ∃ r, rest = d :: r) (h : Spaced d (ts.filter (· ≠ [])) rest) :
    Spaced d ((t :: ts).filter (· ≠ [])) (t ++ rest) := by
  by_cases hne : t = []
  · subst hne
    exact h
  · have hfilter : (t :: ts).filter (· ≠ []) = t :: ts.filter (· ≠ []) := by
      rw [List.filter_cons, if_pos (by simpa using hne)]
    rw [hfilter]
    exact .cons 0 hne ht hrest h

end Spaced

/-! ### The tokens of a text -/

/-- The maximal runs without a delimiter. -/
def tokens [DecidableEq α] (d : α) (s : List α) : List (List α) := (s.splitOn d).filter (· ≠ [])

section Tokens
variable [DecidableEq α]

theorem splitOn_cons (d c : α) (s : List α) : (c :: s).splitOn d =
    if c = d then [] :: s.splitOn d else (s.splitOn d).modifyHead (List.cons c) := by
  unfold List.splitOn
  rw [List.splitOnP_cons_eq_if_modifyHead]
  simp only [beq_iff_eq]

/-- The text up to the first delimiter, and the tokens behind it. -/
theorem splitOn_spaced (d : α) (s : List α) : ∃ t rest ts, s.splitOn d = t :: ts ∧ s = t ++ rest ∧
    d ∉ t ∧ (rest = [] ∨ ∃ r, rest = d :: r) ∧ Spaced d (ts.filter (· ≠ [])) rest := by
  induction s with
  | nil => exact ⟨[], [], [], rfl, rfl, List.not_mem_nil, .inl rfl, .nil 0⟩
  | cons c s ih =>
    obtain ⟨t, rest, ts, hsplit, rfl, ht, hrest, hspaced⟩ := ih
    rw [splitOn_cons, hsplit]
    by_cases hc : c = d
    · subst hc
      rw [if_pos rfl]
      refine ⟨[], c :: (t ++ rest), t :: ts, rfl, rfl, List.not_mem_nil, .inr ⟨_, rfl⟩, ?_⟩
      exact (Spaced.run ht hrest hspaced).delim
    · rw [if_neg hc]
      refine ⟨c :: t, rest, ts, rfl, rfl, ?_, hrest, hspaced⟩
      rw [List.mem_cons, not_or]
      exact ⟨Ne.symm hc, ht⟩

theorem tokens_spaced (d : α) (s : List α) : Spaced d (tokens d s) s := by
  obtain ⟨t, rest, ts, hsplit, rfl, ht, hrest, hspaced⟩ := splitOn_spaced d s
  unfold tokens
  rw [hsplit]
  exact Spaced.run ht hrest hspaced

end Tokens

end OSLab.Base
