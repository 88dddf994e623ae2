import Mathlib.Data.List.Basic

/-!
# Reading a list page by page

A reader asks again and again, each time with room for some items and from the
position the last call left, until a call gives nothing.
-/

namespace OSLab.Base

variable {α β : Type*}

/-- The answer to one call: the items given, what was read for them, the position left. -/
structure Page (α β : Type*) where
  items : List α
  reads : List β
  pos : ℕ

/-- The calls from position `pos` on give the items `es` and read `rs`. The room of the calls to
come is a stream; the last call is the first that gives nothing. -/
inductive Pages (call : ℕ → ℕ → Page α β) : (ℕ → ℕ) → ℕ → List α → List β → Prop where
  | last {rooms : ℕ → ℕ} {pos : ℕ} :
      (call (rooms 0) pos).items = [] → Pages call rooms pos [] (call (rooms 0) pos).reads
  | more {rooms : ℕ → ℕ} {pos : ℕ} {es : List α} {rs : List β} :
      (call (rooms 0) pos).items ≠ [] →
      Pages call (fun k => rooms (k + 1)) (call (rooms 0) pos).pos es rs →
      Pages call rooms pos ((call (rooms 0) pos).items ++ es) ((call (rooms 0) pos).reads ++ rs)

/-- From position `pos` on a call gives the next items of the list, as many as it has room for,
and moves the position past them; `a` is the position of the first item. -/
structure Pages.Windowed (call : ℕ → ℕ → Page α β) (a : ℕ) (items : List α) : Prop where
  items : ∀ room k, (call room (a + k)).items = (items.drop k).take room
  pos : ∀ room k, (call room (a + k)).pos = a + k + (call room (a + k)).items.length

namespace Pages

variable {call : ℕ → ℕ → Page α β} {a : ℕ} {items : List α}

theorem take_append_rest (l : List α) (room : ℕ) :
    l.take room ++ l.drop (l.take room).length = l := by
  rw [List.length_take]
  by_cases hle : room ≤ l.length
  · rw [Nat.min_eq_left hle, List.take_append_drop]
  · rw [Nat.min_eq_right (by omega), List.drop_length, List.append_nil,
      List.take_of_length_le (by omega)]

/-- A reader whose calls all have room for an item gets the rest of the list. -/
theorem rest (hw : Windowed call a items) {Q : β → Prop}
    (hQ : ∀ room k, ∀ r ∈ (call room (a + k)).reads, Q r) {rooms : ℕ → ℕ}
    (hrooms : ∀ k, 1 ≤ rooms k) (k : ℕ) :
    ∃ rs, Pages call rooms (a + k) (items.drop k) rs ∧ ∀ r ∈ rs, Q r := by
  -- induction on the number of items left
  obtain ⟨n, hn⟩ : ∃ n, items.length - k = n := ⟨_, rfl⟩
  induction n using Nat.strongRecOn generalizing rooms k with
  | _ n ih =>
    have hitems := hw.items (rooms 0) k
    have hroom := hrooms 0
    by_cases hend : items.drop k = []
    · have hnil : (call (rooms 0) (a + k)).items = [] := by rw [hitems, hend, List.take_nil]
      rw [hend]
      exact ⟨_, Pages.last hnil, hQ _ k⟩
    · have hlen : 0 < (items.drop k).length := List.length_pos_of_ne_nil hend
      have htaken : (call (rooms 0) (a + k)).items.length = min (rooms 0) (items.drop k).length := by
        rw [hitems, List.length_take]
      have hsome : (call (rooms 0) (a + k)).items ≠ [] := by
        rw [← List.length_pos_iff, htaken]
        omega
      rw [List.length_drop] at hlen htaken
      obtain ⟨rs, hrest, hrs⟩ := ih _ (by omega) (fun k => hrooms (k + 1))
        (k + (call (rooms 0) (a + k)).items.length) rfl
      rw [← Nat.add_assoc, ← hw.pos] at hrest
      have happ : (call (rooms 0) (a + k)).items ++
          items.drop (k + (call (rooms 0) (a + k)).items.length) = items.drop k := by
        rw [← List.drop_drop, hitems]
        exact take_append_rest _ _
      rw [← happ]
      exact ⟨_, Pages.more hsome hrest, fun r hr => (List.mem_append.mp hr).elim (hQ _ k r) (hrs r)⟩

theorem first_reads {rooms : ℕ → ℕ} {pos : ℕ} {es : List α} {rs : List β}
    (h : Pages call rooms pos es rs) : ∀ r ∈ (call (rooms 0) pos).reads, r ∈ rs := by
  cases h with
  | last _ => exact fun r hr => hr
  | more _ _ => exact fun r hr => List.mem_append_left _ hr

theorem tail {rooms : ℕ → ℕ} {pos : ℕ} {es : List α} {rs : List β}
    (h : Pages call rooms pos es rs) (hsome : (call (rooms 0) pos).items ≠ []) :
    ∃ es' rs', Pages call (fun k => rooms (k + 1)) (call (rooms 0) pos).pos es' rs' ∧
      (∀ r ∈ rs', r ∈ rs) := by
  cases h with
  | last hnil => exact absurd hnil hsome
  | more _ hrest => exact ⟨_, _, hrest, fun r hr => List.mem_append_right _ hr⟩

end Pages

end OSLab.Base
