import Mathlib.Data.List.Infix
import OSLab.Base.Machine

/-!
# Reading lists that grow

A machine keeps lists that only grow. Any number of readers, each with a
position of its own, take their items a window at a time, while the machine
goes on between any two of their calls.
-/

namespace OSLab.Base

variable {σ ι ω π α : Type*}

/-- A reader: the list it is on, where it is, and the items it has got since position 0. -/
structure Cursor (π α : Type*) where
  list : π
  pos : ℕ
  seen : List α

inductive Reading (ι π : Type*) where
  | step (i : ι)
  | start (p : π)
  | rewind (k : ℕ)
  | fetch (k room : ℕ)
  | stop (k : ℕ)

/-- The lists of a machine: whether there is a list `p`, which list a step takes away, and what a
call with some room gets at a position, with the position it leaves. -/
structure Shelf (σ ι ω π α : Type*) where
  machine : Machine σ ι ω
  has : σ → π → Bool
  drops : ι → Option π
  call : σ → π → ℕ → ℕ → List α × ℕ

namespace Shelf

/-- A reader has got the first items of its list, as many as its position says. -/
structure Follows (items : List α) (At : ℕ → Prop) (c : Cursor π α) : Prop where
  pos : c.pos = c.seen.length
  at_pos : At c.pos
  seen : c.seen <+: items

section Follows
variable {items : List α} {At : ℕ → Prop} {c : Cursor π α}

theorem Follows.start (h : At 0) (p : π) : Follows items At (⟨p, 0, []⟩ : Cursor π α) :=
  ⟨rfl, h, List.nil_prefix⟩

theorem Follows.grow {items' : List α} (h : Follows items At c) (hgrow : items <+: items') :
    Follows items' At c := ⟨h.pos, h.at_pos, h.seen.trans hgrow⟩

theorem Follows.rest (h : Follows items At c) : c.seen ++ items.drop c.pos = items := by
  rw [h.pos]
  exact (List.prefix_append_drop h.seen).symm

end Follows

variable (f : Shelf σ ι ω π α)

/-- What the steps of the machine meet, and the calls: `W` at their position and room. -/
def Meets (G : σ → ι → Prop) (W : ℕ → ℕ → Prop) (t : σ × List (Cursor π α)) : Reading ι π → Prop
  | .step i => G t.1 i
  | .fetch k room => ∀ c, t.2[k]? = some c → W c.pos room
  | _ => True

/-- Lists that only grow, read in windows. `I` is the invariant of the machine, and `At` holds of the
positions that the calls leave. -/
structure Grows (items : σ → π → List α) (I : σ → Prop) (G : σ → ι → Prop) (At : ℕ → Prop)
    (W : ℕ → ℕ → Prop) : Prop where
  first : At 0
  inv : ∀ s i, I s → G s i → I (f.machine.next s i)
  keeps : ∀ s i p, I s → G s i → f.has s p = true → f.drops i ≠ some p →
    f.has (f.machine.next s i) p = true ∧ items s p <+: items (f.machine.next s i) p
  call : ∀ s p room pos, I s → f.has s p = true → At pos → W pos room →
    (f.call s p room pos).1 = ((items s p).drop pos).take room ∧
      (f.call s p room pos).2 = pos + (f.call s p room pos).1.length ∧
      At (f.call s p room pos).2

/- The readers of a state are on lists that are there. -/
def AllFollow (items : σ → π → List α) (I : σ → Prop) (At : ℕ → Prop)
    (t : σ × List (Cursor π α)) : Prop :=
  I t.1 ∧ ∀ c ∈ t.2, f.has t.1 c.list = true ∧ Follows (items t.1 c.list) At c

variable {f} {items : σ → π → List α} {I : σ → Prop} {G : σ → ι → Prop} {At : ℕ → Prop}
  {W : ℕ → ℕ → Prop}

/-- What one call gives a reader: the next items, and nothing only at the end of its list. -/
theorem Grows.next (h : f.Grows items I G At W) {s : σ} (hI : I s) {c : Cursor π α}
    (hhas : f.has s c.list = true) (hc : Follows (items s c.list) At c) {room : ℕ}
    (hW : W c.pos room) :
    c.seen ++ (f.call s c.list room c.pos).1 <+: items s c.list ∧
      (1 ≤ room → (f.call s c.list room c.pos).1 = [] → c.seen = items s c.list) := by
  have hcall := (h.call s c.list room c.pos hI hhas hc.at_pos hW).1
  constructor
  · rw [hcall]
    nth_rewrite 2 [← hc.rest]
    exact (List.prefix_append_right_inj c.seen).mpr (List.take_prefix room _)
  · intro hroom hnil
    rw [hcall, List.take_eq_nil_iff] at hnil
    have hdrop : (items s c.list).drop c.pos = [] := hnil.resolve_left (by omega)
    have hrest := hc.rest
    rwa [hdrop, List.append_nil] at hrest

theorem Grows.fetch (h : f.Grows items I G At W) {s : σ} (hI : I s) {c : Cursor π α}
    (hhas : f.has s c.list = true) (hc : Follows (items s c.list) At c) {room : ℕ}
    (hW : W c.pos room) :
    Follows (items s c.list) At
      (⟨c.list, (f.call s c.list room c.pos).2, c.seen ++ (f.call s c.list room c.pos).1⟩ :
        Cursor π α) := by
  obtain ⟨-, hpos, hat⟩ := h.call s c.list room c.pos hI hhas hc.at_pos hW
  refine ⟨?_, hat, (h.next hI hhas hc hW).1⟩
  dsimp only
  rw [hpos, List.length_append, hc.pos]

/-- A reader that follows its list takes the place of another. -/
theorem AllFollow.set {s : σ} {cs : List (Cursor π α)} (h : f.AllFollow items I At (s, cs)) (k : ℕ)
    {c : Cursor π α} (hhas : f.has s c.list = true) (hc : Follows (items s c.list) At c) :
    f.AllFollow items I At (s, cs.set k c) := by
  refine ⟨h.1, fun c' hc' => ?_⟩
  rcases List.mem_or_eq_of_mem_set hc' with hold | rfl
  · exact h.2 c' hold
  · exact ⟨hhas, hc⟩

/-! ### Any order of steps and calls -/

variable [DecidableEq π]

def held (f : Shelf σ ι ω π α) (cs : List (Cursor π α)) (i : ι) : Bool :=
  cs.any fun c => f.drops i = some c.list

/- A list that has a reader is not taken away. -/
def readingStep (f : Shelf σ ι ω π α) (t : σ × List (Cursor π α)) :
    Reading ι π → List α × (σ × List (Cursor π α))
  | .step i => if f.held t.2 i then ([], t) else ([], (f.machine.next t.1 i, t.2))
  | .start p => if f.has t.1 p then ([], (t.1, t.2 ++ [⟨p, 0, []⟩])) else ([], t)
  | .rewind k =>
    match t.2[k]? with
    | none => ([], t)
    | some c => ([], (t.1, t.2.set k ⟨c.list, 0, []⟩))
  | .fetch k room =>
    match t.2[k]? with
    | none => ([], t)
    | some c =>
      let r := f.call t.1 c.list room c.pos
      (r.1, (t.1, t.2.set k ⟨c.list, r.2, c.seen ++ r.1⟩))
  | .stop k => ([], (t.1, t.2.eraseIdx k))

def reading (f : Shelf σ ι ω π α) :
    Machine (σ × List (Cursor π α)) (Reading ι π) (List α) := ⟨f.readingStep⟩

theorem Grows.machine_step (h : f.Grows items I G At W) {s : σ} {cs : List (Cursor π α)} {i : ι}
    (ht : f.AllFollow items I At (s, cs)) (hi : G s i) (hfree : f.held cs i = false) :
    f.AllFollow items I At (f.machine.next s i, cs) := by
  refine ⟨h.inv s i ht.1 hi, fun c hc => ?_⟩
  obtain ⟨hhas, hfollow⟩ := ht.2 c hc
  have hdrops : f.drops i ≠ some c.list := fun he => by
    have hheld : f.held cs i = true := List.any_eq_true.mpr ⟨c, hc, decide_eq_true he⟩
    rw [hfree] at hheld
    exact absurd hheld Bool.false_ne_true
  obtain ⟨hhas', hgrow⟩ := h.keeps s i c.list ht.1 hi hhas hdrops
  exact ⟨hhas', hfollow.grow hgrow⟩

theorem Grows.step (h : f.Grows items I G At W) (t : σ × List (Cursor π α)) (r : Reading ι π)
    (ht : f.AllFollow items I At t) (hr : Meets G W t r) :
    f.AllFollow items I At (f.reading.next t r) := by
  obtain ⟨s, cs⟩ := t
  simp only [Machine.next, reading]
  cases r with
  | step i =>
    cases hheld : f.held cs i with
    | true =>
      simp only [readingStep, hheld, ite_true]
      exact ht
    | false =>
      simp only [readingStep, hheld, Bool.false_eq_true, ite_false]
      exact h.machine_step ht hr hheld
  | start p =>
    cases hp : f.has s p with
    | false =>
      simp only [readingStep, hp, Bool.false_eq_true, ite_false]
      exact ht
    | true =>
      simp only [readingStep, hp, ite_true]
      refine ⟨ht.1, fun c hc => ?_⟩
      rcases List.mem_append.mp hc with hc | hc
      · exact ht.2 c hc
      · obtain rfl := List.mem_singleton.mp hc
        exact ⟨hp, .start h.first p⟩
  | rewind k =>
    cases hk : cs[k]? with
    | none =>
      simp only [readingStep, hk]
      exact ht
    | some c =>
      simp only [readingStep, hk]
      obtain ⟨hhas, -⟩ := ht.2 c (List.mem_of_getElem? hk)
      exact ht.set k hhas (.start h.first c.list)
  | fetch k room =>
    cases hk : cs[k]? with
    | none =>
      simp only [readingStep, hk]
      exact ht
    | some c =>
      simp only [readingStep, hk]
      obtain ⟨hhas, hfollow⟩ := ht.2 c (List.mem_of_getElem? hk)
      exact ht.set k hhas (h.fetch ht.1 hhas hfollow (hr c hk))
  | stop k => exact ⟨ht.1, fun c hc => ht.2 c (List.mem_of_mem_eraseIdx hc)⟩

/-- Whatever happens between its calls, a reader misses nothing in front of its position and gets
nothing twice. -/
theorem Grows.run (h : f.Grows items I G At W) {s : σ} (hI : I s) {rs : List (Reading ι π)}
    (hrs : f.reading.EveryStep (Meets G W) (s, []) rs) :
    f.AllFollow items I At (f.reading.run (s, []) rs) :=
  f.reading.run_invariant h.step ⟨hI, fun _ hc => absurd hc List.not_mem_nil⟩ hrs

end Shelf

end OSLab.Base
