import Mathlib.Data.Fintype.Option
import Mathlib.Logic.Function.Basic
import OSLab.Base.Fairness

/-!
# Creating and joining threads

What holds in a program whose `main` creates its threads one after the other,
joins them one after the other and then ends: it knows who is born and who is
done.
-/

namespace OSLab.Base

variable {τ α : Type*}

/-- `main` has still to create the threads `toCreate` and to join `toJoin`. A thread is at some stage of
its work, from `unborn` to `done`. -/
structure Forked (unborn done : α) (toCreate toJoin : List τ) (ended : Bool) (stage : τ → α) : Prop where
  once : toCreate.Nodup
  born : ∀ t, t ∈ toCreate ↔ stage t = unborn
  joined : ∀ t, t ∉ toJoin → stage t = done
  atEnd : ended = true → toCreate = [] ∧ toJoin = []

namespace Forked
variable {unborn done : α} {toCreate toJoin ts : List τ} {ended : Bool} {stage : τ → α} {t : τ} {new : α}

theorem start {threads : List τ} (honce : threads.Nodup) (hall : ∀ t, t ∈ threads) :
    Forked unborn done threads threads false fun _ => unborn where
  once := honce
  born t := iff_of_true (hall t) rfl
  joined t h := absurd (hall t) h
  atEnd h := absurd h Bool.false_ne_true

theorem all_done (h : Forked unborn done toCreate toJoin ended stage) (hended : ended = true) (t : τ) :
    stage t = done := by
  apply h.joined
  rw [(h.atEnd hended).2]
  exact List.not_mem_nil

theorem not_ended (h : Forked unborn done toCreate toJoin ended stage) (hopen : stage t ≠ done) :
    ended = false := by
  by_contra hended
  exact hopen (h.all_done (Bool.not_eq_false _ ▸ hended) t)

theorem joins (h : Forked unborn done toCreate (t :: ts) ended stage) (hdone : stage t = done) :
    Forked unborn done toCreate ts ended stage where
  once := h.once
  born := h.born
  joined u hjoined := by
    by_cases hu : u = t
    · rw [hu]
      exact hdone
    · exact h.joined u (List.not_mem_cons_of_ne_of_not_mem hu hjoined)
  atEnd hended := absurd (h.atEnd hended).2 (List.cons_ne_nil t ts)

theorem ends (h : Forked unborn done ([] : List τ) [] ended stage) :
    Forked unborn done ([] : List τ) [] true stage where
  once := h.once
  born := h.born
  joined := h.joined
  atEnd _ := ⟨rfl, rfl⟩

variable [DecidableEq τ]

/-- A thread that is born and has not ended goes on. -/
theorem moves (h : Forked unborn done toCreate toJoin ended stage) (hborn : stage t ≠ unborn)
    (hopen : stage t ≠ done) (hnew : new ≠ unborn) :
    Forked unborn done toCreate toJoin ended (Function.update stage t new) where
  once := h.once
  born u := by
    by_cases hu : u = t
    · subst hu
      rw [Function.update_self]
      exact (h.born u).trans (iff_of_false hborn hnew)
    · rw [Function.update_of_ne hu]
      exact h.born u
  joined u hjoined := by
    have hdone := h.joined u hjoined
    have hu : u ≠ t := by
      rintro rfl
      exact hopen hdone
    rw [Function.update_of_ne hu]
    exact hdone
  atEnd := h.atEnd

theorem created (h : Forked unborn done (t :: ts) toJoin ended stage) (hne : unborn ≠ done)
    (hnew : new ≠ unborn) : Forked unborn done ts toJoin ended (Function.update stage t new) where
  once := h.once.of_cons
  born u := by
    by_cases hu : u = t
    · subst hu
      rw [Function.update_self]
      exact iff_of_false (List.nodup_cons.mp h.once).1 hnew
    · rw [Function.update_of_ne hu, ← h.born u, List.mem_cons, or_iff_right hu]
  joined u hjoined := by
    have hdone := h.joined u hjoined
    have hunborn := (h.born t).mp List.mem_cons_self
    have hu : u ≠ t := by
      rintro rfl
      exact hne (hunborn.symm.trans hdone)
    rw [Function.update_of_ne hu]
    exact hdone
  atEnd hended := absurd (h.atEnd hended).1 (List.cons_ne_nil t ts)

end Forked

/-! ### Who gets on -/

section GetsOn
variable {σ ω : Type*} {m : Machine σ (Option τ) ω} {P : ℕ → σ → Prop} {Final : σ → Prop}
  {live : σ → τ → Prop} {s : σ} {k : ℕ}

/-- `P k` holds with `k` left to do. A live thread gets on in its turn and another one stands still;
`main`, for `none`, gets on unless it has ended or waits for a live thread. -/
structure GetsOn (m : Machine σ (Option τ) ω) (P : ℕ → σ → Prop) (Final : σ → Prop)
    (live : σ → τ → Prop) : Prop where
  main : ∀ k s, P k s → (m.next s none = s ∧ (Final s ∨ ∃ t, live s t)) ∨
    ∃ k', k' < k ∧ P k' (m.next s none)
  thread : ∀ k s t, P k s → live s t → ∃ k', k' < k ∧ P k' (m.next s (some t))
  idle : ∀ s t, ¬ live s t → m.next s (some t) = s

theorem GetsOn.next (h : GetsOn m P Final live) (k : ℕ) (s : σ) (turn : Option τ) (hP : P k s) :
    m.next s turn = s ∨ ∃ k', k' < k ∧ P k' (m.next s turn) := by
  cases turn with
  | none => exact (h.main k s hP).imp_left And.left
  | some t =>
    by_cases hlive : live s t
    · exact .inr (h.thread k s t hP hlive)
    · exact .inl (h.idle s t hlive)

theorem GetsOn.run (h : GetsOn m P Final live) (hP : P k s) (turns : List (Option τ)) :
    ∃ k', P k' (m.run s turns) := by
  obtain ⟨k', -, hk'⟩ := m.run_le (m.step_le h.next) turns hP
  exact ⟨k', hk'⟩

theorem GetsOn.final [Finite τ] (h : GetsOn m P Final live)
    (hfinal : ∀ s turn, Final s → Final (m.next s turn)) {sched : ℕ → Option τ}
    (hfair : Fair Set.univ sched) (hP : P k s) : ∃ n, ∀ n', n ≤ n' → Final (m.follow s sched n') := by
  refine m.follow_final Set.finite_univ h.next ?_ hfinal hfair hP
  intro k s hP hopen
  rcases h.main k s hP with ⟨-, hdone | ⟨t, hlive⟩⟩ | hmore
  · exact absurd hdone hopen
  · exact ⟨some t, Set.mem_univ _, h.thread k s t hP hlive⟩
  · exact ⟨none, Set.mem_univ _, hmore⟩

end GetsOn

/-! ### Two threads -/

/-- `main`, for `none`, and two threads in turn. -/
def inTurn (a b : τ) (n : ℕ) : Option τ :=
  if n % 3 = 0 then none else if n % 3 = 1 then some a else some b

theorem inTurn_fair {a b : τ} (hall : ∀ t, t = a ∨ t = b) : Fair Set.univ (inTurn a b) := by
  intro turn _ n
  have hturn (r : ℕ) (hr : r < 3) : (3 * n + r) % 3 = r := by omega
  cases turn with
  | none =>
    refine ⟨3 * n + 0, by omega, ?_⟩
    rw [inTurn, hturn 0 (by decide), if_pos rfl]
  | some t =>
    rcases hall t with rfl | rfl
    · refine ⟨3 * n + 1, by omega, ?_⟩
      rw [inTurn, hturn 1 (by decide), if_neg (by decide), if_pos rfl]
    · refine ⟨3 * n + 2, by omega, ?_⟩
      rw [inTurn, hturn 2 (by decide), if_neg (by decide), if_neg (by decide)]

/-- The threads of a program that creates two. -/
inductive Thread where
  | thread1
  | thread2
  deriving DecidableEq

namespace Thread

instance : Fintype Thread := ⟨{thread1, thread2}, fun t => by cases t <;> decide⟩

def other : Thread → Thread
  | thread1 => thread2
  | thread2 => thread1

theorem two_nodup : [thread1, thread2].Nodup := by decide

theorem mem_two (t : Thread) : t ∈ [thread1, thread2] := by cases t <;> decide

theorem eq_one_or_two (t : Thread) : t = thread1 ∨ t = thread2 := by cases t <;> simp

theorem inTurn_fair : Fair Set.univ (inTurn thread1 thread2) := Base.inTurn_fair eq_one_or_two

end Thread

end OSLab.Base
