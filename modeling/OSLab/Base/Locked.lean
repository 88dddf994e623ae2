import Mathlib.Algebra.Order.BigOperators.Group.Finset
import Mathlib.Data.Fintype.Option
import OSLab.Base.ForkJoin

/-!
# Threads that work inside one lock

`main` creates its threads, joins them and goes on; a thread does all its work
while it holds the lock. However the turns fall, the memory is what the bodies
make of it one after the other, and a fair schedule comes to the end of `main`.
-/

namespace OSLab.Base

variable {τ σ π : Type*}

/-- `step` is one step of the body of a thread, with the local variables `π`, and `none` at its end.
`finish` is what `main` does once all threads have been joined. -/
structure Locked (τ σ π : Type*) where
  threads : List τ
  init : τ → π
  step : τ → π → σ → Option (π × σ)
  finish : σ → σ

namespace Locked

inductive Phase (π : Type*) where
  | unborn
  | waits
  | inside (p : π)
  | done

def Phase.isDone : Phase π → Bool
  | .done => true
  | _ => false

/- `toCreate` and `toJoin` are what `main` still has to do. -/
structure State (τ σ π : Type*) where
  toCreate : List τ
  toJoin : List τ
  ended : Bool
  phase : τ → Phase π
  lock : Option τ
  shared : σ

section Steps
variable [DecidableEq τ]

def State.setPhase (s : State τ σ π) (t : τ) (ph : Phase π) : State τ σ π :=
  { s with phase := Function.update s.phase t ph }

variable (l : Locked τ σ π)

def mainStep (s : State τ σ π) : State τ σ π :=
  match s.toCreate with
  | t :: ts => { s with toCreate := ts }.setPhase t .waits
  | [] =>
    match s.toJoin with
    | t :: ts => if (s.phase t).isDone then { s with toJoin := ts } else s
    | [] => if s.ended then s else { s with ended := true, shared := l.finish s.shared }

/- A thread that has to wait for the lock does nothing in its turn. -/
def threadStep (s : State τ σ π) (t : τ) : State τ σ π :=
  match s.phase t with
  | .unborn | .done => s
  | .waits => if s.lock.isNone then { s with lock := some t }.setPhase t (.inside (l.init t)) else s
  | .inside p =>
    match l.step t p s.shared with
    | some (p', shared) => { s with shared }.setPhase t (.inside p')
    | none => { s with lock := none }.setPhase t .done

/-- A schedule says who has the next turn: a thread, or `main` for `none`. -/
def machine : Machine (State τ σ π) (Option τ) Unit where
  step s turn := ((), match turn with
    | none => l.mainStep s
    | some t => l.threadStep s t)

def start (shared : σ) : State τ σ π where
  toCreate := l.threads
  toJoin := l.threads
  ended := false
  phase := fun _ => .unborn
  lock := none
  shared := shared

end Steps

/-! ### What the bodies compute -/

variable (l : Locked τ σ π)

/-- The body of `t`, entered with the memory `s`, has come to the local variables `p` and the memory. -/
inductive Within (t : τ) (s : σ) : π → σ → Prop
  | enter : Within t s (l.init t) s
  | step {p p' : π} {a b : σ} (h : Within t s p a) (hstep : l.step t p a = some (p', b)) :
      Within t s p' b

/-- The body of `t` takes the memory `s` to `f t s`, and each of its steps makes `rank` less. -/
structure Computes (f : τ → σ → σ) (rank : τ → π → ℕ) : Prop where
  result : ∀ {t s p a}, l.Within t s p a → l.step t p a = none → a = f t s
  less : ∀ {t s p a p' b}, l.Within t s p a → l.step t p a = some (p', b) → rank t p' < rank t p

/-- The bodies one after the other. -/
def serially (f : τ → σ → σ) (order : List τ) (s : σ) : σ := order.foldl (fun s t => f t s) s

theorem serially_nil (f : τ → σ → σ) (s : σ) : serially f [] s = s := rfl

theorem serially_cons (f : τ → σ → σ) (t : τ) (order : List τ) (s : σ) :
    serially f (t :: order) s = serially f order (f t s) := rfl

theorem serially_snoc (f : τ → σ → σ) (order : List τ) (t : τ) (s : σ) :
    serially f (order ++ [t]) s = f t (serially f order s) := by
  unfold serially
  rw [List.foldl_append]
  rfl

theorem serially_frame {γ : Type*} {g : σ → γ} {f : τ → σ → σ} (hf : ∀ t a, g (f t a) = g a)
    (order : List τ) (s : σ) : g (serially f order s) = g s := by
  induction order generalizing s with
  | nil => rfl
  | cons t order ih => exact (ih (f t s)).trans (hf t s)

/-- Two threads have had the lock in one order or in the other. -/
theorem order_of_two {a b : τ} (hall : ∀ t, t = a ∨ t = b) (hne : a ≠ b) {order : List τ}
    (honce : order.Nodup) (hmem : ∀ t, t ∈ order) : order = [a, b] ∨ order = [b, a] := by
  have hperm : order.Perm [a, b] := by
    apply (List.perm_ext_iff_of_nodup honce (by simp [hne])).mpr
    intro t
    rcases hall t with rfl | rfl <;> simp [hmem]
  match order, hperm.length_eq with
  | [c, d], _ =>
    rcases hall c with rfl | rfl <;> rcases hall d with rfl | rfl <;> simp_all

/-- The threads of `order` have had the lock, in this order. -/
structure Serial (f : τ → σ → σ) (s0 : σ) (order : List τ) (s : State τ σ π) : Prop where
  once : order.Nodup
  had : ∀ t, t ∈ order ↔ s.phase t = .done
  holder : ∀ t p, s.phase t = .inside p → s.lock = some t
  free : s.lock = none →
    s.shared = if s.ended then l.finish (serially f order s0) else serially f order s0
  held : ∀ t, s.lock = some t →
    ∃ p, s.phase t = .inside p ∧ l.Within t (serially f order s0) p s.shared

structure Inv (f : τ → σ → σ) (s0 : σ) (order : List τ) (s : State τ σ π) : Prop where
  forked : Forked .unborn .done s.toCreate s.toJoin s.ended s.phase
  serial : l.Serial f s0 order s

section Runs
variable {l} {f : τ → σ → σ} {rank : τ → π → ℕ} {s0 : σ} {order : List τ} {s : State τ σ π} {t : τ}

theorem start_inv (hnodup : l.threads.Nodup) (hall : ∀ t, t ∈ l.threads) (f : τ → σ → σ) (s0 : σ) :
    l.Inv f s0 [] (l.start s0) where
  forked := .start hnodup hall
  serial :=
    { once := List.nodup_nil
      had := fun t => by simp [start]
      holder := fun t p h => by simp [start] at h
      free := fun _ => rfl
      held := fun t h => by simp [start] at h }

/-- What no body changes is as it was at the start, up to the end of `main`. -/
theorem Inv.frame {γ : Type*} {g : σ → γ} (h : l.Inv f s0 order s) (hf : ∀ t a, g (f t a) = g a)
    (hg : ∀ {t a p b}, l.Within t a p b → g b = g a) (hopen : ¬ s.ended = true) :
    g s.shared = g s0 := by
  have hserial := serially_frame hf order s0
  cases hlock : s.lock with
  | none => rw [h.serial.free hlock, if_neg hopen, hserial]
  | some t =>
    obtain ⟨p, -, hwithin⟩ := h.serial.held t hlock
    rw [hg hwithin, hserial]

theorem isDone_iff {ph : Phase π} : ph.isDone = true ↔ ph = .done := by
  cases ph <;> simp [Phase.isDone]

theorem Serial.lock_free (h : l.Serial f s0 order s) (hdone : ∀ t, s.phase t = .done) :
    s.lock = none := by
  cases hlock : s.lock with
  | none => rfl
  | some t =>
    obtain ⟨p, hp, -⟩ := h.held t hlock
    rw [hdone t] at hp
    cases hp

/-- The thread gets on in its turn. -/
def State.Live (s : State τ σ π) (t : τ) : Prop :=
  (∃ p, s.phase t = .inside p) ∨ (s.phase t = .waits ∧ s.lock = none)

/-- Whoever the first thread to be joined is, it gets on, or the holder of the lock does. -/
theorem Inv.exists_live (h : l.Inv f s0 order s) (hcreate : s.toCreate = []) (hopen : s.phase t ≠ .done) :
    ∃ u, s.Live u := by
  cases hlock : s.lock with
  | some u =>
    obtain ⟨p, hp, -⟩ := h.serial.held u hlock
    exact ⟨u, .inl ⟨p, hp⟩⟩
  | none =>
    refine ⟨t, ?_⟩
    cases hph : s.phase t with
    | unborn =>
      have hmem := (h.forked.born t).mpr hph
      rw [hcreate] at hmem
      exact absurd hmem List.not_mem_nil
    | waits => exact .inr ⟨hph, hlock⟩
    | inside p => exact .inl ⟨p, hph⟩
    | done => exact absurd hph hopen

variable [DecidableEq τ]

theorem had_moves {phase : τ → Phase π} (h : ∀ u, u ∈ order ↔ phase u = .done) {ph : Phase π}
    (hopen : phase t ≠ .done) (hph : ph ≠ .done) (u : τ) :
    u ∈ order ↔ Function.update phase t ph u = .done := by
  by_cases hu : u = t
  · subst hu
    rw [Function.update_self]
    exact (h u).trans (iff_of_false hopen hph)
  · rw [Function.update_of_ne hu]
    exact h u

/-- The creation of a thread is nothing to the memory. -/
theorem Serial.created (h : l.Serial f s0 order s) (hunborn : s.phase t = .unborn) (ts : List τ) :
    l.Serial f s0 order ({ s with toCreate := ts }.setPhase t .waits) where
  once := h.once
  had := had_moves h.had (by simp [hunborn]) (by simp)
  holder u p hp := by
    by_cases hu : u = t
    · subst hu
      simp [State.setPhase] at hp
    · exact h.holder u p ((Function.update_of_ne hu ..).symm.trans hp)
  free := h.free
  held u hlock := by
    obtain ⟨p, hp, hwithin⟩ := h.held u hlock
    have hu : u ≠ t := by
      rintro rfl
      rw [hunborn] at hp
      cases hp
    exact ⟨p, (Function.update_of_ne hu ..).trans hp, hwithin⟩

theorem Serial.enters (h : l.Serial f s0 order s) (hwaits : s.phase t = .waits) (hlock : s.lock = none)
    (hopen : s.ended = false) :
    l.Serial f s0 order ({ s with lock := some t }.setPhase t (.inside (l.init t))) where
  once := h.once
  had := had_moves h.had (by simp [hwaits]) (by simp)
  holder u p hp := by
    by_cases hu : u = t
    · rw [hu]
      rfl
    · have hold := h.holder u p ((Function.update_of_ne hu ..).symm.trans hp)
      exact absurd (hlock.symm.trans hold) (Option.some_ne_none u).symm
  free hfree := absurd hfree (Option.some_ne_none t)
  held u hu := by
    obtain rfl : t = u := Option.some.inj hu
    have hshared := h.free hlock
    rw [if_neg (by simp [hopen])] at hshared
    refine ⟨l.init t, Function.update_self .., ?_⟩
    rw [← hshared]
    exact .enter

theorem Serial.goes (h : l.Serial f s0 order s) {p p' : π} {shared : σ} (hp : s.phase t = .inside p)
    (hstep : l.step t p s.shared = some (p', shared)) :
    l.Serial f s0 order ({ s with shared }.setPhase t (.inside p')) where
  once := h.once
  had := had_moves h.had (by simp [hp]) (by simp)
  holder u q hq := by
    by_cases hu : u = t
    · rw [hu]
      exact h.holder t p hp
    · exact h.holder u q ((Function.update_of_ne hu ..).symm.trans hq)
  free hfree := absurd (hfree.symm.trans (h.holder t p hp)) (Option.some_ne_none t).symm
  held u hu := by
    obtain rfl : t = u := Option.some.inj ((h.holder t p hp).symm.trans hu)
    obtain ⟨q, hq, hwithin⟩ := h.held t hu
    obtain rfl : p = q := Phase.inside.inj (hp.symm.trans hq)
    exact ⟨p', Function.update_self .., hwithin.step hstep⟩

theorem Serial.leaves (h : l.Serial f s0 order s) (hf : l.Computes f rank) {p : π}
    (hp : s.phase t = .inside p) (hstep : l.step t p s.shared = none) (hopen : s.ended = false) :
    l.Serial f s0 (order ++ [t]) ({ s with lock := none }.setPhase t .done) := by
  have hlock := h.holder t p hp
  have hnew : t ∉ order := by
    rw [h.had t, hp]
    simp
  constructor
  case once => exact List.nodup_append.mpr ⟨h.once, List.nodup_singleton t, by grind⟩
  case had =>
    intro u
    rw [List.mem_append, List.mem_singleton]
    by_cases hu : u = t
    · subst hu
      exact iff_of_true (.inr rfl) (Function.update_self ..)
    · rw [or_iff_left hu, h.had u]
      change _ ↔ Function.update s.phase t .done u = .done
      rw [Function.update_of_ne hu]
  case holder =>
    intro u q hq
    by_cases hu : u = t
    · subst hu
      simp [State.setPhase] at hq
    · have hold := h.holder u q ((Function.update_of_ne hu ..).symm.trans hq)
      exact absurd (Option.some.inj (hold.symm.trans hlock)) hu
  case free =>
    intro _
    obtain ⟨q, hq, hwithin⟩ := h.held t hlock
    obtain rfl : p = q := Phase.inside.inj (hp.symm.trans hq)
    change s.shared = if s.ended then _ else _
    rw [if_neg (by simp [hopen]), serially_snoc]
    exact hf.result hwithin hstep
  case held =>
    intro u hu
    exact absurd hu.symm (Option.some_ne_none u)

/-- Nothing happens once `main` has ended. -/
theorem Inv.ended_stays (h : l.Inv f s0 order s) (hended : s.ended = true) (turn : Option τ) :
    l.machine.next s turn = s := by
  obtain ⟨hcreate, hjoin⟩ := h.forked.atEnd hended
  cases turn with
  | none =>
    change l.mainStep s = s
    simp only [Locked.mainStep, hcreate, hjoin, hended, ite_true]
  | some t =>
    have hdone := h.forked.joined t (hjoin ▸ List.not_mem_nil)
    change l.threadStep s t = s
    simp only [Locked.threadStep, hdone]

def Ended (l : Locked τ σ π) (f : τ → σ → σ) (s0 : σ) (s : State τ σ π) : Prop :=
  s.ended = true ∧ ∃ order, l.Inv f s0 order s

theorem next_ended (s : State τ σ π) (turn : Option τ) (h : l.Ended f s0 s) :
    l.Ended f s0 (l.machine.next s turn) := by
  obtain ⟨hended, order, hinv⟩ := h
  rw [hinv.ended_stays hended turn]
  exact ⟨hended, order, hinv⟩

theorem threadStep_idle (h : ¬ s.Live t) : l.threadStep s t = s := by
  unfold Locked.threadStep
  cases hph : s.phase t with
  | unborn => rfl
  | done => rfl
  | waits =>
    cases hlock : s.lock with
    | none => exact absurd (.inr ⟨hph, hlock⟩) h
    | some u => rfl
  | inside p => exact absurd (.inl ⟨p, hph⟩) h

/-! ### What is left to do -/

def Phase.left (l : Locked τ σ π) (rank : τ → π → ℕ) (t : τ) : Phase π → ℕ
  | .unborn => rank t (l.init t) + 3
  | .waits => rank t (l.init t) + 2
  | .inside p => rank t p + 1
  | .done => 0

variable [Fintype τ]

def State.left (l : Locked τ σ π) (rank : τ → π → ℕ) (s : State τ σ π) : ℕ :=
  s.toCreate.length + s.toJoin.length + (if s.ended then 0 else 1) + ∑ t, (s.phase t).left l rank t

theorem left_setPhase (s : State τ σ π) {ph : Phase π} (h : ph.left l rank t < (s.phase t).left l rank t) :
    (s.setPhase t ph).left l rank < s.left l rank := by
  apply Nat.add_lt_add_left
  apply Finset.sum_lt_sum
  · intro u _
    by_cases hu : u = t
    · subst hu
      simp only [State.setPhase, Function.update_self]
      exact h.le
    · simp only [State.setPhase, Function.update_of_ne hu, le_refl]
  · refine ⟨t, Finset.mem_univ t, ?_⟩
    simp only [State.setPhase, Function.update_self]
    exact h

/-- The program has `k` left to do. -/
def Underway (l : Locked τ σ π) (f : τ → σ → σ) (rank : τ → π → ℕ) (s0 : σ) (k : ℕ)
    (s : State τ σ π) : Prop :=
  ∃ order, l.Inv f s0 order s ∧ s.left l rank = k

theorem Inv.enters (h : l.Inv f s0 order s) (hwaits : s.phase t = .waits) (hlock : s.lock = none) :
    ∃ k, k < s.left l rank ∧ Underway l f rank s0 k (l.threadStep s t) := by
  have hforked := h.forked
  have hopen := hforked.not_ended (t := t) (by simp [hwaits])
  have hstep : l.threadStep s t = { s with lock := some t }.setPhase t (.inside (l.init t)) := by
    simp only [Locked.threadStep, hwaits, hlock, Option.isNone_none, ite_true]
  rw [hstep]
  refine ⟨_, ?_, order, ⟨?_, h.serial.enters hwaits hlock hopen⟩, rfl⟩
  · apply left_setPhase { s with lock := some t }
    simp only [Phase.left, hwaits]
    omega
  · exact hforked.moves (by simp [hwaits]) (by simp [hwaits]) (by simp)

theorem Inv.works (h : l.Inv f s0 order s) (hf : l.Computes f rank) {p : π} (hp : s.phase t = .inside p) :
    ∃ k, k < s.left l rank ∧ Underway l f rank s0 k (l.threadStep s t) := by
  have hforked := h.forked
  have hopen := hforked.not_ended (t := t) (by simp [hp])
  obtain ⟨q, hq, hwithin⟩ := h.serial.held t (h.serial.holder t p hp)
  obtain rfl : p = q := Phase.inside.inj (hp.symm.trans hq)
  unfold Locked.threadStep
  rw [hp]
  dsimp only
  cases hstep : l.step t p s.shared with
  | some r =>
    refine ⟨_, ?_, order, ⟨?_, h.serial.goes hp hstep⟩, rfl⟩
    · apply left_setPhase { s with shared := r.2 }
      simp only [Phase.left, hp]
      exact Nat.succ_lt_succ (hf.less hwithin hstep)
    · exact hforked.moves (by simp [hp]) (by simp [hp]) (by simp)
  | none =>
    refine ⟨_, ?_, order ++ [t], ⟨?_, h.serial.leaves hf hp hstep hopen⟩, rfl⟩
    · apply left_setPhase { s with lock := none }
      simp only [Phase.left, hp]
      omega
    · exact hforked.moves (by simp [hp]) (by simp [hp]) (by simp)

/-- All that a step of `main` does: it has ended or waits for a thread, or gets on. -/
theorem Inv.mainStep (h : l.Inv f s0 order s) :
    (l.mainStep s = s ∧ (s.ended = true ∨ ∃ t, s.toCreate = [] ∧ s.phase t ≠ .done)) ∨
      ∃ k, k < s.left l rank ∧ Underway l f rank s0 k (l.mainStep s) := by
  obtain ⟨toCreate, toJoin, ended, phase, lock, shared⟩ := s
  obtain ⟨hforked, hserial⟩ := h
  dsimp only at hforked
  cases toCreate with
  | cons t ts =>
    have hunborn := (hforked.born t).mp List.mem_cons_self
    right
    refine ⟨_, ?_, order, ⟨hforked.created (by simp) (by simp), hserial.created hunborn ts⟩, rfl⟩
    apply (left_setPhase ⟨ts, toJoin, ended, phase, lock, shared⟩ _).trans_le
    · simp only [State.left, List.length_cons]
      omega
    · simp only [Phase.left, hunborn]
      omega
  | nil =>
    cases toJoin with
    | cons t ts =>
      unfold Locked.mainStep
      dsimp only
      split
      next hdone =>
        right
        refine ⟨_, ?_, order, ⟨hforked.joins (isDone_iff.mp hdone), ?_⟩, rfl⟩
        · simp only [State.left, List.length_cons]
          omega
        · exact ⟨hserial.once, hserial.had, hserial.holder, hserial.free, hserial.held⟩
      next hopen => exact .inl ⟨rfl, .inr ⟨t, rfl, fun hdone => hopen (isDone_iff.mpr hdone)⟩⟩
    | nil =>
      cases ended with
      | true => exact .inl ⟨rfl, .inl rfl⟩
      | false =>
        have hdone (t : τ) : phase t = .done := hforked.joined t List.not_mem_nil
        have hshared := hserial.free (hserial.lock_free hdone)
        right
        refine ⟨_, ?_, order, ⟨hforked.ends, ?_⟩, rfl⟩
        · simp [State.left, Locked.mainStep]
        · refine ⟨hserial.once, hserial.had, hserial.holder, fun _ => congrArg l.finish hshared, ?_⟩
          intro t ht
          obtain ⟨p, hp, -⟩ := hserial.held t ht
          exact absurd (hdone t) (by simp [show phase t = .inside p from hp])

theorem getsOn (hf : l.Computes f rank) (s0 : σ) :
    GetsOn l.machine (Underway l f rank s0) (l.Ended f s0) State.Live where
  main := by
    rintro _ s ⟨order, hinv, rfl⟩
    rcases hinv.mainStep with ⟨hsame, hended | ⟨t, hcreate, hopen⟩⟩ | hless
    · exact .inl ⟨hsame, .inl ⟨hended, order, hinv⟩⟩
    · exact .inl ⟨hsame, .inr (hinv.exists_live hcreate hopen)⟩
    · exact .inr hless
  thread := by
    rintro _ s t ⟨order, hinv, rfl⟩ hlive
    rcases hlive with ⟨p, hp⟩ | ⟨hwaits, hlock⟩
    · exact hinv.works hf hp
    · exact hinv.enters hwaits hlock
  idle _ _ hidle := threadStep_idle hidle

/-- Every run is a run of bodies one after the other. -/
theorem run_inv (hnodup : l.threads.Nodup) (hall : ∀ t, t ∈ l.threads) (hf : l.Computes f rank) (s0 : σ)
    (turns : List (Option τ)) : ∃ order, l.Inv f s0 order (l.machine.run (l.start s0) turns) := by
  have hstart : Underway l f rank s0 ((l.start s0).left l rank) (l.start s0) :=
    ⟨[], start_inv hnodup hall f s0, rfl⟩
  obtain ⟨k, order, hinv, -⟩ := (getsOn hf s0).run hstart turns
  exact ⟨order, hinv⟩

/-- Under a fair schedule `main` comes to its end, and the memory is what the bodies of all threads
make of it in some order. -/
theorem follow_ends (hnodup : l.threads.Nodup) (hall : ∀ t, t ∈ l.threads) (hf : l.Computes f rank)
    (s0 : σ) {sched : ℕ → Option τ} (hfair : Fair Set.univ sched) :
    ∃ order : List τ, order.Nodup ∧ (∀ t, t ∈ order) ∧ ∃ n, ∀ n', n ≤ n' →
      let s := l.machine.follow (l.start s0) sched n'
      s.ended = true ∧ s.lock = none ∧ s.shared = l.finish (serially f order s0) := by
  obtain ⟨n, hn⟩ := (getsOn hf s0).final next_ended hfair ⟨[], start_inv hnodup hall f s0, rfl⟩
  obtain ⟨hended, order, hinv⟩ := hn n (le_refl n)
  have hdone := hinv.forked.all_done hended
  have hlock := hinv.serial.lock_free hdone
  have hshared := hinv.serial.free hlock
  rw [if_pos hended] at hshared
  refine ⟨order, hinv.serial.once, fun t => (hinv.serial.had t).mpr (hdone t), n, ?_⟩
  intro n' hle s
  obtain ⟨k, rfl⟩ := Nat.exists_eq_add_of_le hle
  have hstays : s = l.machine.follow (l.start s0) sched n := by
    change l.machine.follow _ _ (n + k) = _
    rw [Machine.follow_add]
    apply l.machine.run_invariant_all (P := fun s => s = l.machine.follow (l.start s0) sched n) _ _ rfl
    rintro _ turn rfl
    exact hinv.ended_stays hended turn
  rw [hstays]
  exact ⟨hended, hlock, hshared⟩

end Runs

end Locked

end OSLab.Base
