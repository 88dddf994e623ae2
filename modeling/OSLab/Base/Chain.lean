import Mathlib.Algebra.BigOperators.Group.Finset.Basic
import Mathlib.Algebra.Order.BigOperators.Group.Finset
import Mathlib.Data.List.Infix

/-!
# Programs in a chain

Programs that read a stream and write a stream, first each one alone on a
finished input, then in a chain of channels where all of them run at the same
time. The chain writes what the programs compute one after the other.
-/

namespace OSLab.Base
open Function

/-- What a program does next; it reads `none` at the end of its input. -/
inductive Action (π α : Type*) where
  | read (next : Option α → π)
  | write (a : α) (next : π)
  | exit

variable {π α : Type*}

/-! ### One program alone -/

/-- A program with what it has still to read and what it has written. -/
structure Solo (π α : Type*) where
  prog : π
  input : List α
  output : List α

namespace Solo

def step (act : π → Action π α) (s : Solo π α) : Solo π α :=
  match act s.prog with
  | .exit => s
  | .write a next => { s with prog := next, output := s.output ++ [a] }
  | .read next =>
    match s.input with
    | [] => { s with prog := next none }
    | a :: rest => { s with prog := next (some a), input := rest }

/-- Within `m` steps the program exits and has then written `out`. -/
def Ends (act : π → Action π α) : ℕ → Solo π α → List α → Prop
  | 0, s, out => act s.prog = .exit ∧ s.output = out
  | m + 1, s, out => Ends act m (s.step act) out

variable {act : π → Action π α} {s : Solo π α}

theorem step_exit (h : act s.prog = .exit) : s.step act = s := by
  simp only [step, h]

theorem step_write {a : α} {next : π} (h : act s.prog = .write a next) :
    s.step act = ⟨next, s.input, s.output ++ [a]⟩ := by
  simp only [step, h]

theorem step_read {next : Option α → π} (h : act s.prog = .read next) :
    s.step act = ⟨next s.input.head?, s.input.tail, s.output⟩ := by
  cases hin : s.input with
  | nil => simp only [step, h, hin, List.head?_nil, List.tail_nil]
  | cons a rest => simp only [step, h, hin, List.head?_cons, List.tail_cons]

theorem Ends.of_exit {m : ℕ} {out : List α} (h : Ends act m s out) (hexit : act s.prog = .exit) :
    s.output = out := by
  induction m with
  | zero => exact h.2
  | succ m ih =>
    unfold Ends at h
    rw [step_exit hexit] at h
    exact ih h

/-- A program that goes on has a step less to go. -/
theorem Ends.of_step {m : ℕ} {out : List α} (h : Ends act m s out) (hgoes : act s.prog ≠ .exit) :
    ∃ m', m' < m ∧ Ends act m' (s.step act) out := by
  cases m with
  | zero => exact absurd h.1 hgoes
  | succ m => exact ⟨m, m.lt_succ_self, h⟩

theorem Ends.output_begins {m : ℕ} {out : List α} (h : Ends act m s out) : s.output <+: out := by
  induction m generalizing s with
  | zero =>
    rw [h.2]
  | succ m ih =>
    refine List.IsPrefix.trans ?_ (ih h)
    cases hact : act s.prog with
    | exit =>
      rw [step_exit hact]
    | write a next =>
      rw [step_write hact]
      exact List.prefix_append ..
    | read next =>
      rw [step_read hact]

end Solo

/-- The program ends on this input, and has then written this output. -/
def Computes (act : π → Action π α) (p : π) (input output : List α) : Prop :=
  ∃ m, Solo.Ends act m ⟨p, input, []⟩ output

/-- The programs one after the other, each of them on the whole output of the one before. -/
def ComputesAll (act : π → Action π α) : List π → List α → List α → Prop
  | [], input, output => output = input
  | p :: ps, input, output => ∃ mid, Computes act p input mid ∧ ComputesAll act ps mid output

/-- The streams between the programs, with the steps that each of them takes. -/
theorem ComputesAll.streams {act : π → Action π α} {ps : List π} {input output : List α}
    (h : ComputesAll act ps input output) : ∃ (ys : ℕ → List α) (steps : ℕ → ℕ),
      ys 0 = input ∧ ys ps.length = output ∧
      ∀ k p, ps[k]? = some p → Solo.Ends act (steps k) ⟨p, ys k, []⟩ (ys (k + 1)) := by
  induction ps generalizing input with
  | nil =>
    refine ⟨fun _ => input, fun _ => 0, rfl, h.symm, ?_⟩
    intro k p hp
    cases hp
  | cons p ps ih =>
    obtain ⟨mid, ⟨m, hm⟩, hrest⟩ := h
    obtain ⟨ys, steps, h0, hlast, hends⟩ := ih hrest
    refine ⟨fun k => k.casesOn input ys, fun k => k.casesOn m steps, rfl, hlast, ?_⟩
    intro k p' hp
    cases k with
    | zero =>
      obtain rfl := Option.some.inj hp
      change Solo.Ends act m ⟨p, input, []⟩ (ys 0)
      rw [h0]
      exact hm
    | succ k => exact hends k p' hp

/-! ### The chain -/

/-- `stage k` is the program of stage `k`, or nothing when it has ended; `chan k` is what has been
written for stage `k` and not been read, so that behind the last stage it is the output. -/
structure Chain (π α : Type*) where
  stage : ℕ → Option π
  chan : ℕ → List α

namespace Chain

/-- A step of one of `n` stages. A stage sees the end of its input when the stage before it has ended,
and may be ended when the stage behind it has ended. -/
inductive Step (act : π → Action π α) (n : ℕ) (c : Chain π α) : Chain π α → Prop where
  | read {k : ℕ} {p : π} {next : Option α → π} {a : α} {rest : List α} (hk : k < n)
      (hp : c.stage k = some p) (hact : act p = .read next) (hin : c.chan k = a :: rest) :
      Step act n c ⟨update c.stage k (some (next (some a))), update c.chan k rest⟩
  | eof {k : ℕ} {p : π} {next : Option α → π} (hk : k < n)
      (hp : c.stage k = some p) (hact : act p = .read next) (hin : c.chan k = [])
      (hend : ∀ j, j + 1 = k → c.stage j = none) :
      Step act n c ⟨update c.stage k (some (next none)), c.chan⟩
  | write {k : ℕ} {p next : π} {a : α} (hk : k < n)
      (hp : c.stage k = some p) (hact : act p = .write a next) :
      Step act n c ⟨update c.stage k (some next), update c.chan (k + 1) (c.chan (k + 1) ++ [a])⟩
  | broken {k : ℕ} {p next : π} {a : α} (hk : k + 1 < n)
      (hp : c.stage k = some p) (hact : act p = .write a next) (hend : c.stage (k + 1) = none) :
      Step act n c ⟨update c.stage k none, c.chan⟩
  | exit {k : ℕ} {p : π} (hk : k < n) (hp : c.stage k = some p) (hact : act p = .exit) :
      Step act n c ⟨update c.stage k none, c.chan⟩

/-- Stage `k` can take a step when the channels hold `cap` elements. -/
def Ready (act : π → Action π α) (n cap : ℕ) (c : Chain π α) (k : ℕ) : Prop :=
  ∃ p, c.stage k = some p ∧
    match act p with
    | .exit => True
    | .read _ => c.chan k ≠ [] ∨ ∀ j, j + 1 = k → c.stage j = none
    | .write _ _ => k + 1 = n ∨ c.stage (k + 1) = none ∨ (c.chan (k + 1)).length < cap

/-- What stage `k` has been given up to now. -/
def fed (ys : ℕ → List α) (S : ℕ → Solo π α) : ℕ → List α
  | 0 => ys 0
  | k + 1 => (S k).output

/-- The chain against its stages run alone: `S k` is what stage `k` has come to on its whole input
`ys k`, in `rem k` steps from its end. -/
structure Sim (act : π → Action π α) (n : ℕ) (ys : ℕ → List α) (S : ℕ → Solo π α) (rem : ℕ → ℕ)
    (c : Chain π α) : Prop where
  ends : ∀ k, k < n → Solo.Ends act (rem k) (S k) (ys (k + 1))
  input : ∀ k, k < n → ∃ rest, fed ys S k ++ rest = ys k ∧ (S k).input = c.chan k ++ rest
  output : c.chan n = fed ys S n
  prog : ∀ k p, k < n → c.stage k = some p → (S k).prog = p
  ended : ∀ k, k < n → c.stage k = none →
    act (S k).prog = .exit ∨ (k + 1 < n ∧ c.stage (k + 1) = none)

/-- The steps that are left: those of the programs and the end of each stage that has not ended. -/
def left (n : ℕ) (rem : ℕ → ℕ) (stage : ℕ → Option π) : ℕ :=
  ∑ k ∈ Finset.range n, (rem k + (stage k).toList.length)

/-- The invariant, with a bound for the steps to come. -/
def Inv (act : π → Action π α) (n : ℕ) (ys : ℕ → List α) (m : ℕ) (c : Chain π α) : Prop :=
  ∃ S rem, Sim act n ys S rem c ∧ left n rem c.stage = m

def start (prog : ℕ → π) (input : List α) : Chain π α :=
  ⟨fun k => some (prog k), fun k => if k = 0 then input else []⟩

variable {act : π → Action π α} {n : ℕ} {ys : ℕ → List α} {S : ℕ → Solo π α} {rem : ℕ → ℕ}
  {c : Chain π α}

theorem left_lt {rem' : ℕ → ℕ} {stage stage' : ℕ → Option π} {k : ℕ} (hk : k < n)
    (hother : ∀ j, j ≠ k → rem' j = rem j ∧ stage' j = stage j)
    (hlt : rem' k + (stage' k).toList.length < rem k + (stage k).toList.length) :
    left n rem' stage' < left n rem stage := by
  apply Finset.sum_lt_sum
  · intro j _
    by_cases hj : j = k
    · subst hj
      exact hlt.le
    · obtain ⟨hr, hs⟩ := hother j hj
      rw [hr, hs]
  · exact ⟨k, Finset.mem_range.mpr hk, hlt⟩

theorem fed_update_other {k j : ℕ} (s : Solo π α) (h : j ≠ k + 1) :
    fed ys (update S k s) j = fed ys S j := by
  cases j with
  | zero => rfl
  | succ j =>
    have hne : j ≠ k := by omega
    simp only [fed, update_of_ne hne]

theorem fed_update_same (k : ℕ) (s : Solo π α) : fed ys (update S k s) (k + 1) = s.output := by
  simp only [fed, update_self]

/-- What a stage has been given is the beginning of what it will be given. -/
theorem Sim.fed_begins (h : Sim act n ys S rem c) {k : ℕ} (hk : k ≤ n) : fed ys S k <+: ys k := by
  cases k with
  | zero => exact List.prefix_rfl
  | succ k => exact (h.ends k hk).output_begins

/-- A stage that has ended while the one behind it goes on has written all of its output. -/
theorem Sim.fed_all (h : Sim act n ys S rem c) {k : ℕ} (hk : k < n) (hend : c.stage k = none)
    (hgoes : k + 1 < n → c.stage (k + 1) ≠ none) : fed ys S (k + 1) = ys (k + 1) := by
  rcases h.ended k hk hend with hexit | ⟨hlt, hnone⟩
  · exact (h.ends k hk).of_exit hexit
  · exact absurd hnone (hgoes hlt)

/-- A step of stage `k` that is a step of its program: the channel to it may get shorter as its input
does, and the one behind it longer as its output does. -/
theorem Sim.advance (h : Sim act n ys S rem c) {k : ℕ} {p : π} (p' : π) (chan : ℕ → List α) {s : Solo π α}
    (hk : k < n) (hp : c.stage k = some p) (hgoes : act p ≠ .exit) (hs : (S k).step act = s)
    (hprog : s.prog = p')
    (hin : ∀ rest, (S k).input = c.chan k ++ rest → fed ys S k ++ rest = ys k →
      s.input = chan k ++ rest)
    (hout : ∀ out, s.output = (S k).output ++ out → chan (k + 1) = c.chan (k + 1) ++ out)
    (hgrows : ∃ out, s.output = (S k).output ++ out)
    (hother : ∀ j, j ≠ k → j ≠ k + 1 → chan j = c.chan j) :
    ∃ rem', Sim act n ys (update S k s) rem' ⟨update c.stage k (some p'), chan⟩ ∧
      left n rem' (update c.stage k (some p')) < left n rem c.stage := by
  have hact : act (S k).prog ≠ .exit := by
    rw [h.prog k p hk hp]
    exact hgoes
  obtain ⟨m', hlt, hends⟩ := (h.ends k hk).of_step hact
  rw [hs] at hends
  obtain ⟨out, hgrow⟩ := hgrows
  have hchan := hout out hgrow
  refine ⟨update rem k m', ⟨?_, ?_, ?_, ?_, ?_⟩, ?_⟩
  · intro j hj
    by_cases hjk : j = k
    · subst hjk
      rw [update_self, update_self]
      exact hends
    · rw [update_of_ne hjk, update_of_ne hjk]
      exact h.ends j hj
  · intro j hj
    by_cases hjk : j = k
    · subst hjk
      obtain ⟨rest, hfed, hinput⟩ := h.input j hj
      refine ⟨rest, ?_, ?_⟩
      · rw [fed_update_other _ (by omega)]
        exact hfed
      · rw [update_self]
        exact hin rest hinput hfed
    · rw [update_of_ne hjk]
      by_cases hjk' : j = k + 1
      · -- what is written comes off what the stage behind has still to be given
        subst hjk'
        obtain ⟨rest, hfed, hinput⟩ := h.input (k + 1) hj
        obtain ⟨rest', hrest'⟩ := hends.output_begins
        have hsplit : rest = out ++ rest' := by
          have heq : (S k).output ++ rest = (S k).output ++ (out ++ rest') := by
            rw [← List.append_assoc, ← hgrow, hrest']
            exact hfed
          exact List.append_cancel_left heq
        refine ⟨rest', ?_, ?_⟩
        · rw [fed_update_same]
          exact hrest'
        · change _ = chan (k + 1) ++ rest'
          rw [hchan, hinput, hsplit, List.append_assoc]
      · rw [fed_update_other _ hjk']
        change ∃ rest, _ ∧ _ = chan j ++ rest
        rw [hother j hjk hjk']
        exact h.input j hj
  · change chan n = _
    by_cases hn : n = k + 1
    · subst hn
      rw [hchan, fed_update_same, hgrow, h.output]
      rfl
    · rw [fed_update_other _ hn, hother n (by omega) hn]
      exact h.output
  · intro j q hj hq
    by_cases hjk : j = k
    · subst hjk
      have hq' : (update c.stage j (some p')) j = some q := hq
      rw [update_self] at hq'
      rw [update_self, hprog]
      exact Option.some.inj hq'
    · rw [update_of_ne hjk]
      refine h.prog j q hj ?_
      have hq' : (update c.stage k (some p')) j = some q := hq
      rwa [update_of_ne hjk] at hq'
  · intro j hj hnone
    have hnone' : (update c.stage k (some p')) j = none := hnone
    by_cases hjk : j = k
    · subst hjk
      rw [update_self] at hnone'
      cases hnone'
    · rw [update_of_ne hjk] at hnone'
      rw [update_of_ne hjk]
      refine (h.ended j hj hnone').imp_right ?_
      intro ⟨hlt', hdead⟩
      have hne : j + 1 ≠ k := by
        rintro rfl
        rw [hp] at hdead
        cases hdead
      refine ⟨hlt', ?_⟩
      change (update c.stage k (some p')) (j + 1) = none
      rw [update_of_ne hne]
      exact hdead
  · apply left_lt hk
    · intro j hj
      exact ⟨update_of_ne hj .., update_of_ne hj ..⟩
    · rw [update_self, update_self, hp, Option.toList_some, Option.toList_some]
      exact Nat.add_lt_add_right hlt _

/-- A stage that ends by itself, or because the one behind it has ended. -/
theorem Sim.stop (h : Sim act n ys S rem c) {k : ℕ} {p : π} (hk : k < n) (hp : c.stage k = some p)
    (hwhy : act p = .exit ∨ (k + 1 < n ∧ c.stage (k + 1) = none)) :
    Sim act n ys S rem ⟨update c.stage k none, c.chan⟩ ∧
      left n rem (update c.stage k none) < left n rem c.stage := by
  refine ⟨⟨h.ends, h.input, h.output, ?_, ?_⟩, ?_⟩
  · intro j q hj hq
    have hq' : (update c.stage k none) j = some q := hq
    by_cases hjk : j = k
    · subst hjk
      rw [update_self] at hq'
      cases hq'
    · rw [update_of_ne hjk] at hq'
      exact h.prog j q hj hq'
  · intro j hj hnone
    have hnone' : (update c.stage k none) j = none := hnone
    have hkept {i : ℕ} (hi : c.stage i = none) : (update c.stage k none) i = none := by
      by_cases hik : i = k
      · rw [hik]
        exact update_self ..
      · rw [update_of_ne hik]
        exact hi
    by_cases hjk : j = k
    · subst hjk
      rw [h.prog j p hj hp]
      exact hwhy.imp_right fun hd => ⟨hd.1, hkept hd.2⟩
    · rw [update_of_ne hjk] at hnone'
      exact (h.ended j hj hnone').imp_right fun hd => ⟨hd.1, hkept hd.2⟩
  · apply left_lt hk
    · intro j hj
      exact ⟨rfl, update_of_ne hj ..⟩
    · rw [update_self, hp, Option.toList_some, Option.toList_none]
      exact Nat.add_lt_add_left Nat.zero_lt_one _

/-- Every step of a chain keeps the invariant and uses up a step. -/
theorem Inv.step {m : ℕ} {c' : Chain π α} (h : Inv act n ys m c) (hstep : Step act n c c') :
    ∃ m', m' < m ∧ Inv act n ys m' c' := by
  obtain ⟨S, rem, hsim, rfl⟩ := h
  have hprog {k : ℕ} {p : π} (hk : k < n) (hp : c.stage k = some p) : act (S k).prog = act p :=
    congrArg act (hsim.prog k p hk hp)
  cases hstep with
  | @read k p next a rest hk hp hact hin =>
    have hs := Solo.step_read ((hprog hk hp).trans hact)
    obtain ⟨rest', -, hinput⟩ := hsim.input k hk
    rw [hin, List.cons_append] at hinput
    rw [hinput, List.head?_cons, List.tail_cons] at hs
    obtain ⟨rem', hsim', hlt⟩ := hsim.advance (next (some a)) (update c.chan k rest)
      hk hp (by simp only [hact, ne_eq, reduceCtorEq, not_false_eq_true]) hs rfl
      (by
        intro r hr _
        rw [hin, List.cons_append, hinput] at hr
        rw [update_self]
        exact (List.cons.inj hr).2)
      (by
        intro out hout
        rw [List.self_eq_append_right.mp hout, List.append_nil]
        exact update_of_ne (by omega) ..)
      ⟨[], (List.append_nil _).symm⟩ (fun j hj _ => update_of_ne hj ..)
    exact ⟨_, hlt, _, rem', hsim', rfl⟩
  | @eof k p next hk hp hact hin hend =>
    have hs := Solo.step_read ((hprog hk hp).trans hact)
    -- the stage before has written everything, so nothing is left to be given
    have hall : fed ys S k = ys k := by
      cases k with
      | zero => rfl
      | succ j =>
        refine hsim.fed_all (by omega) (hend j rfl) ?_
        intro _ hnone
        rw [hp] at hnone
        cases hnone
    have hnil {rest : List α} (hr : fed ys S k ++ rest = ys k) : rest = [] := by
      rw [hall] at hr
      exact List.append_right_eq_self.mp hr
    obtain ⟨rest, hfed, hinput⟩ := hsim.input k hk
    rw [hnil hfed, hin, List.append_nil] at hinput
    rw [hinput, List.head?_nil, List.tail_nil] at hs
    obtain ⟨rem', hsim', hlt⟩ := hsim.advance (next none) c.chan
      hk hp (by simp only [hact, ne_eq, reduceCtorEq, not_false_eq_true]) hs rfl
      (by
        intro r _ hr
        rw [hnil hr, hin]
        rfl)
      (by
        intro out hout
        rw [List.self_eq_append_right.mp hout, List.append_nil])
      ⟨[], (List.append_nil _).symm⟩ (fun _ _ _ => rfl)
    exact ⟨_, hlt, _, rem', hsim', rfl⟩
  | @write k p next a hk hp hact =>
    have hs := Solo.step_write ((hprog hk hp).trans hact)
    obtain ⟨rem', hsim', hlt⟩ := hsim.advance next
      (update c.chan (k + 1) (c.chan (k + 1) ++ [a]))
      hk hp (by simp only [hact, ne_eq, reduceCtorEq, not_false_eq_true]) hs rfl
      (by
        intro r hr _
        rw [update_of_ne (by omega)]
        exact hr)
      (by
        intro out hout
        rw [update_self, List.append_cancel_left hout])
      ⟨[a], rfl⟩ (fun j _ hj => update_of_ne hj ..)
    exact ⟨_, hlt, _, rem', hsim', rfl⟩
  | @broken k p next a hk hp hact hend =>
    obtain ⟨hsim', hlt⟩ := hsim.stop (by omega) hp (.inr ⟨hk, hend⟩)
    exact ⟨_, hlt, S, rem, hsim', rfl⟩
  | @exit k p hk hp hact =>
    obtain ⟨hsim', hlt⟩ := hsim.stop hk hp (.inl hact)
    exact ⟨_, hlt, S, rem, hsim', rfl⟩

theorem inv_start {prog : ℕ → π} {steps : ℕ → ℕ}
    (hends : ∀ k, k < n → Solo.Ends act (steps k) ⟨prog k, ys k, []⟩ (ys (k + 1))) :
    ∃ m, Inv act n ys m (start prog (ys 0)) := by
  refine ⟨_, fun k => ⟨prog k, ys k, []⟩, steps, ⟨hends, ?_, ?_, ?_, ?_⟩, rfl⟩
  · intro k _
    cases k with
    | zero => exact ⟨[], List.append_nil _, (List.append_nil _).symm⟩
    | succ k => exact ⟨ys (k + 1), rfl, rfl⟩
  · cases n with
    | zero => rfl
    | succ n => rfl
  · intro k p _ hp
    exact Option.some.inj hp
  · intro k _ hnone
    cases hnone

/-- At every moment the chain has written a beginning of the output. -/
theorem Inv.output_begins {m : ℕ} (h : Inv act n ys m c) : c.chan n <+: ys n := by
  obtain ⟨S, rem, hsim, -⟩ := h
  rw [hsim.output]
  exact hsim.fed_begins (Nat.le_refl n)

/-- When the last stage has ended, the chain has written all of it. -/
theorem Inv.output_all {m k : ℕ} (h : Inv act n ys m c) (hk : k + 1 = n) (hend : c.stage k = none) :
    c.chan n = ys n := by
  obtain ⟨S, rem, hsim, -⟩ := h
  rw [hsim.output]
  subst hk
  exact hsim.fed_all k.lt_succ_self hend fun hlt => absurd hlt (Nat.lt_irrefl _)

/-- A stage that need not wait when it writes is ready, or waits for a stage before it that is. -/
theorem exists_ready_le {cap k : ℕ} {p : π} (hcap : 0 < cap) (hp : c.stage k = some p)
    (hroom : k + 1 = n ∨ c.stage (k + 1) = none ∨ (c.chan (k + 1)).length < cap) :
    ∃ j, j ≤ k ∧ Ready act n cap c j := by
  induction k generalizing p with
  | zero =>
    refine ⟨0, Nat.le_refl 0, p, hp, ?_⟩
    cases act p with
    | exit => trivial
    | write a next => exact hroom
    | read next => exact .inr fun j hj => absurd hj (Nat.succ_ne_zero j)
  | succ k ih =>
    cases hact : act p with
    | exit => exact ⟨k + 1, Nat.le_refl _, p, hp, by simp only [hact]⟩
    | write a next => exact ⟨k + 1, Nat.le_refl _, p, hp, by simpa only [hact] using hroom⟩
    | read next =>
      by_cases hempty : c.chan (k + 1) = []
      · cases hprev : c.stage k with
        | none =>
          refine ⟨k + 1, Nat.le_refl _, p, hp, ?_⟩
          simp only [hact]
          right
          intro j hj
          rw [Nat.succ.inj hj]
          exact hprev
        | some q =>
          obtain ⟨j, hj, hready⟩ := ih hprev (.inr (.inr (by
            rw [hempty]
            exact hcap)))
          exact ⟨j, hj.trans k.le_succ, hready⟩
      · refine ⟨k + 1, Nat.le_refl _, p, hp, ?_⟩
        simp only [hact]
        exact .inl hempty

/-- A chain does not deadlock: as long as some stage has not ended, some stage can take a step. -/
theorem exists_ready {cap k : ℕ} {p : π} (hcap : 0 < cap) (hk : k < n) (hp : c.stage k = some p) :
    ∃ j, j < n ∧ Ready act n cap c j := by
  -- the last of the stages that have not ended
  have hlast : ∃ l q, l < n ∧ c.stage l = some q ∧ (l + 1 = n ∨ c.stage (l + 1) = none) := by
    obtain ⟨d, hd⟩ := Nat.exists_eq_add_of_lt hk
    induction d generalizing k p with
    | zero => exact ⟨k, p, hk, hp, .inl hd.symm⟩
    | succ d ih =>
      cases hnext : c.stage (k + 1) with
      | none => exact ⟨k, p, hk, hp, .inr hnext⟩
      | some q => exact ih (by omega) hnext (by omega)
  obtain ⟨l, q, hl, hq, hroom⟩ := hlast
  obtain ⟨j, hj, hready⟩ := exists_ready_le (n := n) hcap hq (by
    rcases hroom with heq | hnone
    · exact .inl heq
    · exact .inr (.inl hnone))
  exact ⟨j, by omega, hready⟩

end Chain

end OSLab.Base
