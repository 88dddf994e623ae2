import Mathlib.Data.Prod.Lex
import OSLab.Base.Fairness
import OSLab.Threads.SpinLock

/-!
# The threads of the exchange lock come to their end

A thread may spin for as long as another one holds the lock, so not every step
counts. But the holder gets on in its turn, and a free lock is taken by the
thread that comes next; so a fair schedule ends all threads.
-/

namespace OSLab.SpinLock
open OSLab.Base

/-- What a thread has left to do, without the instructions it spins on. -/
def Cpu.left (iterations : ℕ) (c : Cpu) : ℕ :=
  match c.pc with
  | .loopTest => 10 * (iterations - c.i) + 9
  | .lockMov => 10 * (iterations - c.i) + 8
  | .lockXchg => 10 * (iterations - c.i) + 8
  | .lockTest => 10 * (iterations - c.i) + if c.eax = UNLOCK then 7 else 8
  | .lockJz => 10 * (iterations - c.i) + if c.zf then 8 else 6
  | .load => 10 * (iterations - c.i) + 5
  | .add => 10 * (iterations - c.i) + 4
  | .store => 10 * (iterations - c.i) + 3
  | .unlockMov => 10 * (iterations - c.i) + 2
  | .unlockXchg => 10 * (iterations - c.i) + 1
  | .loopIncr => 10 * (iterations - c.i)
  | .done => 0

/-- The instructions up to the next exchange. -/
def Cpu.toXchg (c : Cpu) : ℕ :=
  match c.pc with
  | .lockTest => 3
  | .lockJz => 2
  | .lockMov => 1
  | _ => 0

variable {n iterations : ℕ} {s : State n}

/-- What an instruction does to the registers `c` of its thread: it gets on, or spins. Then it comes
nearer to its exchange, unless it has found the lock taken there. -/
inductive Instr (iterations : ℕ) (lock : Word) (c c' : Cpu) : Prop where
  | ends (h : c.pc = .done)
  | gets (h : c'.left iterations < c.left iterations)
  | spins (hleft : c'.left iterations = c.left iterations) (hfree : ¬ c.Holds ∧ ¬ c'.Holds)
      (hnear : lock = LOCK ∨ c'.toXchg < c.toXchg)

theorem exec_other (iterations : ℕ) (s : State n) {t u : Fin n} (h : u ≠ t) :
    (exec iterations s t).cpu u = s.cpu u := by
  unfold exec
  dsimp only
  split
  all_goals first | exact setCpu_ne _ _ h | rfl

theorem exec_done {t : Fin n} (h : (s.cpu t).pc = .done) : exec iterations s t = s := by
  unfold exec
  dsimp only
  rw [h]

theorem Owned.instr {owner : Option (Fin n)} (h : Owned iterations s owner) (t : Fin n) :
    Instr iterations s.lock (s.cpu t) ((SpinLock.exec iterations s t).cpu t) := by
  have hregs := h.regs t
  have hpass := h.passes t
  have hlock := h.lock
  unfold SpinLock.exec
  generalize s.cpu t = c at hregs hpass
  obtain ⟨pc, eax, zf, i⟩ := c
  cases pc with
  | loopTest =>
    dsimp only
    rw [setCpu_same]
    apply Instr.gets
    split
    · simp only [Cpu.left]
      omega
    · exact Nat.succ_pos _
  | lockMov =>
    dsimp only
    rw [setCpu_same]
    exact .spins rfl ⟨id, id⟩ (.inr Nat.zero_lt_one)
  | lockXchg =>
    dsimp only
    rw [setCpu_same]
    cases owner with
    | none =>
      have hfree : s.lock = UNLOCK := hlock
      apply Instr.gets
      simp only [Cpu.left, hfree, ite_true]
      omega
    | some o =>
      have htaken : s.lock = LOCK := hlock
      have hne : ¬ LOCK = UNLOCK := lock_ne_unlock
      refine .spins ?_ ⟨id, ?_⟩ (.inl htaken)
      · simp only [Cpu.left, htaken, hne, ite_false]
      · simp only [Cpu.Holds, htaken]
        exact hne
  | lockTest =>
    dsimp only
    rw [setCpu_same]
    rcases hregs with he | he
    · obtain rfl : eax = LOCK := he
      have hne : ¬ LOCK = UNLOCK := lock_ne_unlock
      have hzf : (LOCK &&& LOCK == 0) = true := by decide
      refine .spins ?_ ⟨hne, ?_⟩ (.inr (Nat.lt_succ_self 2))
      · simp only [Cpu.left, hzf, hne, ite_true, ite_false]
      · simp only [Cpu.Holds, hzf, Bool.true_eq_false, not_false_eq_true]
    · obtain rfl : eax = UNLOCK := he
      have hzf : (UNLOCK &&& UNLOCK == 0) = false := by decide
      apply Instr.gets
      simp only [Cpu.left, hzf, Bool.false_eq_true, ite_true, ite_false]
      omega
  | lockJz =>
    dsimp only
    rw [setCpu_same]
    cases zf with
    | true => exact .spins rfl ⟨by rintro ⟨⟩, id⟩ (.inr (Nat.lt_succ_self 1))
    | false => exact .gets (Nat.lt_succ_self _)
  | load =>
    dsimp only
    rw [setCpu_same]
    exact .gets (Nat.lt_succ_self _)
  | add =>
    dsimp only
    rw [setCpu_same]
    exact .gets (Nat.lt_succ_self _)
  | store =>
    dsimp only
    rw [setCpu_same]
    exact .gets (Nat.lt_succ_self _)
  | unlockMov =>
    dsimp only
    rw [setCpu_same]
    exact .gets (Nat.lt_succ_self _)
  | unlockXchg =>
    dsimp only
    rw [setCpu_same]
    exact .gets (Nat.lt_succ_self _)
  | loopIncr =>
    have hlt : i < iterations := hpass
    dsimp only
    rw [setCpu_same]
    apply Instr.gets
    simp only [Cpu.left]
    omega
  | done => exact .ends rfl

/-! ### The measure -/

/- Spinning counts only while the lock is free. -/
def State.left (iterations : ℕ) (s : State n) (owner : Option (Fin n)) : ℕ ×ₗ ℕ :=
  toLex (∑ t, (s.cpu t).left iterations, match owner with
    | none => ∑ t, (s.cpu t).toXchg
    | some _ => 0)

/-- The threads with `k` left to do. -/
def Underway (iterations : ℕ) (k : ℕ ×ₗ ℕ) (s : State n) : Prop :=
  ∃ owner, Owned iterations s owner ∧ s.left iterations owner = k

/-- Thread `t` gets on in its turn: it holds the lock, or the lock is free. -/
def Helps (iterations : ℕ) (t : Fin n) (k : ℕ ×ₗ ℕ) (s : State n) : Prop :=
  ∃ owner, Owned iterations s owner ∧ s.left iterations owner = k ∧ (s.cpu t).pc ≠ .done ∧
    (owner = some t ∨ owner = none)

theorem sum_exec (iterations : ℕ) (s : State n) (t : Fin n) (f : Cpu → ℕ) :
    (∑ u, f ((exec iterations s t).cpu u)) + f (s.cpu t) =
      (∑ u, f (s.cpu u)) + f ((exec iterations s t).cpu t) := by
  have hnew := Finset.add_sum_erase Finset.univ (fun u => f ((exec iterations s t).cpu u))
    (Finset.mem_univ t)
  have hold := Finset.add_sum_erase Finset.univ (fun u => f (s.cpu u)) (Finset.mem_univ t)
  have hrest : ∑ u ∈ Finset.univ.erase t, f ((exec iterations s t).cpu u) =
      ∑ u ∈ Finset.univ.erase t, f (s.cpu u) :=
    Finset.sum_congr rfl fun u hu => by rw [exec_other iterations s (Finset.ne_of_mem_erase hu)]
  omega

/-- A thread that neither holds the lock before its instruction nor after it changes no owner. -/
theorem owner_kept {owner owner' : Option (Fin n)} {t : Fin n} (h : Owned iterations s owner)
    (h' : Owned iterations (exec iterations s t) owner')
    (hsame : (s.cpu t).Holds ↔ ((exec iterations s t).cpu t).Holds) : owner' = owner := by
  have hiff (u : Fin n) : owner' = some u ↔ owner = some u := by
    rw [← h.holder u, ← h'.holder u]
    by_cases hu : u = t
    · subst hu
      exact hsame.symm
    · rw [exec_other iterations s hu]
  cases owner with
  | none =>
    cases owner' with
    | none => rfl
    | some u => exact absurd ((hiff u).mp rfl) (by rintro ⟨⟩)
  | some u => exact (hiff u).mpr rfl

/-- All that an instruction does to the measure: with nothing left to the thread it changes nothing,
it makes the measure less, or it spins on a lock that is taken. -/
theorem Owned.next_left {owner : Option (Fin n)} (h : Owned iterations s owner) (t : Fin n) :
    (s.cpu t).pc = .done ∨
    (∃ k, k < s.left iterations owner ∧ Underway iterations k (SpinLock.exec iterations s t)) ∨
    owner ≠ none ∧ owner ≠ some t ∧ Owned iterations (SpinLock.exec iterations s t) owner ∧
      (SpinLock.exec iterations s t).left iterations owner = s.left iterations owner := by
  obtain ⟨owner', h'⟩ := h.exec t
  have hsum := sum_exec iterations s t (Cpu.left iterations)
  cases h.instr t with
  | ends hdone => exact .inl hdone
  | gets hlt =>
    right
    left
    refine ⟨_, ?_, owner', h', rfl⟩
    exact Prod.Lex.toLex_lt_toLex.mpr (.inl (by omega))
  | spins hleft hfree hnear =>
    right
    obtain rfl := owner_kept h h' (iff_of_false hfree.1 hfree.2)
    have hsame : ∑ u, ((SpinLock.exec iterations s t).cpu u).left iterations =
        ∑ u, (s.cpu u).left iterations := by omega
    cases owner' with
    | none =>
      left
      have hlock : s.lock = UNLOCK := h.lock
      have hlt := hnear.resolve_left fun htaken => lock_ne_unlock (htaken.symm.trans hlock)
      have hxchg := sum_exec iterations s t Cpu.toXchg
      refine ⟨_, ?_, none, h', rfl⟩
      exact Prod.Lex.toLex_lt_toLex.mpr (.inr ⟨hsame, by dsimp only; omega⟩)
    | some o =>
      right
      refine ⟨by rintro ⟨⟩, ?_, h', ?_⟩
      · intro howner
        exact hfree.1 ((h.holder t).mpr howner)
      · simp only [State.left, hsame]

/-! ### Fair schedules -/

theorem next_exec (s : State n) (t : Fin n) :
    (threads n iterations).next s t = exec iterations s t := rfl

theorem next_underway (k : ℕ ×ₗ ℕ) (s : State n) (t : Fin n) (h : Underway iterations k s) :
    ∃ k', k' ≤ k ∧ Underway iterations k' ((threads n iterations).next s t) := by
  obtain ⟨owner, howned, rfl⟩ := h
  rw [next_exec]
  rcases howned.next_left t with hdone | ⟨k', hlt, hk'⟩ | ⟨-, -, howned', hsame⟩
  · rw [exec_done hdone]
    exact ⟨_, le_refl _, owner, howned, rfl⟩
  · exact ⟨k', hlt.le, hk'⟩
  · exact ⟨_, le_refl _, owner, howned', hsame⟩

theorem next_helps (k : ℕ ×ₗ ℕ) (s : State n) (t u : Fin n) (h : Helps iterations t k s) :
    (∃ k', k' < k ∧ Underway iterations k' ((threads n iterations).next s u)) ∨
      u ≠ t ∧ Helps iterations t k ((threads n iterations).next s u) := by
  obtain ⟨owner, howned, rfl, hopen, howner⟩ := h
  rw [next_exec]
  rcases howned.next_left u with hdone | hless | ⟨htaken, hother, howned', hsame⟩
  · right
    have hu : u ≠ t := by
      rintro rfl
      exact hopen hdone
    rw [exec_done hdone]
    exact ⟨hu, owner, howned, rfl, hopen, howner⟩
  · exact .inl hless
  · right
    have hu : u ≠ t := by
      rintro rfl
      exact hother (howner.resolve_right htaken)
    refine ⟨hu, owner, howned', hsame, ?_, howner⟩
    rw [exec_other iterations s hu.symm]
    exact hopen

theorem exists_helps (k : ℕ ×ₗ ℕ) (s : State n) (h : Underway iterations k s)
    (hopen : ¬ ∀ t, (s.cpu t).pc = .done) : ∃ t ∈ Set.univ, Helps iterations t k s := by
  obtain ⟨owner, howned, rfl⟩ := h
  cases owner with
  | none =>
    obtain ⟨t, ht⟩ := not_forall.mp hopen
    exact ⟨t, Set.mem_univ t, none, howned, rfl, ht, .inr rfl⟩
  | some o =>
    have hholds := (howned.holder o).mpr rfl
    refine ⟨o, Set.mem_univ o, some o, howned, rfl, ?_, .inl rfl⟩
    intro hdone
    simp only [Cpu.Holds, hdone] at hholds

/-- Under every fair schedule all threads end, with every increment in `a` and the lock free. -/
theorem threads_end (h : Initial s) {sched : ℕ → Fin n} (hfair : Fair Set.univ sched) :
    ∃ m, ∀ m', m ≤ m' →
      let s' := (threads n iterations).follow s sched m'
      (∀ t, (s'.cpu t).pc = .done) ∧ s'.a = BitVec.ofNat 32 (n * iterations) ∧ s'.lock = UNLOCK := by
  have hdone (s : State n) (t : Fin n) (h : ∀ t, (s.cpu t).pc = .done) :
      ∀ u, (((threads n iterations).next s t).cpu u).pc = .done := by
    rw [next_exec, exec_done (h t)]
    exact h
  obtain ⟨m, hm⟩ := (threads n iterations).follow_final_of_helpful (H := Helps iterations)
    Set.finite_univ next_underway next_helps exists_helps hdone hfair ⟨none, h.owned, rfl⟩
  refine ⟨m, ?_⟩
  intro m' hle s'
  have hend := hm m' hle
  have hexcl : Exclusive iterations s' := run_exclusive h (turns sched 0 m')
  refine ⟨hend, ?_, ?_⟩
  · rw [hexcl.count, hexcl.total hend]
  · obtain ⟨owner, howned⟩ := run_owned iterations h (turns sched 0 m')
    cases owner with
    | none => exact howned.lock
    | some o =>
      have hholds := (howned.holder o).mpr rfl
      have hpc : (s'.cpu o).pc = .done := hend o
      change (s'.cpu o).Holds at hholds
      simp only [Cpu.Holds, hpc] at hholds

def twoInTurn (k : ℕ) : Fin 2 := ⟨k % 2, Nat.mod_lt k Nat.zero_lt_two⟩

theorem twoInTurn_fair : Fair Set.univ twoInTurn := by
  intro t _ k
  refine ⟨2 * k + t.1, by omega, ?_⟩
  unfold twoInTurn
  apply Fin.ext
  have ht : t.1 < 2 := t.2
  change (2 * k + t.1) % 2 = t.1
  omega

theorem threads_end_start : ∃ m, ∀ m', m ≤ m' →
    let s' := (threads 2 10000).follow (start 2) twoInTurn m'
    (∀ t, (s'.cpu t).pc = .done) ∧ s'.a = BitVec.ofNat 32 (2 * 10000) ∧ s'.lock = UNLOCK :=
  threads_end (start_initial 2) twoInTurn_fair

end OSLab.SpinLock
