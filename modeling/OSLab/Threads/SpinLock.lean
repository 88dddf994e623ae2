import OSLab.Base.Machine
import Mathlib.Algebra.BigOperators.Fin
import Mathlib.Data.BitVec

/-!
# The exchange lock (Lab3/1_2)

Any number of threads run the loop of `thread` one instruction at a time, in
any order. `xchg` with memory is one step; memory is sequentially consistent.
Registers belong to the thread.
-/

namespace OSLab.SpinLock
open OSLab.Base

abbrev Word := BitVec 32

def LOCK : Word := 0
def UNLOCK : Word := 1

/-- The next instruction of a thread. -/
inductive Pc where
  | loopTest
  | lockMov
  | lockXchg
  | lockTest
  | lockJz
  | load
  | add
  | store
  | unlockMov
  | unlockXchg
  | loopIncr
  | done
  deriving DecidableEq

structure Cpu where
  pc : Pc
  eax : Word
  zf : Bool
  i : ℕ

/- `increments` counts the stores to `a`; no instruction reads it. -/
structure State (n : ℕ) where
  lock : Word
  a : Word
  cpu : Fin n → Cpu
  increments : ℕ

def State.setCpu {n : ℕ} (s : State n) (t : Fin n) (c : Cpu) : State n :=
  { s with cpu := Function.update s.cpu t c }

/- The next instruction of thread `t`, whose loop makes `iterations` passes (`1_2.c:15-65`). -/
def exec {n : ℕ} (iterations : ℕ) (s : State n) (t : Fin n) : State n :=
  let c := s.cpu t
  match c.pc with
  | .loopTest => s.setCpu t { c with pc := if c.i < iterations then .lockMov else .done }
  | .lockMov => s.setCpu t { c with eax := LOCK, pc := .lockXchg }
  | .lockXchg => { s with lock := c.eax }.setCpu t { c with eax := s.lock, pc := .lockTest }
  | .lockTest => s.setCpu t { c with zf := c.eax &&& c.eax == 0, pc := .lockJz }
  | .lockJz => s.setCpu t { c with pc := if c.zf then .lockMov else .load }
  | .load => s.setCpu t { c with eax := s.a, pc := .add }
  | .add => s.setCpu t { c with eax := c.eax + 1, pc := .store }
  | .store =>
    { s with a := c.eax, increments := s.increments + 1 }.setCpu t { c with pc := .unlockMov }
  | .unlockMov => s.setCpu t { c with eax := UNLOCK, pc := .unlockXchg }
  | .unlockXchg => { s with lock := c.eax }.setCpu t { c with eax := s.lock, pc := .loopIncr }
  | .loopIncr => s.setCpu t { c with i := c.i + 1, pc := .loopTest }
  | .done => s

/-- A schedule says which thread runs its next instruction. -/
def threads (n iterations : ℕ) : Machine (State n) (Fin n) Unit :=
  ⟨fun s t => ((), exec iterations s t)⟩

/- `lock = UNLOCK` and `a = 0`; what the registers hold is arbitrary. -/
def Initial {n : ℕ} (s : State n) : Prop :=
  s.lock = UNLOCK ∧ s.a = 0 ∧ s.increments = 0 ∧ ∀ t, (s.cpu t).pc = .loopTest ∧ (s.cpu t).i = 0

/-! ### Who holds the lock -/

/-- The thread is between an `xchg` of `spin_lock` that fetched UNLOCK and the `xchg` of its
`spin_unlock`. -/
def Cpu.Holds (c : Cpu) : Prop :=
  match c.pc with
  | .lockTest => c.eax = UNLOCK
  | .lockJz => c.zf = false
  | .load | .add | .store | .unlockMov | .unlockXchg => True
  | _ => False

/-- What the registers of a thread hold, by its next instruction. -/
def Cpu.RegsOk (c : Cpu) (a : Word) : Prop :=
  match c.pc with
  | .lockXchg => c.eax = LOCK
  | .lockTest => c.eax = LOCK ∨ c.eax = UNLOCK
  | .add => c.eax = a
  | .store => c.eax = a + 1
  | .unlockXchg => c.eax = UNLOCK
  | _ => True

/-- The passes of a thread through its loop. -/
def Cpu.PassesOk (c : Cpu) (iterations : ℕ) : Prop :=
  match c.pc with
  | .loopTest => c.i ≤ iterations
  | .done => c.i = iterations
  | _ => c.i < iterations

/-- The increments that a thread has completed. -/
def Cpu.completed (c : Cpu) : ℕ :=
  match c.pc with
  | .unlockMov | .unlockXchg | .loopIncr => c.i + 1
  | _ => c.i

/- The lock word while `owner` holds the lock. -/
def lockWord {n : ℕ} : Option (Fin n) → Word
  | none => UNLOCK
  | some _ => LOCK

/-- The lock belongs to `owner`, and to no one else. -/
structure Owned {n : ℕ} (iterations : ℕ) (s : State n) (owner : Option (Fin n)) : Prop where
  lock : s.lock = lockWord owner
  holder : ∀ t, (s.cpu t).Holds ↔ owner = some t
  regs : ∀ t, (s.cpu t).RegsOk s.a
  passes : ∀ t, (s.cpu t).PassesOk iterations
  count : s.a = BitVec.ofNat 32 s.increments
  total : s.increments = ∑ t, (s.cpu t).completed

variable {n iterations : ℕ} {s : State n}

theorem lock_ne_unlock : LOCK ≠ UNLOCK := by decide

@[simp] theorem setCpu_same (s : State n) (t : Fin n) (c : Cpu) : (s.setCpu t c).cpu t = c :=
  Function.update_self ..

theorem setCpu_ne (s : State n) {t u : Fin n} (c : Cpu) (h : u ≠ t) :
    (s.setCpu t c).cpu u = s.cpu u := Function.update_of_ne h ..

theorem Initial.owned (h : Initial s) : Owned iterations s none where
  lock := h.1
  holder t := by
    simp only [Cpu.Holds, (h.2.2.2 t).1, reduceCtorEq]
  regs t := by
    simp only [Cpu.RegsOk, (h.2.2.2 t).1]
  passes t := by
    simp only [Cpu.PassesOk, (h.2.2.2 t).1, (h.2.2.2 t).2]
    exact Nat.zero_le _
  count := by
    rw [h.2.1, h.2.2.1]
    rfl
  total := by
    rw [h.2.2.1]
    refine (Finset.sum_eq_zero fun t _ => ?_).symm
    simp only [Cpu.completed, (h.2.2.2 t).1, (h.2.2.2 t).2]

theorem Owned.unique {owner : Option (Fin n)} (h : Owned iterations s owner) {t u : Fin n}
    (ht : (s.cpu t).Holds) (hu : (s.cpu u).Holds) : t = u := by
  have htu := ((h.holder t).mp ht).symm.trans ((h.holder u).mp hu)
  exact Option.some.inj htu

theorem sum_completed_setCpu (s : State n) (t : Fin n) (c : Cpu) :
    (∑ u, ((s.setCpu t c).cpu u).completed) + (s.cpu t).completed =
      (∑ u, (s.cpu u).completed) + c.completed := by
  have hnew := Finset.add_sum_erase Finset.univ (fun u => ((s.setCpu t c).cpu u).completed)
    (Finset.mem_univ t)
  have hold := Finset.add_sum_erase Finset.univ (fun u => (s.cpu u).completed) (Finset.mem_univ t)
  have hrest : ∑ u ∈ Finset.univ.erase t, ((s.setCpu t c).cpu u).completed =
      ∑ u ∈ Finset.univ.erase t, (s.cpu u).completed :=
    Finset.sum_congr rfl fun u hu => by rw [setCpu_ne s c (Finset.ne_of_mem_erase hu)]
  rw [setCpu_same] at hnew
  omega

/-! ### One instruction -/

/-- What an instruction of thread `t` that leads to the words `lock'` and `a'` must keep. -/
theorem Owned.move {owner owner' : Option (Fin n)} (h : Owned iterations s owner) {t : Fin n}
    {c c' : Cpu} {lock' a' : Word} {increments' : ℕ} (hc : s.cpu t = c)
    (hlock : lock' = lockWord owner') (hholds : c'.Holds ↔ owner' = some t)
    (hother : ∀ u, u ≠ t → (owner' = some u ↔ owner = some u))
    (hregs : c'.RegsOk a') (hregs' : ∀ u, u ≠ t → (s.cpu u).RegsOk a')
    (hpass : c'.PassesOk iterations) (hcount : a' = BitVec.ofNat 32 increments')
    (htotal : increments' + c.completed = s.increments + c'.completed) :
    Owned iterations
      ({ s with lock := lock', a := a', increments := increments' }.setCpu t c') owner' where
  lock := hlock
  holder u := by
    by_cases hu : u = t
    · subst hu
      rw [setCpu_same]
      exact hholds
    · rw [setCpu_ne _ c' hu, hother u hu]
      exact h.holder u
  regs u := by
    by_cases hu : u = t
    · subst hu
      rw [setCpu_same]
      exact hregs
    · rw [setCpu_ne _ c' hu]
      exact hregs' u hu
  passes u := by
    by_cases hu : u = t
    · subst hu
      rw [setCpu_same]
      exact hpass
    · rw [setCpu_ne _ c' hu]
      exact h.passes u
  count := hcount
  total := by
    have hsum := sum_completed_setCpu
      { s with lock := lock', a := a', increments := increments' } t c'
    have hold := h.total
    change increments' = _
    dsimp only at hsum
    rw [hc] at hsum
    omega

theorem Owned.local {owner : Option (Fin n)} (h : Owned iterations s owner) {t : Fin n} {c c' : Cpu}
    (hc : s.cpu t = c) (hholds : c'.Holds ↔ c.Holds) (hregs : c'.RegsOk s.a)
    (hpass : c'.PassesOk iterations) (hcount : c'.completed = c.completed) :
    Owned iterations (s.setCpu t c') owner :=
  h.move hc h.lock (hholds.trans (hc ▸ h.holder t)) (fun _ _ => Iff.rfl) hregs
    (fun u _ => h.regs u) hpass h.count (by rw [hcount])

/-- While a thread holds the lock no other thread is about to add or to store. -/
theorem Owned.regs_other {owner : Option (Fin n)} (h : Owned iterations s owner) {t u : Fin n}
    (hu : u ≠ t) (ht : (s.cpu t).Holds) (a' : Word) : (s.cpu u).RegsOk a' := by
  have hno : ¬ (s.cpu u).Holds := fun hh => hu (h.unique hh ht)
  have hregs := h.regs u
  unfold Cpu.RegsOk at hregs ⊢
  unfold Cpu.Holds at hno
  cases hpc : (s.cpu u).pc <;> simp only [hpc, not_true_eq_false] at hno hregs ⊢
  all_goals exact hregs

/-- Every instruction keeps the invariant; the two exchanges may change the owner. -/
theorem Owned.exec {owner : Option (Fin n)} (h : Owned iterations s owner) (t : Fin n) :
    ∃ owner', Owned iterations (exec iterations s t) owner' := by
  have hregs := h.regs t
  have hpass := h.passes t
  have hholder := h.holder t
  have hlock := h.lock
  unfold SpinLock.exec
  generalize hc : s.cpu t = c at hregs hpass hholder
  obtain ⟨pc, eax, zf, i⟩ := c
  cases pc with
  | loopTest =>
    by_cases hlt : i < iterations
    · simp only [hlt, ite_true]
      exact ⟨owner, h.local hc Iff.rfl trivial hlt rfl⟩
    · simp only [hlt, ite_false]
      exact ⟨owner, h.local hc Iff.rfl trivial (Nat.le_antisymm hpass (Nat.le_of_not_lt hlt)) rfl⟩
  | lockMov => exact ⟨owner, h.local hc Iff.rfl rfl hpass rfl⟩
  | lockXchg =>
    obtain rfl : eax = LOCK := hregs
    cases owner with
    | none =>
      -- the lock was free: the exchange takes it
      refine ⟨some t, h.move hc rfl ⟨fun _ => rfl, fun _ => hlock⟩ (fun u hu => ?_) (Or.inr hlock)
        (fun u _ => h.regs u) hpass h.count rfl⟩
      simp only [Option.some.injEq, hu.symm, reduceCtorEq]
    | some o =>
      -- the lock was taken: LOCK is stored over LOCK
      have hno : ¬ s.lock = UNLOCK := fun he => lock_ne_unlock (hlock.symm.trans he)
      exact ⟨some o, h.move hc rfl ⟨fun he => absurd he hno, fun ho => absurd (hholder.mpr ho) id⟩
        (fun _ _ => Iff.rfl) (Or.inl hlock) (fun u _ => h.regs u) hpass h.count rfl⟩
  | lockTest =>
    have hzf : (eax &&& eax == 0) = false ↔ eax = UNLOCK := by
      rcases hregs with he | he
      · obtain rfl : eax = LOCK := he
        decide
      · obtain rfl : eax = UNLOCK := he
        decide
    exact ⟨owner, h.local hc hzf trivial hpass rfl⟩
  | lockJz =>
    cases zf with
    | true =>
      exact ⟨owner, h.local hc ⟨fun hf => absurd hf id, fun he => Bool.noConfusion he⟩ trivial
        hpass rfl⟩
    | false => exact ⟨owner, h.local hc ⟨fun _ => rfl, fun _ => trivial⟩ trivial hpass rfl⟩
  | load => exact ⟨owner, h.local hc Iff.rfl rfl hpass rfl⟩
  | add =>
    obtain rfl : eax = s.a := hregs
    exact ⟨owner, h.local hc Iff.rfl rfl hpass rfl⟩
  | store =>
    obtain rfl : eax = s.a + 1 := hregs
    have hcount : s.a + 1 = BitVec.ofNat 32 (s.increments + 1) := by
      rw [h.count, BitVec.ofNat_add]
      rfl
    have ht : (s.cpu t).Holds := by
      rw [hc]
      trivial
    exact ⟨owner, h.move hc hlock hholder (fun _ _ => Iff.rfl) trivial
      (fun u hu => h.regs_other hu ht _) hpass hcount (by simp only [Cpu.completed]; omega)⟩
  | unlockMov => exact ⟨owner, h.local hc Iff.rfl rfl hpass rfl⟩
  | unlockXchg =>
    obtain rfl : eax = UNLOCK := hregs
    obtain rfl : owner = some t := hholder.mp trivial
    refine ⟨none, h.move hc rfl ⟨fun hf => absurd hf id, fun hn => absurd hn (by simp)⟩
      (fun u hu => ?_) trivial (fun u _ => h.regs u) hpass h.count rfl⟩
    simp only [Option.some.injEq, hu.symm, reduceCtorEq]
  | loopIncr => exact ⟨owner, h.local hc Iff.rfl trivial hpass rfl⟩
  | done => exact ⟨owner, h⟩

/-! ### Runs -/

theorem run_owned (iterations : ℕ) (h : Initial s) (sched : List (Fin n)) :
    ∃ owner, Owned iterations ((threads n iterations).run s sched) owner :=
  (threads n iterations).run_invariant_all (P := fun s => ∃ owner, Owned iterations s owner)
    (fun _ t ⟨_, ho⟩ => ho.exec t) sched ⟨none, h.owned⟩

/-- What the lock guarantees in a state, for threads of `iterations` passes. -/
structure Exclusive {n : ℕ} (iterations : ℕ) (s : State n) : Prop where
  one : ∀ t u, (s.cpu t).Holds → (s.cpu u).Holds → t = u
  lock : s.lock = LOCK ↔ ∃ t, (s.cpu t).Holds
  count : s.a = BitVec.ofNat 32 s.increments
  countInt : s.increments < 2 ^ 31 → s.a.toInt = s.increments
  total : (∀ t, (s.cpu t).pc = .done) → s.increments = n * iterations

theorem Owned.exclusive {owner : Option (Fin n)} (h : Owned iterations s owner) :
    Exclusive iterations s where
  one _ _ ht hu := h.unique ht hu
  lock := by
    rw [h.lock]
    constructor
    · intro hl
      cases owner with
      | none => exact absurd hl.symm lock_ne_unlock
      | some o => exact ⟨o, (h.holder o).mpr rfl⟩
    · intro ⟨t, ht⟩
      rw [(h.holder t).mp ht]
      rfl
  count := h.count
  countInt hlt := by
    rw [h.count, BitVec.toInt_ofNat']
    exact Int.bmod_eq_of_le (by omega) (by omega)
  total hdone := by
    rw [h.total]
    have hall (t : Fin n) : (s.cpu t).completed = iterations := by
      have hpass := h.passes t
      simp only [Cpu.PassesOk, hdone t] at hpass
      simp only [Cpu.completed, hdone t, hpass]
    simp only [hall, Finset.sum_const, Finset.card_univ, Fintype.card_fin, smul_eq_mul]

/-- In every interleaving the lock excludes, and `a` counts the increments as a 32-bit word does. -/
theorem run_exclusive (h : Initial s) (sched : List (Fin n)) :
    Exclusive iterations ((threads n iterations).run s sched) := by
  obtain ⟨owner, ho⟩ := run_owned iterations h sched
  exact ho.exclusive

/- The start of the program. -/
def start (n : ℕ) : State n := ⟨UNLOCK, 0, fun _ => ⟨.loopTest, 0, false, 0⟩, 0⟩

theorem start_initial (n : ℕ) : Initial (start n) := ⟨rfl, rfl, rfl, fun _ => ⟨rfl, rfl⟩⟩

theorem run_exclusive_start :
    Exclusive 10000 ((threads 2 10000).run (start 2) [0, 1, 0, 0, 1, 1]) :=
  run_exclusive (start_initial 2) [0, 1, 0, 0, 1, 1]

/-! ### Runs to the end -/

/-- One pass of thread `t` through its loop while no other thread runs and the lock is free. -/
theorem run_pass {t : Fin n} {eax : Word} {zf : Bool} {i : ℕ} (hlock : s.lock = UNLOCK)
    (hc : s.cpu t = ⟨.loopTest, eax, zf, i⟩) (hi : i < iterations) :
    (threads n iterations).run s (List.replicate 11 t) =
      { lock := UNLOCK, a := s.a + 1, increments := s.increments + 1,
        cpu := Function.update s.cpu t ⟨.loopTest, LOCK, false, i + 1⟩ } := by
  have hzf : (UNLOCK == 0#32) = false := by decide
  simp [List.replicate, Machine.next, threads, exec, hc, State.setCpu, hi, hlock, hzf]

theorem run_passes {t : Fin n} (k : ℕ) {i : ℕ} (hlock : s.lock = UNLOCK)
    (hpc : (s.cpu t).pc = .loopTest) (hi : (s.cpu t).i = i) (hk : i + k = iterations) :
    ∃ sched, let s' := (threads n iterations).run s sched
      s'.lock = UNLOCK ∧ (s'.cpu t).pc = .done ∧ (∀ u, u ≠ t → s'.cpu u = s.cpu u) ∧
        s'.increments = s.increments + k := by
  induction k generalizing s i with
  | zero =>
    refine ⟨[t], ?_⟩
    have hnot : ¬ (s.cpu t).i < iterations := by omega
    simp only [Machine.run_cons, Machine.run_nil, Machine.next, threads, exec, hpc, hnot, ite_false,
      setCpu_same]
    exact ⟨hlock, trivial, fun u hu => setCpu_ne s _ hu, rfl⟩
  | succ k ih =>
    generalize hc : s.cpu t = c at hpc hi
    obtain ⟨pc, eax, zf, j⟩ := c
    obtain rfl : pc = .loopTest := hpc
    obtain rfl : j = i := hi
    have hlt : j < iterations := by omega
    have hpass := run_pass hlock hc hlt
    generalize hs1 : (threads n iterations).run s (List.replicate 11 t) = s1 at hpass
    have hcpu : s1.cpu t = ⟨.loopTest, LOCK, false, j + 1⟩ := by
      rw [hpass]
      exact Function.update_self ..
    obtain ⟨sched, hlock', hdone, hother, hinc⟩ := ih (s := s1) (by rw [hpass])
      (by rw [hcpu]) rfl (by rw [hcpu]; dsimp only; omega)
    refine ⟨List.replicate 11 t ++ sched, ?_⟩
    dsimp only
    rw [Machine.run_append, hs1]
    refine ⟨hlock', hdone, fun u hu => (hother u hu).trans ?_, ?_⟩
    · rw [hpass]
      exact Function.update_of_ne hu ..
    · rw [hinc, hpass]
      dsimp only
      omega

/-- Two threads one after the other. -/
theorem exists_finished (iterations : ℕ) {s : State 2} (h : Initial s) :
    ∃ sched, ∀ t, (((threads 2 iterations).run s sched).cpu t).pc = .done := by
  obtain ⟨hlock, -, -, hcpu⟩ := h
  obtain ⟨sched0, hlock0, hdone0, hother0, -⟩ := run_passes iterations hlock (hcpu 0).1 (hcpu 0).2
    (Nat.zero_add iterations)
  have h10 : (1 : Fin 2) ≠ 0 := by decide
  have hcpu1 := hother0 1 h10
  obtain ⟨sched1, -, hdone1, hother1, -⟩ := run_passes iterations hlock0
    (by rw [hcpu1]; exact (hcpu 1).1) (by rw [hcpu1]; exact (hcpu 1).2) (Nat.zero_add iterations)
  refine ⟨sched0 ++ sched1, fun t => ?_⟩
  rw [Machine.run_append]
  match t with
  | 0 => rw [hother1 0 h10.symm]; exact hdone0
  | 1 => exact hdone1

/-- Two threads of 2^30 passes each: the last increment goes from 2^31 - 1 to -2^31. -/
theorem increments_overflow :
    ¬ ∀ (n iterations : ℕ) (s : State n) (sched : List (Fin n)), Initial s →
      (∀ t, (((threads n iterations).run s sched).cpu t).pc = .done) →
      ((threads n iterations).run s sched).a.toInt = (n * iterations : ℕ) := by
  intro h
  obtain ⟨sched, hdone⟩ := exists_finished (2 ^ 30) (start_initial 2)
  obtain ⟨owner, ho⟩ := run_owned (2 ^ 30) (start_initial 2) sched
  have htoInt := h 2 (2 ^ 30) (start 2) sched (start_initial 2) hdone
  rw [ho.count, ho.exclusive.total hdone] at htoInt
  exact absurd htoInt (by decide)

end OSLab.SpinLock
