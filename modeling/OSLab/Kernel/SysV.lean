import OSLab.Base.Memory
import Mathlib.Algebra.Group.Nat.Defs
import Mathlib.Data.Int.Notation
import Mathlib.Logic.Function.Basic

/-!
# System V semaphores and message queues

The calls of one process on the semaphore set, the message queue and the shared
memory segment of a key. A set or a queue is found by the identifier its `get`
call returned, a removed one is not found any more. IPC_RMID on a segment only
marks it: it lives as long as a process is attached, so the segment stays.
-/

namespace OSLab.Kernel

open Base

def SEMVMX : ℤ := 32767
def MSGMNB : ℕ := 16384

/-- A call returns, or the caller sleeps, or it fails. -/
inductive Call (α : Type) where
  | ok (a : α)
  | sleep
  | fail

structure SemSet where
  semid : ℕ
  semval : Fin 2 → ℕ

structure Msg where
  mType : ℤ
  msgText : Bytes

structure MsgQueue where
  msqid : ℕ
  qbytes : ℕ
  msgs : List Msg

/- `msg_cbytes`, the bytes in the queue -/
def MsgQueue.cbytes (q : MsgQueue) : ℕ := q.msgs.foldr (fun m n => m.msgText.length + n) 0

structure Ipc where
  sem : Option SemSet
  msq : Option MsgQueue
  shm : Bytes
  /- the next identifier -/
  seq : ℕ

namespace Ipc

/-! ### Semaphores -/

def findSem (w : Ipc) (semid : ℕ) : Option SemSet := w.sem.filter fun s => s.semid = semid

/- `semget(key, 2, IPC_CREAT)`. The values of a new set are 0. -/
def semget (w : Ipc) : ℕ × Ipc :=
  match w.sem with
  | some s => (s.semid, w)
  | none => (w.seq, { w with sem := some ⟨w.seq, fun _ => 0⟩, seq := w.seq + 1 })

/- `semget(key, 2, IPC_CREAT | IPC_EXCL)`, nothing on EEXIST. -/
def semgetExcl (w : Ipc) : Option (ℕ × Ipc) :=
  match w.sem with
  | some _ => none
  | none => some w.semget

/- `semget(key, 0, 0)`, nothing on ENOENT. -/
def semgetOld (w : Ipc) : Option ℕ := w.sem.map SemSet.semid

/- `semctl(semid, n, SETVAL, v)` -/
def setVal (w : Ipc) (semid : ℕ) (n : Fin 2) (v : ℕ) : Option Ipc :=
  match w.findSem semid with
  | none => none
  | some s => some { w with sem := some { s with semval := Function.update s.semval n v } }

/- `semop` with one operation `op ≠ 0` on semaphore `n` -/
def semop (w : Ipc) (semid : ℕ) (n : Fin 2) (op : ℤ) : Call Ipc :=
  match w.findSem semid with
  | none => .fail
  | some s =>
    if s.semval n + op < 0 then .sleep
    else if SEMVMX < s.semval n + op then .fail
    else .ok { w with sem := some { s with
      semval := Function.update s.semval n (s.semval n + op).toNat } }

/- `semctl(semid, 0, IPC_RMID)` -/
def semRmid (w : Ipc) (semid : ℕ) : Ipc :=
  match w.findSem semid with
  | none => w
  | some _ => { w with sem := none }

/-! ### Message queues -/

def findMsq (w : Ipc) (msqid : ℕ) : Option MsgQueue := w.msq.filter fun q => q.msqid = msqid

/- `msgget(key, IPC_CREAT)` -/
def msgget (w : Ipc) : ℕ × Ipc :=
  match w.msq with
  | some q => (q.msqid, w)
  | none => (w.seq, { w with msq := some ⟨w.seq, MSGMNB, []⟩, seq := w.seq + 1 })

/- `msgctl(msqid, IPC_STAT)`, `msg_qbytes = n`, `msgctl(msqid, IPC_SET)` -/
def setQbytes (w : Ipc) (msqid n : ℕ) : Option Ipc :=
  match w.findMsq msqid with
  | none => none
  | some q => some { w with msq := some { q with qbytes := n } }

/- `msgsnd(msqid, m, m.length, 0)` -/
def msgsnd (w : Ipc) (msqid : ℕ) (m : Msg) : Call Ipc :=
  match w.findMsq msqid with
  | none => .fail
  | some q =>
    if q.cbytes + m.msgText.length ≤ q.qbytes ∧ q.msgs.length + 1 ≤ q.qbytes then
      .ok { w with msq := some { q with msgs := q.msgs ++ [m] } }
    else .sleep

/- `msgrcv(msqid, m, msgsz, mtype, 0)` with `mtype > 0`: the first message of that type, which
fails with E2BIG when its text is longer than `msgsz`. -/
def msgrcv (w : Ipc) (msqid msgsz : ℕ) (mtype : ℤ) : Call (Msg × Ipc) :=
  match w.findMsq msqid with
  | none => .fail
  | some q =>
    match q.msgs.find? fun m => m.mType = mtype with
    | none => .sleep
    | some m =>
      if msgsz < m.msgText.length then .fail
      else .ok (m, { w with msq := some { q with
        msgs := q.msgs.eraseP fun m => m.mType = mtype } })

/- `msgctl(msqid, IPC_RMID)` -/
def msgRmid (w : Ipc) (msqid : ℕ) : Ipc :=
  match w.findMsq msqid with
  | none => w
  | some _ => { w with msq := none }

/-! ### What the semaphore calls do -/

/-- The value of a semaphore, 0 where there is no set. -/
def semval (w : Ipc) (n : Fin 2) : ℕ :=
  match w.sem with
  | none => 0
  | some s => s.semval n

/-- `w'` is `w` but for the semaphores. -/
structure SameMail (w w' : Ipc) : Prop where
  msq : w'.msq = w.msq
  shm : w'.shm = w.shm

theorem findSem_some {w : Ipc} {semid : ℕ} {s : SemSet} (h : w.findSem semid = some s) :
    w.sem = some s ∧ s.semid = semid := by
  simp only [findSem, Option.filter_eq_some_iff, decide_eq_true_eq] at h
  exact h

theorem findSem_self {w : Ipc} {s : SemSet} (h : w.sem = some s) : w.findSem s.semid = some s := by
  simp only [findSem, h, Option.filter_eq_some_iff, decide_eq_true_eq, and_self]

theorem semget_semval (w : Ipc) : w.semget.2.semval = w.semval := by
  funext n
  cases h : w.sem with
  | none => simp only [semget, semval, h]
  | some s => simp only [semget, semval, h]

theorem semget_sameMail (w : Ipc) : SameMail w w.semget.2 := by
  cases h : w.sem with
  | none => simp only [semget, h]; exact ⟨rfl, rfl⟩
  | some s => simp only [semget, h]; exact ⟨rfl, rfl⟩

theorem semgetExcl_some {w : Ipc} {r : ℕ × Ipc} (h : w.semgetExcl = some r) : r = w.semget := by
  cases hs : w.sem with
  | none =>
    simp only [semgetExcl, hs, Option.some.injEq] at h
    exact h.symm
  | some s => simp only [semgetExcl, hs, reduceCtorEq] at h

theorem setVal_some {w w' : Ipc} {semid v : ℕ} {n : Fin 2} (h : w.setVal semid n v = some w') :
    w'.semval = Function.update w.semval n v ∧ SameMail w w' := by
  cases hs : w.findSem semid with
  | none => simp only [setVal, hs, reduceCtorEq] at h
  | some s =>
    simp only [setVal, hs, Option.some.injEq] at h
    subst h
    refine ⟨?_, rfl, rfl⟩
    have hsem := (findSem_some hs).1
    have hval : w.semval = s.semval := by
      funext k
      simp only [semval, hsem]
    rw [hval]
    rfl

theorem setVal_eq {w : Ipc} {s : SemSet} (hsem : w.sem = some s) (n : Fin 2) (v : ℕ) :
    w.setVal s.semid n v =
      some { w with sem := some { s with semval := Function.update s.semval n v } } := by
  simp only [setVal, findSem_self hsem]

theorem semop_ok {w w' : Ipc} {semid : ℕ} {n : Fin 2} {op : ℤ}
    (h : w.semop semid n op = .ok w') :
    0 ≤ w.semval n + op ∧ w'.semval = Function.update w.semval n (w.semval n + op).toNat ∧
      SameMail w w' := by
  cases hs : w.findSem semid with
  | none => simp only [semop, hs, reduceCtorEq] at h
  | some s =>
    have hsem := (findSem_some hs).1
    have hval : w.semval = s.semval := by
      funext k
      simp only [semval, hsem]
    simp only [semop, hs] at h
    split at h
    · contradiction
    · split at h
      · contradiction
      · simp only [Call.ok.injEq] at h
        subst h
        rw [hval]
        exact ⟨by omega, rfl, rfl, rfl⟩

theorem semop_take {w w' : Ipc} {semid : ℕ} {n : Fin 2} (h : w.semop semid n (-1) = .ok w') :
    w.semval n = w'.semval n + 1 ∧ ∀ k, k ≠ n → w'.semval k = w.semval k := by
  obtain ⟨hpos, hval, -⟩ := semop_ok h
  constructor
  · rw [hval, Function.update_self]
    omega
  · intro k hk
    rw [hval, Function.update_of_ne hk]

theorem semop_post {w w' : Ipc} {semid : ℕ} {n : Fin 2} (h : w.semop semid n 1 = .ok w') :
    w'.semval n = w.semval n + 1 ∧ ∀ k, k ≠ n → w'.semval k = w.semval k := by
  obtain ⟨-, hval, -⟩ := semop_ok h
  constructor
  · rw [hval, Function.update_self]
    omega
  · intro k hk
    rw [hval, Function.update_of_ne hk]

theorem semop_eq {w : Ipc} {s : SemSet} {n : Fin 2} {op : ℤ} {v : ℕ} (hsem : w.sem = some s)
    (hv : s.semval n + op = v) (hmax : (v : ℤ) ≤ SEMVMX) : w.semop s.semid n op =
      .ok { w with sem := some { s with semval := Function.update s.semval n v } } := by
  have hpos : ¬ (s.semval n + op < 0) := by omega
  have hle : ¬ (SEMVMX < s.semval n + op) := by omega
  have hnat : (s.semval n + op).toNat = v := by omega
  simp only [semop, findSem_self hsem, hpos, hle, hnat, ite_false]

theorem semRmid_semval_le (w : Ipc) (semid : ℕ) (n : Fin 2) :
    (w.semRmid semid).semval n ≤ w.semval n := by
  cases hs : w.findSem semid with
  | none => simp only [semRmid, hs, Nat.le_refl]
  | some s =>
    simp only [semRmid, hs]
    exact Nat.zero_le _

theorem semRmid_sameMail (w : Ipc) (semid : ℕ) : SameMail w (w.semRmid semid) := by
  cases hs : w.findSem semid with
  | none => simp only [semRmid, hs]; exact ⟨rfl, rfl⟩
  | some s => simp only [semRmid, hs]; exact ⟨rfl, rfl⟩

/-! ### What the message calls do -/

/-- `w'` is `w` but for the message queue. -/
structure SameSems (w w' : Ipc) : Prop where
  sem : w'.sem = w.sem
  shm : w'.shm = w.shm

theorem SameSems.semval {w w' : Ipc} (h : SameSems w w') : w'.semval = w.semval := by
  funext n
  simp only [Ipc.semval, h.sem]

theorem findMsq_some {w : Ipc} {msqid : ℕ} {q : MsgQueue} (h : w.findMsq msqid = some q) :
    w.msq = some q ∧ q.msqid = msqid := by
  simp only [findMsq, Option.filter_eq_some_iff, decide_eq_true_eq] at h
  exact h

theorem findMsq_self {w : Ipc} {q : MsgQueue} (h : w.msq = some q) :
    w.findMsq q.msqid = some q := by
  simp only [findMsq, h, Option.filter_eq_some_iff, decide_eq_true_eq, and_self]

theorem msgget_sameSems (w : Ipc) : SameSems w w.msgget.2 := by
  cases h : w.msq with
  | none => simp only [msgget, h]; exact ⟨rfl, rfl⟩
  | some q => simp only [msgget, h]; exact ⟨rfl, rfl⟩

/-- The queue `msgget` returns was there before, or it is new and empty. -/
theorem msgget_msq {w : Ipc} {q : MsgQueue} (h : w.msgget.2.msq = some q) :
    w.msq = some q ∨ (w.msq = none ∧ q.msgs = [] ∧ q.qbytes = MSGMNB) := by
  cases hq : w.msq with
  | none =>
    simp only [msgget, hq, Option.some.injEq] at h
    subst h
    exact Or.inr ⟨rfl, rfl, rfl⟩
  | some p =>
    simp only [msgget, hq] at h
    exact Or.inl h

theorem setQbytes_some {w w' : Ipc} {msqid n : ℕ} (h : w.setQbytes msqid n = some w') :
    (∃ q, w.msq = some q ∧ w'.msq = some { q with qbytes := n }) ∧ SameSems w w' := by
  cases hq : w.findMsq msqid with
  | none => simp only [setQbytes, hq, reduceCtorEq] at h
  | some q =>
    simp only [setQbytes, hq, Option.some.injEq] at h
    subst h
    exact ⟨⟨q, (findMsq_some hq).1, rfl⟩, rfl, rfl⟩

theorem msgsnd_ok {w w' : Ipc} {msqid : ℕ} {m : Msg} (h : w.msgsnd msqid m = .ok w') :
    (∃ q, w.msq = some q ∧ w'.msq = some { q with msgs := q.msgs ++ [m] }) ∧ SameSems w w' := by
  cases hq : w.findMsq msqid with
  | none => simp only [msgsnd, hq, reduceCtorEq] at h
  | some q =>
    simp only [msgsnd, hq] at h
    split at h
    · simp only [Call.ok.injEq] at h
      subst h
      exact ⟨⟨q, (findMsq_some hq).1, rfl⟩, rfl, rfl⟩
    · contradiction

theorem msgsnd_room {w w' : Ipc} {msqid : ℕ} {m : Msg} {q : MsgQueue}
    (h : w.msgsnd msqid m = .ok w') (hq : w.msq = some q) :
    q.cbytes + m.msgText.length ≤ q.qbytes := by
  cases hf : w.findMsq msqid with
  | none => simp only [msgsnd, hf, reduceCtorEq] at h
  | some p =>
    obtain rfl : p = q := Option.some.inj ((findMsq_some hf).1.symm.trans hq)
    simp only [msgsnd, hf] at h
    split at h
    · rename_i hroom
      exact hroom.1
    · contradiction

theorem msgsnd_ne_sleep {w : Ipc} {msqid : ℕ} {m : Msg} (hpos : 0 < m.msgText.length)
    (h : ∀ q, w.msq = some q → q.msgs = [] ∧ m.msgText.length ≤ q.qbytes) :
    w.msgsnd msqid m ≠ .sleep := by
  cases hq : w.findMsq msqid with
  | none => simp only [msgsnd, hq, ne_eq, reduceCtorEq, not_false_eq_true]
  | some q =>
    obtain ⟨hempty, hfits⟩ := h q (findMsq_some hq).1
    have hroom : q.cbytes + m.msgText.length ≤ q.qbytes ∧ q.msgs.length + 1 ≤ q.qbytes := by
      simp only [MsgQueue.cbytes, hempty, List.foldr_nil, List.length_nil]
      omega
    simp only [msgsnd, hq, hroom, and_self, ite_true, ne_eq, reduceCtorEq, not_false_eq_true]

theorem msgsnd_eq {w : Ipc} {q : MsgQueue} {m : Msg} (hmsq : w.msq = some q)
    (hroom : q.cbytes + m.msgText.length ≤ q.qbytes ∧ q.msgs.length + 1 ≤ q.qbytes) :
    w.msgsnd q.msqid m = .ok { w with msq := some { q with msgs := q.msgs ++ [m] } } := by
  simp only [msgsnd, findMsq_self hmsq, hroom, and_self, ite_true]

theorem msgrcv_eq {w : Ipc} {q : MsgQueue} {m : Msg} {l : List Msg} {msgsz : ℕ}
    (hmsq : w.msq = some q) (hl : q.msgs = m :: l) (hlen : m.msgText.length ≤ msgsz) :
    w.msgrcv q.msqid msgsz m.mType = .ok (m, { w with msq := some { q with msgs := l } }) := by
  have hfits : ¬ (msgsz < m.msgText.length) := by omega
  simp only [msgrcv, findMsq_self hmsq, hl, List.find?_cons, decide_true, hfits, ite_false,
    List.eraseP_cons, cond_true]

/-- Where every queued message has the type asked for, `msgrcv` takes the oldest. -/
theorem msgrcv_ok {w w' : Ipc} {msqid msgsz : ℕ} {mtype : ℤ} {m : Msg}
    (h : w.msgrcv msqid msgsz mtype = .ok (m, w'))
    (htype : ∀ q, w.msq = some q → ∀ x ∈ q.msgs, x.mType = mtype) :
    (∃ q l, w.msq = some q ∧ q.msgs = m :: l ∧ w'.msq = some { q with msgs := l }) ∧
      SameSems w w' := by
  cases hq : w.findMsq msqid with
  | none => simp only [msgrcv, hq, reduceCtorEq] at h
  | some q =>
    have hmsq := (findMsq_some hq).1
    have hall := htype q hmsq
    simp only [msgrcv, hq] at h
    cases hl : q.msgs with
    | nil => simp only [hl, List.find?_nil, reduceCtorEq] at h
    | cons x l =>
      have hx : x.mType = mtype := hall x (by rw [hl]; exact List.mem_cons_self ..)
      simp only [hl, List.find?_cons, hx, decide_true, List.eraseP_cons, cond_true] at h
      split at h
      · contradiction
      · simp only [Call.ok.injEq, Prod.mk.injEq] at h
        obtain ⟨rfl, rfl⟩ := h
        exact ⟨⟨q, l, hmsq, hl, rfl⟩, rfl, rfl⟩

theorem msgrcv_sameSems {w w' : Ipc} {msqid msgsz : ℕ} {mtype : ℤ} {m : Msg}
    (h : w.msgrcv msqid msgsz mtype = .ok (m, w')) : SameSems w w' := by
  cases hq : w.findMsq msqid with
  | none => simp only [msgrcv, hq, reduceCtorEq] at h
  | some q =>
    simp only [msgrcv, hq] at h
    split at h
    · contradiction
    · split at h
      · contradiction
      · simp only [Call.ok.injEq, Prod.mk.injEq] at h
        obtain ⟨rfl, rfl⟩ := h
        exact ⟨rfl, rfl⟩

theorem msgRmid_sameSems (w : Ipc) (msqid : ℕ) : SameSems w (w.msgRmid msqid) := by
  cases hq : w.findMsq msqid with
  | none => simp only [msgRmid, hq]; exact ⟨rfl, rfl⟩
  | some q => simp only [msgRmid, hq]; exact ⟨rfl, rfl⟩

theorem msgRmid_msq {w : Ipc} {msqid : ℕ} {q : MsgQueue} (h : (w.msgRmid msqid).msq = some q) :
    w.msq = some q := by
  cases hq : w.findMsq msqid with
  | none =>
    simp only [msgRmid, hq] at h
    exact h
  | some p => simp only [msgRmid, hq, reduceCtorEq] at h

end Ipc

end OSLab.Kernel
