import OSLab.Base.Machine
import OSLab.Kernel.SysV
import OSLab.Mailbox.Message

/-!
# The sender and the receiver

The two `main` functions as machines that take one step whenever they are
scheduled. A step is one call on the semaphores, the queue or the segment; a
process that sleeps in a call does not move.
-/

namespace OSLab.Mailbox

open Base Kernel

/- `mailbox.flag`, 1 and 2 -/
inductive Flag where
  | messagePassing
  | sharedMemory

def EMPTY : Fin 2 := 0

def FULL : Fin 2 := 1

theorem empty_ne_full : EMPTY ≠ FULL := by decide

/- Where the sender stands. `fgets` is the head of its loop, the argument of `p` and `copy` is
the message that `send` was called with. -/
inductive SenderPc where
  | attach
  | prepare
  | semget
  | setEmpty
  | setFull
  | fgets
  | p (m : MsgText)
  | copy (m : MsgText)
  | v
  | done
  | failed

inductive ReceiverPc where
  | attach
  | semget
  | semgetOld
  | setEmpty
  | setFull
  | p
  | copy
  | v
  | strcmp
  | remove
  | done
  | failed
deriving DecidableEq

structure Sender where
  pc : SenderPc
  todo : List MsgText
  msqid : ℕ
  semid : ℕ

structure Receiver where
  pc : ReceiverPc
  msgText : Bytes
  msqid : ℕ
  semid : ℕ

/- The lines the receiver prints. -/
inductive Line where
  | receiving (text : Bytes)
  | senderExit
deriving DecidableEq

/- `sent` and `received` are the texts copied into and out of the mailbox so far, `posts` counts
the calls `V(full)`. No step reads them. -/
structure State where
  ipc : Ipc
  snd : Sender
  rcv : Receiver
  sent : List Bytes
  posts : ℕ
  received : List Bytes
  out : List Line

namespace State

def sndTo (s : State) (pc : SenderPc) : State := { s with snd := { s.snd with pc := pc } }

def rcvTo (s : State) (pc : ReceiverPc) : State := { s with rcv := { s.rcv with pc := pc } }

def withIpc (s : State) (w : Ipc) : State := { s with ipc := w }

end State

/-! ### The sender -/

/- After `msgsnd` or `strncpy` of the message. -/
def sentMsg (s : State) (w : Ipc) (m : MsgText) : State :=
  { (s.withIpc w).sndTo .v with sent := s.sent ++ [m.text] }

def senderStep (flag : Flag) (s : State) : State :=
  match s.snd.pc with
  | .attach =>
    match flag with
    | .messagePassing =>
      let r := s.ipc.msgget
      { s with ipc := r.2, snd := { s.snd with pc := .prepare, msqid := r.1 } }
    | .sharedMemory => s.sndTo .prepare
  | .prepare =>
    match flag with
    | .messagePassing =>
      match s.ipc.setQbytes s.snd.msqid 1024 with
      | some w => (s.withIpc w).sndTo .semget
      | none => s.sndTo .failed
    | .sharedMemory =>
      (s.withIpc { s.ipc with shm := List.replicate MSG_SIZE 0 }).sndTo .semget
  | .semget =>
    let r := s.ipc.semget
    { s with ipc := r.2, snd := { s.snd with pc := .setEmpty, semid := r.1 } }
  | .setEmpty =>
    match s.ipc.setVal s.snd.semid EMPTY 1 with
    | some w => (s.withIpc w).sndTo .setFull
    | none => s.sndTo .failed
  | .setFull =>
    match s.ipc.setVal s.snd.semid FULL 0 with
    | some w => (s.withIpc w).sndTo .fgets
    | none => s.sndTo .failed
  | .fgets =>
    match s.snd.todo with
    | [] => s.sndTo .done
    | m :: ms => { s with snd := { s.snd with pc := .p m, todo := ms } }
  | .p m =>
    match s.ipc.semop s.snd.semid EMPTY (-1) with
    | .ok w => (s.withIpc w).sndTo (.copy m)
    | .sleep => s
    | .fail => s.sndTo .failed
  | .copy m =>
    match flag with
    | .messagePassing =>
      match s.ipc.msgsnd s.snd.msqid ⟨1, m.bytes⟩ with
      | .ok w => sentMsg s w m
      | .sleep => s
      | .fail => s.sndTo .failed
    | .sharedMemory => sentMsg s { s.ipc with shm := toShm m.bytes } m
  | .v =>
    match s.ipc.semop s.snd.semid FULL 1 with
    | .ok w => { (s.withIpc w).sndTo .fgets with posts := s.posts + 1 }
    | .sleep => s
    | .fail => s.sndTo .failed
  | .done => s
  | .failed => s

/-! ### The receiver -/

/- After `msgrcv` or `strncpy` has filled `msgText`. -/
def receivedMsg (s : State) (w : Ipc) (msgText : Bytes) : State :=
  { s with
    ipc := w
    rcv := { s.rcv with pc := .v, msgText := msgText }
    received := s.received ++ [cstr msgText] }

def receiverStep (flag : Flag) (s : State) : State :=
  match s.rcv.pc with
  | .attach =>
    match flag with
    | .messagePassing =>
      let r := s.ipc.msgget
      { s with ipc := r.2, rcv := { s.rcv with pc := .semget, msqid := r.1 } }
    | .sharedMemory => s.rcvTo .semget
  | .semget =>
    match s.ipc.semgetExcl with
    | some r => { s with ipc := r.2, rcv := { s.rcv with pc := .setEmpty, semid := r.1 } }
    | none => s.rcvTo .semgetOld
  | .semgetOld =>
    match s.ipc.semgetOld with
    | some semid => { s with rcv := { s.rcv with pc := .p, semid := semid } }
    | none => s.rcvTo .failed
  | .setEmpty =>
    match s.ipc.setVal s.rcv.semid EMPTY 1 with
    | some w => (s.withIpc w).rcvTo .setFull
    | none => s.rcvTo .failed
  | .setFull =>
    match s.ipc.setVal s.rcv.semid FULL 0 with
    | some w => (s.withIpc w).rcvTo .p
    | none => s.rcvTo .failed
  | .p =>
    match s.ipc.semop s.rcv.semid FULL (-1) with
    | .ok w => (s.withIpc w).rcvTo .copy
    | .sleep => s
    | .fail => s.rcvTo .failed
  | .copy =>
    match flag with
    | .messagePassing =>
      match s.ipc.msgrcv s.rcv.msqid MSG_SIZE 1 with
      | .ok r => receivedMsg s r.2 r.1.msgText
      | .sleep => s
      | .fail => s.rcvTo .failed
    | .sharedMemory => receivedMsg s s.ipc (fromShm s.ipc.shm)
  | .v =>
    match s.ipc.semop s.rcv.semid EMPTY 1 with
    | .ok w => (s.withIpc w).rcvTo .strcmp
    | .sleep => s
    | .fail => s.rcvTo .failed
  | .strcmp =>
    if cstr s.rcv.msgText = EXIT_MSG then { s.rcvTo .remove with out := s.out ++ [.senderExit] }
    else { s.rcvTo .p with out := s.out ++ [.receiving (cstr s.rcv.msgText)] }
  | .remove =>
    match flag with
    | .messagePassing => (s.withIpc (s.ipc.msgRmid s.rcv.msqid)).rcvTo .done
    | .sharedMemory => (s.withIpc (s.ipc.semRmid s.rcv.semid)).rcvTo .done
  | .done => s
  | .failed => s

/-! ### Both processes -/

inductive Proc where
  | sender
  | receiver

/- The input of a step is the process that is scheduled. -/
def mailbox (flag : Flag) : Machine State Proc Unit where
  step s
    | .sender => ((), senderStep flag s)
    | .receiver => ((), receiverStep flag s)

@[simp] theorem next_sender (flag : Flag) (s : State) :
    (mailbox flag).next s .sender = senderStep flag s := rfl

@[simp] theorem next_receiver (flag : Flag) (s : State) :
    (mailbox flag).next s .receiver = receiverStep flag s := rfl

/- Both processes before their first call; `buf` is what `message` of the receiver holds. -/
def start (ms : List MsgText) (w : Ipc) (buf : Bytes) : State where
  ipc := w
  snd := ⟨.attach, ms, 0, 0⟩
  rcv := ⟨.attach, buf, 0, 0⟩
  sent := []
  posts := 0
  received := []
  out := []

/- The values of the two semaphores. -/
def values (e f : ℕ) : Fin 2 → ℕ := fun n => if n = EMPTY then e else f

theorem update_values_empty (e f v : ℕ) : Function.update (values e f) EMPTY v = values v f := by
  funext n
  by_cases hn : n = EMPTY
  · subst hn
    rw [Function.update_self]
    rfl
  · rw [Function.update_of_ne hn]
    simp only [values, hn, ite_false]

theorem update_values_full (e f v : ℕ) : Function.update (values e f) FULL v = values e v := by
  funext n
  by_cases hn : n = FULL
  · subst hn
    rw [Function.update_self]
    rfl
  · obtain rfl : n = EMPTY := by
      simp only [EMPTY, FULL] at hn ⊢
      omega
    rw [Function.update_of_ne hn]
    rfl

theorem semop_empty {w : Ipc} {semid e f v : ℕ} {op : ℤ} (hsem : w.sem = some ⟨semid, values e f⟩)
    (hv : e + op = v) (hmax : (v : ℤ) ≤ SEMVMX) :
    w.semop semid EMPTY op = .ok { w with sem := some ⟨semid, values v f⟩ } := by
  rw [← update_values_empty e]
  exact Ipc.semop_eq hsem hv hmax

theorem semop_full {w : Ipc} {semid e f v : ℕ} {op : ℤ} (hsem : w.sem = some ⟨semid, values e f⟩)
    (hv : f + op = v) (hmax : (v : ℤ) ≤ SEMVMX) :
    w.semop semid FULL op = .ok { w with sem := some ⟨semid, values e v⟩ } := by
  rw [← update_values_full e f]
  exact Ipc.semop_eq hsem hv hmax

/- What the two initialisations leave: `empty` is 1, `full` is 0 and nothing is in the mailbox. -/
def initialised (flag : Flag) (semid msqid : ℕ) (shm : Bytes) : Ipc where
  sem := some ⟨semid, values 1 0⟩
  msq :=
    match flag with
    | .messagePassing => some ⟨msqid, 1024, []⟩
    | .sharedMemory => none
  shm := shm
  seq := semid + msqid + 1

/- Both processes before their transfer loops. -/
def loopStart (flag : Flag) (ms : List MsgText) (semid msqid : ℕ) (shm buf : Bytes) : State where
  ipc := initialised flag semid msqid shm
  snd := ⟨.fgets, ms, msqid, semid⟩
  rcv := ⟨.p, buf, msqid, semid⟩
  sent := []
  posts := 0
  received := []
  out := []

/-! ### What a step can do -/

section Steps

variable (flag : Flag) (s : State)

inductive SenderStep : State → Prop where
  | stay : SenderStep s
  | stop (pc : SenderPc) (h : pc = .done ∨ pc = .failed) : SenderStep (s.sndTo pc)
  | msgget (hpc : s.snd.pc = .attach) : SenderStep { s with
      ipc := s.ipc.msgget.2, snd := { s.snd with pc := .prepare, msqid := s.ipc.msgget.1 } }
  | shmget (hpc : s.snd.pc = .attach) : SenderStep (s.sndTo .prepare)
  | setQbytes (hpc : s.snd.pc = .prepare) (w : Ipc)
      (h : s.ipc.setQbytes s.snd.msqid 1024 = some w) : SenderStep ((s.withIpc w).sndTo .semget)
  | memset (hpc : s.snd.pc = .prepare) (hflag : flag = .sharedMemory) :
      SenderStep ((s.withIpc { s.ipc with shm := List.replicate MSG_SIZE 0 }).sndTo .semget)
  | semget (hpc : s.snd.pc = .semget) : SenderStep { s with
      ipc := s.ipc.semget.2, snd := { s.snd with pc := .setEmpty, semid := s.ipc.semget.1 } }
  | setEmpty (hpc : s.snd.pc = .setEmpty) (w : Ipc)
      (h : s.ipc.setVal s.snd.semid EMPTY 1 = some w) : SenderStep ((s.withIpc w).sndTo .setFull)
  | setFull (hpc : s.snd.pc = .setFull) (w : Ipc)
      (h : s.ipc.setVal s.snd.semid FULL 0 = some w) : SenderStep ((s.withIpc w).sndTo .fgets)
  | fgets (hpc : s.snd.pc = .fgets) (m : MsgText) (ms : List MsgText) (h : s.snd.todo = m :: ms) :
      SenderStep { s with snd := { s.snd with pc := .p m, todo := ms } }
  | p (m : MsgText) (hpc : s.snd.pc = .p m) (w : Ipc)
      (h : s.ipc.semop s.snd.semid EMPTY (-1) = .ok w) : SenderStep ((s.withIpc w).sndTo (.copy m))
  | msgsnd (m : MsgText) (hpc : s.snd.pc = .copy m) (hflag : flag = .messagePassing) (w : Ipc)
      (h : s.ipc.msgsnd s.snd.msqid ⟨1, m.bytes⟩ = .ok w) : SenderStep (sentMsg s w m)
  | strncpy (m : MsgText) (hpc : s.snd.pc = .copy m) (hflag : flag = .sharedMemory) :
      SenderStep (sentMsg s { s.ipc with shm := toShm m.bytes } m)
  | v (hpc : s.snd.pc = .v) (w : Ipc) (h : s.ipc.semop s.snd.semid FULL 1 = .ok w) :
      SenderStep { (s.withIpc w).sndTo .fgets with posts := s.posts + 1 }

theorem senderStep_cases : SenderStep flag s (senderStep flag s) := by
  unfold senderStep
  cases hpc : s.snd.pc with
  | attach =>
    cases flag with
    | messagePassing => exact .msgget hpc
    | sharedMemory => exact .shmget hpc
  | prepare =>
    cases flag with
    | messagePassing =>
      cases h : s.ipc.setQbytes s.snd.msqid 1024 with
      | none => exact .stop _ (Or.inr rfl)
      | some w => exact .setQbytes hpc w h
    | sharedMemory => exact .memset hpc rfl
  | semget => exact .semget hpc
  | setEmpty =>
    cases h : s.ipc.setVal s.snd.semid EMPTY 1 with
    | none => exact .stop _ (Or.inr rfl)
    | some w => exact .setEmpty hpc w h
  | setFull =>
    cases h : s.ipc.setVal s.snd.semid FULL 0 with
    | none => exact .stop _ (Or.inr rfl)
    | some w => exact .setFull hpc w h
  | fgets =>
    cases h : s.snd.todo with
    | nil => exact .stop _ (Or.inl rfl)
    | cons m ms => exact .fgets hpc m ms h
  | p m =>
    cases h : s.ipc.semop s.snd.semid EMPTY (-1) with
    | ok w => exact .p m hpc w h
    | sleep => exact .stay
    | fail => exact .stop _ (Or.inr rfl)
  | copy m =>
    cases flag with
    | messagePassing =>
      dsimp only
      cases h : s.ipc.msgsnd s.snd.msqid ⟨1, m.bytes⟩ with
      | ok w => exact .msgsnd m hpc rfl w h
      | sleep => exact .stay
      | fail => exact .stop _ (Or.inr rfl)
    | sharedMemory => exact .strncpy m hpc rfl
  | v =>
    cases h : s.ipc.semop s.snd.semid FULL 1 with
    | ok w => exact .v hpc w h
    | sleep => exact .stay
    | fail => exact .stop _ (Or.inr rfl)
  | done => exact .stay
  | failed => exact .stay

inductive ReceiverStep : State → Prop where
  | stay : ReceiverStep s
  | fail : ReceiverStep (s.rcvTo .failed)
  | msgget (hpc : s.rcv.pc = .attach) : ReceiverStep { s with
      ipc := s.ipc.msgget.2, rcv := { s.rcv with pc := .semget, msqid := s.ipc.msgget.1 } }
  | shmget (hpc : s.rcv.pc = .attach) : ReceiverStep (s.rcvTo .semget)
  | semgetNew (hpc : s.rcv.pc = .semget) : ReceiverStep { s with
      ipc := s.ipc.semget.2, rcv := { s.rcv with pc := .setEmpty, semid := s.ipc.semget.1 } }
  | semgetExists (hpc : s.rcv.pc = .semget) : ReceiverStep (s.rcvTo .semgetOld)
  | semgetOld (hpc : s.rcv.pc = .semgetOld) (semid : ℕ) :
      ReceiverStep { s with rcv := { s.rcv with pc := .p, semid := semid } }
  | setEmpty (hpc : s.rcv.pc = .setEmpty) (w : Ipc)
      (h : s.ipc.setVal s.rcv.semid EMPTY 1 = some w) : ReceiverStep ((s.withIpc w).rcvTo .setFull)
  | setFull (hpc : s.rcv.pc = .setFull) (w : Ipc)
      (h : s.ipc.setVal s.rcv.semid FULL 0 = some w) : ReceiverStep ((s.withIpc w).rcvTo .p)
  | p (hpc : s.rcv.pc = .p) (w : Ipc) (h : s.ipc.semop s.rcv.semid FULL (-1) = .ok w) :
      ReceiverStep ((s.withIpc w).rcvTo .copy)
  | msgrcv (hpc : s.rcv.pc = .copy) (hflag : flag = .messagePassing) (m : Msg) (w : Ipc)
      (h : s.ipc.msgrcv s.rcv.msqid MSG_SIZE 1 = .ok (m, w)) :
      ReceiverStep (receivedMsg s w m.msgText)
  | strncpy (hpc : s.rcv.pc = .copy) (hflag : flag = .sharedMemory) :
      ReceiverStep (receivedMsg s s.ipc (fromShm s.ipc.shm))
  | v (hpc : s.rcv.pc = .v) (w : Ipc) (h : s.ipc.semop s.rcv.semid EMPTY 1 = .ok w) :
      ReceiverStep ((s.withIpc w).rcvTo .strcmp)
  | exit (hpc : s.rcv.pc = .strcmp) (h : cstr s.rcv.msgText = EXIT_MSG) :
      ReceiverStep { s.rcvTo .remove with out := s.out ++ [.senderExit] }
  | print (hpc : s.rcv.pc = .strcmp) (h : cstr s.rcv.msgText ≠ EXIT_MSG) :
      ReceiverStep { s.rcvTo .p with out := s.out ++ [.receiving (cstr s.rcv.msgText)] }
  | msgRmid (hpc : s.rcv.pc = .remove) :
      ReceiverStep ((s.withIpc (s.ipc.msgRmid s.rcv.msqid)).rcvTo .done)
  | semRmid (hpc : s.rcv.pc = .remove) :
      ReceiverStep ((s.withIpc (s.ipc.semRmid s.rcv.semid)).rcvTo .done)

theorem receiverStep_cases : ReceiverStep flag s (receiverStep flag s) := by
  unfold receiverStep
  cases hpc : s.rcv.pc with
  | attach =>
    cases flag with
    | messagePassing => exact .msgget hpc
    | sharedMemory => exact .shmget hpc
  | semget =>
    cases h : s.ipc.semgetExcl with
    | none => exact .semgetExists hpc
    | some r =>
      rw [Ipc.semgetExcl_some h]
      exact .semgetNew hpc
  | semgetOld =>
    cases s.ipc.semgetOld with
    | none => exact .fail
    | some semid => exact .semgetOld hpc semid
  | setEmpty =>
    cases h : s.ipc.setVal s.rcv.semid EMPTY 1 with
    | none => exact .fail
    | some w => exact .setEmpty hpc w h
  | setFull =>
    cases h : s.ipc.setVal s.rcv.semid FULL 0 with
    | none => exact .fail
    | some w => exact .setFull hpc w h
  | p =>
    cases h : s.ipc.semop s.rcv.semid FULL (-1) with
    | ok w => exact .p hpc w h
    | sleep => exact .stay
    | fail => exact .fail
  | copy =>
    cases flag with
    | messagePassing =>
      cases h : s.ipc.msgrcv s.rcv.msqid MSG_SIZE 1 with
      | ok r => exact .msgrcv hpc rfl r.1 r.2 h
      | sleep => exact .stay
      | fail => exact .fail
    | sharedMemory => exact .strncpy hpc rfl
  | v =>
    cases h : s.ipc.semop s.rcv.semid EMPTY 1 with
    | ok w => exact .v hpc w h
    | sleep => exact .stay
    | fail => exact .fail
  | strcmp =>
    by_cases h : cstr s.rcv.msgText = EXIT_MSG
    · simp only [h, ite_true]
      exact .exit hpc h
    · simp only [h, ite_false]
      exact .print hpc h
  | remove =>
    cases flag with
    | messagePassing => exact .msgRmid hpc
    | sharedMemory => exact .semRmid hpc
  | done => exact .stay
  | failed => exact .stay

end Steps

end OSLab.Mailbox
