import OSLab.Base.Fairness
import OSLab.Mailbox.ExitLine

/-!
# The two programs come to their end

The one token of the two semaphores is always somewhere, so from the transfer
loops on a schedule that is fair to both programs brings the receiver behind the
exit message, and the sender to its end if that was its last message.
-/

namespace OSLab.Mailbox

open Base Kernel

variable {flag : Flag} {s s' : State} {l : List Bytes}

/-! ### The steps that are left -/

/- Four for each message. -/
def Sender.left (snd : Sender) : ℕ :=
  match snd.pc with
  | .fgets => 4 * snd.todo.length + 1
  | .p _ => 4 * snd.todo.length + 4
  | .copy _ => 4 * snd.todo.length + 3
  | .v => 4 * snd.todo.length + 2
  | .done => 0
  | .failed => 0
  | _ => 1

/- `more` texts may still be received. -/
def ReceiverPc.left (more : ℕ) : ReceiverPc → ℕ
  | .p => 4 * more + 3
  | .copy => 4 * more + 2
  | .v => 4 * more + 5
  | .strcmp => 4 * more + 4
  | .remove => 1
  | _ => 0

def State.left (n : ℕ) (s : State) : ℕ := s.snd.left + s.rcv.pc.left (n - s.received.length)

theorem sender_left (hloop : s.snd.pc.phase ≠ .starting) :
    senderStep flag s = s ∨
      (senderStep flag s).snd.left < s.snd.left ∧ (senderStep flag s).snd.pc.phase ≠ .starting := by
  have hstep := senderStep_cases flag s
  have hfinal (h : s.snd.pc = .done ∨ s.snd.pc = .failed) : senderStep flag s = s := by
    unfold senderStep
    rcases h with h | h <;> rw [h]
  by_cases hended : s.snd.pc = .done ∨ s.snd.pc = .failed
  · exact .inl (hfinal hended)
  generalize senderStep flag s = s' at hstep
  have hstarting {pc : SenderPc} (hpc : s.snd.pc = pc) (hpast : pc.phase = .starting) {P : Prop} : P :=
    absurd (hpc ▸ hpast) hloop
  cases hstep with
  | stay => exact .inl rfl
  | stop pc h =>
    right
    have hpos : 0 < s.snd.left := by
      unfold Sender.left
      cases hpc : s.snd.pc with
      | done => exact absurd (.inl hpc) hended
      | failed => exact absurd (.inr hpc) hended
      | _ => exact Nat.succ_pos _
    rcases h with rfl | rfl
    · exact ⟨hpos, by rintro ⟨⟩⟩
    · exact ⟨hpos, by rintro ⟨⟩⟩
  | msgget hpc => exact hstarting hpc rfl
  | shmget hpc => exact hstarting hpc rfl
  | setQbytes hpc w h => exact hstarting hpc rfl
  | memset hpc hflag => exact hstarting hpc rfl
  | semget hpc => exact hstarting hpc rfl
  | setEmpty hpc w h => exact hstarting hpc rfl
  | setFull hpc w h => exact hstarting hpc rfl
  | fgets hpc m ms h =>
    right
    refine ⟨?_, by rintro ⟨⟩⟩
    simp only [Sender.left, hpc, h, List.length_cons]
    omega
  | p m hpc w h =>
    right
    refine ⟨?_, by rintro ⟨⟩⟩
    simp only [Sender.left, hpc, State.sndTo, State.withIpc]
    omega
  | msgsnd m hpc hflag w h =>
    right
    refine ⟨?_, by rintro ⟨⟩⟩
    simp only [Sender.left, hpc, sentMsg, State.sndTo, State.withIpc]
    omega
  | strncpy m hpc hflag =>
    right
    refine ⟨?_, by rintro ⟨⟩⟩
    simp only [Sender.left, hpc, sentMsg, State.sndTo, State.withIpc]
    omega
  | v hpc w h =>
    right
    refine ⟨?_, by rintro ⟨⟩⟩
    simp only [Sender.left, hpc, State.sndTo, State.withIpc]
    omega

theorem receiver_left (hinv : LoopInv flag l s) : receiverStep flag s = s ∨
    (receiverStep flag s).rcv.pc.left (l.length - (receiverStep flag s).received.length) <
      s.rcv.pc.left (l.length - s.received.length) := by
  have hnext := hinv.step .receiver
  rw [next_receiver] at hnext
  have hreceived : (receiverStep flag s).received.length ≤ l.length :=
    (hnext.mail.pre.trans hnext.stream.pre).length_le
  have hloop := hinv.looping
  have hstep := receiverStep_cases flag s
  by_cases hended : s.rcv.pc = .done ∨ s.rcv.pc = .failed
  · left
    unfold receiverStep
    rcases hended with h | h <;> rw [h]
  generalize receiverStep flag s = s' at hstep hreceived
  have hstarting {pc : ReceiverPc} (hpc : s.rcv.pc = pc) (hpast : ¬ pc.looping) {P : Prop} : P :=
    absurd (hpc ▸ hloop) hpast
  have hpos : 0 < s.rcv.pc.left (l.length - s.received.length) := by
    cases hpc : s.rcv.pc with
    | done => exact absurd (.inl hpc) hended
    | failed => exact absurd (.inr hpc) hended
    | attach => exact hstarting hpc id
    | semget => exact hstarting hpc id
    | semgetOld => exact hstarting hpc id
    | setEmpty => exact hstarting hpc id
    | setFull => exact hstarting hpc id
    | _ => exact Nat.succ_pos _
  cases hstep with
  | stay => exact .inl rfl
  | fail => exact .inr hpos
  | msgget hpc => exact hstarting hpc id
  | shmget hpc => exact hstarting hpc id
  | semgetNew hpc => exact hstarting hpc id
  | semgetExists hpc => exact hstarting hpc id
  | semgetOld hpc semid => exact hstarting hpc id
  | setEmpty hpc w h => exact hstarting hpc id
  | setFull hpc w h => exact hstarting hpc id
  | p hpc w h =>
    right
    simp only [hpc, State.rcvTo, State.withIpc, ReceiverPc.left]
    omega
  | msgrcv hpc hflag m w h =>
    right
    simp only [receivedMsg, List.length_append, List.length_singleton] at hreceived
    simp only [hpc, receivedMsg, List.length_append, List.length_singleton, ReceiverPc.left]
    omega
  | strncpy hpc hflag =>
    right
    simp only [receivedMsg, List.length_append, List.length_singleton] at hreceived
    simp only [hpc, receivedMsg, List.length_append, List.length_singleton, ReceiverPc.left]
    omega
  | v hpc w h =>
    right
    simp only [hpc, State.rcvTo, State.withIpc, ReceiverPc.left]
    omega
  | exit hpc h =>
    right
    simp only [hpc, State.rcvTo, ReceiverPc.left]
    omega
  | print hpc h =>
    right
    simp only [hpc, State.rcvTo, ReceiverPc.left]
    omega
  | msgRmid hpc =>
    right
    simp only [hpc, State.rcvTo, State.withIpc, ReceiverPc.left]
    omega
  | semRmid hpc =>
    right
    simp only [hpc, State.rcvTo, State.withIpc, ReceiverPc.left]
    omega

/-- Every step in the loops counts. -/
theorem next_left (hinv : LoopInv flag l s) (hloop : s.snd.pc.phase ≠ .starting) (p : Proc) :
    (mailbox flag).next s p = s ∨
      ((mailbox flag).next s p).left l.length < s.left l.length ∧
      ((mailbox flag).next s p).snd.pc.phase ≠ .starting := by
  cases p with
  | sender =>
    obtain ⟨hrcv, hreceived, -⟩ := senderStep_rcv flag s
    rw [next_sender]
    refine (sender_left hloop).imp_right ?_
    intro ⟨hlt, hphase⟩
    refine ⟨?_, hphase⟩
    unfold State.left
    rw [hrcv, hreceived]
    omega
  | receiver =>
    obtain ⟨hsnd, -, -⟩ := receiverStep_snd flag s
    rw [next_receiver]
    refine (receiver_left hinv).imp_right ?_
    intro hlt
    refine ⟨?_, by rw [hsnd]; exact hloop⟩
    unfold State.left
    rw [hsnd]
    omega

/-! ### The token -/

/- A text that is in the mailbox without being counted by `full`: put in and not posted, or taken by
the receiver and not copied out. -/
def putting : Phase → ℕ
  | .after => 1
  | _ => 0

def getting : Phase → ℕ
  | .before => 1
  | _ => 0

def ReceiverPc.going : ReceiverPc → Prop
  | .p => True
  | .copy => True
  | .v => True
  | .strcmp => True
  | .remove => True
  | _ => False

/-- Both programs in their loops: the semaphores and the queue are there, and the token is in one of
the semaphores or with one of the programs. -/
structure Going (flag : Flag) (l : List Bytes) (semid msqid : ℕ) (s : State) : Prop where
  token : ∃ e f, s.ipc.sem = some ⟨semid, values e f⟩ ∧
    e + f + s.snd.pc.phase.holds + s.rcv.pc.phase.holds = 1 ∧
    s.sent.length = s.received.length + f + putting s.snd.pc.phase + getting s.rcv.pc.phase
  queue : flag = .messagePassing → ∃ msgs, s.ipc.msq = some ⟨msqid, 1024, msgs⟩ ∧
    ∀ x ∈ msgs, x.msgText.length = MSG_SIZE
  snd : s.snd.semid = semid ∧ s.snd.msqid = msqid ∧ s.snd.pc.phase ≠ .starting ∧ s.snd.pc ≠ .failed
  rcv : s.rcv.semid = semid ∧ s.rcv.msqid = msqid ∧ s.rcv.pc.going
  all : s.snd.pc = .done → s.sent = l

theorem semop_empty_sleep {w : Ipc} {semid f : ℕ} (hsem : w.sem = some ⟨semid, values 0 f⟩) :
    w.semop semid EMPTY (-1) = .sleep := by
  have hfind : w.findSem semid = some ⟨semid, values 0 f⟩ := Ipc.findSem_self hsem
  have hneg : (((values 0 f EMPTY : ℕ) : ℤ) + -1 < 0) = True := by
    have hzero : values 0 f EMPTY = 0 := rfl
    rw [hzero]
    decide
  simp only [Ipc.semop, hfind, hneg, ite_true]

theorem semop_full_sleep {w : Ipc} {semid e : ℕ} (hsem : w.sem = some ⟨semid, values e 0⟩) :
    w.semop semid FULL (-1) = .sleep := by
  have hfind : w.findSem semid = some ⟨semid, values e 0⟩ := Ipc.findSem_self hsem
  have hneg : (((values e 0 FULL : ℕ) : ℤ) + -1 < 0) = True := by
    have hzero : values e 0 FULL = 0 := rfl
    rw [hzero]
    decide
  simp only [Ipc.semop, hfind, hneg, ite_true]

theorem le_semvmx {v : ℕ} (h : v ≤ 1) : (v : ℤ) ≤ SEMVMX := by
  have hmax : SEMVMX = 32767 := rfl
  omega

section Going
variable {semid msqid : ℕ}

/-- The sender keeps the token, and waits for nothing but the semaphore `empty`. -/
theorem Going.sender (h : Going flag l semid msqid s) (hinv : LoopInv flag l s) :
    Going flag l semid msqid (senderStep flag s) ∧ (senderStep flag s = s → s.snd.pc = .done ∨
      (∃ m, s.snd.pc = .p m) ∧ ∃ f, s.ipc.sem = some ⟨semid, values 0 f⟩) := by
  obtain ⟨⟨e, f, hsem, htoken, hflow⟩, hqueue, ⟨hsemid, hmsqid, hloop, hlive⟩, hrcv, hall⟩ := h
  have hpcs {s' : State} (heq : s' = s) : s'.snd.pc = s.snd.pc :=
    congrArg (fun s : State => s.snd.pc) heq
  unfold senderStep
  cases hpc : s.snd.pc with
  | attach => exact absurd (by rw [hpc]; rfl) hloop
  | prepare => exact absurd (by rw [hpc]; rfl) hloop
  | semget => exact absurd (by rw [hpc]; rfl) hloop
  | setEmpty => exact absurd (by rw [hpc]; rfl) hloop
  | setFull => exact absurd (by rw [hpc]; rfl) hloop
  | failed => exact absurd hpc hlive
  | done =>
    refine ⟨⟨⟨e, f, hsem, htoken, hflow⟩, hqueue, ⟨hsemid, hmsqid, hloop, hlive⟩, hrcv, hall⟩, ?_⟩
    exact fun _ => .inl rfl
  | fgets =>
    rw [hpc] at htoken hflow hpcs
    cases htodo : s.snd.todo with
    | nil =>
      have hsent := hinv.stream.rest (by rw [hpc]; exact id)
      simp only [Sender.pending, hpc, htodo, List.map_nil, List.append_nil] at hsent
      exact ⟨⟨⟨e, f, hsem, htoken, hflow⟩, hqueue, ⟨hsemid, hmsqid, by rintro ⟨⟩, by rintro ⟨⟩⟩, hrcv,
        fun _ => hsent⟩, fun heq => by cases hpcs heq⟩
    | cons m ms =>
      exact ⟨⟨⟨e, f, hsem, htoken, hflow⟩, hqueue,
        ⟨hsemid, hmsqid, by rintro ⟨⟩, by rintro ⟨⟩⟩, hrcv, by rintro ⟨⟩⟩, fun heq => by cases hpcs heq⟩
  | p m =>
    dsimp only
    cases e with
    | zero =>
      have hsleep := semop_empty_sleep hsem
      rw [hsemid, hsleep]
      exact ⟨⟨⟨0, f, hsem, htoken, hflow⟩, hqueue, ⟨hsemid, hmsqid, hloop, hlive⟩, hrcv, hall⟩,
        fun _ => .inr ⟨⟨m, rfl⟩, f, hsem⟩⟩
    | succ e =>
      rw [hpc] at htoken hflow hpcs
      simp only [SenderPc.phase, Phase.holds_outside, putting] at htoken hflow
      have hok : s.ipc.semop semid EMPTY (-1) = .ok { s.ipc with sem := some ⟨semid, values e f⟩ } :=
        semop_empty hsem (by omega) (le_semvmx (by omega))
      rw [hsemid, hok]
      refine ⟨⟨⟨e, f, rfl, ?_, ?_⟩, hqueue, ⟨hsemid, hmsqid, by rintro ⟨⟩, by rintro ⟨⟩⟩,
        hrcv, by rintro ⟨⟩⟩, fun heq => by cases hpcs heq⟩
      · simp only [State.sndTo, State.withIpc, SenderPc.phase, Phase.holds_before]
        omega
      · simp only [State.sndTo, State.withIpc, SenderPc.phase, putting]
        exact hflow
  | copy m =>
    rw [hpc] at htoken hflow hpcs
    simp only [SenderPc.phase, Phase.holds_before, putting] at htoken hflow
    -- the token is here, so everything sent has been received
    have hget : getting s.rcv.pc.phase ≤ s.rcv.pc.phase.holds := by
      cases s.rcv.pc.phase <;> decide
    have hlen : s.sent.length = s.received.length := by omega
    have htoken' : e + f + Phase.after.holds + s.rcv.pc.phase.holds = 1 := htoken
    have hflow' : (s.sent ++ [m.text]).length =
        s.received.length + f + putting .after + getting s.rcv.pc.phase := by
      simp only [List.length_append, List.length_singleton, putting]
      omega
    cases flag with
    | sharedMemory =>
      exact ⟨⟨⟨e, f, hsem, htoken', hflow'⟩, by rintro ⟨⟩,
        ⟨hsemid, hmsqid, by rintro ⟨⟩, by rintro ⟨⟩⟩, hrcv, by rintro ⟨⟩⟩, fun heq => by cases hpcs heq⟩
    | messagePassing =>
      obtain ⟨msgs, hmsq, -⟩ := hqueue rfl
      obtain rfl : msgs = [] := hinv.mail.1.queue_empty hlen _ hmsq
      have hok : s.ipc.msgsnd msqid ⟨1, m.bytes⟩ =
          .ok { s.ipc with msq := some ⟨msqid, 1024, [⟨1, m.bytes⟩]⟩ } := by
        refine Ipc.msgsnd_eq hmsq ⟨?_, ?_⟩
        · simp only [MsgQueue.cbytes, List.foldr_nil, m.len]
          decide
        · change 0 + 1 ≤ 1024
          decide
      simp only [hmsqid, hok]
      refine ⟨⟨⟨e, f, hsem, htoken', hflow'⟩, fun _ => ⟨_, rfl, ?_⟩,
        ⟨hsemid, hmsqid, by rintro ⟨⟩, by rintro ⟨⟩⟩, hrcv, by rintro ⟨⟩⟩, fun heq => by cases hpcs heq⟩
      intro x hx
      rw [List.mem_singleton.mp hx]
      exact m.len
  | v =>
    dsimp only
    rw [hpc] at htoken hflow hpcs
    simp only [SenderPc.phase, Phase.holds_after, putting] at htoken hflow
    have hok : s.ipc.semop semid FULL 1 = .ok { s.ipc with sem := some ⟨semid, values e (f + 1)⟩ } :=
      semop_full hsem (by omega) (le_semvmx (by omega))
    rw [hsemid, hok]
    refine ⟨⟨⟨e, f + 1, rfl, ?_, ?_⟩, hqueue, ⟨hsemid, hmsqid, by rintro ⟨⟩, by rintro ⟨⟩⟩,
      hrcv, by rintro ⟨⟩⟩, fun heq => by cases hpcs heq⟩
    · simp only [State.sndTo, State.withIpc, SenderPc.phase, Phase.holds_outside]
      omega
    · simp only [State.sndTo, State.withIpc, SenderPc.phase, putting]
      omega

/-- The receiver keeps the token until it leaves its loop, and waits for nothing but `full`. -/
theorem Going.receiver (h : Going flag l semid msqid s) (hinv : LoopInv flag l s) :
    (Going flag l semid msqid (receiverStep flag s) ∨ s.rcv.pc = .remove) ∧
    (receiverStep flag s = s → s.rcv.pc = .p ∧ ∃ e, s.ipc.sem = some ⟨semid, values e 0⟩) := by
  obtain ⟨⟨e, f, hsem, htoken, hflow⟩, hqueue, hsnd, ⟨hsemid, hmsqid, hgoing⟩, hall⟩ := h
  have hpcs {s' : State} (heq : s' = s) : s'.rcv.pc = s.rcv.pc :=
    congrArg (fun s : State => s.rcv.pc) heq
  have hout {pc : ReceiverPc} (hpc : s.rcv.pc = pc) (hnot : ¬ pc.going) {P : Prop} : P :=
    absurd (hpc ▸ hgoing) hnot
  have hput : putting s.snd.pc.phase ≤ s.snd.pc.phase.holds := by
    cases s.snd.pc.phase <;> decide
  unfold receiverStep
  cases hpc : s.rcv.pc with
  | attach => exact hout hpc id
  | semget => exact hout hpc id
  | semgetOld => exact hout hpc id
  | setEmpty => exact hout hpc id
  | setFull => exact hout hpc id
  | done => exact hout hpc id
  | failed => exact hout hpc id
  | p =>
    dsimp only
    cases f with
    | zero =>
      have hsleep := semop_full_sleep hsem
      rw [hsemid, hsleep]
      exact ⟨.inl ⟨⟨e, 0, hsem, htoken, hflow⟩, hqueue, hsnd, ⟨hsemid, hmsqid, hgoing⟩, hall⟩,
        fun _ => ⟨rfl, e, hsem⟩⟩
    | succ f =>
      rw [hpc] at htoken hflow hpcs
      simp only [ReceiverPc.phase, Phase.holds_outside, getting] at htoken hflow
      have hok : s.ipc.semop semid FULL (-1) = .ok { s.ipc with sem := some ⟨semid, values e f⟩ } :=
        semop_full hsem (by omega) (le_semvmx (by omega))
      rw [hsemid, hok]
      refine ⟨.inl ⟨⟨e, f, rfl, ?_, ?_⟩, hqueue, hsnd, ⟨hsemid, hmsqid, trivial⟩, hall⟩,
        fun heq => by cases hpcs heq⟩
      · simp only [State.rcvTo, State.withIpc, ReceiverPc.phase, Phase.holds_before]
        omega
      · simp only [State.rcvTo, State.withIpc, ReceiverPc.phase, getting]
        omega
  | copy =>
    rw [hpc] at htoken hflow hpcs
    simp only [ReceiverPc.phase, Phase.holds_before, getting] at htoken hflow
    have hlen : s.sent.length = s.received.length + 1 := by omega
    have htoken' : e + f + s.snd.pc.phase.holds + Phase.after.holds = 1 := htoken
    have hflow' (x : Bytes) : s.sent.length =
        (s.received ++ [x]).length + f + putting s.snd.pc.phase + getting .after := by
      simp only [List.length_append, List.length_singleton, getting]
      omega
    cases flag with
    | sharedMemory =>
      exact ⟨.inl ⟨⟨e, f, hsem, htoken', hflow' _⟩, by rintro ⟨⟩, hsnd, ⟨hsemid, hmsqid, trivial⟩, hall⟩,
        fun heq => by cases hpcs heq⟩
    | messagePassing =>
      obtain ⟨msgs, hmsq, hsize⟩ := hqueue rfl
      have horder := congrArg List.length (hinv.mail.1.order _ hmsq)
      rw [List.length_append, List.length_map, hlen] at horder
      obtain ⟨x, rfl⟩ : ∃ x, msgs = [x] :=
        List.length_eq_one_iff.mp (Nat.add_left_cancel horder.symm)
      have htype : x.mType = 1 := hinv.mail.1.typed _ hmsq x (List.mem_singleton_self x)
      have hok := Ipc.msgrcv_eq hmsq rfl (Nat.le_of_eq (hsize x (List.mem_singleton_self x)))
      rw [htype] at hok
      simp only [hmsqid, hok]
      exact ⟨.inl ⟨⟨e, f, hsem, htoken', hflow' _⟩,
        fun _ => ⟨[], rfl, fun y hy => absurd hy List.not_mem_nil⟩, hsnd,
        ⟨hsemid, hmsqid, trivial⟩, hall⟩, fun heq => by cases hpcs heq⟩
  | v =>
    dsimp only
    rw [hpc] at htoken hflow hpcs
    simp only [ReceiverPc.phase, Phase.holds_after, getting] at htoken hflow
    have hok : s.ipc.semop semid EMPTY 1 = .ok { s.ipc with sem := some ⟨semid, values (e + 1) f⟩ } :=
      semop_empty hsem (by omega) (le_semvmx (by omega))
    rw [hsemid, hok]
    refine ⟨.inl ⟨⟨e + 1, f, rfl, ?_, ?_⟩, hqueue, hsnd, ⟨hsemid, hmsqid, trivial⟩, hall⟩,
      fun heq => by cases hpcs heq⟩
    · simp only [State.rcvTo, State.withIpc, ReceiverPc.phase, Phase.holds_outside]
      omega
    · simp only [State.rcvTo, State.withIpc, ReceiverPc.phase, getting]
      omega
  | strcmp =>
    rw [hpc] at htoken hflow hpcs
    dsimp only
    split
    · exact ⟨.inl ⟨⟨e, f, hsem, htoken, hflow⟩, hqueue, hsnd, ⟨hsemid, hmsqid, trivial⟩, hall⟩,
        fun heq => by cases hpcs heq⟩
    · exact ⟨.inl ⟨⟨e, f, hsem, htoken, hflow⟩, hqueue, hsnd, ⟨hsemid, hmsqid, trivial⟩, hall⟩,
        fun heq => by cases hpcs heq⟩
  | remove =>
    rw [hpc] at hpcs
    cases flag with
    | messagePassing => exact ⟨.inr rfl, fun heq => by cases hpcs heq⟩
    | sharedMemory => exact ⟨.inr rfl, fun heq => by cases hpcs heq⟩

/-- The receiver goes to sleep only on a token that is somewhere else, so one of the two can move as
long as an exit message is to come. -/
theorem Going.moves (h : Going flag l semid msqid s) (hinv : LoopInv flag l s) (hprinted : Printed s)
    (hexit : EXIT_MSG ∈ l) : ∃ p, (mailbox flag).next s p ≠ s := by
  by_contra hstill
  have hsame (p : Proc) : (mailbox flag).next s p = s := by
    by_contra hmove
    exact hstill ⟨p, hmove⟩
  obtain ⟨hp, e, hsem⟩ := (h.receiver hinv).2 (hsame .receiver)
  obtain ⟨e', f', hsem', htoken, hflow⟩ := h.token
  have hvalues : values e' f' = values e 0 := (SemSet.mk.inj (Option.some.inj (hsem'.symm.trans hsem))).2
  have hf : f' = 0 := congrFun hvalues FULL
  have he : e' = e := congrFun hvalues EMPTY
  rw [hp] at htoken hflow
  simp only [ReceiverPc.phase, Phase.holds_outside, getting] at htoken hflow
  rcases (h.sender hinv).2 (hsame .sender) with hdone | ⟨⟨m, hm⟩, f, hsem''⟩
  · -- the sender has sent everything, so the exit message has been received
    rw [hdone] at htoken hflow
    simp only [SenderPc.phase, putting] at hflow
    have hreceived : s.received = s.sent := hinv.mail.pre.eq_of_length (by omega)
    have hno : EXIT_MSG ∉ s.received := by
      have hpr := hprinted
      simp only [Printed, hp] at hpr
      exact hpr.1
    rw [hreceived, h.all hdone] at hno
    exact hno hexit
  · have hvalues' : values e' f' = values 0 f :=
      (SemSet.mk.inj (Option.some.inj (hsem'.symm.trans hsem''))).2
    have he' : e' = 0 := congrFun hvalues' EMPTY
    rw [hm] at htoken
    simp only [SenderPc.phase, Phase.holds_outside] at htoken
    omega

end Going

/-! ### The end -/

/- Everything is sent and received, the semaphores of message passing stay behind with the values that
they began with. -/
structure Ended (flag : Flag) (l : List Bytes) (semid : ℕ) (s : State) : Prop where
  sent : s.sent = l
  snd : s.snd.pc = .done ∨ s.snd.pc = .fgets ∧ s.snd.todo = []
  messagePassing : flag = .messagePassing →
    s.ipc.msq = none ∧ s.ipc.sem = some ⟨semid, values 1 0⟩
  sharedMemory : flag = .sharedMemory → s.ipc.sem = none

theorem eq_of_prefix_first {α : Type} {l l' rest : List α} {e : α} (h : l' ++ [e] <+: l ++ e :: rest)
    (hno : e ∉ l) (hno' : e ∉ l') : l' = l := by
  induction l generalizing l' with
  | nil =>
    cases l' with
    | nil => rfl
    | cons x l' =>
      obtain ⟨t, ht⟩ := h
      have hx := (List.cons.inj ht).1
      exact absurd (hx ▸ List.mem_cons_self ..) hno'
  | cons y l ih =>
    rw [List.mem_cons, not_or] at hno
    cases l' with
    | nil =>
      obtain ⟨t, ht⟩ := h
      exact absurd (List.cons.inj ht).1 hno.1
    | cons x l' =>
      rw [List.mem_cons, not_or] at hno'
      rw [List.cons_append, List.cons_append, List.cons_prefix_cons] at h
      rw [h.1, ih h.2 hno.2 hno'.2]

/-- The receiver that leaves has received the list up to its first exit message. -/
theorem Left.first {rest : List Bytes} (h : Left s) (hinv : LoopInv flag (l ++ EXIT_MSG :: rest) s)
    (hno : EXIT_MSG ∉ l) :
    s.received = l ++ [EXIT_MSG] ∧ s.out = l.map Line.receiving ++ [Line.senderExit] := by
  obtain ⟨l', hreceived, hno', hout⟩ := h
  have hpre := hinv.mail.pre.trans hinv.stream.pre
  rw [hreceived] at hpre
  rw [eq_of_prefix_first hpre hno hno'] at hreceived hout
  exact ⟨hreceived, hout⟩

/-- When the receiver has taken the last message the sender has nothing more to do. -/
theorem Going.ended {semid msqid : ℕ} (h : Going flag (l ++ [EXIT_MSG]) semid msqid s)
    (hinv : LoopInv flag (l ++ [EXIT_MSG]) s) (hpc : s.rcv.pc = .remove)
    (hreceived : s.received = l ++ [EXIT_MSG]) :
    Ended flag (l ++ [EXIT_MSG]) semid (receiverStep flag s) := by
  obtain ⟨⟨e, f, hsem, htoken, hflow⟩, hqueue, ⟨-, -, hloop, hlive⟩, ⟨hsemid, hmsqid, -⟩, -⟩ := h
  have hsent : s.sent = l ++ [EXIT_MSG] := by
    have hpre := hinv.mail.pre
    rw [hreceived] at hpre
    exact (hinv.stream.pre.eq_of_length_le hpre.length_le)
  rw [hpc, hsent, hreceived] at hflow
  rw [hpc] at htoken
  simp only [ReceiverPc.phase, Phase.holds_outside, getting] at htoken hflow
  have hrest (hgoes : ¬ s.snd.pc.ended) : s.snd.pending = [] := by
    have hall := hinv.stream.rest hgoes
    rw [hsent] at hall
    exact List.append_right_eq_self.mp hall
  have hsnd : s.snd.pc = .done ∨ s.snd.pc = .fgets ∧ s.snd.todo = [] := by
    cases hs : s.snd.pc with
    | done => exact .inl rfl
    | failed => exact absurd hs hlive
    | fgets =>
      have hnil := hrest (by rw [hs]; exact id)
      simp only [Sender.pending, hs, List.map_eq_nil_iff] at hnil
      exact .inr ⟨rfl, hnil⟩
    | p m =>
      have hnil := hrest (by rw [hs]; exact id)
      simp only [Sender.pending, hs, reduceCtorEq] at hnil
    | copy m =>
      have hnil := hrest (by rw [hs]; exact id)
      simp only [Sender.pending, hs, reduceCtorEq] at hnil
    | v =>
      rw [hs] at hflow
      simp only [SenderPc.phase, putting] at hflow
      omega
    | _ => exact absurd (by rw [hs]; rfl) hloop
  have hout : s.snd.pc.phase = .outside := by
    rcases hsnd with hs | ⟨hs, -⟩
    · rw [hs]
      rfl
    · rw [hs]
      rfl
  rw [hout] at htoken
  simp only [Phase.holds_outside] at htoken
  have hf : f = 0 := by omega
  have he : e = 1 := by omega
  subst hf he
  unfold receiverStep
  rw [hpc]
  cases flag with
  | messagePassing =>
    obtain ⟨msgs, hmsq, -⟩ := hqueue rfl
    have hfind : s.ipc.findMsq msqid = some ⟨msqid, 1024, msgs⟩ := Ipc.findMsq_self hmsq
    refine ⟨hsent, hsnd, fun _ => ?_, by rintro ⟨⟩⟩
    simp only [State.withIpc, State.rcvTo, hmsqid, Ipc.msgRmid, hfind, hsem, and_self]
  | sharedMemory =>
    have hfind : s.ipc.findSem semid = some ⟨semid, values 1 0⟩ := Ipc.findSem_self hsem
    refine ⟨hsent, hsnd, by rintro ⟨⟩, fun _ => ?_⟩
    simp only [State.withIpc, State.rcvTo, hsemid, Ipc.semRmid, hfind]

section Run
variable {rest : List Bytes} {semid msqid : ℕ}

/-- The two programs on the list `l ++ EXIT_MSG :: rest`, at most `k` steps from their end. -/
structure Underway (flag : Flag) (l rest : List Bytes) (semid msqid k : ℕ) (s : State) : Prop where
  inv : LoopInv flag (l ++ EXIT_MSG :: rest) s
  printed : Printed s
  loop : s.snd.pc.phase ≠ .starting
  left : s.left (l ++ EXIT_MSG :: rest).length = k
  going : Going flag (l ++ EXIT_MSG :: rest) semid msqid s ∨
    s.rcv.pc = .done ∧ (rest = [] → Ended flag (l ++ [EXIT_MSG]) semid s)

theorem Ended.sender (h : Ended flag l semid s) : Ended flag l semid (senderStep flag s) := by
  obtain ⟨hsent, hsnd, hqueue, hsem⟩ := h
  unfold senderStep
  rcases hsnd with hpc | ⟨hpc, htodo⟩
  · rw [hpc]
    exact ⟨hsent, .inl hpc, hqueue, hsem⟩
  · rw [hpc, htodo]
    exact ⟨hsent, .inl rfl, hqueue, hsem⟩

theorem receiver_done (hpc : s.rcv.pc = .done) : receiverStep flag s = s := by
  unfold receiverStep
  rw [hpc]

theorem receiver_remove (hpc : s.rcv.pc = .remove) : (receiverStep flag s).rcv.pc = .done := by
  unfold receiverStep
  rw [hpc]
  cases flag with
  | messagePassing => rfl
  | sharedMemory => rfl

theorem Underway.next {k : ℕ} (h : Underway flag l rest semid msqid k s) (hno : EXIT_MSG ∉ l)
    (p : Proc) : (mailbox flag).next s p = s ∨
      ∃ k', k' < k ∧ Underway flag l rest semid msqid k' ((mailbox flag).next s p) := by
  obtain ⟨hinv, hprinted, hloop, rfl, hgoing⟩ := h
  refine (next_left hinv hloop p).imp_right ?_
  intro ⟨hlt, hloop'⟩
  refine ⟨_, hlt, hinv.step p, hprinted.step p, hloop', rfl, ?_⟩
  cases p with
  | sender =>
    rcases hgoing with hg | ⟨hdone, hended⟩
    · exact .inl (hg.sender hinv).1
    · right
      rw [next_sender, (senderStep_rcv flag s).1]
      exact ⟨hdone, fun hrest => (hended hrest).sender⟩
  | receiver =>
    rcases hgoing with hg | ⟨hdone, hended⟩
    · rcases (hg.receiver hinv).1 with hg' | hremove
      · exact .inl hg'
      · right
        have hleft : Left s := by
          have hpr := hprinted
          simp only [Printed, hremove] at hpr
          exact hpr
        refine ⟨receiver_remove hremove, ?_⟩
        rintro rfl
        exact hg.ended hinv hremove (hleft.first hinv hno).1
    · rw [next_receiver, receiver_done hdone] at hlt
      exact absurd hlt (Nat.lt_irrefl _)

theorem Underway.moves {k : ℕ} (h : Underway flag l rest semid msqid k s) (hno : EXIT_MSG ∉ l)
    (hopen : ¬ (s.rcv.pc = .done ∧ (rest = [] → s.snd.pc = .done))) :
    ∃ p ∈ Set.univ, ∃ k', k' < k ∧ Underway flag l rest semid msqid k' ((mailbox flag).next s p) := by
  have hmove : ∃ p, (mailbox flag).next s p ≠ s := by
    rcases h.going with hg | ⟨hdone, hended⟩
    · exact hg.moves h.inv h.printed (List.mem_append_right _ (List.mem_cons_self ..))
    · -- the sender has still to see the end of its file
      have hrest : rest = [] ∧ s.snd.pc ≠ .done := by
        by_contra hnot
        exact hopen ⟨hdone, fun hnil => by_contra fun hs => hnot ⟨hnil, hs⟩⟩
      obtain ⟨hpc, htodo⟩ := (hended hrest.1).snd.resolve_left hrest.2
      refine ⟨.sender, ?_⟩
      intro heq
      have hsame := congrArg (fun s : State => s.snd.pc) heq
      simp only [next_sender, senderStep, hpc, htodo] at hsame
      cases hsame
  obtain ⟨p, hne⟩ := hmove
  exact ⟨p, Set.mem_univ p, (h.next hno p).resolve_left hne⟩

theorem loopStart_underway (flag : Flag) {ms : List MsgText}
    (hms : ms.map MsgText.text = l ++ EXIT_MSG :: rest) (semid msqid : ℕ) (shm buf : Bytes) :
    ∃ k, Underway flag l rest semid msqid k (loopStart flag ms semid msqid shm buf) := by
  have hinv := loopStart_inv flag ms semid msqid shm buf
  rw [hms] at hinv
  refine ⟨_, hinv, ⟨List.not_mem_nil, rfl⟩, by rintro ⟨⟩, rfl, .inl ⟨⟨1, 0, rfl, rfl, rfl⟩, ?_,
    ⟨rfl, rfl, by rintro ⟨⟩, by rintro ⟨⟩⟩, ⟨rfl, rfl, trivial⟩, by rintro ⟨⟩⟩⟩
  rintro rfl
  exact ⟨[], rfl, fun x hx => absurd hx List.not_mem_nil⟩

theorem proc_finite : (Set.univ : Set Proc).Finite := by
  refine (Set.toFinite {Proc.sender, Proc.receiver}).subset ?_
  intro p _
  cases p with
  | sender => exact .inl rfl
  | receiver => exact .inr rfl

/-- With a schedule that is fair to both programs the receiver ends behind the first exit message and
has printed what came before. If nothing comes after it the sender ends as well, and of the semaphores
and the queue only the semaphores of message passing are left. -/
theorem mailbox_completes (flag : Flag) {ms : List MsgText} {l rest : List Bytes}
    (hms : ms.map MsgText.text = l ++ EXIT_MSG :: rest) (hno : EXIT_MSG ∉ l) (semid msqid : ℕ)
    (shm buf : Bytes) {sched : ℕ → Proc} (hfair : Fair Set.univ sched) :
    ∃ n, ∀ n', n ≤ n' →
      let s := (mailbox flag).follow (loopStart flag ms semid msqid shm buf) sched n'
      s.rcv.pc = .done ∧ s.received = l ++ [EXIT_MSG] ∧
        s.out = l.map Line.receiving ++ [Line.senderExit] ∧
        (rest = [] → s.snd.pc = .done ∧ Ended flag (l ++ [EXIT_MSG]) semid s) := by
  obtain ⟨k, hstart⟩ := loopStart_underway flag hms semid msqid shm buf
  let Both (s : State) : Prop := s.rcv.pc = .done ∧ (rest = [] → s.snd.pc = .done)
  have hboth (s : State) (p : Proc) (h : Both s) : Both ((mailbox flag).next s p) := by
    obtain ⟨hrcv, hsnd⟩ := h
    cases p with
    | sender =>
      rw [next_sender]
      refine ⟨(congrArg Receiver.pc (senderStep_rcv flag s).1).trans hrcv, fun hrest => ?_⟩
      unfold senderStep
      rw [hsnd hrest]
      exact hsnd hrest
    | receiver =>
      rw [next_receiver, receiver_done hrcv]
      exact ⟨hrcv, hsnd⟩
  obtain ⟨n, hn⟩ := (mailbox flag).follow_final proc_finite (fun _ _ p h => h.next hno p)
    (fun _ _ h hopen => h.moves hno hopen) hboth hfair hstart
  refine ⟨n, ?_⟩
  intro n' hle s
  obtain ⟨hrcv, hsnd⟩ := hn n' hle
  obtain ⟨k', -, h⟩ := (mailbox flag).run_le
    ((mailbox flag).step_le fun _ _ p h => h.next hno p) (turns sched 0 n') hstart
  have hleft : Left s := h.printed.left (.inr hrcv)
  obtain ⟨hreceived, hout⟩ := hleft.first h.inv hno
  refine ⟨hrcv, hreceived, hout, ?_⟩
  intro hrest
  refine ⟨hsnd hrest, ?_⟩
  rcases h.going with hg | ⟨-, hended⟩
  · have hgoing : s.rcv.pc.going := hg.rcv.2.2
    have hdone : s.rcv.pc = .done := hrcv
    rw [hdone] at hgoing
    exact hgoing.elim
  · exact hended hrest

/- Sender and receiver in turn. -/
def alternating (n : ℕ) : Proc := if n % 2 = 0 then .sender else .receiver

theorem alternating_fair : Fair Set.univ alternating := by
  intro p _ n
  cases p with
  | sender =>
    refine ⟨2 * n, by omega, ?_⟩
    unfold alternating
    rw [if_pos (by omega)]
  | receiver =>
    refine ⟨2 * n + 1, by omega, ?_⟩
    unfold alternating
    rw [if_neg (by omega)]

theorem mailbox_completes_oneLine : ∃ n, ∀ n', n ≤ n' →
    let s := (mailbox .messagePassing).follow
      (loopStart .messagePassing (messages zeroBuf [97, 10]) 0 1 [] []) alternating n'
    s.rcv.pc = .done ∧ s.received = fileLines [97, 10] ++ [EXIT_MSG] ∧
      s.out = (fileLines [97, 10]).map Line.receiving ++ [Line.senderExit] ∧
      (([] : List Bytes) = [] → s.snd.pc = .done ∧
        Ended .messagePassing (fileLines [97, 10] ++ [EXIT_MSG]) 0 s) :=
  mailbox_completes .messagePassing (messages_text (by decide +kernel) (by decide +kernel))
    (by decide +kernel) 0 1 [] [] alternating_fair

end Run

end OSLab.Mailbox
