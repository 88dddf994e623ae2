import OSLab.Mailbox.Content

/-!
# The transfer loops

From initialised semaphores and an empty mailbox the two loops hand the
messages over one at a time, whatever the schedule.
-/

namespace OSLab.Mailbox

open Base Kernel

variable {flag : Flag} {s : State}

/- The process that is scheduled is about to write to the segment: `memset`, or the copy of
`send`. -/
def writesShm (s : State) : Proc → Prop
  | .sender => s.snd.pc = .prepare ∨ ∃ m, s.snd.pc = .copy m
  | .receiver => False

theorem shm_unchanged {p : Proc} (h : ¬ writesShm s p) :
    ((mailbox flag).next s p).ipc.shm = s.ipc.shm := by
  cases p with
  | sender =>
    have hstep := senderStep_cases flag s
    change (senderStep flag s).ipc.shm = s.ipc.shm
    generalize senderStep flag s = s' at hstep
    cases hstep with
    | stay => rfl
    | stop pc hpc => rfl
    | msgget hpc => exact (Ipc.msgget_sameSems s.ipc).shm
    | shmget hpc => rfl
    | setQbytes hpc w hw => exact (Ipc.setQbytes_some hw).2.shm
    | memset hpc hflag => exact absurd (Or.inl hpc) h
    | semget hpc => exact (Ipc.semget_sameMail s.ipc).shm
    | setEmpty hpc w hw => exact (Ipc.setVal_some hw).2.shm
    | setFull hpc w hw => exact (Ipc.setVal_some hw).2.shm
    | fgets hpc m ms hms => rfl
    | p m hpc w hw => exact (Ipc.semop_ok hw).2.2.shm
    | msgsnd m hpc hflag w hw => exact (Ipc.msgsnd_ok hw).2.shm
    | strncpy m hpc hflag => exact absurd (Or.inr ⟨m, hpc⟩) h
    | v hpc w hw => exact (Ipc.semop_ok hw).2.2.shm
  | receiver =>
    have hstep := receiverStep_cases flag s
    change (receiverStep flag s).ipc.shm = s.ipc.shm
    generalize receiverStep flag s = s' at hstep
    cases hstep with
    | msgget hpc => exact (Ipc.msgget_sameSems s.ipc).shm
    | semgetNew hpc => exact (Ipc.semget_sameMail s.ipc).shm
    | setEmpty hpc w hw => exact (Ipc.setVal_some hw).2.shm
    | setFull hpc w hw => exact (Ipc.setVal_some hw).2.shm
    | p hpc w hw => exact (Ipc.semop_ok hw).2.2.shm
    | msgrcv hpc hflag m w hw => exact (Ipc.msgrcv_sameSems hw).shm
    | v hpc w hw => exact (Ipc.semop_ok hw).2.2.shm
    | msgRmid hpc => exact (Ipc.msgRmid_sameSems s.ipc s.rcv.msqid).shm
    | semRmid hpc => exact (Ipc.semRmid_sameMail s.ipc s.rcv.semid).shm
    | _ => rfl

/-! ### The limit of the queue -/

/- The queue takes at least one message. -/
def Roomy (w : Ipc) : Prop := ∀ q, w.msq = some q → MSG_SIZE ≤ q.qbytes

theorem Roomy.congr {w w' : Ipc} (h : Roomy w) (hmsq : w'.msq = w.msq) : Roomy w' := by
  intro q hq
  exact h q (hmsq.symm.trans hq)

theorem Roomy.msgget {w : Ipc} (h : Roomy w) : Roomy w.msgget.2 := by
  intro q hq
  rcases Ipc.msgget_msq hq with hq | ⟨-, -, hq⟩
  · exact h q hq
  · rw [hq]
    decide

theorem Roomy.of_qbytes {w w' : Ipc} (h : Roomy w) {q q' : MsgQueue} (hq : w.msq = some q)
    (hq' : w'.msq = some q') (hle : MSG_SIZE ≤ q.qbytes → MSG_SIZE ≤ q'.qbytes) : Roomy w' := by
  intro p hp
  obtain rfl : q' = p := Option.some.inj (hq'.symm.trans hp)
  exact hle (h q hq)

theorem Roomy.sender (h : Roomy s.ipc) : Roomy (senderStep flag s).ipc := by
  have hstep := senderStep_cases flag s
  generalize senderStep flag s = s' at hstep
  cases hstep with
  | stay => exact h
  | stop pc hpc => exact h
  | msgget hpc => exact h.msgget
  | shmget hpc => exact h
  | setQbytes hpc w hw =>
    obtain ⟨⟨q, hq, hq'⟩, -⟩ := Ipc.setQbytes_some hw
    exact h.of_qbytes hq hq' fun _ => Nat.le_refl _
  | memset hpc hflag => exact h.congr rfl
  | semget hpc => exact h.congr (Ipc.semget_sameMail s.ipc).msq
  | setEmpty hpc w hw => exact h.congr (Ipc.setVal_some hw).2.msq
  | setFull hpc w hw => exact h.congr (Ipc.setVal_some hw).2.msq
  | fgets hpc m ms hms => exact h
  | p m hpc w hw => exact h.congr (Ipc.semop_ok hw).2.2.msq
  | msgsnd m hpc hflag w hw =>
    obtain ⟨⟨q, hq, hq'⟩, -⟩ := Ipc.msgsnd_ok hw
    exact h.of_qbytes hq hq' id
  | strncpy m hpc hflag => exact h.congr rfl
  | v hpc w hw => exact h.congr (Ipc.semop_ok hw).2.2.msq

theorem Roomy.receiver (h : Roomy s.ipc)
    (htype : ∀ q, s.ipc.msq = some q → ∀ x ∈ q.msgs, x.mType = 1) :
    Roomy (receiverStep flag s).ipc := by
  have hstep := receiverStep_cases flag s
  generalize receiverStep flag s = s' at hstep
  cases hstep with
  | msgget hpc => exact h.msgget
  | semgetNew hpc => exact h.congr (Ipc.semget_sameMail s.ipc).msq
  | setEmpty hpc w hw => exact h.congr (Ipc.setVal_some hw).2.msq
  | setFull hpc w hw => exact h.congr (Ipc.setVal_some hw).2.msq
  | p hpc w hw => exact h.congr (Ipc.semop_ok hw).2.2.msq
  | msgrcv hpc hflag m w hw =>
    obtain ⟨⟨q, l, hq, -, hq'⟩, -⟩ := Ipc.msgrcv_ok hw htype
    exact h.of_qbytes hq hq' id
  | v hpc w hw => exact h.congr (Ipc.semop_ok hw).2.2.msq
  | msgRmid hpc => exact fun q hq => h q (Ipc.msgRmid_msq hq)
  | semRmid hpc => exact h.congr (Ipc.semRmid_sameMail s.ipc s.rcv.semid).msq
  | _ => exact h

/-! ### The invariant of the loops -/

/- Past the set-up of the receiver. -/
def ReceiverPc.looping : ReceiverPc → Prop
  | .p => True
  | .copy => True
  | .v => True
  | .strcmp => True
  | .remove => True
  | .done => True
  | .failed => True
  | _ => False

/- What the mode says about the content of the mailbox. -/
def Mail (flag : Flag) (s : State) : Prop :=
  match flag with
  | .messagePassing => Fifo s ∧ Roomy s.ipc
  | .sharedMemory => Cell s

structure LoopInv (flag : Flag) (l : List Bytes) (s : State) : Prop where
  counted : s.slot.Counted
  exclusive : s.slot.Exclusive
  mail : Mail flag s
  stream : Stream l s
  looping : s.rcv.pc.looping

theorem Mail.pre (h : Mail flag s) : s.received <+: s.sent := by
  cases flag with
  | messagePassing => exact h.1.pre
  | sharedMemory => exact Cell.pre h

theorem starting_sent (h : s.slot.Counted) (hs : s.snd.pc.phase = .starting) : s.sent = [] :=
  List.length_eq_zero_iff.mp (h.starting hs)

theorem Mail.sender (h : Mail flag s) (hc : s.slot.Counted) : Mail flag (senderStep flag s) := by
  cases flag with
  | messagePassing => exact ⟨h.1.sender (starting_sent hc), h.2.sender⟩
  | sharedMemory => exact Cell.sender h (starting_sent hc)

theorem Mail.receiver (h : Mail flag s)
    (hahead : s.rcv.pc = .copy → s.sent.length = s.received.length + 1) :
    Mail flag (receiverStep flag s) := by
  cases flag with
  | messagePassing => exact ⟨h.1.receiver, h.2.receiver h.1.typed⟩
  | sharedMemory => exact Cell.receiver h hahead

theorem copy_ahead (hc : s.slot.Counted) (he : s.slot.Exclusive) (hpc : s.rcv.pc = .copy) :
    s.sent.length = s.received.length + 1 :=
  he.ahead hc (by simp only [State.slot, hpc, ReceiverPc.phase])

theorem looping_receiver (h : s.rcv.pc.looping) : (receiverStep flag s).rcv.pc.looping := by
  have hstep := receiverStep_cases flag s
  generalize receiverStep flag s = s' at hstep
  have hstart {pc : ReceiverPc} (hpc : s.rcv.pc = pc) (hnot : ¬ pc.looping) {P : Prop} : P :=
    absurd (hpc ▸ h) hnot
  cases hstep with
  | stay => exact h
  | msgget hpc => exact hstart hpc id
  | shmget hpc => exact hstart hpc id
  | semgetNew hpc => exact hstart hpc id
  | semgetExists hpc => exact hstart hpc id
  | setEmpty hpc w hw => exact hstart hpc id
  | _ => trivial

theorem LoopInv.step {l : List Bytes} (h : LoopInv flag l s) (p : Proc) :
    LoopInv flag l ((mailbox flag).next s p) := by
  cases p with
  | sender =>
    have hslot := senderStep_slot flag s
    have hrcv := (senderStep_rcv flag s).1
    refine ⟨h.counted.step hslot, h.exclusive.step h.counted hslot, h.mail.sender h.counted,
      h.stream.sender, ?_⟩
    change (senderStep flag s).rcv.pc.looping
    rw [hrcv]
    exact h.looping
  | receiver =>
    rcases receiverStep_slot flag s with hslot | ⟨hpc, -⟩
    · exact ⟨h.counted.step hslot, h.exclusive.step h.counted hslot,
        h.mail.receiver (copy_ahead h.counted h.exclusive), h.stream.receiver,
        looping_receiver h.looping⟩
    · have hlooping := h.looping
      rw [hpc] at hlooping
      exact absurd hlooping id

theorem loopStart_inv (flag : Flag) (ms : List MsgText) (semid msqid : ℕ) (shm buf : Bytes) :
    LoopInv flag (ms.map MsgText.text) (loopStart flag ms semid msqid shm buf) where
  counted := ⟨Nat.le_refl _, fun h => by contradiction, Nat.le_refl _, fun h => by contradiction,
    fun _ => rfl, fun h => by contradiction⟩
  exclusive := ⟨Nat.le_refl _, Nat.zero_le _, fun _ => rfl, fun _ => rfl, fun _ => rfl⟩
  mail := by
    cases flag with
    | messagePassing =>
      have hq : ∀ q, (initialised .messagePassing semid msqid shm).msq = some q →
          q = ⟨msqid, 1024, []⟩ := fun q hq => (Option.some.inj hq).symm
      refine ⟨⟨fun q h => ?_, fun q h => ?_, List.prefix_refl _, fun h => by contradiction⟩,
        fun q h => ?_⟩
      · rw [hq q h]
        exact fun x hx => absurd hx List.not_mem_nil
      · rw [hq q h]
        rfl
      · rw [hq q h]
        exact Nat.le_refl _
    | sharedMemory => exact ⟨fun x hx => by contradiction, List.prefix_refl _⟩
  stream := ⟨List.nil_prefix, fun _ => rfl⟩
  looping := trivial

theorem loops_inv (flag : Flag) (ms : List MsgText) (semid msqid : ℕ) (shm buf : Bytes)
    (sched : List Proc) : LoopInv flag (ms.map MsgText.text)
      ((mailbox flag).run (loopStart flag ms semid msqid shm buf) sched) := by
  have hstep : ∀ s p, LoopInv flag (ms.map MsgText.text) s →
      LoopInv flag (ms.map MsgText.text) ((mailbox flag).next s p) := fun _ p h => h.step p
  exact (mailbox flag).run_invariant_all hstep sched (loopStart_inv flag ms semid msqid shm buf)

/-! ### What the loops do -/

structure Exchange (flag : Flag) (ms : List MsgText) (s : State) : Prop where
  order : s.received <+: s.sent
  list : s.sent <+: ms.map MsgText.text
  unreceived : s.sent.length ≤ s.received.length + 1
  queue : flag = .messagePassing → ∀ m, s.snd.pc = .copy m →
    (∀ q, s.ipc.msq = some q → q.msgs = []) ∧ s.ipc.msgsnd s.snd.msqid ⟨1, m.bytes⟩ ≠ .sleep
  buffer : flag = .sharedMemory → ∀ p, writesShm s p → s.received.length = s.posts

/-- Where the sender is before its copy, everything sent is received. -/
theorem putting_received (hc : s.slot.Counted) (he : s.slot.Exclusive) {m : MsgText}
    (hpc : s.snd.pc = .copy m) :
    s.sent.length = s.received.length ∧ s.received.length = s.posts := by
  have hput : s.sent.length = s.received.length :=
    he.putting (by simp only [State.slot, hpc, SenderPc.phase])
  have hfull : s.ipc.semval FULL + s.received.length ≤ s.posts := hc.full
  have hposted : s.posts ≤ s.sent.length := hc.posted
  exact ⟨hput, by omega⟩

theorem LoopInv.exchange {ms : List MsgText} (h : LoopInv flag (ms.map MsgText.text) s) :
    Exchange flag ms s where
  order := h.mail.pre
  list := h.stream.pre
  unreceived := h.exclusive.behind
  queue := by
    rintro rfl m hpc
    have hlen := (putting_received h.counted h.exclusive hpc).1
    have hempty := h.mail.1.queue_empty hlen
    have hpos : 0 < m.bytes.length := by
      rw [m.len]
      decide
    refine ⟨hempty, Ipc.msgsnd_ne_sleep hpos fun q hq => ⟨hempty q hq, ?_⟩⟩
    rw [m.len]
    exact h.mail.2 q hq
  buffer := by
    intro _ p hp
    cases p with
    | sender =>
      rcases hp with hpc | ⟨m, hpc⟩
      · have hs := h.counted.starting (by simp only [State.slot, hpc, SenderPc.phase])
        have hposted := h.counted.posted
        have hle := h.counted.received_le
        change s.slot.received = s.slot.posts
        omega
      · exact (putting_received h.counted h.exclusive hpc).2
    | receiver => exact absurd hp id

/-- In both modes, for every list of messages and every schedule: what is received is a prefix
of what is sent, at most one message is on its way, the queue is empty whenever `msgsnd` is
called, and the segment is only written when every `V(full)` has been answered by a receive. -/
theorem loops_exchange (flag : Flag) (ms : List MsgText) (semid msqid : ℕ) (shm buf : Bytes)
    (sched : List Proc) :
    Exchange flag ms ((mailbox flag).run (loopStart flag ms semid msqid shm buf) sched) := by
  have hinv := loops_inv flag ms semid msqid shm buf sched
  exact hinv.exchange

end OSLab.Mailbox
