import OSLab.Mailbox.Exchange

/-!
# The start of both programs

Sender and receiver set the semaphores without waiting for each other. The
receiver that has created the set may set `empty` to 1 after the sender has
taken it; in shared memory mode the sender then overwrites its first message.
-/

namespace OSLab.Mailbox

open Base Kernel

variable {flag : Flag} {s : State}

/- No semaphore set exists. A queue may be left from a run before; the messages of the two
programs have 1024 bytes, so there are bytes in it unless it is empty. -/
structure Fresh (w : Ipc) : Prop where
  noSem : w.sem = none
  leftOver : ∀ q, w.msq = some q → q.msgs = [] ∨ 0 < q.cbytes

/- The step leaves a prefix of what is sent received, and does not write over a text that is
not received yet. -/
def Delivers (flag : Flag) (s : State) (p : Proc) : Prop :=
  ((mailbox flag).next s p).received <+: ((mailbox flag).next s p).sent ∧
    (flag = .sharedMemory → writesShm s p → s.received = s.sent)

/- The receiver is about to set `empty` to 1 though the sender has taken it for the first of
several messages. -/
def Rearms (flag : Flag) (ms : List MsgText) (s : State) (p : Proc) : Prop :=
  flag = .sharedMemory ∧ 2 ≤ ms.length ∧ p = .receiver ∧ s.rcv.pc = .setEmpty ∧ s.slot.Taken

theorem start_counted (ms : List MsgText) (w : Ipc) (buf : Bytes) (hw : Fresh w) :
    (start ms w buf).slot.Counted := by
  have hzero : w.semval FULL = 0 := by simp only [Ipc.semval, hw.noSem]
  refine ⟨?_, fun h => by contradiction, Nat.le_refl _, fun h => by contradiction, fun _ => rfl,
    fun h => by contradiction⟩
  exact Nat.le_of_eq hzero

theorem start_exclusive (ms : List MsgText) (w : Ipc) (buf : Bytes) (hw : Fresh w) :
    (start ms w buf).slot.Exclusive := by
  have he : w.semval EMPTY = 0 := by simp only [Ipc.semval, hw.noSem]
  have hf : w.semval FULL = 0 := by simp only [Ipc.semval, hw.noSem]
  refine ⟨?_, Nat.zero_le _, fun _ => rfl, fun _ => rfl, fun _ => rfl⟩
  change w.semval EMPTY + w.semval FULL + 0 + 0 ≤ 1
  omega

theorem next_counted (h : s.slot.Counted) (p : Proc) :
    ((mailbox flag).next s p).slot.Counted := by
  cases p with
  | sender => exact h.step (senderStep_slot flag s)
  | receiver =>
    rcases receiverStep_slot flag s with hslot | ⟨-, hslot⟩
    · exact h.step hslot
    · rw [next_receiver, hslot]
      exact h.rearmed

theorem next_stream {l : List Bytes} (h : Stream l s) (p : Proc) :
    Stream l ((mailbox flag).next s p) := by
  cases p with
  | sender => exact h.sender
  | receiver => exact h.receiver

theorem received_of_sent (h : s.slot.Counted) (hs : s.sent = []) : s.received = [] := by
  have hle : s.received.length ≤ s.sent.length := h.received_le
  rw [hs] at hle
  exact List.length_eq_zero_iff.mp (Nat.le_zero.mp hle)

/-- `memset` comes before the first message. -/
theorem prepare_received (h : s.slot.Counted) (hpc : s.snd.pc = .prepare) :
    s.received = s.sent := by
  have hs : s.sent = [] := starting_sent h (by rw [hpc]; rfl)
  rw [hs]
  exact received_of_sent h hs

/-! ### Message passing -/

/- The sender has set the limit of the queue. -/
def SenderPc.limited : SenderPc → Prop
  | .attach => False
  | .prepare => False
  | .done => False
  | .failed => False
  | _ => True

/- The receiver has not taken `full` yet. -/
def ReceiverPc.waits : ReceiverPc → Prop
  | .copy => False
  | .v => False
  | .strcmp => False
  | .remove => False
  | _ => True

/-- A queue with a message left from before: no message of this run gets into it. -/
structure Stuck (s : State) : Prop where
  queue : ∃ q, s.ipc.msq = some q ∧ 0 < q.cbytes ∧ (s.snd.pc.limited → q.qbytes ≤ MSG_SIZE)
  unsent : s.sent = []
  waits : s.rcv.pc.waits

theorem Stuck.congr {s' : State} (h : Stuck s) (hmsq : s'.ipc.msq = s.ipc.msq)
    (hlimited : s'.snd.pc.limited → s.snd.pc.limited) (hsent : s'.sent = s.sent)
    (hwaits : s'.rcv.pc.waits) : Stuck s' := by
  obtain ⟨q, hq, hbytes, hlimit⟩ := h.queue
  refine ⟨⟨q, hmsq.trans hq, hbytes, fun hl => hlimit (hlimited hl)⟩, ?_, hwaits⟩
  rw [hsent]
  exact h.unsent

theorem Stuck.sender (h : Stuck s) : Stuck (senderStep .messagePassing s) := by
  obtain ⟨q, hq, hbytes, hlimit⟩ := h.queue
  have hstep := senderStep_cases .messagePassing s
  generalize senderStep .messagePassing s = s' at hstep
  have hafter {pc : SenderPc} (hpc : s.snd.pc = pc) (hpast : pc.limited) {P : Prop} :
      P → s.snd.pc.limited := fun _ => hpc ▸ hpast
  cases hstep with
  | stay => exact h
  | stop pc hpc =>
    refine h.congr rfl (fun hl => ?_) rfl h.waits
    rcases hpc with rfl | rfl <;> exact absurd hl id
  | msgget hpc =>
    have hmsq : s.ipc.msgget.2.msq = s.ipc.msq := by simp only [Ipc.msgget, hq]
    exact h.congr hmsq (fun hl => absurd hl id) rfl h.waits
  | shmget hpc => exact h.congr rfl (fun hl => absurd hl id) rfl h.waits
  | setQbytes hpc w hw =>
    obtain ⟨⟨p, hp, hp'⟩, -⟩ := Ipc.setQbytes_some hw
    obtain rfl : p = q := Option.some.inj (hp.symm.trans hq)
    exact ⟨⟨_, hp', hbytes, fun _ => Nat.le_refl _⟩, h.unsent, h.waits⟩
  | memset hpc hflag => contradiction
  | semget hpc =>
    exact h.congr (Ipc.semget_sameMail s.ipc).msq (hafter hpc trivial) rfl h.waits
  | setEmpty hpc w hw =>
    exact h.congr (Ipc.setVal_some hw).2.msq (hafter hpc trivial) rfl h.waits
  | setFull hpc w hw =>
    exact h.congr (Ipc.setVal_some hw).2.msq (hafter hpc trivial) rfl h.waits
  | fgets hpc m ms hms => exact h.congr rfl (hafter hpc trivial) rfl h.waits
  | p m hpc w hw => exact h.congr (Ipc.semop_ok hw).2.2.msq (hafter hpc trivial) rfl h.waits
  | msgsnd m hpc hflag w hw =>
    have hroom := Ipc.msgsnd_room hw hq
    have hle := hlimit (hafter hpc trivial trivial)
    simp only [m.len] at hroom
    omega
  | strncpy m hpc hflag => contradiction
  | v hpc w hw => exact h.congr (Ipc.semop_ok hw).2.2.msq (hafter hpc trivial) rfl h.waits

theorem Stuck.receiver (h : Stuck s) (hc : s.slot.Counted) :
    Stuck (receiverStep .messagePassing s) := by
  obtain ⟨q, hq, -, -⟩ := h.queue
  have hwaits := h.waits
  have hstep := receiverStep_cases .messagePassing s
  generalize receiverStep .messagePassing s = s' at hstep
  cases hstep with
  | stay => exact h
  | fail => exact h.congr rfl id rfl trivial
  | msgget hpc =>
    have hmsq : s.ipc.msgget.2.msq = s.ipc.msq := by simp only [Ipc.msgget, hq]
    exact h.congr hmsq id rfl trivial
  | shmget hpc => exact h.congr rfl id rfl trivial
  | semgetNew hpc => exact h.congr (Ipc.semget_sameMail s.ipc).msq id rfl trivial
  | semgetExists hpc => exact h.congr rfl id rfl trivial
  | semgetOld hpc semid => exact h.congr rfl id rfl trivial
  | setEmpty hpc w hw => exact h.congr (Ipc.setVal_some hw).2.msq id rfl trivial
  | setFull hpc w hw => exact h.congr (Ipc.setVal_some hw).2.msq id rfl trivial
  | p hpc w hw =>
    -- nothing was posted, so `full` is 0
    have htaken := (Ipc.semop_take hw).1
    have hfull : s.ipc.semval FULL + s.received.length ≤ s.posts := hc.full
    have hposted : s.posts ≤ s.sent.length := hc.posted
    rw [h.unsent, List.length_nil] at hposted
    omega
  | msgrcv hpc hflag m w hw =>
    rw [hpc] at hwaits
    exact absurd hwaits id
  | strncpy hpc hflag => contradiction
  | v hpc w hw =>
    rw [hpc] at hwaits
    exact absurd hwaits id
  | exit hpc he =>
    rw [hpc] at hwaits
    exact absurd hwaits id
  | print hpc he =>
    rw [hpc] at hwaits
    exact absurd hwaits id
  | msgRmid hpc =>
    rw [hpc] at hwaits
    exact absurd hwaits id
  | semRmid hpc =>
    rw [hpc] at hwaits
    exact absurd hwaits id

theorem queue_step (hc : s.slot.Counted) (h : Fifo s ∨ Stuck s) (p : Proc) :
    Fifo ((mailbox .messagePassing).next s p) ∨ Stuck ((mailbox .messagePassing).next s p) := by
  rcases h with hf | hs
  · left
    cases p with
    | sender => exact hf.sender (starting_sent hc)
    | receiver => exact hf.receiver
  · right
    cases p with
    | sender => exact hs.sender
    | receiver => exact hs.receiver hc

/-- The queue keeps the order of the messages whatever the semaphores are. -/
theorem queue_delivers (ms : List MsgText) {w : Ipc} (buf : Bytes) (hw : Fresh w)
    (sched : List Proc) :
    (mailbox .messagePassing).EveryStep (Delivers .messagePassing) (start ms w buf) sched := by
  have hstep : ∀ s p, s.slot.Counted ∧ (Fifo s ∨ Stuck s) → True →
      Delivers .messagePassing s p ∧ ((mailbox .messagePassing).next s p).slot.Counted ∧
        (Fifo ((mailbox .messagePassing).next s p) ∨
          Stuck ((mailbox .messagePassing).next s p)) := by
    intro s p ⟨hc, hqueue⟩ _
    have hcnext : ((mailbox .messagePassing).next s p).slot.Counted := next_counted hc p
    have hnext := queue_step hc hqueue p
    refine ⟨⟨?_, fun h => by contradiction⟩, hcnext, hnext⟩
    rcases hnext with hf | hs
    · exact hf.pre
    · rw [received_of_sent hcnext hs.unsent]
      exact List.nil_prefix
  have h0 : Fifo (start ms w buf) ∨ Stuck (start ms w buf) := by
    by_cases hq : ∃ q, w.msq = some q ∧ q.msgs ≠ []
    · obtain ⟨q, hq, hne⟩ := hq
      have hbytes := (hw.leftOver q hq).resolve_left hne
      exact Or.inr ⟨⟨q, hq, hbytes, fun h => absurd h id⟩, rfl, trivial⟩
    · have hnil : ∀ q, w.msq = some q → q.msgs = [] := fun q hmsq => by
        by_contra hne
        exact hq ⟨q, hmsq, hne⟩
      refine Or.inl ⟨fun q hmsq x hx => ?_, fun q hmsq => ?_, List.prefix_refl _,
        fun _ => Or.inl rfl⟩
      · rw [hnil q hmsq] at hx
        exact absurd hx List.not_mem_nil
      · rw [hnil q hmsq]
        rfl
  exact (mailbox .messagePassing).everyStep_of_invariant hstep ⟨start_counted ms w buf hw, h0⟩
    ((mailbox .messagePassing).everyStep_of_forall (fun _ _ => trivial) _ sched)

/-! ### Shared memory -/

theorem start_cell (ms : List MsgText) (w : Ipc) (buf : Bytes) : Cell (start ms w buf) :=
  ⟨fun x hx => by contradiction, List.prefix_refl _⟩

theorem start_stream (ms : List MsgText) (w : Ipc) (buf : Bytes) :
    Stream (ms.map MsgText.text) (start ms w buf) :=
  ⟨List.nil_prefix, fun _ => rfl⟩

theorem next_cell (h : Cell s) (hc : s.slot.Counted)
    (hahead : s.rcv.pc = .copy → s.sent.length = s.received.length + 1) (p : Proc) :
    Cell ((mailbox .sharedMemory).next s p) := by
  cases p with
  | sender => exact h.sender (starting_sent hc)
  | receiver => exact h.receiver hahead

theorem single_delivers {ms : List MsgText} (w : Ipc) (buf : Bytes) (hw : Fresh w)
    (hms : ms.length ≤ 1) (sched : List Proc) :
    (mailbox .sharedMemory).EveryStep (Delivers .sharedMemory) (start ms w buf) sched := by
  have hlen : (ms.map MsgText.text).length ≤ 1 := by
    rw [List.length_map]
    exact hms
  have hstep : ∀ s p, s.slot.Counted ∧ Cell s ∧ Stream (ms.map MsgText.text) s → True →
      Delivers .sharedMemory s p ∧ ((mailbox .sharedMemory).next s p).slot.Counted ∧
        Cell ((mailbox .sharedMemory).next s p) ∧
        Stream (ms.map MsgText.text) ((mailbox .sharedMemory).next s p) := by
    intro s p ⟨hc, hcell, hstream⟩ _
    have hsent := hstream.pre.length_le
    have hahead : s.rcv.pc = .copy → s.sent.length = s.received.length + 1 := by
      intro hpc
      have hget : s.ipc.semval FULL + s.received.length < s.posts :=
        hc.getting (by simp only [State.slot, hpc, ReceiverPc.phase])
      have hposted : s.posts ≤ s.sent.length := hc.posted
      omega
    have hnext := next_cell hcell hc hahead p
    refine ⟨⟨hnext.pre, fun _ hwrite => ?_⟩, next_counted hc p, hnext, next_stream hstream p⟩
    cases p with
    | sender =>
      rcases hwrite with hpc | ⟨m, hpc⟩
      · exact prepare_received hc hpc
      · -- the message at hand is the only one
        have hrest := hstream.rest (by rw [hpc]; exact id)
        have hsum := congrArg List.length hrest
        simp only [Sender.pending, hpc, List.length_append, List.length_cons] at hsum
        have hnil : s.sent = [] := List.length_eq_zero_iff.mp (by omega)
        rw [hnil]
        exact received_of_sent hc hnil
    | receiver => exact absurd hwrite id
  exact (mailbox .sharedMemory).everyStep_of_invariant hstep
    ⟨start_counted ms w buf hw, start_cell ms w buf, start_stream ms w buf⟩
    ((mailbox .sharedMemory).everyStep_of_forall (fun _ _ => trivial) _ sched)

/-- Without the late SETVAL the slot stays exclusive from the first step on. -/
theorem next_exclusive (h : s.slot.Exclusive) (hc : s.slot.Counted) {p : Proc}
    (hrearm : ¬ (p = .receiver ∧ s.rcv.pc = .setEmpty ∧ s.slot.Taken)) :
    ((mailbox flag).next s p).slot.Exclusive := by
  cases p with
  | sender => exact h.step hc (senderStep_slot flag s)
  | receiver =>
    rcases receiverStep_slot flag s with hslot | ⟨hpc, hslot⟩
    · exact h.step hc hslot
    · rw [next_receiver, hslot]
      refine h.rearmed hc ?_ fun htaken => hrearm ⟨rfl, hpc, htaken⟩
      simp only [State.slot, hpc, ReceiverPc.phase, Phase.holds_outside]

theorem timely_delivers (ms : List MsgText) (w : Ipc) (buf : Bytes) (hw : Fresh w)
    {sched : List Proc} (h : (mailbox .sharedMemory).EveryStep
      (fun s p => ¬ (p = .receiver ∧ s.rcv.pc = .setEmpty ∧ s.slot.Taken)) (start ms w buf) sched) :
    (mailbox .sharedMemory).EveryStep (Delivers .sharedMemory) (start ms w buf) sched := by
  have hstep : ∀ s p, s.slot.Counted ∧ s.slot.Exclusive ∧ Cell s →
      ¬ (p = .receiver ∧ s.rcv.pc = .setEmpty ∧ s.slot.Taken) →
      Delivers .sharedMemory s p ∧ ((mailbox .sharedMemory).next s p).slot.Counted ∧
        ((mailbox .sharedMemory).next s p).slot.Exclusive ∧
        Cell ((mailbox .sharedMemory).next s p) := by
    intro s p ⟨hc, he, hcell⟩ hrearm
    have hnext := next_cell hcell hc (copy_ahead hc he) p
    refine ⟨⟨hnext.pre, fun _ hwrite => ?_⟩, next_counted hc p, next_exclusive he hc hrearm, hnext⟩
    cases p with
    | sender =>
      rcases hwrite with hpc | ⟨m, hpc⟩
      · exact prepare_received hc hpc
      · exact hcell.pre.eq_of_length (putting_received hc he hpc).1.symm
    | receiver => exact absurd hwrite id
  exact (mailbox .sharedMemory).everyStep_of_invariant hstep
    ⟨start_counted ms w buf hw, start_exclusive ms w buf hw, start_cell ms w buf⟩ h

/-! ### The late SETVAL -/

section Overwrite

variable (msq : Option MsgQueue) (seq : ℕ) (buf : Bytes) (m₁ m₂ : MsgText) (ms : List MsgText)

/- The set that the receiver has created, with the values `e` and `f`. -/
def madeIpc (e f : ℕ) (shm : Bytes) : Ipc := ⟨some ⟨seq, values e f⟩, msq, shm, seq + 1⟩

/- The receiver stands before its SETVAL of `empty`. -/
def waiting (w : Ipc) (pc : SenderPc) (todo : List MsgText) (sent : List Bytes) : State where
  ipc := w
  snd := ⟨pc, todo, 0, seq⟩
  rcv := ⟨.setEmpty, buf, 0, seq⟩
  sent := sent
  posts := sent.length
  received := []
  out := []

/- Both processes attach, the receiver creates the set, the sender initialises it. -/
def initSched : List Proc :=
  [.receiver, .receiver, .sender, .sender, .sender, .sender, .sender]

theorem initSched_run (todo : List MsgText) (shm : Bytes) :
    (mailbox .sharedMemory).run (start todo ⟨none, msq, shm, seq⟩ buf) initSched =
      waiting seq buf (madeIpc msq seq 1 0 (List.replicate MSG_SIZE 0)) .fgets todo [] := by
  have hzero : (fun _ => 0) = values 0 0 := by
    funext n
    simp only [values, ite_self]
  let w0 := madeIpc msq seq 0 0 (List.replicate MSG_SIZE 0)
  let w1 := madeIpc msq seq 1 0 (List.replicate MSG_SIZE 0)
  have hmade : (mailbox .sharedMemory).run (start todo ⟨none, msq, shm, seq⟩ buf)
      [.receiver, .receiver, .sender, .sender, .sender] =
        waiting seq buf w0 .setEmpty todo [] := by
    simp only [w0, madeIpc, ← hzero]
    rfl
  have he : w0.setVal seq EMPTY 1 = some w1 := by
    have h := Ipc.setVal_eq (w := w0) rfl EMPTY 1
    rw [update_values_empty] at h
    exact h
  have hf : w1.setVal seq FULL 0 = some w1 := by
    have h := Ipc.setVal_eq (w := w1) rfl FULL 0
    rw [update_values_full] at h
    exact h
  have hsplit : initSched = [.receiver, .receiver, .sender, .sender, .sender] ++
      [.sender, .sender] := rfl
  rw [hsplit, Machine.run_append, hmade]
  simp only [Machine.run_cons, Machine.run_nil, next_sender, senderStep, waiting, he,
    State.withIpc, State.sndTo, hf]
  rfl

/- The first message up to `P(empty)` of the second, which waits. -/
def firstSched : List Proc := [.sender, .sender, .sender, .sender, .sender]

theorem firstSched_run (shm : Bytes) :
    (mailbox .sharedMemory).run
      (waiting seq buf (madeIpc msq seq 1 0 shm) .fgets (m₁ :: m₂ :: ms) []) firstSched =
      waiting seq buf (madeIpc msq seq 0 1 (toShm m₁.bytes)) (.p m₂) ms [m₁.text] := by
  have hp : (madeIpc msq seq 1 0 shm).semop seq EMPTY (-1) = .ok (madeIpc msq seq 0 0 shm) :=
    semop_empty rfl rfl (by decide)
  have hv : (madeIpc msq seq 0 0 (toShm m₁.bytes)).semop seq FULL 1 =
      .ok (madeIpc msq seq 0 1 (toShm m₁.bytes)) :=
    semop_full rfl rfl (by decide)
  have hfgets : senderStep .sharedMemory
      (waiting seq buf (madeIpc msq seq 1 0 shm) .fgets (m₁ :: m₂ :: ms) []) =
        waiting seq buf (madeIpc msq seq 1 0 shm) (.p m₁) (m₂ :: ms) [] := rfl
  have htake : senderStep .sharedMemory
      (waiting seq buf (madeIpc msq seq 1 0 shm) (.p m₁) (m₂ :: ms) []) =
        waiting seq buf (madeIpc msq seq 0 0 shm) (.copy m₁) (m₂ :: ms) [] := by
    simp only [senderStep, waiting, hp]
    rfl
  have hput : senderStep .sharedMemory
      (waiting seq buf (madeIpc msq seq 0 0 shm) (.copy m₁) (m₂ :: ms) []) =
        { waiting seq buf (madeIpc msq seq 0 0 (toShm m₁.bytes)) .v (m₂ :: ms) [m₁.text] with
          posts := 0 } := rfl
  have hpost : senderStep .sharedMemory
      { waiting seq buf (madeIpc msq seq 0 0 (toShm m₁.bytes)) .v (m₂ :: ms) [m₁.text] with
        posts := 0 } =
        waiting seq buf (madeIpc msq seq 0 1 (toShm m₁.bytes)) .fgets (m₂ :: ms) [m₁.text] := by
    simp only [senderStep, waiting, hv]
    rfl
  simp only [firstSched, Machine.run_cons, Machine.run_nil, next_sender, hfgets, htake, hput, hpost]
  rfl

/- SETVAL of `empty` by the receiver, and `P(empty)` of the second message. -/
theorem rearm_run (shm : Bytes) :
    (mailbox .sharedMemory).run
      (waiting seq buf (madeIpc msq seq 0 1 shm) (.p m₂) ms [m₁.text]) [.receiver, .sender] =
      { waiting seq buf (madeIpc msq seq 0 1 shm) (.copy m₂) ms [m₁.text] with
        rcv := ⟨.setFull, buf, 0, seq⟩ } := by
  have he : (madeIpc msq seq 0 1 shm).setVal seq EMPTY 1 = some (madeIpc msq seq 1 1 shm) := by
    have h := Ipc.setVal_eq (w := madeIpc msq seq 0 1 shm) rfl EMPTY 1
    rw [update_values_empty] at h
    exact h
  have hp : (madeIpc msq seq 1 1 shm).semop seq EMPTY (-1) = .ok (madeIpc msq seq 0 1 shm) :=
    semop_empty rfl rfl (by decide)
  have hrearm : receiverStep .sharedMemory
      (waiting seq buf (madeIpc msq seq 0 1 shm) (.p m₂) ms [m₁.text]) =
        { waiting seq buf (madeIpc msq seq 1 1 shm) (.p m₂) ms [m₁.text] with
          rcv := ⟨.setFull, buf, 0, seq⟩ } := by
    simp only [receiverStep, waiting, he]
    rfl
  simp only [Machine.run_cons, Machine.run_nil, next_receiver, next_sender, hrearm]
  simp only [senderStep, waiting, hp]
  rfl

end Overwrite

/- The receiver's SETVAL comes after the first message, the second one overwrites it. -/
def lateSched : List Proc := initSched ++ (firstSched ++ ([.receiver, .sender] ++ [.sender]))

theorem late_overwrites (m₁ m₂ : MsgText) (ms : List MsgText) {w : Ipc} (buf : Bytes)
    (hw : w.sem = none) : ¬ (mailbox .sharedMemory).EveryStep (Delivers .sharedMemory)
      (start (m₁ :: m₂ :: ms) w buf) lateSched := by
  obtain ⟨sem, msq, shm, seq⟩ := w
  obtain rfl : sem = none := hw
  intro h
  simp only [lateSched, Machine.everyStep_append, initSched_run, firstSched_run, rearm_run] at h
  have hlost : ([] : List Bytes) = [m₁.text] := h.2.2.2.1.2 rfl (Or.inr ⟨m₂, rfl⟩)
  contradiction

/-! ### When nothing is lost -/

/-- In every run in which the receiver does not set `empty` again after the sender has taken it,
the messages are delivered. They are so in every interleaving of the two programs if and only if
they go through the queue or there is just one of them. -/
theorem startup_delivers_iff (flag : Flag) (ms : List MsgText) (w : Ipc) (buf : Bytes)
    (hw : Fresh w) :
    (∀ sched, (mailbox flag).EveryStep (fun s p => ¬ Rearms flag ms s p) (start ms w buf) sched →
      (mailbox flag).EveryStep (Delivers flag) (start ms w buf) sched) ∧
    ((∀ sched, (mailbox flag).EveryStep (Delivers flag) (start ms w buf) sched) ↔
      flag = .messagePassing ∨ ms.length ≤ 1) := by
  cases flag with
  | messagePassing =>
    have hall := queue_delivers ms buf hw
    exact ⟨fun sched _ => hall sched, fun _ => Or.inl rfl, fun _ => hall⟩
  | sharedMemory =>
    refine ⟨fun sched h => ?_, fun hall => Or.inr ?_, fun hlen => ?_⟩
    · rcases Nat.lt_or_ge 1 ms.length with hlen | hlen
      · refine timely_delivers ms w buf hw ?_
        refine (mailbox .sharedMemory).everyStep_of_invariant (P := fun _ => True)
          (fun s p _ hr => ⟨fun hcon => hr ⟨rfl, hlen, hcon⟩, trivial⟩) trivial h
      · exact single_delivers w buf hw hlen sched
    · match ms, hall with
      | [], _ => exact Nat.zero_le _
      | [m], _ => exact Nat.le_refl _
      | m₁ :: m₂ :: ms, hall => exact absurd (hall lateSched) (late_overwrites m₁ m₂ ms buf hw.noSem)
    · rcases hlen with hflag | hlen
      · contradiction
      · exact single_delivers w buf hw hlen

theorem startup_delivers_iff_oneLine :
    (∀ sched, (mailbox .sharedMemory).EveryStep
        (fun s p => ¬ Rearms .sharedMemory (messages zeroBuf [97, 10]) s p)
        (start (messages zeroBuf [97, 10]) ⟨none, none, [], 0⟩ []) sched →
      (mailbox .sharedMemory).EveryStep (Delivers .sharedMemory)
        (start (messages zeroBuf [97, 10]) ⟨none, none, [], 0⟩ []) sched) ∧
    ((∀ sched, (mailbox .sharedMemory).EveryStep (Delivers .sharedMemory)
        (start (messages zeroBuf [97, 10]) ⟨none, none, [], 0⟩ []) sched) ↔
      Flag.sharedMemory = .messagePassing ∨ (messages zeroBuf [97, 10]).length ≤ 1) :=
  startup_delivers_iff .sharedMemory (messages zeroBuf [97, 10]) ⟨none, none, [], 0⟩ []
    ⟨rfl, fun _ h => by contradiction⟩

/- Both SETVALs of the receiver fall between the sender's first `P(empty)` and its copy. -/
def lostSched : List Proc :=
  initSched ++ [.sender, .sender, .receiver, .receiver] ++ List.replicate 6 .sender ++
    [.receiver, .receiver]

/-- The file of the line `a`: the message `a` is overwritten, the receiver gets the exit message
first. -/
theorem late_setval_loses : ∃ sched,
    let s := (mailbox .sharedMemory).run
      (start (messages zeroBuf [97, 10]) ⟨none, none, List.replicate 1024 0, 0⟩ []) sched
    s.sent = [[97], EXIT_MSG] ∧ s.received = [EXIT_MSG] ∧ ¬ s.received <+: s.sent := by
  refine ⟨lostSched, ?_⟩
  decide +kernel

end OSLab.Mailbox
