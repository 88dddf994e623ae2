import OSLab.Mailbox.Exchange

/-!
# The exit message and the lines of the file

The receiver stops at the first text that equals `EXIT_MSG`. That is the
sender's last message, unless a line of the file reads the same.
-/

namespace OSLab.Mailbox

open Base Kernel

variable {flag : Flag} {s s' : State}

/-! ### What the receiver has printed -/

/- `strcmp` has still to look at the text received last. -/
def Unread (s : State) : Prop :=
  ∃ l, s.received = l ++ [cstr s.rcv.msgText] ∧ EXIT_MSG ∉ l ∧ s.out = l.map Line.receiving

def Left (s : State) : Prop :=
  ∃ l, s.received = l ++ [EXIT_MSG] ∧ EXIT_MSG ∉ l ∧
    s.out = l.map Line.receiving ++ [Line.senderExit]

def Printed (s : State) : Prop :=
  match s.rcv.pc with
  | .v => Unread s
  | .strcmp => Unread s
  | .remove => Left s
  | .done => Left s
  | .failed => True
  | _ => EXIT_MSG ∉ s.received ∧ s.out = s.received.map Line.receiving

theorem Printed.sender (h : Printed s) : Printed (senderStep flag s) := by
  obtain ⟨hrcv, hreceived, hout⟩ := senderStep_rcv flag s
  simp only [Printed, Unread, Left, hrcv, hreceived, hout]
  exact h

theorem Printed.receiver (h : Printed s) : Printed (receiverStep flag s) := by
  have hstep := receiverStep_cases flag s
  generalize receiverStep flag s = s' at hstep
  cases hstep with
  | stay => exact h
  | fail => trivial
  | msgget hpc =>
    simp only [Printed, hpc] at h
    exact h
  | shmget hpc =>
    simp only [Printed, hpc] at h
    exact h
  | semgetNew hpc =>
    simp only [Printed, hpc] at h
    exact h
  | semgetExists hpc =>
    simp only [Printed, hpc] at h
    exact h
  | semgetOld hpc semid =>
    simp only [Printed, hpc] at h
    exact h
  | setEmpty hpc w hw =>
    simp only [Printed, hpc] at h
    exact h
  | setFull hpc w hw =>
    simp only [Printed, hpc] at h
    exact h
  | p hpc w hw =>
    simp only [Printed, hpc] at h
    exact h
  | msgrcv hpc hflag m w hw =>
    simp only [Printed, hpc] at h
    exact ⟨s.received, rfl, h⟩
  | strncpy hpc hflag =>
    simp only [Printed, hpc] at h
    exact ⟨s.received, rfl, h⟩
  | v hpc w hw =>
    simp only [Printed, hpc] at h
    exact h
  | exit hpc he =>
    simp only [Printed, hpc] at h
    obtain ⟨l, hreceived, hno, hout⟩ := h
    rw [he] at hreceived
    exact ⟨l, hreceived, hno, congrArg (· ++ [Line.senderExit]) hout⟩
  | print hpc he =>
    simp only [Printed, hpc] at h
    obtain ⟨l, hreceived, hno, hout⟩ := h
    constructor
    · change EXIT_MSG ∉ s.received
      rw [hreceived, List.mem_append, List.mem_singleton, not_or]
      exact ⟨hno, fun heq => he heq.symm⟩
    · change s.out ++ [Line.receiving (cstr s.rcv.msgText)] = s.received.map Line.receiving
      rw [hout, hreceived, List.map_append, List.map_singleton]
  | msgRmid hpc =>
    simp only [Printed, hpc] at h
    exact h
  | semRmid hpc =>
    simp only [Printed, hpc] at h
    exact h

theorem Printed.step (h : Printed s) (p : Proc) : Printed ((mailbox flag).next s p) := by
  cases p with
  | sender => exact h.sender
  | receiver => exact h.receiver

/- The receiver is out of its loop. -/
def State.leftLoop (s : State) : Prop := s.rcv.pc = .remove ∨ s.rcv.pc = .done

instance (s : State) : Decidable s.leftLoop := inferInstanceAs (Decidable (_ ∨ _))

theorem Printed.left (h : Printed s) (hleft : s.leftLoop) : Left s := by
  rcases hleft with hpc | hpc
  · simp only [Printed, hpc] at h
    exact h
  · simp only [Printed, hpc] at h
    exact h

/- Every line and the exit message is received, and the receiver has printed what it should. -/
def Complete (lines : List Bytes) (s : State) : Prop :=
  s.received = lines ++ [EXIT_MSG] ∧ s.out = lines.map Line.receiving ++ [Line.senderExit]

instance (lines : List Bytes) (s : State) : Decidable (Complete lines s) :=
  inferInstanceAs (Decidable (_ ∧ _))

/-- The first exit message of a list that has it only at its end is that end. -/
theorem eq_of_prefix_exit {α : Type} {l ls : List α} {e : α} (h : l ++ [e] <+: ls ++ [e])
    (hno : e ∉ ls) : l = ls := by
  rcases List.prefix_concat_iff.mp h with heq | hpre
  · exact List.append_cancel_right heq
  · exact absurd (hpre.subset (List.mem_append_right _ (List.mem_singleton_self e))) hno

theorem Left.complete {lines : List Bytes} (h : Left s)
    (hinv : LoopInv flag (lines ++ [EXIT_MSG]) s) (hno : EXIT_MSG ∉ lines) :
    Complete lines s := by
  obtain ⟨l, hreceived, -, hout⟩ := h
  have hpre := hinv.mail.pre.trans hinv.stream.pre
  rw [hreceived] at hpre
  have heq := eq_of_prefix_exit hpre hno
  rw [heq] at hreceived hout
  exact ⟨hreceived, hout⟩

/-! ### One message after the other -/

section Turns

variable (flag : Flag) (m : MsgText) (ms : List MsgText) (semid msqid : ℕ) (shm buf : Bytes)
  (sent : List Bytes)

/- Both processes between two messages; the texts `sent` have been handed over and printed. -/
def ready : State :=
  { loopStart flag ms semid msqid shm buf with
    sent := sent, posts := sent.length, received := sent, out := sent.map Line.receiving }

/- The message is in the mailbox and `full` is 1. -/
def loadedIpc : Ipc :=
  match flag with
  | .messagePassing => { initialised flag semid msqid shm with
      sem := some ⟨semid, values 0 1⟩, msq := some ⟨msqid, 1024, [⟨1, m.bytes⟩]⟩ }
  | .sharedMemory => { initialised flag semid msqid shm with
      sem := some ⟨semid, values 0 1⟩, shm := toShm m.bytes }

def loaded : State :=
  { ready flag ms semid msqid shm buf sent with
    ipc := loadedIpc flag m semid msqid shm
    sent := sent ++ [m.text]
    posts := sent.length + 1 }

theorem sender_turn :
    (mailbox flag).run (ready flag (m :: ms) semid msqid shm buf sent)
      [.sender, .sender, .sender, .sender] = loaded flag m ms semid msqid shm buf sent := by
  let w0 : Ipc := { initialised flag semid msqid shm with sem := some ⟨semid, values 0 0⟩ }
  have hp : (initialised flag semid msqid shm).semop semid EMPTY (-1) = .ok w0 :=
    semop_empty rfl rfl (by decide)
  have hfgets : senderStep flag (ready flag (m :: ms) semid msqid shm buf sent) =
      { ready flag ms semid msqid shm buf sent with snd := ⟨.p m, ms, msqid, semid⟩ } := rfl
  have htake : senderStep flag
      { ready flag ms semid msqid shm buf sent with snd := ⟨.p m, ms, msqid, semid⟩ } =
      { ready flag ms semid msqid shm buf sent with
        ipc := w0, snd := ⟨.copy m, ms, msqid, semid⟩ } := by
    simp only [senderStep, ready, loopStart, hp]
    rfl
  simp only [Machine.run_cons, Machine.run_nil, next_sender, hfgets, htake]
  cases flag with
  | messagePassing =>
    let w1 : Ipc := { w0 with msq := some ⟨msqid, 1024, [⟨1, m.bytes⟩]⟩ }
    have hsnd : w0.msgsnd msqid ⟨1, m.bytes⟩ = .ok w1 := by
      refine Ipc.msgsnd_eq (q := ⟨msqid, 1024, []⟩) rfl ⟨?_, ?_⟩
      · simp only [MsgQueue.cbytes, List.foldr_nil, m.len]
        decide
      · change 0 + 1 ≤ 1024
        decide
    have hv : w1.semop semid FULL 1 = .ok { w1 with sem := some ⟨semid, values 0 1⟩ } :=
      semop_full rfl rfl (by decide)
    simp only [senderStep, hsnd, sentMsg, State.withIpc, State.sndTo, hv]
    rfl
  | sharedMemory =>
    have hv : Ipc.semop { w0 with shm := toShm m.bytes } semid FULL 1 =
        .ok { w0 with shm := toShm m.bytes, sem := some ⟨semid, values 0 1⟩ } :=
      semop_full rfl rfl (by decide)
    simp only [senderStep, sentMsg, State.withIpc, State.sndTo, hv]
    rfl

/- What the receiver has in `msgText` then, and what the segment holds. -/
def taken : Bytes :=
  match flag with
  | .messagePassing => m.bytes
  | .sharedMemory => fromShm (toShm m.bytes)

def shmAfter : Bytes :=
  match flag with
  | .messagePassing => shm
  | .sharedMemory => toShm m.bytes

theorem cstr_taken : cstr (taken flag m) = m.text := by
  cases flag with
  | messagePassing => rfl
  | sharedMemory => exact cstr_fromShm_toShm m

/- Before `strcmp`. -/
def unread : State :=
  { ready flag ms semid msqid (shmAfter flag m shm) (taken flag m) (sent ++ [m.text]) with
    rcv := ⟨.strcmp, taken flag m, msqid, semid⟩
    out := sent.map Line.receiving }

theorem receiver_turn :
    (mailbox flag).run (loaded flag m ms semid msqid shm buf sent)
      [.receiver, .receiver, .receiver] = unread flag m ms semid msqid shm sent := by
  let w0 : Ipc := { loadedIpc flag m semid msqid shm with sem := some ⟨semid, values 0 0⟩ }
  have hp : (loadedIpc flag m semid msqid shm).semop semid FULL (-1) = .ok w0 := by
    cases flag with
    | messagePassing => exact semop_full rfl rfl (by decide)
    | sharedMemory => exact semop_full rfl rfl (by decide)
  have hget : receiverStep flag (loaded flag m ms semid msqid shm buf sent) =
      { loaded flag m ms semid msqid shm buf sent with
        ipc := w0, rcv := ⟨.copy, buf, msqid, semid⟩ } := by
    simp only [receiverStep, loaded, ready, loopStart, hp]
    rfl
  simp only [Machine.run_cons, Machine.run_nil, next_receiver, hget]
  have htext := cstr_taken flag m
  cases flag with
  | messagePassing =>
    let w1 : Ipc := { w0 with msq := some ⟨msqid, 1024, []⟩ }
    have hrcv : w0.msgrcv msqid MSG_SIZE 1 = .ok (⟨1, m.bytes⟩, w1) :=
      Ipc.msgrcv_eq (q := ⟨msqid, 1024, [⟨1, m.bytes⟩]⟩) (m := ⟨1, m.bytes⟩) rfl rfl
        (Nat.le_of_eq m.len)
    have hv : w1.semop semid EMPTY 1 = .ok { w1 with sem := some ⟨semid, values 1 0⟩ } :=
      semop_empty rfl rfl (by decide)
    simp only [receiverStep, hrcv, receivedMsg, hv]
    simp only [unread, ready, loopStart, List.length_append, List.length_singleton]
    rfl
  | sharedMemory =>
    have hv : w0.semop semid EMPTY 1 = .ok { w0 with sem := some ⟨semid, values 1 0⟩ } :=
      semop_empty rfl rfl (by decide)
    have hfrom : cstr (fromShm w0.shm) = m.text := htext
    simp only [receiverStep, receivedMsg, hv, hfrom]
    simp only [unread, ready, loopStart, List.length_append, List.length_singleton]
    rfl

/- Both processes in turn: one message is sent, received and looked at. -/
def round : List Proc :=
  [.sender, .sender, .sender, .sender, .receiver, .receiver, .receiver, .receiver]

theorem round_run :
    (mailbox flag).run (ready flag (m :: ms) semid msqid shm buf sent) round =
      receiverStep flag (unread flag m ms semid msqid shm sent) := by
  have hsplit : round = [.sender, .sender, .sender, .sender] ++
      ([.receiver, .receiver, .receiver] ++ [.receiver]) := rfl
  rw [hsplit, Machine.run_append, sender_turn, Machine.run_append, receiver_turn]
  rfl

theorem round_next (h : m.text ≠ EXIT_MSG) :
    (mailbox flag).run (ready flag (m :: ms) semid msqid shm buf sent) round =
      ready flag ms semid msqid (shmAfter flag m shm) (taken flag m) (sent ++ [m.text]) := by
  rw [round_run]
  simp only [receiverStep, unread, cstr_taken, h, ite_false]
  simp only [ready, State.rcvTo, loopStart, List.map_append, List.map_singleton]

theorem round_exit (h : m.text = EXIT_MSG) :
    let s := (mailbox flag).run (ready flag (m :: ms) semid msqid shm buf sent) round
    s.leftLoop ∧ s.out = sent.map Line.receiving ++ [Line.senderExit] := by
  rw [round_run]
  simp only [receiverStep, unread, cstr_taken, h, ite_true]
  exact ⟨Or.inl rfl, trivial⟩

end Turns

/-- Turn by turn the receiver gets to the first exit message of the list and leaves there. -/
theorem leaves_at_exit (flag : Flag) (semid msqid : ℕ) {ms : List MsgText}
    (h : EXIT_MSG ∈ ms.map MsgText.text) (shm buf : Bytes) (sent : List Bytes) :
    ∃ sched l, l ++ [EXIT_MSG] <+: ms.map MsgText.text ∧ EXIT_MSG ∉ l ∧
      let s := (mailbox flag).run (ready flag ms semid msqid shm buf sent) sched
      s.leftLoop ∧ s.out = (sent ++ l).map Line.receiving ++ [Line.senderExit] := by
  induction ms generalizing shm buf sent with
  | nil => exact absurd h List.not_mem_nil
  | cons m ms ih =>
    by_cases he : m.text = EXIT_MSG
    · refine ⟨round, [], ?_, List.not_mem_nil, ?_⟩
      · rw [List.map_cons, he]
        exact ⟨ms.map MsgText.text, rfl⟩
      · rw [List.append_nil]
        exact round_exit flag m ms semid msqid shm buf sent he
    · rw [List.map_cons, List.mem_cons] at h
      have htail := h.resolve_left fun heq => he heq.symm
      obtain ⟨sched, l, hpre, hno, hend⟩ :=
        ih htail (shmAfter flag m shm) (taken flag m) (sent ++ [m.text])
      refine ⟨round ++ sched, m.text :: l, ?_, ?_, ?_⟩
      · rw [List.map_cons]
        exact List.prefix_cons_inj m.text |>.mpr hpre
      · rw [List.mem_cons, not_or]
        exact ⟨fun heq => he heq.symm, hno⟩
      · rw [Machine.run_append, round_next flag m ms semid msqid shm buf sent he]
        rw [List.append_assoc, List.singleton_append] at hend
        exact hend

/-! ### The printed file -/

theorem loops_printed (flag : Flag) (ms : List MsgText) (semid msqid : ℕ) (shm buf : Bytes)
    (sched : List Proc) :
    Printed ((mailbox flag).run (loopStart flag ms semid msqid shm buf) sched) := by
  have hstep : ∀ s p, Printed s → Printed ((mailbox flag).next s p) := fun _ p h => h.step p
  exact (mailbox flag).run_invariant_all hstep sched ⟨List.not_mem_nil, rfl⟩

/- The loops on the messages of a file. -/
def fileRun (flag : Flag) (msg : MsgBuf) (file : Bytes) (semid msqid : ℕ) (shm buf : Bytes)
    (sched : List Proc) : State :=
  (mailbox flag).run (loopStart flag (messages msg file) semid msqid shm buf) sched

/-- In every interleaving of the loops the receiver that leaves has received and printed the
whole file, if and only if no line of the file is the exit message. -/
theorem prints_file_iff (flag : Flag) (msg : MsgBuf) (file : Bytes) (semid msqid : ℕ)
    (shm buf : Bytes) (hnul : ∀ b ∈ file, b ≠ 0) (hfits : ∀ l ∈ fileLines file, l.length ≤ 1022) :
    (∀ sched,
      let s := fileRun flag msg file semid msqid shm buf sched
      s.leftLoop → Complete (fileLines file) s) ↔ ∀ l ∈ fileLines file, l ≠ EXIT_MSG := by
  have htexts : (messages msg file).map MsgText.text = fileLines file ++ [EXIT_MSG] :=
    messages_text hnul fun l hl => Nat.lt_succ_of_le (hfits l hl)
  constructor
  · intro hall l hl he
    subst he
    have hmem : EXIT_MSG ∈ (messages msg file).map MsgText.text := by
      rw [htexts]
      exact List.mem_append_left _ hl
    obtain ⟨sched, l, hpre, hno, hleft, hout⟩ :=
      leaves_at_exit flag semid msqid hmem shm buf []
    have hcomplete := (hall sched hleft).2
    -- the receiver has printed the lines before the first exit line and no more
    have hlines : l.map Line.receiving ++ [Line.senderExit] =
        (fileLines file).map Line.receiving ++ [Line.senderExit] := hout.symm.trans hcomplete
    have hlen := congrArg List.length (List.append_cancel_right hlines)
    rw [List.length_map, List.length_map] at hlen
    rw [htexts] at hpre
    have hpre' : l <+: fileLines file := by
      refine List.prefix_of_prefix_length_le ((List.prefix_append l [EXIT_MSG]).trans hpre)
        (List.prefix_append _ _) ?_
      omega
    rw [hpre'.eq_of_length hlen] at hno
    exact hno hl
  · intro hlines sched
    have hinv := loops_inv flag (messages msg file) semid msqid shm buf sched
    rw [htexts] at hinv
    have hprinted := loops_printed flag (messages msg file) semid msqid shm buf sched
    intro s hleft
    exact (hprinted.left hleft).complete hinv fun hmem => hlines EXIT_MSG hmem rfl

theorem prints_file_iff_oneLine :
    (∀ sched,
      let s := fileRun .sharedMemory zeroBuf [97, 10] 0 0 [] [] sched
      s.leftLoop → Complete (fileLines [97, 10]) s) ↔ ∀ l ∈ fileLines [97, 10], l ≠ EXIT_MSG :=
  prints_file_iff .sharedMemory zeroBuf [97, 10] 0 0 [] [] (by decide +kernel) (by decide +kernel)

/-- A file of the lines `exit` and `b`: the receiver reports the end and prints neither. -/
theorem exit_line_ends : ∃ sched,
    let s := fileRun .sharedMemory zeroBuf (EXIT_MSG ++ [10, 98, 10]) 0 0 [] [] sched
    s.leftLoop ∧ s.out = [.senderExit] ∧ ¬ Complete (fileLines (EXIT_MSG ++ [10, 98, 10])) s := by
  refine ⟨round, ?_⟩
  decide +kernel

end OSLab.Mailbox
