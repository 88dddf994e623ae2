import OSLab.Mailbox.Handoff

/-!
# What is in the mailbox

In message passing mode the texts sent and not received are those in the queue.
In shared memory mode the segment holds the text sent last. In both modes the
sender works through its list.
-/

namespace OSLab.Mailbox

open Base Kernel

variable {flag : Flag} {s s' : State}

/-! ### The queue -/

def ReceiverPc.ended : ReceiverPc → Prop
  | .done => True
  | .failed => True
  | _ => False

structure Fifo (s : State) : Prop where
  typed : ∀ q, s.ipc.msq = some q → ∀ x ∈ q.msgs, x.mType = 1
  order : ∀ q, s.ipc.msq = some q → s.sent = s.received ++ q.msgs.map fun x => cstr x.msgText
  pre : s.received <+: s.sent
  gone : s.ipc.msq = none → s.sent = [] ∨ s.rcv.pc.ended

theorem Fifo.congr (h : Fifo s) (hmsq : s'.ipc.msq = s.ipc.msq) (hsent : s'.sent = s.sent)
    (hreceived : s'.received = s.received) (hended : s.rcv.pc.ended → s'.rcv.pc.ended) :
    Fifo s' := by
  constructor
  · rw [hmsq]
    exact h.typed
  · rw [hmsq, hsent, hreceived]
    exact h.order
  · rw [hsent, hreceived]
    exact h.pre
  · intro hnone
    rw [hmsq] at hnone
    rw [hsent]
    exact (h.gone hnone).imp id hended

/-- The first `msgget` makes an empty queue, a later one finds it. -/
theorem Fifo.msgget (h : Fifo s) (hempty : s.ipc.msq = none → s.sent = [])
    (hmsq : s'.ipc.msq = s.ipc.msgget.2.msq) (hsent : s'.sent = s.sent)
    (hreceived : s'.received = s.received) : Fifo s' := by
  have hnil : s.sent = [] → s.received = [] := fun hs => by
    have hp := h.pre
    rw [hs, List.prefix_nil] at hp
    exact hp
  constructor
  · intro q hq
    rw [hmsq] at hq
    rcases Ipc.msgget_msq hq with hq | ⟨-, hq, -⟩
    · exact h.typed q hq
    · rw [hq]
      exact fun x hx => absurd hx List.not_mem_nil
  · intro q hq
    rw [hmsq] at hq
    rw [hsent, hreceived]
    rcases Ipc.msgget_msq hq with hq | ⟨hnone, hq, -⟩
    · exact h.order q hq
    · have hs := hempty hnone
      rw [hq, hs, hnil hs]
      rfl
  · rw [hsent, hreceived]
    exact h.pre
  · intro hnone
    rw [hmsq] at hnone
    cases hq : s.ipc.msq with
    | none => simp only [Ipc.msgget, hq, reduceCtorEq] at hnone
    | some q => simp only [Ipc.msgget, hq, reduceCtorEq] at hnone

theorem Fifo.sender (h : Fifo s) (hstart : s.snd.pc.phase = .starting → s.sent = []) :
    Fifo (senderStep .messagePassing s) := by
  have hstep := senderStep_cases .messagePassing s
  generalize senderStep .messagePassing s = s' at hstep
  cases hstep with
  | stay => exact h
  | stop pc hpc => exact h.congr rfl rfl rfl id
  | msgget hpc => exact h.msgget (fun _ => hstart (by rw [hpc]; rfl)) rfl rfl rfl
  | shmget hpc => exact h.congr rfl rfl rfl id
  | setQbytes hpc w hw =>
    obtain ⟨⟨q, hq, hq'⟩, -⟩ := Ipc.setQbytes_some hw
    constructor
    · intro q' he
      obtain rfl : { q with qbytes := 1024 } = q' := Option.some.inj (hq'.symm.trans he)
      exact h.typed q hq
    · intro q' he
      obtain rfl : { q with qbytes := 1024 } = q' := Option.some.inj (hq'.symm.trans he)
      exact h.order q hq
    · exact h.pre
    · intro hnone
      have hcon := hq'.symm.trans hnone
      contradiction
  | memset hpc hflag => contradiction
  | semget hpc => exact h.congr (Ipc.semget_sameMail s.ipc).msq rfl rfl id
  | setEmpty hpc w hw => exact h.congr (Ipc.setVal_some hw).2.msq rfl rfl id
  | setFull hpc w hw => exact h.congr (Ipc.setVal_some hw).2.msq rfl rfl id
  | fgets hpc m ms hms => exact h.congr rfl rfl rfl id
  | p m hpc w hw => exact h.congr (Ipc.semop_ok hw).2.2.msq rfl rfl id
  | msgsnd m hpc hflag w hw =>
    obtain ⟨⟨q, hq, hq'⟩, -⟩ := Ipc.msgsnd_ok hw
    have hmsgs : ∀ q', w.msq = some q' → q'.msgs = q.msgs ++ [⟨1, m.bytes⟩] := by
      intro q' he
      obtain rfl : { q with msgs := q.msgs ++ [⟨1, m.bytes⟩] } = q' :=
        Option.some.inj (hq'.symm.trans he)
      rfl
    constructor
    · intro q' he x hx
      rw [hmsgs q' he, List.mem_append, List.mem_singleton] at hx
      rcases hx with hx | rfl
      · exact h.typed q hq x hx
      · rfl
    · intro q' he
      have horder := h.order q hq
      rw [hmsgs q' he, List.map_append, ← List.append_assoc]
      exact congrArg (· ++ [m.text]) horder
    · exact h.pre.trans (List.prefix_append _ _)
    · intro hnone
      have hcon := hq'.symm.trans hnone
      contradiction
  | strncpy m hpc hflag => contradiction
  | v hpc w hw => exact h.congr (Ipc.semop_ok hw).2.2.msq rfl rfl id

theorem Fifo.receiver (h : Fifo s) : Fifo (receiverStep .messagePassing s) := by
  have hstep := receiverStep_cases .messagePassing s
  generalize receiverStep .messagePassing s = s' at hstep
  have hlive {pc : ReceiverPc} (hpc : s.rcv.pc = pc) (hnot : ¬ pc.ended) {P : Prop} :
      s.rcv.pc.ended → P := fun he => absurd (hpc ▸ he) hnot
  cases hstep with
  | stay => exact h
  | fail => exact h.congr rfl rfl rfl fun _ => trivial
  | msgget hpc =>
    refine h.msgget (fun hnone => ?_) rfl rfl rfl
    rcases h.gone hnone with hs | he
    · exact hs
    · exact hlive hpc id he
  | shmget hpc => exact h.congr rfl rfl rfl (hlive hpc id)
  | semgetNew hpc => exact h.congr (Ipc.semget_sameMail s.ipc).msq rfl rfl (hlive hpc id)
  | semgetExists hpc => exact h.congr rfl rfl rfl (hlive hpc id)
  | semgetOld hpc semid => exact h.congr rfl rfl rfl (hlive hpc id)
  | setEmpty hpc w hw => exact h.congr (Ipc.setVal_some hw).2.msq rfl rfl (hlive hpc id)
  | setFull hpc w hw => exact h.congr (Ipc.setVal_some hw).2.msq rfl rfl (hlive hpc id)
  | p hpc w hw => exact h.congr (Ipc.semop_ok hw).2.2.msq rfl rfl (hlive hpc id)
  | msgrcv hpc hflag m w hw =>
    obtain ⟨⟨q, l, hq, hl, hq'⟩, -⟩ := Ipc.msgrcv_ok hw h.typed
    have hmsgs : ∀ q', w.msq = some q' → q'.msgs = l := by
      intro q' he
      obtain rfl : { q with msgs := l } = q' := Option.some.inj (hq'.symm.trans he)
      rfl
    have horder := h.order q hq
    rw [hl, List.map_cons, List.append_cons] at horder
    constructor
    · intro q' he x hx
      rw [hmsgs q' he] at hx
      exact h.typed q hq x (by rw [hl]; exact List.mem_cons_of_mem _ hx)
    · intro q' he
      rw [hmsgs q' he]
      exact horder
    · exact ⟨_, horder.symm⟩
    · intro hnone
      have hcon := hq'.symm.trans hnone
      contradiction
  | strncpy hpc hflag => contradiction
  | v hpc w hw => exact h.congr (Ipc.semop_ok hw).2.2.msq rfl rfl (hlive hpc id)
  | exit hpc he => exact h.congr rfl rfl rfl (hlive hpc id)
  | print hpc he => exact h.congr rfl rfl rfl (hlive hpc id)
  | msgRmid hpc =>
    constructor
    · exact fun q hq => h.typed q (Ipc.msgRmid_msq hq)
    · exact fun q hq => h.order q (Ipc.msgRmid_msq hq)
    · exact h.pre
    · exact fun _ => Or.inr trivial
  | semRmid hpc =>
    exact h.congr (Ipc.semRmid_sameMail s.ipc s.rcv.semid).msq rfl rfl fun _ => trivial

theorem Fifo.queue_empty (h : Fifo s) (hlen : s.sent.length = s.received.length) :
    ∀ q, s.ipc.msq = some q → q.msgs = [] := by
  intro q hq
  have hsum := congrArg List.length (h.order q hq)
  rw [List.length_append, List.length_map] at hsum
  exact List.length_eq_zero_iff.mp (by omega)

/-! ### The shared segment -/

structure Cell (s : State) : Prop where
  last : ∀ x, s.sent.getLast? = some x → cstr (fromShm s.ipc.shm) = x
  pre : s.received <+: s.sent

theorem Cell.congr (h : Cell s) (hshm : s'.ipc.shm = s.ipc.shm) (hsent : s'.sent = s.sent)
    (hreceived : s'.received = s.received) : Cell s' := by
  constructor
  · rw [hshm, hsent]
    exact h.last
  · rw [hsent, hreceived]
    exact h.pre

theorem Cell.sender (h : Cell s) (hstart : s.snd.pc.phase = .starting → s.sent = []) :
    Cell (senderStep .sharedMemory s) := by
  have hstep := senderStep_cases .sharedMemory s
  generalize senderStep .sharedMemory s = s' at hstep
  cases hstep with
  | stay => exact h
  | stop pc hpc => exact h.congr rfl rfl rfl
  | msgget hpc => exact h.congr (Ipc.msgget_sameSems s.ipc).shm rfl rfl
  | shmget hpc => exact h.congr rfl rfl rfl
  | setQbytes hpc w hw => exact h.congr (Ipc.setQbytes_some hw).2.shm rfl rfl
  | memset hpc hflag =>
    have hnil : s.sent = [] := hstart (by rw [hpc]; rfl)
    refine ⟨fun x hx => ?_, h.pre⟩
    have hx' : s.sent.getLast? = some x := hx
    simp only [hnil, List.getLast?_nil, reduceCtorEq] at hx'
  | semget hpc => exact h.congr (Ipc.semget_sameMail s.ipc).shm rfl rfl
  | setEmpty hpc w hw => exact h.congr (Ipc.setVal_some hw).2.shm rfl rfl
  | setFull hpc w hw => exact h.congr (Ipc.setVal_some hw).2.shm rfl rfl
  | fgets hpc m ms hms => exact h.congr rfl rfl rfl
  | p m hpc w hw => exact h.congr (Ipc.semop_ok hw).2.2.shm rfl rfl
  | msgsnd m hpc hflag w hw => contradiction
  | strncpy m hpc hflag =>
    refine ⟨fun x hx => ?_, h.pre.trans (List.prefix_append _ _)⟩
    have hx' : (s.sent ++ [m.text]).getLast? = some x := hx
    rw [List.getLast?_append_of_ne_nil _ (List.cons_ne_nil _ _), List.getLast?_singleton,
      Option.some.injEq] at hx'
    exact (cstr_fromShm_toShm m).trans hx'
  | v hpc w hw => exact h.congr (Ipc.semop_ok hw).2.2.shm rfl rfl

/-- The text of the segment is the one that comes next, if just one is missing. -/
theorem Cell.next (h : Cell s) (hlen : s.sent.length = s.received.length + 1) :
    s.received ++ [cstr (fromShm s.ipc.shm)] = s.sent := by
  obtain ⟨t, ht⟩ := h.pre
  have hsum := congrArg List.length ht
  rw [List.length_append] at hsum
  obtain ⟨y, rfl⟩ := List.length_eq_one_iff.mp (show t.length = 1 by omega)
  have hlast : s.sent.getLast? = some y := by
    rw [← ht, List.getLast?_append_of_ne_nil _ (List.cons_ne_nil _ _), List.getLast?_singleton]
  rw [h.last y hlast]
  exact ht

theorem Cell.receiver (h : Cell s)
    (hahead : s.rcv.pc = .copy → s.sent.length = s.received.length + 1) :
    Cell (receiverStep .sharedMemory s) := by
  have hstep := receiverStep_cases .sharedMemory s
  generalize receiverStep .sharedMemory s = s' at hstep
  cases hstep with
  | stay => exact h
  | fail => exact h.congr rfl rfl rfl
  | msgget hpc => exact h.congr (Ipc.msgget_sameSems s.ipc).shm rfl rfl
  | shmget hpc => exact h.congr rfl rfl rfl
  | semgetNew hpc => exact h.congr (Ipc.semget_sameMail s.ipc).shm rfl rfl
  | semgetExists hpc => exact h.congr rfl rfl rfl
  | semgetOld hpc semid => exact h.congr rfl rfl rfl
  | setEmpty hpc w hw => exact h.congr (Ipc.setVal_some hw).2.shm rfl rfl
  | setFull hpc w hw => exact h.congr (Ipc.setVal_some hw).2.shm rfl rfl
  | p hpc w hw => exact h.congr (Ipc.semop_ok hw).2.2.shm rfl rfl
  | msgrcv hpc hflag m w hw => contradiction
  | strncpy hpc hflag =>
    have hnext := h.next (hahead hpc)
    exact ⟨h.last, ⟨[], (List.append_nil _).trans hnext⟩⟩
  | v hpc w hw => exact h.congr (Ipc.semop_ok hw).2.2.shm rfl rfl
  | exit hpc he => exact h.congr rfl rfl rfl
  | print hpc he => exact h.congr rfl rfl rfl
  | msgRmid hpc => exact h.congr (Ipc.msgRmid_sameSems s.ipc s.rcv.msqid).shm rfl rfl
  | semRmid hpc => exact h.congr (Ipc.semRmid_sameMail s.ipc s.rcv.semid).shm rfl rfl

/-! ### The sender's list -/

/- The texts the sender has still to put in. -/
def Sender.pending (snd : Sender) : List Bytes :=
  match snd.pc with
  | .p m => m.text :: snd.todo.map MsgText.text
  | .copy m => m.text :: snd.todo.map MsgText.text
  | _ => snd.todo.map MsgText.text

def SenderPc.ended : SenderPc → Prop
  | .done => True
  | .failed => True
  | _ => False

structure Stream (l : List Bytes) (s : State) : Prop where
  pre : s.sent <+: l
  rest : ¬ s.snd.pc.ended → s.sent ++ s.snd.pending = l

theorem Stream.congr {l : List Bytes} (h : Stream l s) (hsent : s'.sent = s.sent)
    (hpending : ¬ s'.snd.pc.ended → ¬ s.snd.pc.ended ∧ s'.snd.pending = s.snd.pending) :
    Stream l s' := by
  constructor
  · rw [hsent]
    exact h.pre
  · intro hlive
    obtain ⟨hlive', heq⟩ := hpending hlive
    rw [hsent, heq]
    exact h.rest hlive'

theorem Stream.sender {l : List Bytes} (h : Stream l s) : Stream l (senderStep flag s) := by
  have hstep := senderStep_cases flag s
  generalize senderStep flag s = s' at hstep
  have hsame {pc : SenderPc} (hpc : s.snd.pc = pc) (hlive : ¬ pc.ended) {snd : Sender}
      (htodo : { s.snd with pc := pc }.pending = snd.pending) :
      ¬ snd.pc.ended → ¬ s.snd.pc.ended ∧ snd.pending = s.snd.pending := by
    intro _
    subst hpc
    exact ⟨hlive, htodo.symm⟩
  -- the text sent last moves from the pending ones to the sent ones
  have hput {m : MsgText} (hpc : s.snd.pc = .copy m) (w : Ipc) : Stream l (sentMsg s w m) := by
    have hrest := h.rest (by rw [hpc]; exact id)
    have hmoved : s.sent ++ [m.text] ++ s.snd.todo.map MsgText.text = l := by
      rw [List.append_assoc]
      simp only [Sender.pending, hpc] at hrest
      exact hrest
    exact ⟨⟨_, hmoved⟩, fun _ => hmoved⟩
  cases hstep with
  | stay => exact h
  | stop pc hpc =>
    refine h.congr rfl fun hlive => absurd ?_ hlive
    rcases hpc with rfl | rfl <;> trivial
  | msgget hpc => exact h.congr rfl (hsame hpc id rfl)
  | shmget hpc => exact h.congr rfl (hsame hpc id rfl)
  | setQbytes hpc w hw => exact h.congr rfl (hsame hpc id rfl)
  | memset hpc hflag => exact h.congr rfl (hsame hpc id rfl)
  | semget hpc => exact h.congr rfl (hsame hpc id rfl)
  | setEmpty hpc w hw => exact h.congr rfl (hsame hpc id rfl)
  | setFull hpc w hw => exact h.congr rfl (hsame hpc id rfl)
  | fgets hpc m ms hms =>
    refine h.congr rfl (hsame hpc id ?_)
    simp only [Sender.pending, hms, List.map_cons]
  | p m hpc w hw => exact h.congr rfl (hsame hpc id rfl)
  | msgsnd m hpc hflag w hw => exact hput hpc w
  | strncpy m hpc hflag => exact hput hpc _
  | v hpc w hw => exact h.congr rfl (hsame hpc id rfl)

theorem Stream.receiver {l : List Bytes} (h : Stream l s) : Stream l (receiverStep flag s) := by
  obtain ⟨hsnd, hsent, -⟩ := receiverStep_snd flag s
  refine h.congr hsent fun hlive => ?_
  rw [hsnd] at hlive ⊢
  exact ⟨hlive, rfl⟩

end OSLab.Mailbox
