import OSLab.Base.Handoff
import OSLab.Mailbox.Process

/-!
# The mailbox as a slot

Every step of the two programs is a step of the slot of `Base.Handoff`, except
for the receiver's SETVAL of `empty`. What the slot does not keep, the texts,
follows from the queue in one mode and from the segment in the other.
-/

namespace OSLab.Mailbox

open Base Kernel

def SenderPc.phase : SenderPc → Phase
  | .attach => .starting
  | .prepare => .starting
  | .semget => .starting
  | .setEmpty => .starting
  | .setFull => .starting
  | .fgets => .outside
  | .p _ => .outside
  | .copy _ => .before
  | .v => .after
  | .done => .outside
  | .failed => .outside

def ReceiverPc.phase : ReceiverPc → Phase
  | .copy => .before
  | .v => .after
  | _ => .outside

def State.slot (s : State) : Slot where
  empty := s.ipc.semval EMPTY
  full := s.ipc.semval FULL
  snd := s.snd.pc.phase
  rcv := s.rcv.pc.phase
  sent := s.sent.length
  posts := s.posts
  received := s.received.length

/-! ### Steps of the slot -/

section Slot

variable (flag : Flag) (s : State)

theorem senderStep_rcv : (senderStep flag s).rcv = s.rcv ∧
    (senderStep flag s).received = s.received ∧ (senderStep flag s).out = s.out := by
  have hstep := senderStep_cases flag s
  generalize senderStep flag s = s' at hstep
  cases hstep <;> exact ⟨rfl, rfl, rfl⟩

theorem receiverStep_snd : (receiverStep flag s).snd = s.snd ∧
    (receiverStep flag s).sent = s.sent ∧ (receiverStep flag s).posts = s.posts := by
  have hstep := receiverStep_cases flag s
  generalize receiverStep flag s = s' at hstep
  cases hstep <;> exact ⟨rfl, rfl, rfl⟩

variable {s}

theorem quiet_step {s' : State} (he : s'.ipc.semval EMPTY ≤ s.ipc.semval EMPTY)
    (hf : s'.ipc.semval FULL ≤ s.ipc.semval FULL)
    (hp : s'.snd.pc.phase = s.snd.pc.phase ∨ s'.snd.pc.phase = .outside)
    (hq : s'.rcv.pc.phase = s.rcv.pc.phase ∨ s'.rcv.pc.phase = .outside)
    (hsent : s'.sent = s.sent) (hposts : s'.posts = s.posts)
    (hreceived : s'.received = s.received) : Slot.Step s.slot s'.slot := by
  have h := Slot.Step.quiet (t := s.slot) _ _ _ _ he hf hp hq
  have heq : s'.slot = { s.slot with
      empty := s'.ipc.semval EMPTY, full := s'.ipc.semval FULL
      snd := s'.snd.pc.phase, rcv := s'.rcv.pc.phase } := by
    simp only [State.slot, hsent, hposts, hreceived]
  rw [heq]
  exact h

theorem quiet_step_of_semval {s' : State} (hval : s'.ipc.semval = s.ipc.semval)
    (hp : s'.snd.pc.phase = s.snd.pc.phase ∨ s'.snd.pc.phase = .outside)
    (hq : s'.rcv.pc.phase = s.rcv.pc.phase ∨ s'.rcv.pc.phase = .outside)
    (hsent : s'.sent = s.sent) (hposts : s'.posts = s.posts)
    (hreceived : s'.received = s.received) : Slot.Step s.slot s'.slot :=
  quiet_step (congrFun hval EMPTY).le (congrFun hval FULL).le hp hq hsent hposts hreceived

theorem quiet_step_of_clear {s' : State} (hval : s'.ipc.semval = Function.update s.ipc.semval FULL 0)
    (hp : s'.snd.pc.phase = s.snd.pc.phase ∨ s'.snd.pc.phase = .outside)
    (hq : s'.rcv.pc.phase = s.rcv.pc.phase ∨ s'.rcv.pc.phase = .outside)
    (hsent : s'.sent = s.sent) (hposts : s'.posts = s.posts)
    (hreceived : s'.received = s.received) : Slot.Step s.slot s'.slot := by
  refine quiet_step ?_ ?_ hp hq hsent hposts hreceived
  · rw [hval, Function.update_of_ne empty_ne_full]
  · rw [hval, Function.update_self]
    exact Nat.zero_le _

variable (s)

theorem senderStep_slot : Slot.Step s.slot (senderStep flag s).slot := by
  have hstep := senderStep_cases flag s
  generalize senderStep flag s = s' at hstep
  cases hstep with
  | stay => exact quiet_step_of_semval rfl (Or.inl rfl) (Or.inl rfl) rfl rfl rfl
  | stop pc h =>
    have hp : pc.phase = .outside := by rcases h with rfl | rfl <;> rfl
    exact quiet_step_of_semval rfl (Or.inr hp) (Or.inl rfl) rfl rfl rfl
  | msgget hpc =>
    have hval := (Ipc.msgget_sameSems s.ipc).semval
    exact quiet_step_of_semval hval (Or.inl (by rw [hpc]; rfl)) (Or.inl rfl) rfl rfl rfl
  | shmget hpc =>
    exact quiet_step_of_semval rfl (Or.inl (by rw [hpc]; rfl)) (Or.inl rfl) rfl rfl rfl
  | setQbytes hpc w h =>
    have hval := (Ipc.setQbytes_some h).2.semval
    exact quiet_step_of_semval hval (Or.inl (by rw [hpc]; rfl)) (Or.inl rfl) rfl rfl rfl
  | memset hpc hflag =>
    exact quiet_step_of_semval rfl (Or.inl (by rw [hpc]; rfl)) (Or.inl rfl) rfl rfl rfl
  | semget hpc =>
    have hval := Ipc.semget_semval s.ipc
    exact quiet_step_of_semval hval (Or.inl (by rw [hpc]; rfl)) (Or.inl rfl) rfl rfl rfl
  | setEmpty hpc w h =>
    have hval := (Ipc.setVal_some h).1
    have hs : s.slot.snd = .starting := by simp only [State.slot, hpc, SenderPc.phase]
    have heq : ((s.withIpc w).sndTo .setFull).slot = { s.slot with empty := 1 } := by
      have he : w.semval EMPTY = 1 := by rw [hval, Function.update_self]
      have hf : w.semval FULL = s.ipc.semval FULL := by
        rw [hval, Function.update_of_ne empty_ne_full.symm]
      simp only [State.slot, State.sndTo, State.withIpc, he, hf, hpc, SenderPc.phase]
    rw [heq]
    exact .arm hs
  | setFull hpc w h =>
    exact quiet_step_of_clear (Ipc.setVal_some h).1 (Or.inr rfl) (Or.inl rfl) rfl rfl rfl
  | fgets hpc m ms h =>
    exact quiet_step_of_semval rfl (Or.inr rfl) (Or.inl rfl) rfl rfl rfl
  | p m hpc w h =>
    obtain ⟨he, hother⟩ := Ipc.semop_take h
    have hs : s.slot.snd = .outside := by simp only [State.slot, hpc, SenderPc.phase]
    have heq : ((s.withIpc w).sndTo (.copy m)).slot =
        { s.slot with empty := w.semval EMPTY, snd := .before } := by
      have hf := hother FULL empty_ne_full.symm
      simp only [State.slot, State.sndTo, State.withIpc, hf, SenderPc.phase]
    rw [heq]
    exact .take _ he hs
  | msgsnd m hpc hflag w h =>
    have hval := (Ipc.msgsnd_ok h).2.semval
    have hs : s.slot.snd = .before := by simp only [State.slot, hpc, SenderPc.phase]
    have heq : (sentMsg s w m).slot = { s.slot with snd := .after, sent := s.slot.sent + 1 } := by
      simp only [State.slot, sentMsg, State.sndTo, State.withIpc, hval, SenderPc.phase,
        List.length_append, List.length_singleton]
    rw [heq]
    exact .put hs
  | strncpy m hpc hflag =>
    have hs : s.slot.snd = .before := by simp only [State.slot, hpc, SenderPc.phase]
    have heq : (sentMsg s { s.ipc with shm := toShm m.bytes } m).slot =
        { s.slot with snd := .after, sent := s.slot.sent + 1 } := by
      simp only [State.slot, sentMsg, State.sndTo, State.withIpc, Ipc.semval, SenderPc.phase,
        List.length_append, List.length_singleton]
    rw [heq]
    exact .put hs
  | v hpc w h =>
    obtain ⟨hf, hother⟩ := Ipc.semop_post h
    have hs : s.slot.snd = .after := by simp only [State.slot, hpc, SenderPc.phase]
    have heq : State.slot { (s.withIpc w).sndTo .fgets with posts := s.posts + 1 } =
        { s.slot with full := s.slot.full + 1, snd := .outside, posts := s.slot.posts + 1 } := by
      have he := hother EMPTY empty_ne_full
      simp only [State.slot, State.sndTo, State.withIpc, he, hf, SenderPc.phase]
    rw [heq]
    exact .post hs

theorem receiverStep_slot : Slot.Step s.slot (receiverStep flag s).slot ∨
    (s.rcv.pc = .setEmpty ∧ (receiverStep flag s).slot = s.slot.rearmed) := by
  have hstep := receiverStep_cases flag s
  generalize receiverStep flag s = s' at hstep
  cases hstep with
  | stay => exact Or.inl (quiet_step_of_semval rfl (Or.inl rfl) (Or.inl rfl) rfl rfl rfl)
  | fail => exact Or.inl (quiet_step_of_semval rfl (Or.inl rfl) (Or.inr rfl) rfl rfl rfl)
  | msgget hpc =>
    have hval := (Ipc.msgget_sameSems s.ipc).semval
    exact Or.inl (quiet_step_of_semval hval (Or.inl rfl) (Or.inr rfl) rfl rfl rfl)
  | shmget hpc => exact Or.inl (quiet_step_of_semval rfl (Or.inl rfl) (Or.inr rfl) rfl rfl rfl)
  | semgetNew hpc =>
    have hval := Ipc.semget_semval s.ipc
    exact Or.inl (quiet_step_of_semval hval (Or.inl rfl) (Or.inr rfl) rfl rfl rfl)
  | semgetExists hpc =>
    exact Or.inl (quiet_step_of_semval rfl (Or.inl rfl) (Or.inr rfl) rfl rfl rfl)
  | semgetOld hpc semid =>
    exact Or.inl (quiet_step_of_semval rfl (Or.inl rfl) (Or.inr rfl) rfl rfl rfl)
  | setEmpty hpc w h =>
    have hval := (Ipc.setVal_some h).1
    have he : w.semval EMPTY = 1 := by rw [hval, Function.update_self]
    have hf : w.semval FULL = s.ipc.semval FULL := by
      rw [hval, Function.update_of_ne empty_ne_full.symm]
    refine Or.inr ⟨hpc, ?_⟩
    simp only [Slot.rearmed, State.slot, State.rcvTo, State.withIpc, he, hf, hpc, ReceiverPc.phase]
  | setFull hpc w h =>
    exact Or.inl (quiet_step_of_clear (Ipc.setVal_some h).1 (Or.inl rfl) (Or.inr rfl) rfl rfl rfl)
  | p hpc w h =>
    obtain ⟨hf, hother⟩ := Ipc.semop_take h
    have hr : s.slot.rcv = .outside := by simp only [State.slot, hpc, ReceiverPc.phase]
    have heq : ((s.withIpc w).rcvTo .copy).slot =
        { s.slot with full := w.semval FULL, rcv := .before } := by
      have he := hother EMPTY empty_ne_full
      simp only [State.slot, State.rcvTo, State.withIpc, he, ReceiverPc.phase]
    rw [heq]
    exact Or.inl (.get _ hf hr)
  | msgrcv hpc hflag m w h =>
    have hval := (Ipc.msgrcv_sameSems h).semval
    have hr : s.slot.rcv = .before := by simp only [State.slot, hpc, ReceiverPc.phase]
    have heq : (receivedMsg s w m.msgText).slot =
        { s.slot with rcv := .after, received := s.slot.received + 1 } := by
      simp only [State.slot, receivedMsg, hval, ReceiverPc.phase, List.length_append,
        List.length_singleton]
    rw [heq]
    exact Or.inl (.copyOut hr)
  | strncpy hpc hflag =>
    have hr : s.slot.rcv = .before := by simp only [State.slot, hpc, ReceiverPc.phase]
    have heq : (receivedMsg s s.ipc (fromShm s.ipc.shm)).slot =
        { s.slot with rcv := .after, received := s.slot.received + 1 } := by
      simp only [State.slot, receivedMsg, ReceiverPc.phase, List.length_append,
        List.length_singleton]
    rw [heq]
    exact Or.inl (.copyOut hr)
  | v hpc w h =>
    obtain ⟨he, hother⟩ := Ipc.semop_post h
    have hr : s.slot.rcv = .after := by simp only [State.slot, hpc, ReceiverPc.phase]
    have heq : ((s.withIpc w).rcvTo .strcmp).slot =
        { s.slot with empty := s.slot.empty + 1, rcv := .outside } := by
      have hf := hother FULL empty_ne_full.symm
      simp only [State.slot, State.rcvTo, State.withIpc, he, hf, ReceiverPc.phase]
    rw [heq]
    exact Or.inl (.release hr)
  | exit hpc h => exact Or.inl (quiet_step_of_semval rfl (Or.inl rfl) (Or.inr rfl) rfl rfl rfl)
  | print hpc h => exact Or.inl (quiet_step_of_semval rfl (Or.inl rfl) (Or.inr rfl) rfl rfl rfl)
  | msgRmid hpc =>
    have hval := (Ipc.msgRmid_sameSems s.ipc s.rcv.msqid).semval
    exact Or.inl (quiet_step_of_semval hval (Or.inl rfl) (Or.inr rfl) rfl rfl rfl)
  | semRmid hpc =>
    have hle := Ipc.semRmid_semval_le s.ipc s.rcv.semid
    exact Or.inl (quiet_step (hle EMPTY) (hle FULL) (Or.inl rfl) (Or.inr rfl) rfl rfl rfl)

end Slot

end OSLab.Mailbox
