import Mathlib.Data.Nat.Notation
import Mathlib.Tactic.Common

/-!
# Handing items over through one slot

A producer and a consumer share a slot that holds one item. The semaphore
`empty` is taken before an item is put in and given back after it is taken out,
`full` the other way round. Only numbers are kept here: the two values, where
each side is, and how many items went in and out.

`Slot.Step` is everything the two sides do, together with set-up and failure.
Setting `empty` to 1 again is kept apart (`Slot.rearmed`), since it is harmless
only while the producer has not taken the semaphore yet.
-/

namespace OSLab.Base

/-- Where a side is: still in its set-up, not holding a semaphore, or holding one before or
after its copy. -/
inductive Phase where
  | starting
  | outside
  | before
  | after
deriving DecidableEq

def Phase.holds : Phase → ℕ
  | starting => 0
  | outside => 0
  | before => 1
  | after => 1

@[simp] theorem Phase.holds_starting : Phase.starting.holds = 0 := rfl

@[simp] theorem Phase.holds_outside : Phase.outside.holds = 0 := rfl

@[simp] theorem Phase.holds_before : Phase.before.holds = 1 := rfl

@[simp] theorem Phase.holds_after : Phase.after.holds = 1 := rfl

structure Slot where
  empty : ℕ
  full : ℕ
  snd : Phase
  rcv : Phase
  sent : ℕ
  posts : ℕ
  received : ℕ

namespace Slot

inductive Step (t : Slot) : Slot → Prop where
  /- no semaphore rises and no side enters its copy -/
  | quiet (e f : ℕ) (p q : Phase) (he : e ≤ t.empty) (hf : f ≤ t.full)
      (hp : p = t.snd ∨ p = .outside) (hq : q = t.rcv ∨ q = .outside) :
      Step t { t with empty := e, full := f, snd := p, rcv := q }
  /- the producer sets `empty` to 1 in its set-up -/
  | arm (h : t.snd = .starting) : Step t { t with empty := 1 }
  | take (e : ℕ) (h : t.empty = e + 1) (hs : t.snd = .outside) :
      Step t { t with empty := e, snd := .before }
  | put (hs : t.snd = .before) : Step t { t with snd := .after, sent := t.sent + 1 }
  | post (hs : t.snd = .after) :
      Step t { t with full := t.full + 1, snd := .outside, posts := t.posts + 1 }
  | get (f : ℕ) (h : t.full = f + 1) (hr : t.rcv = .outside) :
      Step t { t with full := f, rcv := .before }
  | copyOut (hr : t.rcv = .before) : Step t { t with rcv := .after, received := t.received + 1 }
  | release (hr : t.rcv = .after) : Step t { t with empty := t.empty + 1, rcv := .outside }

def rearmed (t : Slot) : Slot := { t with empty := 1 }

/-- The producer has taken `empty` at least once. -/
def Taken (t : Slot) : Prop := 0 < t.sent ∨ t.snd.holds = 1

/-! ### What holds whatever the values are set to -/

structure Counted (t : Slot) : Prop where
  full : t.full + t.received ≤ t.posts
  getting : t.rcv = .before → t.full + t.received < t.posts
  posted : t.posts ≤ t.sent
  posting : t.snd = .after → t.posts < t.sent
  starting : t.snd = .starting → t.sent = 0
  releasing : t.rcv = .after → 0 < t.received

/-- A quiet step enters no phase but `outside`. -/
theorem Phase.eq_of_quiet {p q r : Phase} (h : p = q ∨ p = .outside) (hr : r ≠ .outside)
    (hp : p = r) : q = r := by
  rcases h with h | h
  · exact h.symm.trans hp
  · exact absurd (hp.symm.trans h) hr

theorem Counted.step {t t' : Slot} (h : Counted t) (hstep : Step t t') : Counted t' := by
  obtain ⟨hfull, hgetting, hposted, hposting, hstarting, hreleasing⟩ := h
  cases hstep with
  | quiet e f p q he hf hp hq =>
    constructor
    · exact Nat.le_trans (Nat.add_le_add_right hf _) hfull
    · intro hb
      have hg := hgetting (Phase.eq_of_quiet hq (by decide) hb)
      simp only
      omega
    · exact hposted
    · exact fun ha => hposting (Phase.eq_of_quiet hp (by decide) ha)
    · exact fun hs => hstarting (Phase.eq_of_quiet hp (by decide) hs)
    · exact fun ha => hreleasing (Phase.eq_of_quiet hq (by decide) ha)
  | arm h => exact ⟨hfull, hgetting, hposted, hposting, hstarting, hreleasing⟩
  | take e h hs =>
    exact ⟨hfull, hgetting, hposted, fun h => by contradiction, fun h => by contradiction,
      hreleasing⟩
  | put hs =>
    exact ⟨hfull, hgetting, Nat.le_succ_of_le hposted, fun _ => Nat.lt_succ_of_le hposted,
      fun h => by contradiction, hreleasing⟩
  | post hs =>
    have hlt := hposting hs
    refine ⟨?_, ?_, hlt, fun h => by contradiction, fun h => by contradiction, hreleasing⟩
    · simp only
      omega
    · intro hb
      have hg := hgetting hb
      simp only
      omega
  | get f h hr =>
    refine ⟨?_, fun _ => ?_, hposted, hposting, hstarting, fun h => by contradiction⟩
    · simp only
      omega
    · simp only
      omega
  | copyOut hr =>
    have hg := hgetting hr
    refine ⟨?_, fun h => by contradiction, hposted, hposting, hstarting, fun _ => Nat.succ_pos _⟩
    simp only
    omega
  | release hr =>
    exact ⟨hfull, fun h => by contradiction, hposted, hposting, hstarting, fun h => by contradiction⟩

theorem Counted.rearmed {t : Slot} (h : Counted t) : Counted t.rearmed :=
  ⟨h.full, h.getting, h.posted, h.posting, h.starting, h.releasing⟩

theorem Counted.received_le {t : Slot} (h : Counted t) : t.received ≤ t.sent := by
  have h1 := h.full
  have h2 := h.posted
  omega

/-! ### Mutual exclusion -/

/-- At most one of the two semaphores and the two sides has the slot, and whoever may put an
item in finds it empty. -/
structure Exclusive (t : Slot) : Prop where
  tokens : t.empty + t.full + t.snd.holds + t.rcv.holds ≤ 1
  behind : t.sent ≤ t.received + 1
  free : 0 < t.empty → t.sent = t.received
  putting : t.snd = .before → t.sent = t.received
  emptied : t.rcv = .after → t.sent = t.received

theorem Phase.holds_le_of_quiet {p q : Phase} (h : p = q ∨ p = .outside) : p.holds ≤ q.holds := by
  rcases h with rfl | rfl
  · exact Nat.le_refl _
  · exact Nat.zero_le _

theorem Exclusive.step {t t' : Slot} (h : Exclusive t) (hc : Counted t) (hstep : Step t t') :
    Exclusive t' := by
  obtain ⟨htokens, hbehind, hfree, hputting, hemptied⟩ := h
  cases hstep with
  | quiet e f p q he hf hp hq =>
    have hph := Phase.holds_le_of_quiet hp
    have hqh := Phase.holds_le_of_quiet hq
    refine ⟨by simp only; omega, hbehind, fun h => hfree (Nat.lt_of_lt_of_le h he), ?_, ?_⟩
    · exact fun hb => hputting (Phase.eq_of_quiet hp (by decide) hb)
    · exact fun ha => hemptied (Phase.eq_of_quiet hq (by decide) ha)
  | arm h =>
    have hsent := hc.starting h
    have hposted := hc.posted
    have hfull := hc.full
    have hrcv : t.rcv.holds = 0 := by
      cases hr : t.rcv with
      | starting => rfl
      | outside => rfl
      | before =>
        have hg := hc.getting hr
        omega
      | after =>
        have hg := hc.releasing hr
        omega
    refine ⟨?_, hbehind, fun _ => ?_, hputting, hemptied⟩
    · simp only [h, hrcv, Phase.holds_starting]
      omega
    · simp only
      omega
  | take e h hs =>
    have heq := hfree (by omega)
    refine ⟨?_, hbehind, fun _ => heq, fun _ => heq, hemptied⟩
    simp only [hs, Phase.holds_outside] at htokens
    simp only [Phase.holds_before]
    omega
  | put hs =>
    have heq := hputting hs
    simp only [hs, Phase.holds_before] at htokens
    refine ⟨?_, ?_, fun he => ?_, fun h => by contradiction, fun ha => ?_⟩
    · simp only [Phase.holds_after]
      omega
    · simp only
      omega
    · simp only at he
      omega
    · simp only at ha
      rw [ha, Phase.holds_after] at htokens
      omega
  | post hs =>
    simp only [hs, Phase.holds_after] at htokens
    refine ⟨?_, hbehind, hfree, fun h => by contradiction, hemptied⟩
    simp only [Phase.holds_outside]
    omega
  | get f h hr =>
    simp only [hr, Phase.holds_outside] at htokens
    refine ⟨?_, hbehind, hfree, hputting, fun h => by contradiction⟩
    simp only [Phase.holds_before]
    omega
  | copyOut hr =>
    have hg := hc.getting hr
    have hposted := hc.posted
    simp only [hr, Phase.holds_before] at htokens
    refine ⟨?_, ?_, fun he => ?_, fun hb => ?_, fun _ => ?_⟩
    · simp only [Phase.holds_after]
      omega
    · simp only
      omega
    · simp only at he
      omega
    · simp only at hb
      rw [hb, Phase.holds_before] at htokens
      omega
    · simp only
      omega
  | release hr =>
    have heq := hemptied hr
    simp only [hr, Phase.holds_after] at htokens
    refine ⟨?_, hbehind, fun _ => heq, hputting, fun h => by contradiction⟩
    simp only [Phase.holds_outside]
    omega

/-- Setting `empty` to 1 again does no harm before the producer has taken it. -/
theorem Exclusive.rearmed {t : Slot} (h : Exclusive t) (hc : Counted t) (hr : t.rcv.holds = 0)
    (htaken : ¬ t.Taken) : Exclusive t.rearmed := by
  have hsnd : t.snd.holds = 0 := by
    cases hs : t.snd with
    | starting => rfl
    | outside => rfl
    | before => exact absurd (Or.inr (by rw [hs]; rfl)) htaken
    | after => exact absurd (Or.inr (by rw [hs]; rfl)) htaken
  have hsent : t.sent = 0 := by
    rcases Nat.eq_zero_or_pos t.sent with h0 | hpos
    · exact h0
    · exact absurd (Or.inl hpos) htaken
  have hposted := hc.posted
  have hfull := hc.full
  refine ⟨?_, h.behind, fun _ => ?_, h.putting, h.emptied⟩
  · simp only [Slot.rearmed, hsnd, hr]
    omega
  · simp only [Slot.rearmed]
    omega

/-- Before an item is taken out, one item more was put in. -/
theorem Exclusive.ahead {t : Slot} (h : Exclusive t) (hc : Counted t) (hr : t.rcv = .before) :
    t.sent = t.received + 1 := by
  have h1 := hc.getting hr
  have h2 := hc.posted
  have h3 := h.behind
  omega

end Slot

end OSLab.Base
