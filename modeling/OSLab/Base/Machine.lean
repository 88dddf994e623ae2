import Mathlib.Data.List.Basic

/-!
# Deterministic machines, their runs and refinement

A machine answers every input with a response and a next state. What a step
does not determine by itself (a kernel allocation that fails, the process that
is scheduled) is part of the input, so one run is one list of inputs.
-/

namespace OSLab.Base

variable {σ ι ω τ : Type*}

structure Machine (σ ι ω : Type*) where
  step : σ → ι → ω × σ

namespace Machine

def resp (m : Machine σ ι ω) (s : σ) (i : ι) : ω := (m.step s i).1

def next (m : Machine σ ι ω) (s : σ) (i : ι) : σ := (m.step s i).2

/-- The state after a list of inputs. -/
def run (m : Machine σ ι ω) : σ → List ι → σ
  | s, [] => s
  | s, i :: is => run m (m.next s i) is

/-- The inputs of a run, each with the response it got. -/
def trace (m : Machine σ ι ω) : σ → List ι → List (ι × ω)
  | _, [] => []
  | s, i :: is => (i, m.resp s i) :: trace m (m.next s i) is

/-- Every step of the run, seen from the state it starts in, satisfies `G`. -/
def EveryStep (m : Machine σ ι ω) (G : σ → ι → Prop) : σ → List ι → Prop
  | _, [] => True
  | s, i :: is => G s i ∧ EveryStep m G (m.next s i) is

variable (m : Machine σ ι ω)

instance decidableEveryStep {G : σ → ι → Prop} [∀ s i, Decidable (G s i)] :
    ∀ s is, Decidable (m.EveryStep G s is)
  | _, [] => isTrue trivial
  | s, i :: is => @instDecidableAnd (G s i) (m.EveryStep G (m.next s i) is) inferInstance
      (decidableEveryStep (m.next s i) is)

@[simp] theorem run_nil (s : σ) : m.run s [] = s := rfl

@[simp] theorem run_cons (s : σ) (i : ι) (is : List ι) :
    m.run s (i :: is) = m.run (m.next s i) is := rfl

theorem run_append (s : σ) (is js : List ι) : m.run s (is ++ js) = m.run (m.run s is) js := by
  induction is generalizing s with
  | nil => rfl
  | cons i is ih => exact ih (m.next s i)

theorem trace_append (s : σ) (is js : List ι) :
    m.trace s (is ++ js) = m.trace s is ++ m.trace (m.run s is) js := by
  induction is generalizing s with
  | nil => rfl
  | cons i is ih =>
    have h := ih (m.next s i)
    simp only [List.cons_append, trace, run_cons, h]

theorem everyStep_append (G : σ → ι → Prop) (s : σ) (is js : List ι) :
    m.EveryStep G s (is ++ js) ↔ m.EveryStep G s is ∧ m.EveryStep G (m.run s is) js := by
  induction is generalizing s with
  | nil => simp [EveryStep]
  | cons i is ih => simp only [List.cons_append, EveryStep, run_cons, ih, and_assoc]

theorem everyStep_and (G H : σ → ι → Prop) (s : σ) (is : List ι) :
    m.EveryStep (fun s i => G s i ∧ H s i) s is ↔ m.EveryStep G s is ∧ m.EveryStep H s is := by
  induction is generalizing s with
  | nil => exact (and_iff_left trivial).symm
  | cons i is ih =>
    simp only [EveryStep, ih]
    exact and_and_and_comm

theorem everyStep_of_forall {G : σ → ι → Prop} (h : ∀ s i, G s i) (s : σ) (is : List ι) :
    m.EveryStep G s is := by
  induction is generalizing s with
  | nil => trivial
  | cons i is ih => exact ⟨h s i, ih (m.next s i)⟩

theorem everyStep_forall_mem {G : ι → Prop} (s : σ) (is : List ι) :
    m.EveryStep (fun _ i => G i) s is ↔ ∀ i ∈ is, G i := by
  induction is generalizing s with
  | nil => exact ⟨fun _ i hi => absurd hi List.not_mem_nil, fun _ => trivial⟩
  | cons i is ih =>
    rw [List.forall_mem_cons]
    exact and_congr_right fun _ => ih (m.next s i)

/-- The invariant rule: a step lemma gives a run lemma. `G` is what the steps of this run satisfy. -/
theorem run_invariant {P : σ → Prop} {G : σ → ι → Prop}
    (hstep : ∀ s i, P s → G s i → P (m.next s i)) {s : σ} {is : List ι}
    (h0 : P s) (hG : m.EveryStep G s is) : P (m.run s is) := by
  induction is generalizing s with
  | nil => exact h0
  | cons i is ih => exact ih (hstep s i h0 hG.1) hG.2

theorem run_invariant_all {P : σ → Prop} (hstep : ∀ s i, P s → P (m.next s i)) {s : σ}
    (is : List ι) (h0 : P s) : P (m.run s is) :=
  m.run_invariant (G := fun _ _ => True) (fun s i h _ => hstep s i h) h0
    (m.everyStep_of_forall (fun _ _ => trivial) s is)

/-- What every step from an invariant state has holds of every step of a run. -/
theorem everyStep_of_invariant {P : σ → Prop} {G Q : σ → ι → Prop}
    (hstep : ∀ s i, P s → G s i → Q s i ∧ P (m.next s i)) {s : σ} {is : List ι}
    (h0 : P s) (hG : m.EveryStep G s is) : m.EveryStep Q s is := by
  induction is generalizing s with
  | nil => trivial
  | cons i is ih =>
    obtain ⟨hQ, hP⟩ := hstep s i h0 hG.1
    exact ⟨hQ, ih hP hG.2⟩

/-- As long as the steps meet `G` they keep the invariant and have the property `Q`, and the
first step that does not meet `G` breaks `Q`: so a run has `Q` throughout iff it meets `G`. -/
theorem everyStep_iff_of_invariant {P : σ → Prop} {H G Q : σ → ι → Prop}
    (hgood : ∀ s i, P s → H s i → G s i → Q s i ∧ P (m.next s i))
    (hbad : ∀ s i, P s → H s i → Q s i → G s i) {s : σ} {is : List ι}
    (h0 : P s) (hH : m.EveryStep H s is) : m.EveryStep Q s is ↔ m.EveryStep G s is := by
  induction is generalizing s with
  | nil => exact Iff.rfl
  | cons i is ih =>
    constructor
    · intro hQ
      have hG : G s i := hbad s i h0 hH.1 hQ.1
      have hP : P (m.next s i) := (hgood s i h0 hH.1 hG).2
      exact ⟨hG, (ih hP hH.2).mp hQ.2⟩
    · intro hG
      obtain ⟨hQ, hP⟩ := hgood s i h0 hH.1 hG.1
      exact ⟨hQ, (ih hP hH.2).mpr hG.2⟩

/-- Two machines that answer alike as long as the first one answers well: `R` relates their states,
and a step from related states on which the answer of the first meets `W` gets the same answer from
the second and leads to related states. -/
theorem trace_eq (n : Machine τ ι ω) {R : σ → τ → Prop} {G : ι → Prop} {W : ω → Prop}
    (hstep : ∀ s t i, R s t → G i → W (m.resp s i) →
      n.resp t i = m.resp s i ∧ R (m.next s i) (n.next t i))
    {s : σ} {t : τ} {is : List ι} (h0 : R s t) (hG : ∀ i ∈ is, G i)
    (hW : ∀ e ∈ m.trace s is, W e.2) : n.trace t is = m.trace s is := by
  induction is generalizing s t with
  | nil => rfl
  | cons i is ih =>
    rw [trace, List.forall_mem_cons] at hW
    rw [List.forall_mem_cons] at hG
    obtain ⟨hresp, hnext⟩ := hstep s t i h0 hG.1 hW.1
    simp only [trace, hresp, ih hnext hG.2 hW.2]

/-- Two machines in step: what each step of the first keeps, with its answer seen through `f`, the whole
run keeps. -/
theorem trace_map_eq {ω' : Type*} (n : Machine τ ι ω') (f : ω → ω') {R : σ → τ → Prop}
    {G : σ → ι → Prop}
    (hstep : ∀ s t i, R s t → G s i → n.resp t i = f (m.resp s i) ∧ R (m.next s i) (n.next t i))
    {s : σ} {t : τ} {is : List ι} (h0 : R s t) (hG : m.EveryStep G s is) :
    n.trace t is = (m.trace s is).map (fun e => (e.1, f e.2)) ∧ R (m.run s is) (n.run t is) := by
  induction is generalizing s t with
  | nil => exact ⟨rfl, h0⟩
  | cons i is ih =>
    obtain ⟨hresp, hnext⟩ := hstep s t i h0 hG.1
    obtain ⟨htrace, hrun⟩ := ih hnext hG.2
    refine ⟨?_, hrun⟩
    simp only [trace, List.map_cons, hresp, htrace]

/-- Two machines that go in step on inputs that meet `G`, and that every other input tells apart: they
answer a list of inputs alike iff all of them meet `G`. -/
theorem trace_eq_iff (n : Machine τ ι ω) {R : σ → τ → Prop} {G : ι → Prop}
    (hgood : ∀ s t i, R s t → G i → n.resp t i = m.resp s i ∧ R (m.next s i) (n.next t i))
    (hbad : ∀ s t i, R s t → ¬ G i → n.resp t i ≠ m.resp s i) {s : σ} {t : τ}
    (h0 : R s t) (is : List ι) : n.trace t is = m.trace s is ↔ ∀ i ∈ is, G i := by
  induction is generalizing s t with
  | nil => exact ⟨fun _ i hi => absurd hi List.not_mem_nil, fun _ => rfl⟩
  | cons i is ih =>
    rw [trace, trace, List.cons.injEq, Prod.mk.injEq, List.forall_mem_cons]
    by_cases hG : G i
    · obtain ⟨hresp, hnext⟩ := hgood s t i h0 hG
      rw [ih hnext]
      exact ⟨fun h => ⟨hG, h.2⟩, fun h => ⟨⟨rfl, hresp⟩, h.2⟩⟩
    · exact ⟨fun h => absurd h.1.2 (hbad s t i h0 hG), fun h => absurd h.1 hG⟩

end Machine

/-- A run of a specification, given as a relation between a state, an input, an allowed
response and the next state. -/
inductive SpecRun (R : τ → ι → ω → τ → Prop) : τ → List (ι × ω) → τ → Prop where
  | nil (t : τ) : SpecRun R t [] t
  | cons {t u v : τ} {i : ι} {o : ω} {es : List (ι × ω)} :
      R t i o u → SpecRun R u es v → SpecRun R t ((i, o) :: es) v

/-- Refinement by an abstraction function: if every step from an invariant state is a step of
the specification between the abstracted states, every run is a run of the specification. -/
theorem Machine.refines (m : Machine σ ι ω) {R : τ → ι → ω → τ → Prop} {P : σ → Prop}
    {G : ι → Prop} (abs : σ → τ)
    (hinv : ∀ s i, P s → G i → P (m.next s i))
    (hsim : ∀ s i, P s → G i → R (abs s) i (m.resp s i) (abs (m.next s i)))
    {s : σ} {is : List ι} (h0 : P s) (hok : ∀ i ∈ is, G i) :
    SpecRun R (abs s) (m.trace s is) (abs (m.run s is)) := by
  induction is generalizing s with
  | nil => exact SpecRun.nil (abs s)
  | cons i is ih =>
    have hhead := hsim s i h0 (hok i (List.mem_cons_self ..))
    have hnext := hinv s i h0 (hok i (List.mem_cons_self ..))
    have htail := ih hnext fun j hj => hok j (List.mem_cons_of_mem _ hj)
    exact SpecRun.cons hhead htail

end OSLab.Base
