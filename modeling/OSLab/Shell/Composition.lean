import OSLab.Base.Format
import OSLab.Shell.PipelineSteps

/-!
# Pipelines compose

However the processes of `fork_cmd_node` take turns, the last stage writes what
the commands compute one after the other, and the shell comes back.
-/

namespace OSLab.Shell
open OSLab.Base Function

variable {π : Type*}

/-- What the commands of a pipeline compute one after the other. One that cannot be executed writes what
was pending in the shell, whatever its input. -/
def Job.Output (job : Job π) (input output : Bytes) : Prop :=
  ComputesAll (procAct job.act) (job.nodes.map job.imageOf) input output

/-- The shell and its children. -/
def Job.processes (job : Job π) : Set Process := {p | p = .shell ∨ ∃ k, k < job.count ∧ p = .stage k}

/-- The invariant, with a bound for the steps to come; `ys` are the streams between the stages. -/
def Job.Inv (job : Job π) (t' : Fds) (ys : ℕ → Bytes) (m : ℕ) (s : Kernel π) : Prop :=
  job.Ok t' s ∧ ∃ m', Chain.Inv (procAct job.act) job.count ys m' (s.toChain job) ∧
    job.setupLeft s + m' = m

theorem Job.processes_finite (job : Job π) : job.processes.Finite := by
  have hstages : (Process.stage '' {k | k < job.count}).Finite := (Set.finite_lt_nat _).image _
  refine (hstages.insert .shell).subset ?_
  rintro p (rfl | ⟨k, hk, rfl⟩)
  · exact Set.mem_insert ..
  · exact Set.mem_insert_of_mem _ ⟨k, hk, rfl⟩

theorem makePipes_pipesMade {os : Os} {n : ℕ} {t t' : Fds} {pipes : List (ℕ × ℕ)}
    (h : makePipes os 0 n t = some (pipes, t')) : PipesMade 0 n t t' pipes := by
  obtain ⟨pipes', t'', heq, hmade⟩ := makePipes_made t (makePipes_opens h)
  obtain ⟨rfl, rfl⟩ := Prod.mk.inj (Option.some.inj (h.symm.trans heq))
  exact hmade

section Run
variable {job : Job π} {t : ShellFds} {t' : Fds} {ys : ℕ → Bytes}

theorem SetupStep.inv {m : ℕ} {s s' : Kernel π} (h : SetupStep job t' s s')
    (hinv : job.Inv t' ys m s) : ∃ m', m' < m ∧ job.Inv t' ys m' s' := by
  obtain ⟨-, m₁, hchain, rfl⟩ := hinv
  refine ⟨_, Nat.add_lt_add_right h.less m₁, h.ok, m₁, ?_, rfl⟩
  rw [h.chain]
  exact hchain

theorem RunStep.inv {m : ℕ} {s s' : Kernel π} (h : RunStep job t' s s')
    (hinv : job.Inv t' ys m s) : ∃ m', m' < m ∧ job.Inv t' ys m' s' := by
  obtain ⟨-, m₁, hchain, rfl⟩ := hinv
  obtain ⟨m₂, hlt, hchain'⟩ := hchain.step h.chain
  exact ⟨_, Nat.add_lt_add_left hlt _, h.ok, m₂, hchain', by rw [h.same]⟩

section Step
variable (hmade : PipesMade 0 (job.count - 1) t.toFdTable t' job.pipes)
  (hfork : ∀ k, k < job.count → job.os.fork k = true)
include hmade hfork

theorem inv_next {m : ℕ} {s : Kernel π} (p : Process) (hinv : job.Inv t' ys m s) :
    job.machine.next s p = s ∨ ∃ m', m' < m ∧ job.Inv t' ys m' (job.machine.next s p) := by
  have hok := hinv.1
  cases p with
  | shell =>
    rcases parentStep_setup hfork hok with hstep | ⟨hsame, -⟩
    · exact .inr (hstep.inv hinv)
    · exact .inl hsame
  | stage k =>
    change job.childStep k s = s ∨ ∃ m', m' < m ∧ job.Inv t' ys m' (job.childStep k s)
    by_cases hleft : 0 < job.childLeft (s.child k) ∧ s.child k ≠ .unborn
    · have hk : k < job.count := by
        by_contra hk
        exact hleft.2 (hok.beyond k (Nat.not_lt.mp hk))
      exact .inr ((childStep_setup hok hk hleft.2 hleft.1).inv hinv)
    · unfold Job.childStep
      cases hc : s.child k with
      | unborn => exact .inl rfl
      | exited => exact .inl rfl
      | running p fds =>
        have hk : k < job.count := by
          by_contra hk
          rw [hok.beyond k (Nat.not_lt.mp hk)] at hc
          cases hc
        rcases progStep_runStep hmade hok hk hc with hstep | ⟨hsame, -⟩
        · exact .inr (hstep.inv hinv)
        · exact .inl hsame
      | _ =>
        rw [hc] at hleft
        exact absurd ⟨Nat.succ_pos _, by rintro ⟨⟩⟩ hleft

/-- Until the shell is back some process takes a step that brings the end nearer. -/
theorem inv_moves (hcap : 0 < job.cap) {m : ℕ} {s : Kernel π} (hinv : job.Inv t' ys m s)
    (hopen : ¬ ∃ fds, s.parent = .returned fds) :
    ∃ p ∈ job.processes, ∃ m', m' < m ∧ job.Inv t' ys m' (job.machine.next s p) := by
  have hok := hinv.1
  rcases parentStep_setup hfork hok with hstep | ⟨-, ⟨idx, fds, hparent, hidx, hgoes⟩ | hreturned⟩
  · exact ⟨.shell, .inl rfl, hstep.inv hinv⟩
  · -- the shell waits, so all children are forked
    have hborn : ∀ k, k < job.count → s.child k ≠ .unborn := by
      have hp := hok.parent
      rw [hparent] at hp
      exact hp.2.1
    by_cases hsetup : ∃ k, k < job.count ∧ 0 < job.childLeft (s.child k)
    · obtain ⟨k, hk, hleft⟩ := hsetup
      exact ⟨.stage k, .inr ⟨k, hk, rfl⟩, (childStep_setup hok hk (hborn k hk) hleft).inv hinv⟩
    · have hrun (k : ℕ) (hk : k < job.count) :
          s.child k = .exited ∨ ∃ p fds, s.child k = .running p fds := by
        have hleft : ¬ 0 < job.childLeft (s.child k) := fun h => hsetup ⟨k, hk, h⟩
        cases hc : s.child k with
        | unborn => exact absurd hc (hborn k hk)
        | running p fds => exact .inr ⟨p, fds, rfl⟩
        | exited => exact .inl rfl
        | _ =>
          rw [hc] at hleft
          exact absurd (Nat.succ_pos _) hleft
      have hstage : ∃ p, (s.toChain job).stage idx = some p :=
        Option.ne_none_iff_exists'.mp fun hnone => hgoes (stage_none.mp hnone)
      obtain ⟨p, hp⟩ := hstage
      obtain ⟨k, hk, hready⟩ := Chain.exists_ready hcap hidx hp
      obtain ⟨q, hq, -⟩ := id hready
      rcases hrun k hk with hexit | ⟨q', fds', hc⟩
      · rw [stage_none.mpr hexit] at hq
        cases hq
      · have hq' : (s.toChain job).stage k = some q' := by
          change (s.child k).stage _ = _
          rw [hc]
          rfl
        have hnext : job.machine.next s (.stage k) = job.progStep k q' fds' s := by
          change job.childStep k s = _
          unfold Job.childStep
          rw [hc]
        rcases progStep_runStep hmade hok hk hc with hstep | ⟨-, hwaits⟩
        · refine ⟨.stage k, .inr ⟨k, hk, rfl⟩, ?_⟩
          rw [hnext]
          exact hstep.inv hinv
        · exact absurd hwaits (not_waits hmade hok hparent hrun hk hq' hready)
  · exact absurd hreturned hopen

end Step

theorem inv_start {input output : Bytes} (h : job.Output input output) (t' : Fds) :
    ∃ ys m, ys 0 = input ∧ ys job.count = output ∧ job.Inv t' ys m (Kernel.start t' input) := by
  obtain ⟨ys, steps, h0, hlast, hends⟩ := ComputesAll.streams h
  rw [List.length_map] at hlast
  have hprog (k : ℕ) (hk : k < job.count) :
      Solo.Ends (procAct job.act) (steps k) ⟨job.prog k, ys k, []⟩ (ys (k + 1)) := by
    refine hends k (job.prog k) ?_
    have hnode : job.nodes[k]? = some job.nodes[k] := List.getElem?_eq_getElem hk
    rw [List.getElem?_map, Job.prog, hnode]
    rfl
  obtain ⟨m, hm⟩ := Chain.inv_start hprog
  refine ⟨ys, job.setupLeft (Kernel.start t' input) + m, h0, hlast, ⟨?_, ?_, ?_⟩, m, ?_, rfl⟩
  · exact fun _ => trivial
  · exact fun _ _ => rfl
  · exact ⟨Nat.zero_le _, rfl, fun k => iff_of_true rfl (Nat.zero_le k)⟩
  · have hchain : (Kernel.start t' input).toChain job = Chain.start job.prog (ys 0) := by
      rw [h0]
      refine congrArg₂ Chain.mk rfl ?_
      funext k
      cases k with
      | zero => rfl
      | succ k =>
        simp only [Kernel.start, ite_self, Nat.add_eq_zero_iff, one_ne_zero, and_false, ite_false]
    rw [hchain]
    exact hm

/-- When the shell is back nothing moves any more. -/
theorem next_returned {s : Kernel π} (hok : job.Ok t' s) {fds : Fds} (hfds : s.parent = .returned fds)
    (p : Process) : job.machine.next s p = s := by
  have hparent := hok.parent
  rw [hfds] at hparent
  cases p with
  | shell =>
    change job.parentStep s = s
    unfold Job.parentStep
    rw [hfds]
  | stage k =>
    change job.childStep k s = s
    unfold Job.childStep
    by_cases hk : k < job.count
    · rw [hparent.2 k hk]
    · rw [hok.beyond k (Nat.not_lt.mp hk)]

/- `cat` before a `read`, before a `write` and at its end. -/
inductive Cat where
  | reading
  | writing (b : Byte)
  | done

def catAct : Cat → Action Cat Byte
  | .reading => .read fun b => b.elim .done .writing
  | .writing b => .write b .reading
  | .done => .exit

/- `cat | cat` through a pipe of one byte. -/
def jobCats : Job Cat where
  nodes := [nodeOf [[99, 97, 116]] none none, nodeOf [[99, 97, 116]] none none]
  pipes := [(3, 4)]
  os := osAll
  cap := 1
  image _ := some .reading
  act := catAct
  pending := []

def catsFds : Fds := (makePipe shellFds.toFdTable 0).2

theorem cat_ends (input out : Bytes) :
    Solo.Ends (procAct catAct) (2 * input.length + 1) ⟨.command .reading, input, out⟩ (out ++ input) := by
  induction input generalizing out with
  | nil => exact ⟨rfl, (List.append_nil out).symm⟩
  | cons b input ih =>
    have hrest := ih (out ++ [b])
    rw [List.append_assoc] at hrest
    exact hrest

theorem jobCats_nodes : 0 < jobCats.nodes.length := Nat.succ_pos 1

theorem jobCats_pipes : makePipes jobCats.os 0 (jobCats.nodes.length - 1) shellFds.toFdTable =
    some (jobCats.pipes, catsFds) := rfl

theorem jobCats_output (input : Bytes) : jobCats.Output input input :=
  ⟨input, ⟨_, cat_ends input []⟩, input, ⟨_, cat_ends input []⟩, rfl⟩

/-- A command that cannot be executed computes what was pending. -/
theorem exiting_ends (act : π → Action π Byte) (pending input out : Bytes) :
    Solo.Ends (procAct act) pending.length ⟨.exiting pending, input, out⟩ (out ++ pending) := by
  induction pending generalizing out with
  | nil => exact ⟨rfl, (List.append_nil out).symm⟩
  | cons b pending ih =>
    have hrest := ih (out ++ [b])
    rw [List.append_assoc] at hrest
    exact hrest

/- `a | cat` where there is no program `a`, with the prompt pending. -/
def jobMissing : Job Cat :=
  { jobCats with
    nodes := [nodeOf [[97]] none none, nodeOf [[99, 97, 116]] none none]
    image := fun args => if args.head? = some (some [97]) then none else some .reading
    pending := chars ">>> $ " }

/- The shell as far as its `waitpid`, each child as far as its `execvp`, then the children in turn. -/
def missingTurns : List Process :=
  List.replicate 5 .shell ++ List.replicate 5 (.stage 0) ++ List.replicate 5 (.stage 1) ++
    (List.replicate 7 [.stage 0, .stage 1, .stage 1]).flatten ++ [.stage 1]

theorem jobMissing_nodes : 0 < jobMissing.nodes.length := Nat.succ_pos 1

theorem jobMissing_pipes : makePipes jobMissing.os 0 (jobMissing.nodes.length - 1) shellFds.toFdTable =
    some (jobMissing.pipes, catsFds) := rfl

theorem jobMissing_output (input : Bytes) : jobMissing.Output input (chars ">>> $ ") :=
  ⟨chars ">>> $ ", ⟨_, exiting_ends catAct (chars ">>> $ ") input []⟩, chars ">>> $ ",
    ⟨_, cat_ends (chars ">>> $ ") []⟩, rfl⟩

/- The shell and its two children in turn. -/
def turnsOfThree (n : ℕ) : Process := if n % 3 = 2 then .shell else .stage (n % 3)

theorem turnsOfThree_fair : Fair jobCats.processes turnsOfThree := by
  rintro p (rfl | ⟨k, hk, rfl⟩) n
  · refine ⟨3 * n + 2, by omega, ?_⟩
    unfold turnsOfThree
    rw [if_pos (by omega)]
  · have hk' : k < 2 := hk
    refine ⟨3 * n + k, by omega, ?_⟩
    unfold turnsOfThree
    rw [if_neg (by omega), show (3 * n + k) % 3 = k by omega]

end Run

end OSLab.Shell
