import OSLab.Base.Format
import OSLab.Base.Machine
import OSLab.Shell.Reading

/-!
# Runs of built-in commands (Lab2 shell.c)

For a built-in command the shell redirects its own descriptors and puts them
back afterwards. `redirection` was written for a child: when a file cannot be
opened it leaves the process, here the shell.
-/

namespace OSLab.Shell
open OSLab.Base

/-- A line that is one built-in command, with the answers of the kernel to it. -/
structure BuiltIn where
  os : Os
  line : Bytes
  temp : CmdNode
  pipeNum : ℕ
  parsed : splitLine line = some ⟨[temp], pipeNum⟩
  name : Bytes
  named : temp.args.headD none = some name
  known : name ∈ builtinStr

/-- One that does not end the loop. -/
abbrev StayingBuiltIn := { c : BuiltIn // c.name ≠ chars "exit" }

/- `shell.c:193-236` for a line that has been read: the descriptors of the shell in its next pass, or
nothing when it is gone or has left the loop. -/
def runLine (os : Os) (line : Bytes) (t : Fds) : Option Fds :=
  ((splitLine line).bind (runCommand os t)).bind fun r => if r.1 = 0 then none else some r.2

def builtIns : Machine (Option Fds) StayingBuiltIn Unit :=
  ⟨fun s c => ((), s.bind (runLine c.val.os c.val.line))⟩

/-- After the command the shell is in its loop, 0 and 1 are what they were, and no other descriptor
is open that was not. -/
def Restored (s : Option Fds) (c : StayingBuiltIn) : Prop :=
  ∃ t t', s = some t ∧ builtIns.next s c = some t' ∧
    t'.desc STDIN_FILENO = t.desc STDIN_FILENO ∧ t'.desc STDOUT_FILENO = t.desc STDOUT_FILENO ∧
    ∀ fd, t.desc fd = none → t'.desc fd = none

/-- The files of the command can be opened. -/
def CmdNode.FilesOpen (os : Os) (temp : CmdNode) : Prop :=
  temp.inFile.all os.openRead = true ∧ temp.outFile.all os.openWrite = true

/-- `echo` finds the NULL behind its arguments. -/
def BuiltIn.EchoEnds (c : BuiltIn) : Prop := c.name = chars "echo" → none ∈ c.temp.args.drop 1

/-- It is what a pass of the loop makes of a line it has read. -/
theorem shellPass_runLine {env : Env} {s : Session} {buffer : Bytes} (hrun : s.running = true)
    (hread : (readLine (env.fresh s.calls.length) s.stdin.stream).1 = some buffer) :
    runLine (env.os s.calls.length) buffer s.fds =
      if (shellPass env s).running then some (shellPass env s).fds else none := by
  unfold runLine
  simp only [shellPass, hrun, ite_true, hread]
  cases splitLine buffer with
  | none => rfl
  | some cmd =>
    cases hcmd : runCommand (env.os s.calls.length) s.fds cmd with
    | none =>
      simp only [Option.bind_some, hcmd, Option.bind_none, Bool.false_eq_true, ite_false]
    | some r =>
      by_cases hzero : r.1 = 0
      · simp only [Option.bind_some, hcmd, hzero, ite_true, ne_eq, not_true_eq_false, decide_false,
          Bool.false_eq_true, ite_false]
      · simp only [Option.bind_some, hcmd, hzero, ite_false, ne_eq, not_false_eq_true, decide_true,
          ite_true]

/-! ### Redirecting the shell itself -/

variable {t t' : Fds} {os : Os} {temp : CmdNode}

theorem redirectFile_other {file : Option Bytes} {opens : Bytes → Bool} {desc : Bytes → Desc}
    {target fd : ℕ} (h : redirectFile t file opens desc target = some t')
    (hfd : file.isSome = true → fd ≠ target) : t'.desc fd = t.desc fd := by
  cases file with
  | none =>
    obtain rfl := Option.some.inj h
    rfl
  | some path =>
    unfold redirectFile at h
    dsimp only at h
    split at h
    · obtain rfl := Option.some.inj h
      unfold moveTo
      refine FdTable.close_free t.lowest_free fun hlow => ?_
      exact (FdTable.dup2_other _ _ (hfd rfl)).trans (t.alloc_other _ hlow)
    · cases h

/-- Without pipes the two files are opened one after the other. -/
theorem redirection_files (hin : temp.fdIn = 0) (hout : temp.fdOut = 1)
    (h : redirection os temp t = some t') :
    ∃ t1, redirectFile t temp.inFile os.openRead .readFile STDIN_FILENO = some t1 ∧
      redirectFile t1 temp.outFile os.openWrite .writeFile STDOUT_FILENO = some t' := by
  unfold redirection at h
  rw [Option.bind_eq_bind, Option.bind_eq_some_iff] at h
  obtain ⟨t1, hfirst, h⟩ := h
  rw [Option.bind_eq_some_iff] at h
  obtain ⟨t2, hsecond, h⟩ := h
  have hpipes : redirectPipe (redirectPipe t2 temp.fdIn STDIN_FILENO) temp.fdOut STDOUT_FILENO = t2 := by
    rw [hin, hout]
    rfl
  rw [hpipes] at h
  obtain rfl := Option.some.inj h
  exact ⟨t1, hfirst, hsecond⟩

/-- `redirection` touches no descriptor but 0 and 1, and these only for a file. -/
theorem redirection_other {fd : ℕ} (hin : temp.fdIn = 0) (hout : temp.fdOut = 1)
    (h : redirection os temp t = some t') (h0 : temp.inFile.isSome = true → fd ≠ STDIN_FILENO)
    (h1 : temp.outFile.isSome = true → fd ≠ STDOUT_FILENO) : t'.desc fd = t.desc fd := by
  obtain ⟨t1, hfirst, hsecond⟩ := redirection_files hin hout h
  exact (redirectFile_other hsecond h1).trans (redirectFile_other hfirst h0)

theorem redirection_stdout {path : Bytes} {d0 d1 : Desc} (h0 : t.desc STDIN_FILENO = some d0)
    (h1 : t.desc STDOUT_FILENO = some d1) (hin : temp.fdIn = 0) (hout : temp.fdOut = 1)
    (hfile : temp.outFile = some path) (h : redirection os temp t = some t') :
    t'.desc STDOUT_FILENO = some (.writeFile path) := by
  obtain ⟨t1, hfirst, hsecond⟩ := redirection_files hin hout h
  have hspec := redirectFile_spec temp.inFile os.openRead .readFile h0
  rw [hfirst] at hspec
  have hspec' := redirectFile_spec temp.outFile os.openWrite .writeFile
    (hspec.2.2 STDOUT_FILENO d1 (by decide) h1)
  rw [hsecond] at hspec'
  rw [hspec'.2.1, hfile]
  rfl

theorem redirection_eq_some_iff : (∃ t', redirection os temp t = some t') ↔ temp.FilesOpen os := by
  rw [← Option.isSome_iff_exists, redirection_isSome, Bool.and_eq_true]
  rfl

theorem dup_open {fd : ℕ} {d : Desc} (h : t.desc fd = some d) :
    t.dup fd = (some t.lowest, (t.alloc d).2) := by
  unfold FdTable.dup
  rw [h]
  rfl

theorem dup_keeps (fd : ℕ) {fd' : ℕ} {d : Desc} (h : t.desc fd' = some d) :
    (t.dup fd).2.desc fd' = some d := by
  unfold FdTable.dup
  split
  · exact h
  · exact FdTable.alloc_open _ h

/-- What `dup2` puts back when the descriptor was redirected, `redirected`, is what it was before. -/
theorem restore_desc {saved : ℕ} {d : Desc} (target : ℕ) (redirected : Bool) (hsaved : t.desc saved = some d)
    (hkept : redirected = false → t.desc target = some d) :
    (if redirected then t.dup2 saved target else t).desc target = some d ∧
    ∀ fd, fd ≠ target → (if redirected then t.dup2 saved target else t).desc fd = t.desc fd := by
  cases redirected with
  | false => exact ⟨hkept rfl, fun _ _ => rfl⟩
  | true => exact ⟨FdTable.dup2_same hsaved _, fun fd hfd => t.dup2_other _ hfd⟩

/-- When the files can be opened, the descriptors of the shell end up as they were. -/
theorem runBuiltIn_restores {d0 d1 : Desc} {status r : ℤ} (h0 : t.desc STDIN_FILENO = some d0)
    (h1 : t.desc STDOUT_FILENO = some d1) (hin : temp.fdIn = 0) (hout : temp.fdOut = 1)
    (hfiles : temp.FilesOpen os) (hexec : execBuiltInCommand status temp = some r) :
    ∃ t', runBuiltIn os t temp status = some (r, t') ∧ ∀ fd, t'.desc fd = t.desc fd := by
  let ta := (t.alloc d0).2
  let tb := (ta.alloc d1).2
  have ha0 : t.lowest ≠ STDIN_FILENO := (FdTable.ne_lowest h0).symm
  have ha1 : t.lowest ≠ STDOUT_FILENO := (FdTable.ne_lowest h1).symm
  have hta0 : ta.desc STDIN_FILENO = some d0 := FdTable.alloc_open _ h0
  have hta1 : ta.desc STDOUT_FILENO = some d1 := FdTable.alloc_open _ h1
  have htaa : ta.desc t.lowest = some d0 := t.alloc_same d0
  have hb0 : ta.lowest ≠ STDIN_FILENO := (FdTable.ne_lowest hta0).symm
  have hb1 : ta.lowest ≠ STDOUT_FILENO := (FdTable.ne_lowest hta1).symm
  have hba : ta.lowest ≠ t.lowest := (FdTable.ne_lowest htaa).symm
  have htba : tb.desc t.lowest = some d0 := FdTable.alloc_open _ htaa
  have htbb : tb.desc ta.lowest = some d1 := ta.alloc_same d1
  obtain ⟨tr, hr⟩ := (redirection_eq_some_iff (t := tb)).mpr hfiles
  have hother {fd : ℕ} (hfd0 : fd ≠ STDIN_FILENO) (hfd1 : fd ≠ STDOUT_FILENO) :
      tr.desc fd = tb.desc fd := redirection_other hin hout hr (fun _ => hfd0) fun _ => hfd1
  -- 0 is put back first, then 1
  obtain ⟨hs0, hs0'⟩ := restore_desc (t := tr) STDIN_FILENO temp.inFile.isSome
    ((hother ha0 ha1).trans htba) (by
      intro hnone
      rw [redirection_other hin hout hr (fun h => by rw [hnone] at h; cases h) fun _ => by decide]
      exact FdTable.alloc_open _ hta0)
  generalize hts : (if temp.inFile.isSome then tr.dup2 t.lowest STDIN_FILENO else tr) = ts at hs0 hs0'
  obtain ⟨hu1, hu1'⟩ := restore_desc (t := ts) STDOUT_FILENO temp.outFile.isSome
    ((hs0' _ hb0).trans ((hother hb0 hb1).trans htbb)) (by
      intro hnone
      rw [hs0' _ (by decide),
        redirection_other hin hout hr (fun _ => by decide) fun h => by rw [hnone] at h; cases h]
      exact FdTable.alloc_open _ hta1)
  generalize htu : (if temp.outFile.isSome then ts.dup2 ta.lowest STDOUT_FILENO else ts) = tu
    at hu1 hu1'
  refine ⟨(tu.close t.lowest).close ta.lowest, ?_, fun fd => ?_⟩
  · have hdup0 : t.dup STDIN_FILENO = (some t.lowest, ta) := dup_open h0
    have hdup1 : ta.dup STDOUT_FILENO = (some ta.lowest, tb) := dup_open hta1
    simp only [runBuiltIn, hdup0, hdup1, hr, hexec, Option.bind_eq_bind, Option.bind_some,
      Option.elim_some, hts, htu]
  · have hfree : t.desc ta.lowest = none := (t.alloc_other d0 hba).symm.trans ta.lowest_free
    refine FdTable.close_free hfree fun hfdb => FdTable.close_free t.lowest_free fun hfda => ?_
    by_cases hfd1 : fd = STDOUT_FILENO
    · subst hfd1
      exact hu1.trans h1.symm
    rw [hu1' _ hfd1]
    by_cases hfd0 : fd = STDIN_FILENO
    · subst hfd0
      exact hs0.trans h0.symm
    rw [hs0' _ hfd0, hother hfd0 hfd1]
    exact (ta.alloc_other _ hfdb).trans (t.alloc_other _ hfda)

/-! ### One command -/

theorem searchBuiltInCommand_known {name : Bytes} (hname : temp.args.headD none = some name)
    (hknown : name ∈ builtinStr) :
    ∃ i, builtinStr.idxOf? name = some i ∧ searchBuiltInCommand temp = some (i : ℤ) := by
  cases hi : builtinStr.idxOf? name with
  | none => exact absurd hknown (List.idxOf?_eq_none_iff.mp hi)
  | some i =>
    refine ⟨i, rfl, ?_⟩
    unfold searchBuiltInCommand
    rw [hname]
    dsimp only
    rw [hi]

theorem builtinStr_getElem {name : Bytes} {i : ℕ} (hi : builtinStr.idxOf? name = some i) :
    builtinStr[i]? = some name := by
  obtain ⟨hlt, heq, -⟩ := List.findIdx?_eq_some_iff_getElem.mp hi
  rw [List.getElem?_eq_getElem hlt]
  exact congrArg some (eq_of_beq heq)

/-- The status is 0 for `exit` and 1 for every other command; `echo` has to find its NULL. -/
theorem execBuiltInCommand_known (temp : CmdNode) {name : Bytes} {i : ℕ}
    (hi : builtinStr.idxOf? name = some i) :
    execBuiltInCommand i temp =
      if name = chars "echo" ∧ none ∉ temp.args.drop 1 then none
      else if name = chars "exit" then some 0 else some 1 := by
  have hname := builtinStr_getElem hi
  have hlt : i < 6 := (List.getElem?_eq_some_iff.mp hname).1
  have hnamed {word : Bytes} (h : some word = some name) : name = word := (Option.some.inj h).symm
  rcases i with _ | _ | _ | _ | _ | _ | i
  · rw [hnamed hname, if_neg fun h => absurd h.1 (by decide)]
    rfl
  · rw [hnamed hname, if_neg fun h => absurd h.1 (by decide)]
    rfl
  · rw [hnamed hname, if_neg fun h => absurd h.1 (by decide)]
    rfl
  · rw [hnamed hname]
    by_cases hnull : none ∈ temp.args.drop 1
    · rw [if_neg fun h => h.2 hnull]
      exact if_pos hnull
    · rw [if_pos ⟨rfl, hnull⟩]
      exact if_neg hnull
  · rw [hnamed hname, if_neg fun h => absurd h.1 (by decide)]
    rfl
  · rw [hnamed hname, if_neg fun h => absurd h.1 (by decide)]
    rfl
  · exact absurd hlt (by omega)

/-- What a pass with a built-in command leaves of the shell. -/
theorem BuiltIn.runLine_cases (c : BuiltIn) (hexit : c.name ≠ chars "exit") {d0 d1 : Desc} (h0 : t.desc STDIN_FILENO = some d0)
    (h1 : t.desc STDOUT_FILENO = some d1) :
    (c.temp.FilesOpen c.os ∧ c.EchoEnds ∧
      ∃ t', runLine c.os c.line t = some t' ∧ ∀ fd, t'.desc fd = t.desc fd) ∨
    (¬ (c.temp.FilesOpen c.os ∧ c.EchoEnds) ∧ runLine c.os c.line t = none) := by
  obtain ⟨hin, hout⟩ := splitLine_fds c.parsed c.temp (List.mem_singleton_self _)
  obtain ⟨i, hi, hsearch⟩ := searchBuiltInCommand_known c.named c.known
  have hexec := execBuiltInCommand_known c.temp hi
  rw [if_neg hexit] at hexec
  have hrun : runCommand c.os t ⟨[c.temp], c.pipeNum⟩ = runBuiltIn c.os t c.temp i := by
    have hne : (i : ℤ) ≠ -1 := by omega
    simp only [runCommand, hsearch, Option.bind_eq_bind, Option.bind_some, hne, ne_eq,
      not_false_eq_true, ite_true]
  unfold runLine
  rw [c.parsed, Option.bind_some, hrun]
  by_cases hgood : c.temp.FilesOpen c.os ∧ c.EchoEnds
  · have hone : execBuiltInCommand i c.temp = some 1 := by
      rw [hexec, if_neg fun h => h.2 (hgood.2 h.1)]
    obtain ⟨t', hbuilt, hdesc⟩ := runBuiltIn_restores h0 h1 hin hout hgood.1 hone
    refine .inl ⟨hgood.1, hgood.2, t', ?_, hdesc⟩
    rw [hbuilt]
    rfl
  · refine .inr ⟨hgood, ?_⟩
    have hgone : (runBuiltIn c.os t c.temp i).map Prod.fst = none := by
      rw [runBuiltIn_status]
      split
      · rename_i hfiles
        rw [Bool.and_eq_true] at hfiles
        rw [hexec, if_pos (Classical.not_imp.mp fun hends => hgood ⟨hfiles, hends⟩)]
      · rfl
    rw [Option.map_eq_none_iff.mp hgone]
    rfl

/-- After every command of a run the shell goes on with its own descriptors iff every file that is
given opens, and no `echo` fills the array of its arguments. -/
theorem builtIns_restored_iff (t : ShellFds) (cs : List StayingBuiltIn) :
    builtIns.EveryStep Restored (some t.toFdTable) cs ↔
      ∀ c ∈ cs, c.val.temp.FilesOpen c.val.os ∧ c.val.EchoEnds := by
  rw [← builtIns.everyStep_forall_mem (some t.toFdTable)]
  apply builtIns.everyStep_iff_of_invariant (H := fun _ _ => True) (P := fun s =>
    ∃ t d0 d1, s = some t ∧ t.desc STDIN_FILENO = some d0 ∧ t.desc STDOUT_FILENO = some d1)
  · rintro s c ⟨t, d0, d1, rfl, h0, h1⟩ - hgood
    obtain ⟨-, -, t', hrun, hdesc⟩ | ⟨hbad, -⟩ := c.val.runLine_cases c.property h0 h1
    · exact ⟨⟨t, t', rfl, hrun, hdesc _, hdesc _, fun fd hfd => (hdesc fd).trans hfd⟩,
        t', d0, d1, hrun, (hdesc _).trans h0, (hdesc _).trans h1⟩
    · exact absurd hgood hbad
  · rintro s c ⟨t, d0, d1, rfl, h0, h1⟩ - ⟨-, t', -, hnext, -⟩
    obtain ⟨hfiles, hends, -⟩ | ⟨-, hrun⟩ := c.val.runLine_cases c.property h0 h1
    · exact ⟨hfiles, hends⟩
    · have hgone : builtIns.next (some t) c = none := hrun
      rw [hgone] at hnext
      cases hnext
  · obtain ⟨d0, h0⟩ := t.stdin
    obtain ⟨d1, h1⟩ := t.stdout
    exact ⟨t.toFdTable, d0, d1, rfl, h0, h1⟩
  · exact builtIns.everyStep_of_forall (fun _ _ => trivial) _ cs

theorem echo_known : chars "echo" ∈ builtinStr := by decide

/- A kernel that finds no file to read. -/
def osNoFile : Os := { osAll with openRead := fun _ => false }

/- `echo < x` while there is no `x`. -/
def echoNoFile : BuiltIn where
  os := osNoFile
  line := chars "echo < x"
  temp := nodeOf [chars "echo"] (some (chars "x")) none
  pipeNum := 2
  parsed := by
    rw [splitLine_stages, if_pos (by decide +kernel)]
    decide +kernel
  name := chars "echo"
  named := rfl
  known := echo_known

/-- The shell is gone after it. -/
theorem echoNoFile_exits :
    ¬ ∀ cs, builtIns.EveryStep Restored (some shellFds.toFdTable) cs := by
  intro hall
  have hexit : echoNoFile.name ≠ chars "exit" := by decide
  obtain ⟨⟨-, t', -, hnext, -⟩, -⟩ := hall [⟨echoNoFile, hexit⟩]
  have hgone : builtIns.next (some shellFds.toFdTable) ⟨echoNoFile, hexit⟩ = none := by
    obtain ⟨hfiles, -⟩ | ⟨-, hrun⟩ :=
      echoNoFile.runLine_cases hexit (t := shellFds.toFdTable) rfl rfl
    · exact absurd hfiles.1 (by decide)
    · exact hrun
  rw [hgone] at hnext
  cases hnext

end OSLab.Shell
