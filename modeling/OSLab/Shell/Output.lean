import OSLab.Base.LineBuffer
import OSLab.Shell.BuiltIns
import OSLab.Shell.History
import OSLab.Shell.Lossless

/-!
# Where the output of a built-in command goes (Lab2 shell.c, builtin.c)

The built-in commands print through the `stdout` of the shell, which is
buffered by lines, while the shell changes descriptor 1 below it and back.
-/

namespace OSLab.Shell.Output
open OSLab.Base

/-- What the commands print besides their arguments: the answer of `getcwd`, and the history. -/
structure World where
  getcwd : Option Bytes
  blocks : History.Blocks
  history : History.State

/-! ### The texts (builtin.c) -/

def rule : Bytes := List.replicate 50 45 ++ chars "\n"

def help (_ : World) (_args : List (Option Bytes)) : Bytes :=
  rule ++ chars "My Little Shell!!\n" ++ chars "The following are built in:\n" ++
    builtinStr.zipIdx.flatMap (fun e => printInt e.2 ++ chars ": " ++ e.1 ++ chars "\n") ++ rule

/- Its messages go to stderr. -/
def cd (_ : World) (_args : List (Option Bytes)) : Bytes := []

def pwd (w : World) (_args : List (Option Bytes)) : Bytes :=
  match w.getcwd with
  | some cwd => cwd ++ chars "\n"
  | none => []

/- The loop of `echo` from one of its arguments on. -/
def echoWords : List (Option Bytes) → Bytes
  | some arg :: args => arg ++ (if args.headD none = none then [] else chars " ") ++ echoWords args
  | _ => []

def echo (_ : World) (args : List (Option Bytes)) : Bytes :=
  if args.getD 1 none = some (chars "-n") then echoWords (args.drop 2)
  else echoWords (args.drop 1) ++ chars "\n"

def exitShell (_ : World) (_args : List (Option Bytes)) : Bytes := []

def record (w : World) (_args : List (Option Bytes)) : Bytes := History.record w.blocks w.history

/- What is printed by the function that `execBuiltInCommand` calls. -/
def printed (w : World) (status : ℤ) (cmd : CmdNode) : Bytes :=
  match [help, cd, pwd, echo, exitShell, record][status.toNat]? with
  | none => []
  | some func => func w cmd.args

def text (w : World) (c : BuiltIn) : Bytes :=
  (searchBuiltInCommand c.temp).elim [] fun status => printed w status c.temp

/-! ### The stream -/

/-- A byte on `stdout`, and whether the command has printed it. -/
abbrev Tagged := Byte × Bool

def isNewline (b : Tagged) : Bool := b.1 = NEWLINE

abbrev Stdout := LineBuffer isNewline

def tag (own : Bool) (text : Bytes) : List Tagged := text.map fun b => (b, own)

/- The writes to descriptor 1, with what it refers to, in a pass of `shell` (`shell.c:187-213`) with
the built-in command `c`. The shell has printed `before` and will print `after`, and in the end the
stream is flushed; `flushed` tells whether reading the line has flushed it, as the C library does
before it asks a terminal. Nothing when the shell does not come through. -/
def passWrites (w : World) (c : BuiltIn) (t : Fds) (before : Bytes) (flushed : Bool) (after : Bytes) :
    Option (List (Option Desc × List Tagged)) := do
  let prompt := (LineBuffer.empty : Stdout).print (tag false (before ++ chars ">>> $ "))
  let read := if flushed then prompt.2.flush else ([], prompt.2)
  let status ← searchBuiltInCommand c.temp
  let redirected ← redirection c.os c.temp ((t.dup STDIN_FILENO).2.dup STDOUT_FILENO).2
  let command := read.2.print (tag true (printed w status c.temp))
  let restored ← runBuiltIn c.os t c.temp status
  let rest := command.2.print (tag false after)
  some [(t.desc STDOUT_FILENO, prompt.1), (t.desc STDOUT_FILENO, read.1),
    (redirected.desc STDOUT_FILENO, command.1), (restored.2.desc STDOUT_FILENO, rest.1),
    (restored.2.desc STDOUT_FILENO, rest.2.flush.1)]

def sentTo (d : Desc) (writes : List (Option Desc × List Tagged)) : List Tagged :=
  (writes.filter fun e => e.1 = some d).flatMap Prod.snd

/-- The file gets exactly what the command has printed, and the `stdout` of the shell nothing of it. -/
def OnlyInFile (path : Bytes) (t : Fds) (printed : Bytes)
    (writes : Option (List (Option Desc × List Tagged))) : Prop :=
  ∃ l, writes = some l ∧ sentTo (.writeFile path) l = tag true printed ∧
    ∀ d, t.desc STDOUT_FILENO = some d → ∀ b, (b, true) ∉ sentTo d l

/-! ### The kinds of text -/

/-- The command prints nothing. -/
def Silent (w : World) (c : BuiltIn) : Prop :=
  c.name = chars "cd" ∨ c.name = chars "exit" ∨ (c.name = chars "pwd" ∧ w.getcwd = none) ∨
    (c.name = chars "echo" ∧ c.temp.args.getD 1 none = some (chars "-n") ∧
      c.temp.args.getD 2 none = none) ∨
    (c.name = chars "record" ∧ w.history.history_count ≤ 0)

/-- The command prints a text without a newline at its end: `echo -n` with something to print. -/
def Unended (c : BuiltIn) : Prop :=
  c.name = chars "echo" ∧ c.temp.args.getD 1 none = some (chars "-n") ∧
    c.temp.args.getD 2 none ≠ none

/-- The text ends with a newline. -/
def Ended (text : Bytes) : Prop := ∃ l, text = l ++ [NEWLINE]

theorem Ended.append {s : Bytes} (t : Bytes) (h : Ended s) : Ended (t ++ s) := by
  obtain ⟨l, rfl⟩ := h
  exact ⟨t ++ l, (List.append_assoc ..).symm⟩

theorem Ended.line (t : Bytes) : Ended (t ++ chars "\n") := ⟨t, rfl⟩

theorem flatMap_ended {l : List ℕ} (hne : l ≠ []) {f : ℕ → Bytes} (h : ∀ i, Ended (f i)) :
    Ended (l.flatMap f) := by
  rw [← List.dropLast_append_getLast hne, List.flatMap_append, List.flatMap_singleton]
  exact (h _).append _

theorem help_ended (w : World) (args : List (Option Bytes)) : Ended (help w args) :=
  (Ended.line _).append _

theorem record_ended {w : World} (args : List (Option Bytes)) (h : 0 < w.history.history_count) :
    Ended (record w args) := by
  have hline (number : ℤ) (text : Bytes) : Ended (History.entryLine number text) := Ended.line _
  unfold record History.record
  split
  · rw [forLoop_append (Nat.zero_le _), List.nil_append]
    refine flatMap_ended (fun hnil => ?_) fun _ => hline _ _
    have hlen := congrArg List.length hnil
    rw [List.length_range', List.length_nil] at hlen
    omega
  · dsimp only
    rw [forLoop_append (Nat.le_add_right ..), List.nil_append, Nat.add_sub_cancel_left]
    exact flatMap_ended (List.cons_ne_nil _ _) fun _ => hline _ _

theorem record_silent {w : World} (args : List (Option Bytes)) (h : w.history.history_count ≤ 0) :
    record w args = [] := by
  have hfew : w.history.history_count < History.MAX_RECORD_NUM := by
    unfold History.MAX_RECORD_NUM
    omega
  have hzero : w.history.history_count.toNat = 0 := by omega
  unfold record History.record
  rw [if_pos hfew, hzero]
  rfl

/-- The words of `echo` are its arguments and blanks. -/
theorem echoWords_mem {args : List (Option Bytes)} {b : Byte} (hb : b ∈ echoWords args) :
    b = SPACE ∨ ∃ a, some a ∈ args ∧ b ∈ a := by
  induction args with
  | nil => exact absurd hb List.not_mem_nil
  | cons arg args ih =>
    cases arg with
    | none => exact absurd hb List.not_mem_nil
    | some a =>
      unfold echoWords at hb
      rcases List.mem_append.mp hb with hb | hb
      · rcases List.mem_append.mp hb with hb | hb
        · exact .inr ⟨a, List.mem_cons_self .., hb⟩
        · split at hb
          · exact absurd hb List.not_mem_nil
          · exact .inl (List.mem_singleton.mp hb)
      · obtain hb | ⟨a', ha', hb⟩ := ih hb
        · exact .inl hb
        · exact .inr ⟨a', List.mem_cons_of_mem _ ha', hb⟩

theorem echoWords_eq_nil {args : List (Option Bytes)} (hargs : ∀ a, some a ∈ args → a ≠ []) :
    echoWords args = [] ↔ args.headD none = none := by
  cases args with
  | nil => exact iff_of_true rfl rfl
  | cons arg args =>
    cases arg with
    | none => exact iff_of_true rfl rfl
    | some a =>
      refine iff_of_false (fun hnil => ?_) fun h => by cases h
      unfold echoWords at hnil
      rw [List.append_eq_nil_iff, List.append_eq_nil_iff] at hnil
      exact hargs a (List.mem_cons_self ..) hnil.1.1

variable {w : World} {c : BuiltIn}

theorem text_eq {i : ℕ} (hi : builtinStr.idxOf? c.name = some i) : text w c = printed w i c.temp := by
  obtain ⟨j, hj, hsearch⟩ := searchBuiltInCommand_known c.named c.known
  rw [hi] at hj
  obtain rfl := Option.some.inj hj
  unfold text
  rw [hsearch]
  rfl

theorem arg_clean (hline : NEWLINE ∉ cstr c.line) {a : Bytes}
    (ha : some a ∈ c.temp.args) : a ≠ [] ∧ NEWLINE ∉ a := by
  obtain ⟨hne, hmem⟩ := splitLine_arg c.parsed (List.mem_singleton_self _) ha
  exact ⟨hne, fun h => hline (hmem _ h)⟩

/-- What `echo` prints without a newline at the end. -/
theorem echoWords_clean (hline : NEWLINE ∉ cstr c.line) :
    (echoWords (c.temp.args.drop 2) = [] ↔ c.temp.args.getD 2 none = none) ∧
    NEWLINE ∉ echoWords (c.temp.args.drop 2) := by
  have hhead : (c.temp.args.drop 2).headD none = c.temp.args.getD 2 none := by
    rw [List.headD_eq_head?_getD, List.head?_drop, List.getD_eq_getElem?_getD]
  rw [← hhead]
  refine ⟨echoWords_eq_nil fun a ha => (arg_clean hline (List.mem_of_mem_drop ha)).1, ?_⟩
  intro hmem
  obtain hspace | ⟨a, ha, hb⟩ := echoWords_mem hmem
  · exact absurd hspace (by decide)
  · exact (arg_clean hline (List.mem_of_mem_drop ha)).2 hb

theorem not_silent {name : Bytes} (hname : c.name = name) (hcd : name ≠ chars "cd")
    (hexit : name ≠ chars "exit") (hpwd : name = chars "pwd" → w.getcwd ≠ none)
    (hecho : name = chars "echo" → ¬ (c.temp.args.getD 1 none = some (chars "-n") ∧
      c.temp.args.getD 2 none = none))
    (hrecord : name = chars "record" → 0 < w.history.history_count) : ¬ Silent w c := by
  subst hname
  rintro (h | h | ⟨h, hcwd⟩ | ⟨h, hargs⟩ | ⟨h, hcount⟩)
  · exact hcd h
  · exact hexit h
  · exact hpwd h hcwd
  · exact hecho h hargs
  · have hpos := hrecord h
    omega

theorem not_unended {name : Bytes} (hname : c.name = name) (h : name ≠ chars "echo") : ¬ Unended c :=
  fun hunended => h (hname.symm.trans hunended.1)

/-- A command prints nothing, or lines, or the words of an `echo -n`. -/
inductive TextKind (w : World) (c : BuiltIn) (text : Bytes) : Prop
  | silent (hsilent : Silent w c) (htext : text = [])
  | lines (hsilent : ¬ Silent w c) (hunended : ¬ Unended c) (htext : Ended text)
  | words (hsilent : ¬ Silent w c) (hunended : Unended c) (hne : text ≠ []) (hclean : NEWLINE ∉ text)

theorem help_kind (hname : c.name = chars "help") (args : List (Option Bytes)) :
    TextKind w c (help w args) := by
  refine .lines ?_ (not_unended hname (by decide)) (help_ended w args)
  exact not_silent hname (by decide) (by decide) (fun h => absurd h (by decide))
    (fun h => absurd h (by decide)) fun h => absurd h (by decide)

theorem pwd_kind (hname : c.name = chars "pwd") (args : List (Option Bytes)) :
    TextKind w c (pwd w args) := by
  unfold pwd
  split
  · rename_i cwd hcwd
    refine .lines ?_ (not_unended hname (by decide)) (.line cwd)
    refine not_silent hname (by decide) (by decide) (fun _ hnone => ?_)
      (fun h => absurd h (by decide)) fun h => absurd h (by decide)
    cases hcwd.symm.trans hnone
  · rename_i hcwd
    exact .silent (.inr (.inr (.inl ⟨hname, hcwd⟩))) rfl

theorem echo_kind (hname : c.name = chars "echo") (hline : NEWLINE ∉ cstr c.line) :
    TextKind w c (echo w c.temp.args) := by
  obtain ⟨hnil, hclean⟩ := echoWords_clean hline
  have hsilent (h : ¬ (c.temp.args.getD 1 none = some (chars "-n") ∧
      c.temp.args.getD 2 none = none)) : ¬ Silent w c :=
    not_silent hname (by decide) (by decide) (fun h => absurd h (by decide)) (fun _ => h)
      fun h => absurd h (by decide)
  unfold echo
  by_cases hn : c.temp.args.getD 1 none = some (chars "-n")
  · rw [if_pos hn]
    by_cases hword : c.temp.args.getD 2 none = none
    · exact .silent (.inr (.inr (.inr (.inl ⟨hname, hn, hword⟩)))) (hnil.mpr hword)
    · exact .words (hsilent fun h => hword h.2) ⟨hname, hn, hword⟩ (fun h => hword (hnil.mp h)) hclean
  · rw [if_neg hn]
    exact .lines (hsilent fun h => hn h.1) (fun h => hn h.2.1) (.line _)

theorem record_kind (hname : c.name = chars "record") (args : List (Option Bytes)) :
    TextKind w c (record w args) := by
  by_cases hcount : 0 < w.history.history_count
  · refine .lines ?_ (not_unended hname (by decide)) (record_ended args hcount)
    exact not_silent hname (by decide) (by decide) (fun h => absurd h (by decide))
      (fun h => absurd h (by decide)) fun _ => hcount
  · have hle : w.history.history_count ≤ 0 := by omega
    exact .silent (.inr (.inr (.inr (.inr ⟨hname, hle⟩)))) (record_silent args hle)

theorem text_kind (w : World) (hline : NEWLINE ∉ cstr c.line) : TextKind w c (text w c) := by
  obtain ⟨i, hi, -⟩ := searchBuiltInCommand_known c.named c.known
  have hnamed := builtinStr_getElem hi
  have hlt : i < 6 := (List.getElem?_eq_some_iff.mp hnamed).1
  have hname {word : Bytes} (h : some word = some c.name) : c.name = word := (Option.some.inj h).symm
  rw [text_eq hi]
  rcases i with _ | _ | _ | _ | _ | _ | i
  · exact help_kind (hname hnamed) c.temp.args
  · exact .silent (.inl (hname hnamed)) rfl
  · exact pwd_kind (hname hnamed) c.temp.args
  · exact echo_kind (hname hnamed) hline
  · exact .silent (.inr (.inl (hname hnamed))) rfl
  · exact record_kind (hname hnamed) c.temp.args
  · exact absurd hlt (by omega)

/-! ### The stream in a pass -/

theorem not_own {text : Bytes} {b : Byte} : (b, true) ∉ tag false text := by
  intro h
  obtain ⟨b', -, he⟩ := List.mem_map.mp h
  cases congrArg Prod.snd he

theorem tag_unended (own : Bool) {text : Bytes} (h : NEWLINE ∉ text) :
    ∀ b ∈ tag own text, isNewline b = false := by
  intro b hb
  obtain ⟨b', hb', rfl⟩ := List.mem_map.mp hb
  exact decide_eq_false fun he => h (he ▸ hb')

/-- The stream when the command starts, after what was printed before and the prompt. -/
def atCommand (before : Bytes) (flushed : Bool) : Stdout :=
  let prompt := (LineBuffer.empty : Stdout).print (tag false (before ++ chars ">>> $ "))
  if flushed then .empty else prompt.2

/-- Nothing of the command is pending yet, but the prompt is, unless reading the line has flushed it. -/
theorem atCommand_pending (before : Bytes) (flushed : Bool) :
    (∀ b, (b, true) ∉ (atCommand before flushed).pending) ∧
    ((atCommand before flushed).pending = [] ↔ flushed = true) := by
  cases flushed with
  | true => exact ⟨fun _ h => absurd h List.not_mem_nil, iff_of_true rfl rfl⟩
  | false =>
    let prompt := (LineBuffer.empty : Stdout).print (tag false (before ++ chars ">>> $ "))
    constructor
    · intro b hb
      have hsplit : prompt.1 ++ (atCommand before false).pending =
          tag false (before ++ chars ">>> $ ") := LineBuffer.empty.written_append_pending _
      have hmem := List.mem_append_right prompt.1 hb
      rw [hsplit] at hmem
      exact not_own hmem
    · -- the prompt ends without a newline
      refine iff_of_false (fun hnil => ?_) (by decide)
      have hprompt : tag false (before ++ chars ">>> $ ") =
          tag false before ++ tag false (chars ">>> $ ") := List.map_append
      have hunended : ∀ b ∈ tag false (chars ">>> $ "), isNewline b = false :=
        tag_unended false (by decide +kernel)
      change ((LineBuffer.empty : Stdout).print _).2.pending = [] at hnil
      rw [hprompt, LineBuffer.print_append] at hnil
      have hlast := (((LineBuffer.empty : Stdout).print (tag false before)).2).written_append_pending
        (tag false (chars ">>> $ "))
      rw [hnil, LineBuffer.print_unended _ hunended, List.append_nil, eq_comm,
        List.append_eq_nil_iff] at hlast
      exact absurd hlast.2 (by decide +kernel)

variable {t : ShellFds} {path : Bytes}

/-- A pass that the shell comes through: what it writes to the file is what the command's part of the
stream writes, and of the command the rest goes to the `stdout` of the shell. -/
theorem passWrites_sent (w : World) (hout : c.temp.outFile = some path)
    (hfiles : c.temp.FilesOpen c.os) (hends : c.EchoEnds) (before : Bytes) (flushed : Bool)
    (after : Bytes) :
    ∃ l, passWrites w c t.toFdTable before flushed after = some l ∧
      sentTo (.writeFile path) l = ((atCommand before flushed).print (tag true (text w c))).1 ∧
      ∀ d, t.desc STDOUT_FILENO = some d → ∀ b, (b, true) ∈ sentTo d l ↔
        (b, true) ∈ ((atCommand before flushed).print (tag true (text w c))).2.pending := by
  obtain ⟨d0, h0⟩ := t.stdin
  obtain ⟨d1, h1⟩ := t.stdout
  obtain ⟨hin, hone⟩ := splitLine_fds c.parsed c.temp (List.mem_singleton_self _)
  obtain ⟨i, hi, hsearch⟩ := searchBuiltInCommand_known c.named c.known
  obtain ⟨r, hexec⟩ : ∃ r, execBuiltInCommand i c.temp = some r := by
    rw [execBuiltInCommand_known c.temp hi, if_neg fun h => h.2 (hends h.1)]
    split
    · exact ⟨_, rfl⟩
    · exact ⟨_, rfl⟩
  obtain ⟨restored, hrun, hdesc⟩ := runBuiltIn_restores h0 h1 hin hone hfiles hexec
  obtain ⟨redirected, hredirect⟩ := (redirection_eq_some_iff
    (t := ((t.toFdTable.dup STDIN_FILENO).2.dup STDOUT_FILENO).2)).mpr hfiles
  have hfile := redirection_stdout (dup_keeps _ (dup_keeps _ h0)) (dup_keeps _ (dup_keeps _ h1))
    hin hone hout hredirect
  obtain ⟨n, rfl⟩ := t.inherited _ _ h1
  have hother : some (Desc.inherited n) ≠ some (.writeFile path) := fun h => by cases h
  have hstdout : restored.desc STDOUT_FILENO = some (.inherited n) := (hdesc _).trans h1
  let prompt := (.empty : Stdout).print (tag false (before ++ chars ">>> $ "))
  let read := if flushed then prompt.2.flush else ([], prompt.2)
  let command := (atCommand before flushed).print (tag true (text w c))
  let rest := command.2.print (tag false after)
  have hwrites : passWrites w c t.toFdTable before flushed after =
      some [(some (.inherited n), prompt.1), (some (.inherited n), read.1),
        (some (.writeFile path), command.1), (some (.inherited n), rest.1),
        (some (.inherited n), rest.2.flush.1)] := by
    have hread : read.2 = atCommand before flushed := by
      cases flushed <;> rfl
    simp only [passWrites, hsearch, hredirect, hrun, Option.bind_eq_bind, Option.bind_some, h1, hfile,
      hstdout, ← text_eq hi, rest, command, ← hread]
    rfl
  refine ⟨_, hwrites, ?_, ?_⟩
  · simp only [sentTo, List.filter_cons, hother, decide_false, decide_true, ite_true,
      Bool.false_eq_true, ite_false, List.filter_nil, List.flatMap_cons, List.flatMap_nil,
      List.append_nil, command]
  · rintro d hd b
    obtain rfl := Option.some.inj (h1.symm.trans hd)
    have hrest : rest.1 ++ rest.2.flush.1 = command.2.pending ++ tag false after :=
      command.2.written_append_pending _
    have hshown : prompt.1 ++ prompt.2.pending = tag false (before ++ chars ">>> $ ") :=
      LineBuffer.empty.written_append_pending _
    have hprompt : (b, true) ∉ prompt.1 := fun h =>
      not_own (hshown ▸ List.mem_append_left prompt.2.pending h)
    have hread : (b, true) ∉ read.1 := by
      cases flushed with
      | false => exact List.not_mem_nil
      | true => exact fun h => not_own (hshown ▸ List.mem_append_right prompt.1 h)
    simp only [sentTo, List.filter_cons, hother.symm, decide_false, decide_true, ite_true,
      Bool.false_eq_true, ite_false, List.filter_nil, List.flatMap_cons, List.flatMap_nil,
      List.append_nil, hrest, List.mem_append, hprompt, hread, not_own, false_or, or_false, command]

/-- Without the NULL behind the arguments of `echo` nothing is certain. -/
theorem passWrites_none {w : World} {t : Fds} {before after : Bytes} {flushed : Bool}
    (h : ¬ c.EchoEnds) : passWrites w c t before flushed after = none := by
  obtain ⟨i, hi, hsearch⟩ := searchBuiltInCommand_known c.named c.known
  have hexec : execBuiltInCommand i c.temp = none := by
    rw [execBuiltInCommand_known c.temp hi, if_pos (Classical.not_imp.mp h)]
  have hgone : (runBuiltIn c.os t c.temp i).map Prod.fst = none := by
    rw [runBuiltIn_status, hexec, ite_self]
  have hrun := Option.map_eq_none_iff.mp hgone
  unfold passWrites
  simp only [hsearch, hrun, Option.bind_eq_bind, Option.bind_some, Option.bind_none]
  cases redirection c.os c.temp ((t.dup STDIN_FILENO).2.dup STDOUT_FILENO).2 <;> rfl

/-- What the command's part of the stream has to be. -/
theorem onlyInFile_print (w : World) (hout : c.temp.outFile = some path)
    (hfiles : c.temp.FilesOpen c.os) (hends : c.EchoEnds) (before : Bytes) (flushed : Bool)
    (after : Bytes) :
    OnlyInFile path t.toFdTable (text w c) (passWrites w c t.toFdTable before flushed after) ↔
      ((atCommand before flushed).print (tag true (text w c))).1 = tag true (text w c) ∧
      ∀ b, (b, true) ∉ ((atCommand before flushed).print (tag true (text w c))).2.pending := by
  obtain ⟨l, hl, hfile, hstdout⟩ := passWrites_sent (t := t) w hout hfiles hends before flushed after
  obtain ⟨d1, h1⟩ := t.stdout
  constructor
  · rintro ⟨l', hl', hfile', hstdout'⟩
    obtain rfl := Option.some.inj (hl.symm.trans hl')
    exact ⟨hfile.symm.trans hfile', fun b hb => hstdout' d1 h1 b ((hstdout d1 h1 b).mpr hb)⟩
  · rintro ⟨hprint, hpending⟩
    exact ⟨l, hl, hfile.trans hprint, fun d hd b hb => hpending b ((hstdout d hd b).mp hb)⟩

/-- A text without a newline does not reach the file. -/
theorem print_unended_ne (b : Stdout) {text : Bytes} (hne : text ≠ []) (hclean : NEWLINE ∉ text) :
    (b.print (tag true text)).1 ≠ tag true text := by
  rw [b.print_unended (tag_unended true hclean)]
  exact fun h => hne (List.map_eq_nil_iff.mp h.symm)

/-- A line that `read_line` accepts has no newline. -/
theorem readLine_clean {fresh stream line rest : Bytes} (hstream : stream ≠ [])
    (h : readLine fresh stream = (some line, rest)) : NEWLINE ∉ cstr line := by
  have hcommand := (readLine_commandOf fresh hstream).1
  rw [h] at hcommand
  unfold commandOf at hcommand
  split at hcommand
  · cases hcommand
  · have hline : cstr line = _ := Option.some.inj hcommand
    rw [hline]
    intro hmem
    have hkept := List.mem_takeWhile_imp (p := fun b => decide (b ≠ 0 ∧ b ≠ NEWLINE)) hmem
    exact (of_decide_eq_true hkept).2 rfl

/-- The file gets the text of a command and nothing else, and the shell's `stdout` nothing of it, iff
there is no text, or reading the line has flushed the prompt and the text ends with a newline. -/
theorem onlyInFile_iff (w : World) (t : ShellFds) (c : BuiltIn) (hline : NEWLINE ∉ cstr c.line)
    {path : Bytes} (hout : c.temp.outFile = some path) (hfiles : c.temp.FilesOpen c.os)
    (before : Bytes) (flushed : Bool) (after : Bytes) :
    OnlyInFile path t.toFdTable (text w c) (passWrites w c t.toFdTable before flushed after) ↔
      c.EchoEnds ∧ (Silent w c ∨ flushed = true ∧ ¬ Unended c) := by
  by_cases hends : c.EchoEnds
  swap
  · rw [passWrites_none hends]
    refine iff_of_false ?_ fun h => hends h.1
    rintro ⟨l, hl, -⟩
    cases hl
  obtain ⟨hown, hflushed⟩ := atCommand_pending before flushed
  rw [onlyInFile_print w hout hfiles hends, and_iff_right hends]
  cases text_kind w hline with
  | silent hsilent htext =>
    rw [htext]
    exact iff_of_true ⟨rfl, hown⟩ (.inl hsilent)
  | lines hsilent hunended hended =>
    obtain ⟨s, htext⟩ := hended
    have hprint : (atCommand before flushed).print (tag true (text w c)) =
        ((atCommand before flushed).pending ++ tag true (text w c), .empty) := by
      have htag : tag true (text w c) = tag true s ++ [(NEWLINE, true)] := by
        rw [htext]
        exact List.map_append
      rw [htag]
      exact LineBuffer.print_ended _ _ rfl
    rw [hprint, or_iff_right hsilent, and_iff_left hunended, ← hflushed]
    constructor
    · intro h
      exact List.append_left_eq_self.mp h.1
    · intro h
      rw [h]
      exact ⟨rfl, fun _ hb => absurd hb List.not_mem_nil⟩
  | words hsilent hunended hne hclean =>
    exact iff_of_false (fun h => print_unended_ne _ hne hclean h.1)
      fun h => (h.resolve_left hsilent).2 hunended

/- An empty history, and a working directory. -/
def someWorld : World :=
  ⟨some (chars "/home"), History.someBlocks, History.start Mem.zero []⟩

/- `echo hi > f`. -/
def echoToFile : BuiltIn where
  os := osAll
  line := chars "echo hi > f"
  temp := nodeOf [chars "echo", chars "hi"] none (some (chars "f"))
  pipeNum := 3
  parsed := by
    rw [splitLine_stages, if_pos (by decide +kernel)]
    decide +kernel
  name := chars "echo"
  named := rfl
  known := echo_known

theorem echoToFile_onlyInFile :
    OnlyInFile (chars "f") shellFds.toFdTable (text someWorld echoToFile)
      (passWrites someWorld echoToFile shellFds.toFdTable (chars "hello\n") true (chars ">>> $ ")) :=
  (onlyInFile_iff someWorld shellFds echoToFile (by decide +kernel) rfl ⟨rfl, rfl⟩ _ _ _).mpr
    ⟨fun _ => by decide, .inr ⟨rfl, fun h => absurd h.2.1 (by decide)⟩⟩

/- `echo -n hi > f`. -/
def echoUnended : BuiltIn where
  os := osAll
  line := chars "echo -n hi > f"
  temp := nodeOf [chars "echo", chars "-n", chars "hi"] none (some (chars "f"))
  pipeNum := 4
  parsed := by
    rw [splitLine_stages, if_pos (by decide +kernel)]
    decide +kernel
  name := chars "echo"
  named := rfl
  known := echo_known

/-- Its text comes out on the terminal. -/
theorem echoUnended_lost : ¬ ∀ (w : World) (t : ShellFds) (c : BuiltIn) (path before after : Bytes),
    c.temp.outFile = some path → c.temp.FilesOpen c.os →
      OnlyInFile path t.toFdTable (text w c) (passWrites w c t.toFdTable before true after) := by
  intro hall
  have honly := hall someWorld shellFds echoUnended (chars "f") [] [] rfl ⟨rfl, rfl⟩
  rw [onlyInFile_print someWorld rfl ⟨rfl, rfl⟩ fun _ => by decide] at honly
  exact print_unended_ne _ (by decide) (by decide) honly.1

end OSLab.Shell.Output
