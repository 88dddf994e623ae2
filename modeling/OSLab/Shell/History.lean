import OSLab.Base.Format
import OSLab.Base.Machine
import OSLab.Base.Ring
import OSLab.Shell.Reading

/-!
# The history of the shell (Lab2 command.c, builtin.c and my_shell.c)

`read_line` copies each line it accepts into the next of 16 blocks, and `record`
prints the blocks. The blocks and the line buffers are in one memory, in which
`split_line` writes its NULs and everything else the shell does writes too.
-/

namespace OSLab.Shell.History
open OSLab.Base OSLab.Shell

def MAX_RECORD_NUM : ℕ := 16

/-- The pointers of `history`: 16 blocks that `malloc` has returned. -/
structure Blocks where
  history : ℕ → ℕ
  apart : ∀ i j, i < MAX_RECORD_NUM → j < MAX_RECORD_NUM → i ≠ j →
    history i + BUF_SIZE ≤ history j ∨ history j + BUF_SIZE ≤ history i

/-- The address is in none of the blocks. -/
def Blocks.Outside (blocks : Blocks) (x : ℕ) : Prop :=
  ∀ i, i < MAX_RECORD_NUM → ¬ (blocks.history i ≤ x ∧ x < blocks.history i + BUF_SIZE)

/-- `history_count` is an `int`. `accepted` are the strings that `read_line` has returned so far and
recorded; the program does not keep them. -/
structure State where
  mem : Mem
  history_count : ℤ
  stream : Bytes
  accepted : List Bytes

/- `++history_count`, on 32 bits. -/
def increment (n : ℤ) : ℤ := Int.bmod (n + 1) (2 ^ 32)

/- `history_count % MAX_RECORD_NUM` where it is an index of the array. -/
def slotOf (n : ℤ) : ℕ := (n.tmod MAX_RECORD_NUM).toNat

/- `command.c:13-34` with the buffer at address `buffer`: the line, or NULL. What `fgets` has stored
in a buffer that is freed again is not needed. -/
def readLine (blocks : Blocks) (buffer : ℕ) (s : State) : Option Bytes × State :=
  match Shell.readLine (s.mem.load buffer BUF_SIZE) s.stream with
  | (none, stream) => (none, { s with stream })
  | (some line, stream) =>
    if s.stream = [] then (some line, { s with stream })
    else
      let mem := s.mem.store buffer line
      let slot := blocks.history (slotOf s.history_count)
      (some line,
        { mem := mem.store slot (strncpy (mem.load buffer BUF_SIZE) BUF_SIZE)
          history_count := increment s.history_count
          stream
          accepted := s.accepted ++ [cstr line] })

/- Where `strtok` writes when it is called until it returns NULL: a NUL over the delimiter behind
each token. -/
def strtokStores (d : Byte) (inToken : Bool) (a : ℕ) : Bytes → List ByteStore
  | [] => []
  | c :: s =>
    if c = d then
      (if inToken then [⟨a, [0]⟩] else []) ++ strtokStores d false (a + 1) s
    else strtokStores d true (a + 1) s

/-- One pass of the loop of `shell`: where `malloc` puts the line buffer, and everything else that is
stored until the next line is read. -/
structure Pass (blocks : Blocks) where
  buffer : ℕ
  apart : ∀ i, i < MAX_RECORD_NUM →
    buffer + BUF_SIZE ≤ blocks.history i ∨ blocks.history i + BUF_SIZE ≤ buffer
  others : List ByteStore
  outside : ∀ st ∈ others, ∀ x, st.Covers x → blocks.Outside x

/- The memory after `split_line` has cut the line and the command has run. -/
def pass (blocks : Blocks) (s : State) (p : Pass blocks) : State :=
  let read := readLine blocks p.buffer s
  let stores := read.1.elim [] fun line => strtokStores SPACE false p.buffer (cstr line)
  { read.2 with mem := (read.2.mem.apply stores).apply p.others }

def shell (blocks : Blocks) : Machine State (Pass blocks) Unit := ⟨fun s p => ((), pass blocks s p)⟩

/- `history_count` is 0 and nothing is in the blocks that `malloc` has returned. -/
def start (mem : Mem) (stream : Bytes) : State :=
  { mem, history_count := 0, stream, accepted := [] }

/- `printf("%2d: %s\n", number, text)`. -/
def entryLine (number : ℤ) (text : Bytes) : Bytes :=
  padLeft 2 (printInt number) ++ chars ": " ++ text ++ chars "\n"

/- The string in a block of `history`. -/
def State.entry (blocks : Blocks) (s : State) (i : ℕ) : Bytes :=
  cstr (s.mem.load (blocks.history i) BUF_SIZE)

/- `builtin.c:106-116`: what it prints. -/
def record (blocks : Blocks) (s : State) : Bytes :=
  if s.history_count < MAX_RECORD_NUM then
    forLoop 0 s.history_count.toNat
      (fun i out => out ++ entryLine (i + 1) (s.entry blocks i)) []
  else
    let first := slotOf s.history_count
    forLoop first (first + MAX_RECORD_NUM)
      (fun i out => out ++ entryLine (i - first + 1) (s.entry blocks (i % MAX_RECORD_NUM))) []

/-- The lines, numbered from 1. -/
def numbered (texts : List Bytes) : Bytes :=
  texts.zipIdx.flatMap fun e => entryLine (e.2 + 1) e.1

/-- The blocks hold the last of the accepted lines and the counter is right, while it does not
overflow. -/
structure Kept (blocks : Blocks) (s : State) : Prop where
  count : s.history_count = s.accepted.length
  holds : RingHolds MAX_RECORD_NUM (s.entry blocks) s.accepted

theorem increment_eq {n : ℕ} (h : n + 1 < 2 ^ 31) : increment n = (n + 1 : ℕ) := by
  unfold increment
  rw [Int.bmod_eq_of_le_mul_two (by omega) (by omega)]
  rfl

theorem slotOf_natCast (n : ℕ) : slotOf n = n % MAX_RECORD_NUM := by
  unfold slotOf
  rw [← Int.ofNat_tmod, Int.toNat_natCast]

/-! ### What is stored outside the blocks -/

variable {blocks : Blocks} {s : State}

/-- `strtok` keeps to the string. -/
theorem strtokStores_within (d : Byte) (inToken : Bool) (a : ℕ) (text : Bytes) :
    ∀ st ∈ strtokStores d inToken a text, ∀ x, st.Covers x → a ≤ x ∧ x < a + text.length := by
  induction text generalizing inToken a with
  | nil => exact fun st hst => absurd hst List.not_mem_nil
  | cons c text ih =>
    intro st hst x hx
    rw [List.length_cons]
    unfold strtokStores at hst
    split at hst
    · rcases List.mem_append.mp hst with hst | hst
      · cases inToken with
        | false => exact absurd hst List.not_mem_nil
        | true =>
          rw [List.mem_singleton.mp hst] at hx
          simp only [ByteStore.Covers, List.length_singleton] at hx
          omega
      · have hin := ih false (a + 1) st hst x hx
        omega
    · have hin := ih true (a + 1) st hst x hx
      omega

theorem entry_congr {s' : State} {i : ℕ} (h : ∀ k, k < BUF_SIZE →
    s'.mem (blocks.history i + k) = s.mem (blocks.history i + k)) :
    s'.entry blocks i = s.entry blocks i := by
  unfold State.entry
  rw [Mem.load_congr h]

theorem entry_outside {i : ℕ} (hi : i < MAX_RECORD_NUM) {stores : List ByteStore}
    (h : ∀ st ∈ stores, ∀ x, st.Covers x → blocks.Outside x) :
    State.entry blocks { s with mem := s.mem.apply stores } i = s.entry blocks i :=
  entry_congr fun k hk => Mem.apply_outside fun st hst hx => h st hst _ hx i hi (by omega)

theorem Pass.outside_buffer (p : Pass blocks) {x : ℕ} (h : p.buffer ≤ x ∧ x < p.buffer + BUF_SIZE) :
    blocks.Outside x := by
  intro i hi hin
  have hapart := p.apart i hi
  omega

/-! ### Reading a line -/

theorem readLine_length {fresh stream line rest : Bytes} (hfresh : fresh.length = BUF_SIZE)
    (h : Shell.readLine fresh stream = (some line, rest)) : line.length = BUF_SIZE := by
  have hroom := fgets_room NEWLINE (BUF_SIZE - 1) stream
  have hpos : 0 < BUF_SIZE := by decide
  unfold Shell.readLine at h
  split at h
  · rw [Prod.mk.injEq, Option.some.injEq] at h
    rw [← h.1]
    exact hfresh
  · dsimp only at h
    split at h
    · cases h
    · rw [Prod.mk.injEq, Option.some.injEq] at h
      rw [← h.1, List.length_set, List.length_append, List.length_cons, List.length_drop, hfresh]
      omega

/-- All that `read_line` can do: at the end of the stream nothing is recorded, a line may be skipped,
and otherwise its string is recorded. -/
theorem readLine_cases (blocks : Blocks) (buffer : ℕ) (s : State) :
    (s.stream = [] ∧ readLine blocks buffer s = (some (s.mem.load buffer BUF_SIZE), s)) ∨
    (s.stream ≠ [] ∧ commandOf (fgets NEWLINE (BUF_SIZE - 1) s.stream).1 = none ∧
      readLine blocks buffer s =
        (none, { s with stream := (fgets NEWLINE (BUF_SIZE - 1) s.stream).2 })) ∨
    ∃ line, s.stream ≠ [] ∧ line.length = BUF_SIZE ∧
      commandOf (fgets NEWLINE (BUF_SIZE - 1) s.stream).1 = some (cstr line) ∧
      readLine blocks buffer s = (some line,
        { mem := (s.mem.store buffer line).store (blocks.history (slotOf s.history_count))
            (strncpy line BUF_SIZE)
          history_count := increment s.history_count
          stream := (fgets NEWLINE (BUF_SIZE - 1) s.stream).2
          accepted := s.accepted ++ [cstr line] }) := by
  by_cases hend : s.stream = []
  · refine .inl ⟨hend, ?_⟩
    have hread : Shell.readLine (s.mem.load buffer BUF_SIZE) s.stream =
        (some (s.mem.load buffer BUF_SIZE), []) := by
      rw [hend]
      exact if_pos rfl
    unfold readLine
    rw [hread]
    dsimp only
    rw [if_pos hend, ← hend]
  · obtain ⟨hcommand, hrest⟩ := readLine_commandOf (s.mem.load buffer BUF_SIZE) hend
    cases hread : Shell.readLine (s.mem.load buffer BUF_SIZE) s.stream with
    | mk read stream =>
      rw [hread] at hcommand hrest
      rw [← hcommand, ← hrest]
      cases read with
      | none =>
        refine .inr (.inl ⟨hend, rfl, ?_⟩)
        simp only [readLine, hread]
      | some line =>
        have hlen := readLine_length (Mem.load_length ..) hread
        have hload : (s.mem.store buffer line).load buffer BUF_SIZE = line := by
          rw [← hlen]
          exact Mem.load_store_self ..
        refine .inr (.inr ⟨line, hend, hlen, rfl, ?_⟩)
        simp only [readLine, hread, hend, ite_false, hload]

/-- A recorded string leaves room for its NUL. -/
theorem commandOf_length {stream line : Bytes}
    (h : commandOf (fgets NEWLINE (BUF_SIZE - 1) stream).1 = some line) : line.length < BUF_SIZE := by
  have hroom := fgets_room NEWLINE (BUF_SIZE - 1) stream
  have hpos : 0 < BUF_SIZE := by decide
  unfold commandOf at h
  split at h
  · cases h
  · obtain rfl := Option.some.inj h
    have hle := (List.takeWhile_sublist (l := (fgets NEWLINE (BUF_SIZE - 1) stream).1)
      fun b => b ≠ 0 ∧ b ≠ NEWLINE).length_le
    omega

theorem Kept.recorded {line : Bytes} (h : Kept blocks s) (hline : (cstr line).length < BUF_SIZE)
    (hn : s.accepted.length + 1 < 2 ^ 31) {buffer : ℕ} (stream : Bytes) (hlen : line.length = BUF_SIZE)
    (hapart : ∀ i, i < MAX_RECORD_NUM →
      buffer + BUF_SIZE ≤ blocks.history i ∨ blocks.history i + BUF_SIZE ≤ buffer) :
    Kept blocks
      { mem := (s.mem.store buffer line).store (blocks.history (slotOf s.history_count))
          (strncpy line BUF_SIZE)
        history_count := increment s.history_count
        stream
        accepted := s.accepted ++ [cstr line] } := by
  have hslot : slotOf s.history_count = s.accepted.length % MAX_RECORD_NUM := by
    rw [h.count, slotOf_natCast]
  have hcopy := strncpy_length line BUF_SIZE
  constructor
  · dsimp only
    rw [h.count, increment_eq hn, List.length_append, List.length_singleton]
  · refine h.holds.push ?_ fun i hi hne => ?_
    · -- the copy ends with a NUL
      dsimp only [State.entry]
      have hload := Mem.load_store_self (s.mem.store buffer line)
        (blocks.history (s.accepted.length % MAX_RECORD_NUM)) (strncpy line BUF_SIZE)
      rw [hcopy] at hload
      rw [hslot, hload]
      have hcstr := cstr_strncpy hline []
      rwa [List.append_nil] at hcstr
    · refine entry_congr fun k hk => ?_
      have hblock := blocks.apart _ _ hi (Nat.mod_lt s.accepted.length (by decide)) hne
      have hbuffer := hapart i hi
      dsimp only
      rw [hslot, Mem.store_outside _ (by omega), Mem.store_outside _ (by omega)]

/-! ### One pass -/

theorem Kept.stores (h : Kept blocks s) {stores : List ByteStore}
    (hout : ∀ st ∈ stores, ∀ x, st.Covers x → blocks.Outside x) :
    Kept blocks { s with mem := s.mem.apply stores } :=
  ⟨h.count, fun i hi hkept =>
    (entry_outside (Nat.mod_lt _ (by decide)) hout).trans (h.holds i hi hkept)⟩

/-- A string in the line buffer is cut by `strtok` without touching the blocks. -/
theorem Kept.pass_stores (h : Kept blocks s) (p : Pass blocks) (line : Option Bytes)
    (hline : ∀ text ∈ line, text.length = BUF_SIZE) :
    Kept blocks { s with mem := (s.mem.apply
      (line.elim [] fun line => strtokStores SPACE false p.buffer (cstr line))).apply p.others } := by
  refine (h.stores fun st hst x hx => ?_).stores p.outside
  cases line with
  | none => exact absurd hst List.not_mem_nil
  | some text =>
    have hle := cstr_length_le text
    rw [hline text rfl] at hle
    have hin := strtokStores_within SPACE false p.buffer (cstr text) st hst x hx
    exact p.outside_buffer (by omega)

theorem pass_kept (p : Pass blocks) (h : s.accepted.length < 2 ^ 31 → Kept blocks s)
    (hn : (pass blocks s p).accepted.length < 2 ^ 31) : Kept blocks (pass blocks s p) := by
  obtain ⟨-, hread⟩ | ⟨-, -, hread⟩ | ⟨line, -, hlen, hcommand, hread⟩ :=
    readLine_cases blocks p.buffer s
  · simp only [pass, hread] at hn ⊢
    refine (h hn).pass_stores p (some _) fun text htext => ?_
    obtain rfl := Option.some.inj htext
    exact Mem.load_length ..
  · simp only [pass, hread] at hn ⊢
    have hkept : Kept blocks { s with stream := (fgets NEWLINE (BUF_SIZE - 1) s.stream).2 } :=
      ⟨(h hn).count, (h hn).holds⟩
    exact hkept.pass_stores p none fun text htext => absurd htext (Option.not_mem_none text)
  · simp only [pass, hread, List.length_append, List.length_singleton] at hn ⊢
    refine Kept.pass_stores ((h (by omega)).recorded (commandOf_length hcommand) hn _ hlen p.apart) p
      (some line) fun text htext => ?_
    obtain rfl := Option.some.inj htext
    exact hlen

/-- A pass accepts what it reads of the stream, if it is a command. -/
theorem pass_reads (p : Pass blocks) :
    (pass blocks s p).accepted =
      s.accepted ++ ((pieces NEWLINE (BUF_SIZE - 2) s.stream).take 1).filterMap commandOf ∧
    pieces NEWLINE (BUF_SIZE - 2) (pass blocks s p).stream =
      (pieces NEWLINE (BUF_SIZE - 2) s.stream).drop 1 := by
  have hroom : BUF_SIZE - 2 + 1 = BUF_SIZE - 1 := rfl
  obtain ⟨hend, hread⟩ | ⟨hend, hcommand, hread⟩ | ⟨line, hend, -, hcommand, hread⟩ :=
    readLine_cases blocks p.buffer s
  · simp only [pass, hread, hend, pieces_nil, List.take_nil, List.filterMap_nil, List.append_nil,
      List.drop_nil, and_self]
  · rw [pieces_of_ne_nil _ _ hend, hroom]
    simp only [pass, hread, List.take_succ_cons, List.take_zero, List.filterMap_cons, hcommand,
      List.filterMap_nil, List.append_nil, List.drop_succ_cons, List.drop_zero, and_self]
  · rw [pieces_of_ne_nil _ _ hend, hroom]
    simp only [pass, hread, List.take_succ_cons, List.take_zero, List.filterMap_cons, hcommand,
      List.filterMap_nil, List.drop_succ_cons, List.drop_zero, and_self]

theorem run_reads (s : State) (ps : List (Pass blocks)) :
    ((shell blocks).run s ps).accepted = s.accepted ++
      ((pieces NEWLINE (BUF_SIZE - 2) s.stream).take ps.length).filterMap commandOf := by
  induction ps generalizing s with
  | nil => exact (List.append_nil _).symm
  | cons p ps ih =>
    obtain ⟨haccepted, hpieces⟩ := pass_reads (s := s) p
    have hrest := ih (pass blocks s p)
    rw [haccepted, hpieces, List.append_assoc, ← List.filterMap_append, ← List.take_add,
      Nat.add_comm] at hrest
    exact hrest

theorem run_kept (mem : Mem) (stream : Bytes) (ps : List (Pass blocks))
    (hn : ((shell blocks).run (start mem stream) ps).accepted.length < 2 ^ 31) :
    Kept blocks ((shell blocks).run (start mem stream) ps) :=
  (shell blocks).run_invariant_all (P := fun s => s.accepted.length < 2 ^ 31 → Kept blocks s)
    (fun _ p h => pass_kept p h) ps (fun _ => ⟨rfl, .nil⟩) hn

/-! ### What record prints -/

theorem numbered_eq {texts : List Bytes} {f : ℕ → Bytes} {lo : ℕ}
    (h : (List.range' lo texts.length).map f = texts) :
    (List.range' lo texts.length).flatMap (fun i : ℕ => entryLine (i - lo + 1) (f i)) =
      numbered texts := by
  unfold numbered
  rw [List.flatMap_def, List.flatMap_def]
  congr 1
  apply List.ext_getElem
  · rw [List.length_map, List.length_map, List.length_range', List.length_zipIdx]
  · intro k h1 h2
    rw [List.length_map, List.length_range'] at h1
    have htext : f (lo + 1 * k) = texts[k] := by
      have hk := List.getElem_of_eq h (i := k) (by
        rw [List.length_map, List.length_range']
        exact h1)
      rwa [List.getElem_map, List.getElem_range'] at hk
    have hnumber : ((lo + 1 * k : ℕ) : ℤ) - lo + 1 = ((0 + k : ℕ) : ℤ) + 1 := by omega
    rw [List.getElem_map, List.getElem_map, List.getElem_range', List.getElem_zipIdx, htext, hnumber]

/-- Both loops of `record` print the last accepted lines. -/
theorem Kept.record_eq (h : Kept blocks s) :
    record blocks s = numbered (s.accepted.drop (s.accepted.length - MAX_RECORD_NUM)) := by
  unfold record
  rw [h.count, slotOf_natCast]
  by_cases hfew : (s.accepted.length : ℤ) < MAX_RECORD_NUM
  · have hlen : s.accepted.length ≤ MAX_RECORD_NUM := by omega
    have hnone : s.accepted.length - MAX_RECORD_NUM = 0 := Nat.sub_eq_zero_of_le hlen
    have hread := h.holds.read_first hlen
    rw [List.range_eq_range'] at hread
    have hlines := numbered_eq hread
    simp only [Nat.cast_zero, sub_zero] at hlines
    rw [if_pos hfew, forLoop_append (Nat.zero_le _), Int.toNat_natCast, Nat.sub_zero, List.nil_append,
      hnone, List.drop_zero]
    exact hlines
  · have hlen : MAX_RECORD_NUM ≤ s.accepted.length := by omega
    have hread := h.holds.read_round (by decide) hlen
    have hlast : (s.accepted.drop (s.accepted.length - MAX_RECORD_NUM)).length = MAX_RECORD_NUM := by
      rw [List.length_drop]
      omega
    nth_rewrite 3 [← hlast] at hread
    have hlines := numbered_eq hread
    rw [hlast] at hlines
    rw [if_neg hfew]
    dsimp only
    rw [forLoop_append (Nat.le_add_right ..), Nat.add_sub_cancel_left, List.nil_append]
    exact hlines

/-- After any passes, whatever they store outside the blocks: `record` prints the last 16 of the lines
accepted, in order and numbered from 1. These are what the passes have read of the stream, and the
lines of the stream themselves when all of them fit the buffer. -/
theorem record_lastLines (blocks : Blocks) (mem : Mem) (stream : Bytes) (ps : List (Pass blocks))
    (hn : ((shell blocks).run (start mem stream) ps).accepted.length < 2 ^ 31) :
    let s := (shell blocks).run (start mem stream) ps
    record blocks s = numbered (s.accepted.drop (s.accepted.length - MAX_RECORD_NUM)) ∧
    s.accepted = ((pieces NEWLINE (BUF_SIZE - 2) stream).take ps.length).filterMap commandOf ∧
    ((∀ l ∈ lines NEWLINE stream, l.length < BUF_SIZE ∧ 0 ∉ l) →
      s.accepted <+: streamLines stream ∧
      ((pieces NEWLINE (BUF_SIZE - 2) stream).length ≤ ps.length →
        s.accepted = streamLines stream)) := by
  have hreads := run_reads (start mem stream) ps
  have hstart : (start mem stream).accepted = [] := rfl
  rw [hstart, List.nil_append] at hreads
  refine ⟨(run_kept mem stream ps hn).record_eq, hreads, fun hfit => ?_⟩
  have hlines : (pieces NEWLINE (BUF_SIZE - 2) stream).filterMap commandOf = streamLines stream :=
    (commands_lines stream).2 hfit
  rw [hreads, ← hlines]
  refine ⟨(List.take_prefix ..).filterMap commandOf, fun hall => ?_⟩
  have htake := List.take_of_length_le hall
  exact congrArg (List.filterMap commandOf) htake

def someBlocks : Blocks where
  history i := 1024 * i
  apart := by
    intro i j _ _ hne
    unfold BUF_SIZE
    omega

theorem someBlocks_behind {x : ℕ} (hx : 20480 ≤ x) : someBlocks.Outside x := by
  intro i hi
  have hblock : someBlocks.history i = 1024 * i := rfl
  unfold MAX_RECORD_NUM at hi
  unfold BUF_SIZE
  omega

theorem someBlocks_apart (i : ℕ) (hi : i < MAX_RECORD_NUM) :
    20480 + BUF_SIZE ≤ someBlocks.history i ∨ someBlocks.history i + BUF_SIZE ≤ 20480 := by
  have hblock : someBlocks.history i = 1024 * i := rfl
  unfold MAX_RECORD_NUM at hi
  unfold BUF_SIZE
  omega

theorem someStores_behind : ∀ st ∈ [(⟨20480, [88, 88, 88]⟩ : ByteStore)], ∀ x, st.Covers x →
    someBlocks.Outside x := by
  intro st hst x hx
  rw [List.mem_singleton.mp hst] at hx
  exact someBlocks_behind hx.1

/- The line buffer behind the blocks, which is overwritten. -/
def somePass : Pass someBlocks := ⟨20480, someBlocks_apart, _, someStores_behind⟩

theorem record_lastLines_two :
    record someBlocks
        ((shell someBlocks).run (start Mem.zero (chars "ls -l\n\nrecord\n")) [somePass, somePass, somePass]) =
      chars " 1: ls -l\n 2: record\n" := by
  have hprinted := record_lastLines someBlocks Mem.zero (chars "ls -l\n\nrecord\n")
    [somePass, somePass, somePass] (by
      rw [run_reads, List.length_append]
      have hle := List.length_filterMap_le commandOf
        ((pieces NEWLINE (BUF_SIZE - 2) (chars "ls -l\n\nrecord\n")).take 3)
      have htake := List.length_take_le 3 (pieces NEWLINE (BUF_SIZE - 2) (chars "ls -l\n\nrecord\n"))
      exact Nat.lt_of_le_of_lt (Nat.add_le_add (Nat.le_refl 0) (hle.trans htake)) (by decide))
  obtain ⟨hrecord, -, hfit⟩ := hprinted
  rw [hrecord, (hfit (by decide +kernel)).2 (by decide +kernel)]
  decide +kernel

end OSLab.Shell.History
