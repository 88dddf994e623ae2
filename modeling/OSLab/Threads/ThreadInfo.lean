import OSLab.Threads.Matrix
import OSLab.Threads.ProcRead

/-!
# The threads of a process (Lab3/3_1, My_Kernel.c)

`Myread` formats a line for every thread but the leader into one buffer of
1024 bytes, adding up the lengths that `snprintf` returns.
-/

namespace OSLab.ThreadInfo
open OSLab.Base OSLab.Kernel OSLab.ProcRead OSLab.Matrix

def BUFSIZE : ℕ := 1024

/-- What is printed of a `task_struct`; `__state` is printed with `%d` as well. -/
structure Task where
  pid : CInt
  prio : CInt
  state : CInt

/-- The process that reads: `current->tgid`, and its threads in the order of `for_each_thread`. -/
structure Process where
  tgid : CInt
  threads : List Task

/- `"PID: %d, TID: %d, Priority: %d, State: %d\n"`. -/
def line (tgid : CInt) (thread : Task) : Bytes :=
  chars "PID: " ++ printInt tgid.toInt ++ chars ", TID: " ++ printInt thread.pid.toInt ++
    chars ", Priority: " ++ printInt thread.prio.toInt ++ chars ", State: " ++
    printInt thread.state.toInt ++ chars "\n"

/- The loop of `My_Kernel.c:27-34` from `len` on: the final `len`, and the stores into `buf`. -/
def formatThreads (buf : ℕ) (tgid : CInt) : List Task → ℕ → ℕ × List ByteStore
  | [], len => (len, [])
  | thread :: threads, len =>
    if thread.pid = tgid then formatThreads buf tgid threads len
    else
      let printed := snprintf (buf + len) (BUFSIZE - len) (line tgid thread)
      let len := len + printed.1
      if BUFSIZE ≤ len then (len, printed.2)
      else
        let rest := formatThreads buf tgid threads len
        (rest.1, printed.2 ++ rest.2)

/- `My_Kernel.c:21-40`, for the global `buf` at address `buf`. -/
def myread (buf : ℕ) (p : Process) (m : Mem) (ubuf : UserBuf) (offset : ℕ) : Read :=
  if 0 < offset then .nothing offset
  else
    let text := formatThreads buf p.tgid p.threads 0
    copyOut m text.2 buf BUFSIZE text.1 ubuf offset (offset + text.1)

/-- The text of the whole process. -/
def textOf (tgid : CInt) (threads : List Task) : Bytes :=
  (threads.filter fun thread => thread.pid ≠ tgid).flatMap (line tgid)

def Process.text (p : Process) : Bytes := textOf p.tgid p.threads

/-- No byte is handed to `copy_to_user` that `snprintf` has not stored in `buf`, and what arrives is
formatted text. -/
def OnlyText (buf : ℕ) (p : Process) (r : Read) : Prop :=
  r.passed ≤ storedBytes buf BUFSIZE r.stores ∧ r.bytes <+: p.text

/-! ### The lines -/

theorem line_noNul (tgid : CInt) (thread : Task) : ∀ b ∈ line tgid thread, b ≠ 0 := by
  intro b hb
  simp only [line, List.mem_append] at hb
  rcases hb with (((((((hb | hb) | hb) | hb) | hb) | hb) | hb) | hb) | hb
  · exact chars_noNul (by decide +kernel) b hb
  · exact printInt_noNul _ b hb
  · exact chars_noNul (by decide +kernel) b hb
  · exact printInt_noNul _ b hb
  · exact chars_noNul (by decide +kernel) b hb
  · exact printInt_noNul _ b hb
  · exact chars_noNul (by decide +kernel) b hb
  · exact printInt_noNul _ b hb
  · exact chars_noNul (by decide +kernel) b hb

/-- An `int` has 11 characters at most. -/
theorem printInt_le (v : CInt) : (printInt v.toInt).length ≤ 11 := by
  apply printInt_length (k := 10) (by decide)
  have hlo := v.le_toInt
  have hhi := v.toInt_lt
  omega

theorem line_le (tgid : CInt) (thread : Task) : (line tgid thread).length ≤ 78 := by
  have htgid := printInt_le tgid
  have hpid := printInt_le thread.pid
  have hprio := printInt_le thread.prio
  have hstate := printInt_le thread.state
  have htexts : (chars "PID: ").length = 5 ∧ (chars ", TID: ").length = 7 ∧
      (chars ", Priority: ").length = 12 ∧ (chars ", State: ").length = 9 ∧ (chars "\n").length = 1 :=
    ⟨rfl, rfl, rfl, rfl, rfl⟩
  simp only [line, List.length_append, htexts]
  omega

theorem text_noNul (p : Process) : ∀ b ∈ p.text, b ≠ 0 := by
  intro b hb
  obtain ⟨thread, -, hb⟩ := List.mem_flatMap.mp hb
  exact line_noNul _ thread b hb

theorem textOf_leader {tgid : CInt} {thread : Task} (h : thread.pid = tgid) (threads : List Task) :
    textOf tgid (thread :: threads) = textOf tgid threads := by
  simp only [textOf, List.filter_cons, h, ne_eq, not_true_eq_false, decide_false, Bool.false_eq_true,
    ite_false]

theorem textOf_cons {tgid : CInt} {thread : Task} (h : thread.pid ≠ tgid) (threads : List Task) :
    textOf tgid (thread :: threads) = line tgid thread ++ textOf tgid threads := by
  simp only [textOf, List.filter_cons, h, ne_eq, not_false_eq_true, decide_true, ite_true,
    List.flatMap_cons]

/-! ### The loop -/

variable {len : ℕ} {tgid : CInt} {thread : Task} {threads : List Task}

theorem formatThreads_leader (buf : ℕ) (h : thread.pid = tgid) :
    formatThreads buf tgid (thread :: threads) len = formatThreads buf tgid threads len := by
  simp only [formatThreads, h, ite_true]

/-- The line that reaches the end of the buffer is the last one. -/
theorem formatThreads_last (buf : ℕ) (h : thread.pid ≠ tgid)
    (hroom : BUFSIZE ≤ len + (line tgid thread).length) :
    formatThreads buf tgid (thread :: threads) len =
      (len + (line tgid thread).length,
        (snprintf (buf + len) (BUFSIZE - len) (line tgid thread)).2) := by
  simp only [formatThreads, h, ite_false, snprintf_fst, hroom, ite_true]

theorem formatThreads_more (buf : ℕ) (h : thread.pid ≠ tgid)
    (hroom : len + (line tgid thread).length < BUFSIZE) :
    formatThreads buf tgid (thread :: threads) len =
      ((formatThreads buf tgid threads (len + (line tgid thread).length)).1,
        (snprintf (buf + len) (BUFSIZE - len) (line tgid thread)).2 ++
          (formatThreads buf tgid threads (len + (line tgid thread).length)).2) := by
  simp only [formatThreads, h, ite_false, snprintf_fst, Nat.not_le_of_lt hroom]

theorem formatThreads_within (buf : ℕ) (tgid : CInt) (threads : List Task) (hlen : len ≤ BUFSIZE) :
    ∀ st ∈ (formatThreads buf tgid threads len).2, ∀ x, st.Covers x →
      buf + len ≤ x ∧ x < buf + BUFSIZE := by
  induction threads generalizing len with
  | nil => exact fun st hst => absurd hst List.not_mem_nil
  | cons thread threads ih =>
    by_cases hleader : thread.pid = tgid
    · rw [formatThreads_leader buf hleader]
      exact ih hlen
    · intro st hst x hx
      have hfirst : st ∈ (snprintf (buf + len) (BUFSIZE - len) (line tgid thread)).2 →
          buf + len ≤ x ∧ x < buf + BUFSIZE := by
        intro hst
        have hin := snprintf_within st hst x hx
        omega
      by_cases hroom : BUFSIZE ≤ len + (line tgid thread).length
      · rw [formatThreads_last buf hleader hroom] at hst
        exact hfirst hst
      · rw [formatThreads_more buf hleader (Nat.lt_of_not_le hroom)] at hst
        rcases List.mem_append.mp hst with hst | hst
        · exact hfirst hst
        · have hin := ih (Nat.le_of_not_le hroom) st hst x hx
          omega

/-- With room for all lines: `len` is the length of the text, and the text stands in `buf`. -/
theorem formatThreads_fits (buf : ℕ) (h : len + (textOf tgid threads).length < BUFSIZE) :
    (formatThreads buf tgid threads len).1 = len + (textOf tgid threads).length ∧
    (∀ m : Mem, (m.apply (formatThreads buf tgid threads len).2).load (buf + len)
      (textOf tgid threads).length = textOf tgid threads) ∧
    ∀ i, i < (textOf tgid threads).length →
      ∃ st ∈ (formatThreads buf tgid threads len).2, st.Covers (buf + len + i) := by
  induction threads generalizing len with
  | nil => exact ⟨rfl, fun _ => rfl, fun i hi => absurd hi (Nat.not_lt_zero i)⟩
  | cons thread threads ih =>
    by_cases hleader : thread.pid = tgid
    · rw [textOf_leader hleader] at h ⊢
      rw [formatThreads_leader buf hleader]
      exact ih h
    · rw [textOf_cons hleader, List.length_append] at h
      have hfits : (line tgid thread).length < BUFSIZE - len := by omega
      have hroom : len + (line tgid thread).length < BUFSIZE := by omega
      have hrest : len + (line tgid thread).length + (textOf tgid threads).length < BUFSIZE := by
        omega
      obtain ⟨hlen, hload, hcovers⟩ := ih hrest
      have hwithin := formatThreads_within buf tgid threads (Nat.le_of_lt hroom)
      rw [textOf_cons hleader, List.length_append, formatThreads_more buf hleader hroom]
      refine ⟨by rw [hlen, Nat.add_assoc], fun m => ?_, fun i hi => ?_⟩
      · rw [Mem.apply_append, Mem.load_append]
        refine congrArg₂ _ ?_ ?_
        · -- the later lines leave this one alone
          refine (Mem.load_congr fun i hi => ?_).trans (snprintf_load hfits m)
          refine Mem.apply_outside fun st hst hx => ?_
          have hin := hwithin st hst _ hx
          omega
        · rw [Nat.add_assoc buf]
          exact hload _
      · by_cases hline : i < (line tgid thread).length
        · obtain ⟨st, hst, hx⟩ := snprintf_covers (p := buf + len) hfits hline
          exact ⟨st, List.mem_append_left _ hst, hx⟩
        · obtain ⟨st, hst, hx⟩ := hcovers (i - (line tgid thread).length) (by omega)
          refine ⟨st, List.mem_append_right _ hst, ?_⟩
          have haddr : buf + (len + (line tgid thread).length) + (i - (line tgid thread).length) =
              buf + len + i := by omega
          rw [← haddr]
          exact hx

/-- Without it: `len` is the size of the buffer at least, and a NUL is at the end of the buffer. -/
theorem formatThreads_over (buf : ℕ) (hlen : len < BUFSIZE)
    (h : BUFSIZE ≤ len + (textOf tgid threads).length) :
    BUFSIZE ≤ (formatThreads buf tgid threads len).1 ∧
    ∀ m : Mem, (m.apply (formatThreads buf tgid threads len).2) (buf + (BUFSIZE - 1)) = 0 := by
  induction threads generalizing len with
  | nil => exact absurd h (Nat.not_le_of_lt hlen)
  | cons thread threads ih =>
    by_cases hleader : thread.pid = tgid
    · rw [textOf_leader hleader] at h
      rw [formatThreads_leader buf hleader]
      exact ih hlen h
    · rw [textOf_cons hleader, List.length_append] at h
      by_cases hroom : BUFSIZE ≤ len + (line tgid thread).length
      · rw [formatThreads_last buf hleader hroom]
        refine ⟨hroom, fun m => ?_⟩
        have hcut : BUFSIZE - len ≤ (line tgid thread).length := by omega
        have hlast := snprintf_last (buf + len) (Nat.sub_pos_of_lt hlen) hcut m
        have haddr : buf + len + (BUFSIZE - len - 1) = buf + (BUFSIZE - 1) := by omega
        rw [haddr] at hlast
        exact hlast
      · have hmore := Nat.lt_of_not_le hroom
        obtain ⟨hle, hnul⟩ := ih hmore (by omega)
        rw [formatThreads_more buf hleader hmore]
        refine ⟨hle, fun m => ?_⟩
        rw [Mem.apply_append]
        exact hnul _

/-! ### The read -/

theorem Process.formatThreads_fits {p : Process} (h : p.text.length < BUFSIZE) (buf : ℕ) (m : Mem) :
    (formatThreads buf p.tgid p.threads 0).1 = p.text.length ∧
    (m.apply (formatThreads buf p.tgid p.threads 0).2).load buf p.text.length = p.text ∧
    p.text.length ≤ storedBytes buf BUFSIZE (formatThreads buf p.tgid p.threads 0).2 := by
  have hfits : 0 + (textOf p.tgid p.threads).length < BUFSIZE := by
    rw [Nat.zero_add]
    exact h
  obtain ⟨hlen, hload, hcovers⟩ := ThreadInfo.formatThreads_fits buf hfits
  exact ⟨hlen.trans (Nat.zero_add _), hload m, le_storedBytes (Nat.le_of_lt h) hcovers⟩

theorem bufsize_le : BUFSIZE ≤ INT_MAX := by
  unfold BUFSIZE INT_MAX
  omega

theorem myread_passed (buf : ℕ) (p : Process) (m : Mem) (ubuf : UserBuf) :
    (myread buf p m ubuf 0).passed = (formatThreads buf p.tgid p.threads 0).1 := by
  simp only [myread, Nat.lt_irrefl, ite_false, copyOut_passed]

theorem myread_stores (buf : ℕ) (p : Process) (m : Mem) (ubuf : UserBuf) :
    (myread buf p m ubuf 0).stores = (formatThreads buf p.tgid p.threads 0).2 := by
  simp only [myread, Nat.lt_irrefl, ite_false, copyOut_stores]

/-- The lines overflow `buf`: the length is too great, or the last byte that goes out is the NUL. -/
theorem myread_over {p : Process} (h : BUFSIZE ≤ p.text.length) (buf : ℕ) (m : Mem) :
    ¬ OnlyText buf p (myread buf p m ⟨BUFSIZE, 0⟩ 0) := by
  rintro ⟨hpassed, hpre⟩
  have hover : BUFSIZE ≤ 0 + (textOf p.tgid p.threads).length := by
    rw [Nat.zero_add]
    exact h
  obtain ⟨hle, hnul⟩ := formatThreads_over buf (by decide) hover
  have hlen : (formatThreads buf p.tgid p.threads 0).1 = BUFSIZE := by
    rw [myread_passed, myread_stores] at hpassed
    exact Nat.le_antisymm (hpassed.trans (storedBytes_le ..)) hle
  have hread : (myread buf p m ⟨BUFSIZE, 0⟩ 0).bytes =
      (m.apply (formatThreads buf p.tgid p.threads 0).2).load buf BUFSIZE := by
    simp only [myread, Nat.lt_irrefl, ite_false, hlen]
    rw [copyOut_ok bufsize_le (Nat.le_refl _) (Nat.le_refl _)]
  rw [hread] at hpre
  have hlast : BUFSIZE - 1 < BUFSIZE := Nat.sub_lt (by decide) (by decide)
  have hmem : (0 : Byte) ∈ (m.apply (formatThreads buf p.tgid p.threads 0).2).load buf BUFSIZE := by
    refine List.mem_map.mpr ⟨BUFSIZE - 1, List.mem_range.mpr hlast, ?_⟩
    exact hnul m
  exact text_noNul p 0 (hpre.subset hmem) rfl

theorem myread_fits {p : Process} (h : p.text.length < BUFSIZE) (buf : ℕ) (m : Mem) (ubuf : UserBuf)
    (offset : ℕ) : OnlyText buf p (myread buf p m ubuf offset) := by
  by_cases hoffset : 0 < offset
  · simp only [myread, hoffset, ite_true]
    exact ⟨Nat.zero_le _, List.nil_prefix⟩
  obtain ⟨hlen, hload, hstored⟩ := Process.formatThreads_fits h buf m
  have hle : p.text.length ≤ BUFSIZE := Nat.le_of_lt h
  simp only [myread, hoffset, ite_false, hlen]
  by_cases hroom : p.text.length ≤ ubuf.len + ubuf.behind
  · rw [copyOut_ok bufsize_le hle hroom]
    refine ⟨hstored, ?_⟩
    rw [hload]
  · rw [copyOut_fault bufsize_le hle (Nat.lt_of_not_le hroom)]
    refine ⟨hstored, ?_⟩
    -- the copy stopped at the end of the user's memory
    rw [← Mem.load_take _ _ _ _ (Nat.le_of_not_le hroom), hload]
    exact List.take_prefix ..

/-- A read hands over nothing but what was formatted into `buf` iff the lines of all threads but the
leader have fewer characters than `buf` has bytes. -/
theorem myread_onlyText_iff (buf : ℕ) (p : Process) (m : Mem) :
    (∀ ubuf offset, OnlyText buf p (myread buf p m ubuf offset)) ↔ p.text.length < BUFSIZE := by
  constructor
  · intro honly
    by_contra hlong
    exact myread_over (Nat.le_of_not_lt hlong) buf m (honly _ _)
  · exact fun hfits => myread_fits hfits buf m

/-- A process with 40 threads besides its leader. -/
def crowded : Process :=
  ⟨100, (List.range 41).map fun k => ⟨BitVec.ofNat 32 (100 + k), 120, 1⟩⟩

theorem crowded_overflows : ¬ ∀ (p : Process) (m : Mem) (ubuf : UserBuf) (offset : ℕ),
    OnlyText 0 p (myread 0 p m ubuf offset) := by
  have hlong : BUFSIZE ≤ crowded.text.length := by decide +kernel
  exact fun honly => myread_over hlong 0 Mem.zero (honly crowded Mem.zero _ _)

end OSLab.ThreadInfo
