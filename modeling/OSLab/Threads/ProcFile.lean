import OSLab.Base.CString
import OSLab.Base.ForkJoin
import OSLab.Base.Format
import OSLab.Base.Machine

/-!
# Two threads and one proc file (Lab3/3_2)

The module keeps the last message written in one global buffer and adds the
identity of the reader when it is read. Each thread writes its message once
and reads through a file of its own until it gets nothing.
-/

namespace OSLab.ProcFile
open OSLab.Base

def BUFSIZE : ℕ := 2048

/-! ### Texts -/

/- `data` of the thread (`3_2.c:54` and `3_2.c:94`). -/
def message : Thread → Bytes
  | .thread1 => chars "Thread 1 says hello!\n"
  | .thread2 => chars "Thread 2 says hello!\n"

/-- `current->tgid`, and `current->pid` of each thread. -/
structure Ids where
  tgid : ℕ
  pid : Thread → ℕ

/- `"PID: %d, TID: %d, time: %llu\n"`. -/
def idLine (ids : Ids) (t : Thread) (utime : ℕ) : Bytes :=
  chars "PID: " ++ printNat ids.tgid ++ chars ", TID: " ++ printNat (ids.pid t) ++
    chars ", time: " ++ printNat (utime / 100 / 1000) ++ chars "\n"

/-! ### The module (`My_Kernel.c`) -/

/-- The global buffer, and the offsets of the files the threads read through. -/
structure Module where
  buf : Bytes
  offset : Thread → ℕ

def Module.init : Module := ⟨List.replicate BUFSIZE 0, fun _ => 0⟩

/- `My_Kernel.c:14-21`: `ubuf` is what the thread passes, all of it readable. -/
def mywrite (m : Module) (ubuf : Bytes) : ℕ × Module :=
  let len := if ubuf.length < BUFSIZE then ubuf.length else BUFSIZE - 1
  (ubuf.length, { m with buf := ubuf.take len ++ 0 :: m.buf.drop (len + 1) })

/- `My_Kernel.c:24-39`: the text delivered. It is shorter than `temp_buf` for the messages of the
two threads, and the reader's buffer takes it whole. -/
def myread (ids : Ids) (m : Module) (t : Thread) (utime : ℕ) : Bytes × Module :=
  if 0 < m.offset t then ([], m)
  else
    let text := cstr m.buf ++ idLine ids t utime
    (text, { m with offset := Function.update m.offset t text.length })

/-- A request of one of the threads; `utime` is the time the reader has run. -/
inductive Req where
  | write (t : Thread)
  | read (t : Thread) (utime : ℕ)
  deriving DecidableEq

inductive Res where
  | written (n : ℕ)
  | text (bs : Bytes)

def procFile (ids : Ids) : Machine Module Req Res :=
  ⟨fun m r =>
    match r with
    | .write t =>
      let q := mywrite m (message t)
      (.written q.1, q.2)
    | .read t utime =>
      let q := myread ids m t utime
      (.text q.1, q.2)⟩

/-! ### Interleavings -/

def Req.thread : Req → Thread
  | .write t => t
  | .read t _ => t

/- The text a request of thread `t` delivered. -/
def delivered (t : Thread) : Req × Res → Bytes
  | (.read u _, .text bs) => if u = t then bs else []
  | _ => []

/-- Everything thread `t` reads. -/
def textRead (ids : Ids) (t : Thread) (m : Module) (rs : List Req) : Bytes :=
  ((procFile ids).trace m rs).flatMap (delivered t)

/-- Each thread writes its message once and then reads, at least once. -/
def Interleaving (rs : List Req) : Prop :=
  ∀ t, ∃ (utime : ℕ) (utimes : List ℕ),
    rs.filter (fun r => r.thread = t) = .write t :: .read t utime :: utimes.map (Req.read t)

/-- The text that thread `t` reads is its own message with its own line. -/
def Paired (ids : Ids) (t : Thread) (rs : List Req) : Prop :=
  ∃ utime, textRead ids t Module.init rs = message t ++ idLine ids t utime

/-- The requests between the write of thread `t` and its first read. -/
def between (t : Thread) (rs : List Req) : List Req :=
  (rs.dropWhile fun r => r.thread ≠ t).tail.takeWhile fun r => r.thread ≠ t

/-- No message of the other thread is written in between. -/
def Undisturbed (t : Thread) (rs : List Req) : Prop := .write t.other ∉ between t rs

instance (t : Thread) (rs : List Req) : Decidable (Undisturbed t rs) :=
  inferInstanceAs (Decidable (.write t.other ∉ between t rs))

/-! ### One request -/

variable {t : Thread} {m : Module}

theorem message_noNul (t : Thread) : ∀ b ∈ message t, b ≠ 0 := by
  cases t with
  | thread1 => decide +kernel
  | thread2 => decide +kernel

theorem message_ne (t : Thread) : message t.other ≠ message t := by
  cases t with
  | thread1 => decide +kernel
  | thread2 => decide +kernel

theorem message_length (t : Thread) : (message t).length = 21 := by
  cases t with
  | thread1 => decide +kernel
  | thread2 => decide +kernel

theorem mywrite_text (m : Module) (t : Thread) :
    cstr (mywrite m (message t)).2.buf = message t := by
  have hlen : (message t).length < BUFSIZE := by
    rw [message_length]
    decide
  simp only [mywrite, hlen, ite_true, List.take_length]
  exact cstr_append_nul (message_noNul t) _

theorem myread_first (ids : Ids) (h : m.offset t = 0) (utime : ℕ) :
    (myread ids m t utime).1 = cstr m.buf ++ idLine ids t utime ∧
      0 < (myread ids m t utime).2.offset t := by
  have h0 : ¬ 0 < m.offset t := by omega
  simp only [myread, h0, ite_false, Function.update_self, List.length_append, true_and]
  have hline : 0 < (idLine ids t utime).length := by
    simp only [idLine, List.length_append, chars, List.length_map]
    exact Nat.lt_add_left _ (by decide)
  omega

theorem myread_frame (ids : Ids) (m : Module) (u : Thread) (utime : ℕ) :
    (myread ids m u utime).2.buf = m.buf ∧
      (t ≠ u → (myread ids m u utime).2.offset t = m.offset t) := by
  unfold myread
  split
  · exact ⟨rfl, fun _ => rfl⟩
  · exact ⟨rfl, fun hne => Function.update_of_ne hne ..⟩

/-! ### The text a thread reads -/

theorem textRead_append (ids : Ids) (t : Thread) (m : Module) (rs rs' : List Req) :
    textRead ids t m (rs ++ rs') =
      textRead ids t m rs ++ textRead ids t ((procFile ids).run m rs) rs' := by
  simp only [textRead, Machine.trace_append, List.flatMap_append]

/-- Behind its first read a file gives nothing more. -/
theorem textRead_behind (ids : Ids) (h : 0 < m.offset t) (rs : List Req) : textRead ids t m rs = [] := by
  induction rs generalizing m with
  | nil => rfl
  | cons r rs ih =>
    cases r with
    | write u => exact ih (m := (mywrite m (message u)).2) h
    | read u utime =>
      have hrest : textRead ids t (myread ids m u utime).2 rs = [] := by
        apply ih
        by_cases he : t = u
        · subst he
          simp only [myread, h, ite_true]
        · rw [(myread_frame ids m u utime).2 he]
          exact h
      have hnow : delivered t (.read u utime, .text (myread ids m u utime).1) = [] := by
        by_cases he : u = t
        · subst he
          simp only [delivered, ite_true, myread, h]
        · simp only [delivered, he, ite_false]
      change delivered t (.read u utime, .text (myread ids m u utime).1) ++
        textRead ids t (myread ids m u utime).2 rs = []
      rw [hnow, hrest, List.append_nil]

/-- What the requests of the other thread leave behind. -/
theorem run_other (ids : Ids) {rs : List Req} (h : ∀ r ∈ rs, r.thread ≠ t) :
    textRead ids t m rs = [] ∧ ((procFile ids).run m rs).offset t = m.offset t ∧
      cstr ((procFile ids).run m rs).buf =
        if .write t.other ∈ rs then message t.other else cstr m.buf := by
  induction rs generalizing m with
  | nil => exact ⟨rfl, rfl, rfl⟩
  | cons r rs ih =>
    have hr := h r (List.mem_cons_self ..)
    have hrest := fun m => ih (m := m) fun r hr => h r (List.mem_cons_of_mem _ hr)
    cases r with
    | write u =>
      have hu : u = t.other := by cases t <;> cases u <;> first | rfl | exact absurd rfl hr
      subst hu
      obtain ⟨htext, hoff, hbuf⟩ := hrest (mywrite m (message t.other)).2
      refine ⟨htext, hoff, ?_⟩
      rw [if_pos (List.mem_cons_self ..)]
      refine hbuf.trans ?_
      rw [mywrite_text, ite_self]
    | read u utime =>
      have hne : t ≠ u := fun he => hr he.symm
      obtain ⟨htext, hoff, hbuf⟩ := hrest (myread ids m u utime).2
      obtain ⟨hsame, hkeep⟩ := myread_frame (t := t) ids m u utime
      refine ⟨?_, hoff.trans (hkeep hne), ?_⟩
      · change delivered t (.read u utime, .text (myread ids m u utime).1) ++
          textRead ids t (myread ids m u utime).2 rs = []
        rw [htext, List.append_nil]
        exact if_neg hne.symm
      · have hmem : (Req.write t.other ∈ Req.read u utime :: rs) ↔ .write t.other ∈ rs := by
          simp only [List.mem_cons, reduceCtorEq, false_or]
        refine hbuf.trans ?_
        rw [hsame]
        simp only [hmem]

/-! ### One interleaving -/

/-- The requests of a thread cut an interleaving into the parts around its write and its first
read. -/
theorem Interleaving.split {rs : List Req} (h : Interleaving rs) (t : Thread) :
    ∃ pre mid utime post, rs = pre ++ .write t :: (mid ++ .read t utime :: post) ∧
      (∀ r ∈ pre, r.thread ≠ t) ∧ (∀ r ∈ mid, r.thread ≠ t) := by
  obtain ⟨utime, utimes, hfilter⟩ := h t
  obtain ⟨pre, rest, hrs, hpre, -, hrest⟩ := List.filter_eq_cons_iff.mp hfilter
  obtain ⟨mid, post, hrest', hmid, -, -⟩ := List.filter_eq_cons_iff.mp hrest
  refine ⟨pre, mid, utime, post, by rw [hrs, hrest'], fun r hr => ?_, fun r hr => ?_⟩
  · simpa using hpre r hr
  · simpa using hmid r hr

theorem between_eq {pre mid post : List Req} {utime : ℕ} (hpre : ∀ r ∈ pre, r.thread ≠ t)
    (hmid : ∀ r ∈ mid, r.thread ≠ t) :
    between t (pre ++ .write t :: (mid ++ .read t utime :: post)) = mid := by
  have hdrop : (pre ++ .write t :: (mid ++ .read t utime :: post)).dropWhile
      (fun r => r.thread ≠ t) = .write t :: (mid ++ .read t utime :: post) := by
    rw [List.dropWhile_append_of_pos fun r hr => decide_eq_true (hpre r hr)]
    exact List.dropWhile_cons_of_neg fun hne => of_decide_eq_true hne rfl
  have hstop : (Req.read t utime :: post).takeWhile (fun r => r.thread ≠ t) = [] := by
    simp [Req.thread]
  unfold between
  rw [hdrop, List.tail_cons, List.takeWhile_append_of_pos fun r hr => decide_eq_true (hmid r hr),
    hstop, List.append_nil]

/-- A thread reads the last message written before its first read, with its own line. -/
theorem Interleaving.textRead_eq {rs : List Req} (h : Interleaving rs) (ids : Ids) (t : Thread) :
    ∃ utime, textRead ids t Module.init rs =
      (if .write t.other ∈ between t rs then message t.other else message t) ++
        idLine ids t utime := by
  obtain ⟨pre, mid, utime, post, rfl, hpre, hmid⟩ := h.split t
  refine ⟨utime, ?_⟩
  obtain ⟨htext, hoff, -⟩ := run_other ids (m := Module.init) hpre
  rw [between_eq hpre hmid, textRead_append, htext, List.nil_append]
  generalize (procFile ids).run Module.init pre = m1 at hoff
  obtain ⟨htext', hoff', hbuf⟩ := run_other ids (m := (mywrite m1 (message t)).2) hmid
  rw [mywrite_text] at hbuf
  change textRead ids t (mywrite m1 (message t)).2 (mid ++ .read t utime :: post) = _
  rw [textRead_append, htext', List.nil_append]
  generalize (procFile ids).run (mywrite m1 (message t)).2 mid = m2 at hoff' hbuf
  obtain ⟨hread, hpos⟩ := myread_first ids (hoff'.trans hoff) utime
  change delivered t (.read t utime, .text (myread ids m2 t utime).1) ++
    textRead ids t (myread ids m2 t utime).2 post = _
  rw [textRead_behind ids hpos, List.append_nil, delivered, if_pos rfl, hread, hbuf]

/-- Thread `t` reads its own message exactly when nothing was written between its write and its
first read. -/
theorem Interleaving.paired_iff {rs : List Req} (h : Interleaving rs) (ids : Ids) (t : Thread) :
    Paired ids t rs ↔ Undisturbed t rs := by
  obtain ⟨utime, htext⟩ := h.textRead_eq ids t
  unfold Paired Undisturbed
  rw [htext]
  by_cases hmem : .write t.other ∈ between t rs
  · simp only [hmem, ite_true, not_true_eq_false, iff_false, not_exists]
    intro utime' heq
    have hlen : (message t.other).length = (message t).length := by
      rw [message_length, message_length]
    exact message_ne t (List.append_inj_left heq hlen)
  · simp only [hmem, ite_false, not_false_eq_true, iff_true]
    exact ⟨utime, rfl⟩

/-- In an interleaving both threads read their own message with their own line exactly when no
thread's message is overwritten before its first read. -/
theorem textRead_paired_iff (ids : Ids) {rs : List Req} (h : Interleaving rs) :
    (∀ t, Paired ids t rs) ↔ ∀ t, Undisturbed t rs :=
  ⟨fun hp t => (h.paired_iff ids t).mp (hp t), fun hu t => (h.paired_iff ids t).mpr (hu t)⟩

/-- The threads one after the other. -/
def inTurn : List Req :=
  [.write .thread1, .read .thread1 0, .read .thread1 0, .write .thread2, .read .thread2 0,
    .read .thread2 0]

theorem inTurn_interleaving : Interleaving inTurn
  | .thread1 => ⟨0, [0], by decide⟩
  | .thread2 => ⟨0, [0], by decide⟩

theorem textRead_paired_iff_inTurn :
    Paired ⟨7, fun _ => 8⟩ .thread1 inTurn ∧ Paired ⟨7, fun _ => 8⟩ .thread2 inTurn :=
  have hall := (textRead_paired_iff ⟨7, fun _ => 8⟩ inTurn_interleaving).mpr fun t => by
    cases t <;> decide
  ⟨hall .thread1, hall .thread2⟩

/-- Both threads write before the first one reads. -/
theorem thread1_reads_hello2 :
    ¬ ∀ (ids : Ids) (rs : List Req), Interleaving rs → ∀ t, Paired ids t rs := by
  intro h
  have hboth : Interleaving
      [.write .thread1, .write .thread2, .read .thread1 0, .read .thread2 0]
    | .thread1 => ⟨0, [], by decide⟩
    | .thread2 => ⟨0, [], by decide⟩
  have hpaired := h ⟨7, fun _ => 8⟩ _ hboth .thread1
  rw [hboth.paired_iff] at hpaired
  exact absurd hpaired (by decide)

end OSLab.ProcFile
