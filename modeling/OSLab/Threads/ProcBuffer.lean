import OSLab.Base.Machine
import OSLab.Threads.Matrix
import OSLab.Threads.ProcFile
import OSLab.Threads.ProcRead

/-!
# The message buffer of the module (Lab3/3_2, My_Kernel.c)

`Mywrite` clips the message to the global buffer; `Myread` formats the buffer
and a line about the reader into a second buffer of the same size. Messages,
readers and the memory they pass are arbitrary.
-/

namespace OSLab.ProcBuffer
open OSLab.Base OSLab.Kernel OSLab.ProcRead OSLab.Matrix
open OSLab.ProcFile (BUFSIZE)

variable {buf : ℕ}

/-! ### Mywrite -/

/- `My_Kernel.c:14`. -/
def clip (buffer_len : ℕ) : ℕ := if buffer_len < BUFSIZE then buffer_len else BUFSIZE - 1

/- `My_Kernel.c:13-20` on the memory of the module; the first `readable` bytes of `ubuf` can be
read. -/
def writeMem (buf : ℕ) (m : Mem) (ubuf : Bytes) (readable : ℕ) : Except Errno ℕ × Mem :=
  let len := clip ubuf.length
  let copy := copyFromUser m buf (ubuf.take readable) len
  if copy.1 ≠ 0 then (.error Errno.EFAULT, copy.2)
  else (.ok ubuf.length, copy.2.store (buf + len) [0])

theorem clip_eq (n : ℕ) : clip n = min n (BUFSIZE - 1) := by
  unfold clip BUFSIZE
  split <;> omega

theorem clip_lt (n : ℕ) : clip n < BUFSIZE := by
  rw [clip_eq]
  unfold BUFSIZE
  omega

theorem clip_le_max (n : ℕ) : clip n ≤ INT_MAX := by
  rw [clip_eq]
  unfold BUFSIZE INT_MAX
  omega

/-- The copy fails iff not all of what is to be copied can be read. -/
theorem writeMem_eq (m : Mem) (ubuf : Bytes) (readable : ℕ) :
    writeMem buf m ubuf readable =
      if clip ubuf.length ≤ readable then
        (.ok ubuf.length,
          (m.store buf (ubuf.take (clip ubuf.length))).store (buf + clip ubuf.length) [0])
      else (.error Errno.EFAULT, m.store buf (ubuf.take readable ++
        List.replicate (clip ubuf.length - readable) 0)) := by
  have hclip : clip ubuf.length ≤ ubuf.length := by
    rw [clip_eq]
    exact Nat.min_le_left ..
  have hlen : (ubuf.take readable).length = min readable ubuf.length := List.length_take
  by_cases hread : clip ubuf.length ≤ readable
  · have hcopy := copyFromUser_full m buf _ (clip_le_max ubuf.length)
      (show clip ubuf.length ≤ (ubuf.take readable).length by
        rw [hlen]
        omega)
    rw [List.take_take, Nat.min_eq_left hread] at hcopy
    simp only [writeMem, hcopy, hread, ne_eq, not_true_eq_false, ite_false, ite_true]
  · have hrefused : ¬ INT_MAX < clip ubuf.length := Nat.not_lt_of_le (clip_le_max _)
    have hmin : min (clip ubuf.length) (ubuf.take readable).length = readable := by
      rw [hlen]
      omega
    have hne : clip ubuf.length - readable ≠ 0 := by omega
    simp only [writeMem, copyFromUser, hrefused, hmin, hne, hread, ite_false, ne_eq,
      not_false_eq_true, ite_true, List.take_take, Nat.min_self]

theorem writeMem_ended (m : Mem) (ubuf : Bytes) (readable : ℕ) :
    (0 : Byte) ∈ (writeMem buf m ubuf readable).2.load buf BUFSIZE := by
  have hlt := clip_lt ubuf.length
  rw [writeMem_eq]
  split
  · refine List.mem_map.mpr ⟨clip ubuf.length, List.mem_range.mpr hlt, ?_⟩
    exact Mem.store_inside (i := 0) _ _ (by decide)
  · rename_i hread
    refine List.mem_map.mpr ⟨readable, List.mem_range.mpr (by omega), ?_⟩
    have hclip : clip ubuf.length ≤ ubuf.length := by
      rw [clip_eq]
      exact Nat.min_le_left ..
    have htake : (ubuf.take readable).length = readable := by
      rw [List.length_take]
      omega
    dsimp only
    rw [Mem.store_inside _ _ (by
      rw [List.length_append, htake, List.length_replicate]
      omega), List.getElem_append_right (Nat.le_of_eq htake)]
    exact List.getElem_replicate _

/-- The memory of the module with the global `buf` at its address, which always holds a NUL. -/
structure KernelBuf (buf : ℕ) where
  mem : Mem
  ended : (0 : Byte) ∈ mem.load buf BUFSIZE

def KernelBuf.init (buf : ℕ) : KernelBuf buf :=
  ⟨Mem.zero, List.mem_map.mpr ⟨0, List.mem_range.mpr (by decide), rfl⟩⟩

/-- What `%s` prints of `buf`. -/
def KernelBuf.text (k : KernelBuf buf) : Bytes := cstr (k.mem.load buf BUFSIZE)

def mywrite (k : KernelBuf buf) (ubuf : Bytes) (readable : ℕ) : Except Errno ℕ × KernelBuf buf :=
  ((writeMem buf k.mem ubuf readable).1,
    ⟨(writeMem buf k.mem ubuf readable).2, writeMem_ended ..⟩)

/-! ### Myread -/

/-- The process that reads: what the line says about it. -/
structure Reader where
  tgid : CInt
  pid : CInt
  utime : BitVec 64

/- `"PID: %d, TID: %d, time: %llu\n"`. -/
def Reader.line (reader : Reader) : Bytes :=
  chars "PID: " ++ printInt reader.tgid.toInt ++ chars ", TID: " ++ printInt reader.pid.toInt ++
    chars ", time: " ++ printNat (reader.utime.toNat / 100 / 1000) ++ chars "\n"

/-- A call of `Myread`: who reads into what, and the kernel stack, with `temp_buf` at address
`temp_buf`. -/
structure Call where
  reader : Reader
  ubuf : UserBuf
  stack : Mem
  temp_buf : ℕ

/- `My_Kernel.c:22-37`. -/
def myread (k : KernelBuf buf) (call : Call) (offset : ℕ) : Read :=
  if 0 < offset then .nothing offset
  else
    let text := snprintf call.temp_buf BUFSIZE (k.text ++ call.reader.line)
    copyOut call.stack text.2 call.temp_buf BUFSIZE text.1 call.ubuf offset text.1

inductive Req where
  | write (ubuf : Bytes) (readable : ℕ)
  | read (call : Call) (offset : ℕ)

inductive Res where
  | written (ret : Except Errno ℕ)
  | read (r : Read)

def procFile (buf : ℕ) : Machine (KernelBuf buf) Req Res :=
  ⟨fun k r =>
    match r with
    | .write ubuf readable =>
      let q := mywrite k ubuf readable
      (.written q.1, q.2)
    | .read call offset => (.read (myread k call offset), k)⟩

/-- The first `n` bytes of the message are delivered with the whole line of the reader, and
`copy_to_user` gets no more than `snprintf` stored in `temp_buf`. -/
def RoundTrip (msg : Bytes) (n : ℕ) (call : Call) (r : Read) : Prop :=
  r.bytes = msg.take n ++ call.reader.line ∧
    r.passed ≤ storedBytes call.temp_buf BUFSIZE r.stores

theorem line_noNul (reader : Reader) : ∀ b ∈ reader.line, b ≠ 0 := by
  intro b hb
  simp only [Reader.line, List.mem_append] at hb
  rcases hb with (((((hb | hb) | hb) | hb) | hb) | hb) | hb
  · exact chars_noNul (by decide +kernel) b hb
  · exact printInt_noNul _ b hb
  · exact chars_noNul (by decide +kernel) b hb
  · exact printInt_noNul _ b hb
  · exact chars_noNul (by decide +kernel) b hb
  · exact printNat_noNul _ b hb
  · exact chars_noNul (by decide +kernel) b hb

theorem line_length (reader : Reader) : 5 ≤ reader.line.length := by
  have hpid : (chars "PID: ").length = 5 := rfl
  simp only [Reader.line, List.length_append, hpid]
  omega

theorem text_noNul (k : KernelBuf buf) (reader : Reader) : ∀ b ∈ k.text ++ reader.line, b ≠ 0 := by
  intro b hb
  rcases List.mem_append.mp hb with hb | hb
  · exact cstr_noNul _ b hb
  · exact line_noNul reader b hb

/-! ### A write and the reads behind it -/

variable {k : KernelBuf buf} {msg : Bytes} {readable n : ℕ}

theorem mywrite_accepted (h : (mywrite k msg readable).1 = .ok n) :
    n = msg.length ∧ clip msg.length ≤ readable := by
  simp only [mywrite, writeMem_eq] at h
  split at h
  · rename_i hread
    exact ⟨(Except.ok.inj h).symm, hread⟩
  · cases h

/-- The buffer holds as much of the message as it has room for. -/
theorem mywrite_text (hnul : ∀ b ∈ msg, b ≠ 0) (h : (mywrite k msg readable).1 = .ok n) :
    (mywrite k msg readable).2.text = msg.take (BUFSIZE - 1) := by
  obtain ⟨-, hread⟩ := mywrite_accepted h
  have htake : msg.take (clip msg.length) = msg.take (BUFSIZE - 1) := by
    rw [clip_eq, Nat.min_comm]
    exact List.take_eq_take_min.symm
  have hlen : (msg.take (BUFSIZE - 1)).length = clip msg.length := by
    rw [List.length_take, clip_eq, Nat.min_comm]
  have hstring := CStrAt.of_stores k.mem buf
    (s := msg.take (BUFSIZE - 1)) fun b hb => hnul b (List.mem_of_mem_take hb)
  rw [hlen] at hstring
  unfold KernelBuf.text mywrite
  dsimp only
  rw [writeMem_eq, if_pos hread, htake]
  exact hstring.cstr_load (by
    rw [hlen]
    exact clip_lt _)

theorem run_reads (k : KernelBuf buf) (reads : List (Call × ℕ)) :
    (procFile buf).run k (reads.map fun r => .read r.1 r.2) = k := by
  induction reads with
  | nil => rfl
  | cons r reads ih => exact ih

theorem bufsize_le : BUFSIZE ≤ INT_MAX := by
  unfold BUFSIZE INT_MAX
  omega

/-- For a buffer that holds the message as far as it fits. -/
theorem roundTrip_myread (htext : k.text = msg.take (BUFSIZE - 1)) (call : Call) :
    RoundTrip msg msg.length call (myread k call 0) ↔
      msg.length + call.reader.line.length < BUFSIZE ∧
        msg.length + call.reader.line.length ≤ call.ubuf.len + call.ubuf.behind := by
  have hpos : 0 < BUFSIZE := by decide
  have hline := line_length call.reader
  have hread := text_noNul k call.reader
  simp only [RoundTrip, myread, Nat.lt_irrefl, ite_false, copyOut_passed, copyOut_stores,
    List.take_length]
  by_cases hmsg : msg.length ≤ BUFSIZE - 1
  · rw [List.take_of_length_le hmsg] at htext
    rw [htext] at hread ⊢
    rw [← List.length_append]
    exact copyOut_text_iff hpos bufsize_le hread
  · -- the message is cut at its end, and the line of the reader does not fit behind it
    have hcut : k.text.length = BUFSIZE - 1 := by
      rw [htext, List.length_take]
      omega
    refine iff_of_false (fun h => ?_) fun h => ?_
    · have hle := h.2.trans (storedBytes_le ..)
      simp only [snprintf, List.length_append, hcut] at hle
      omega
    · omega

/-- In every run: what a write accepted is read back, in any call before the next write, iff message
and line together are shorter than `temp_buf` and the memory of the reader takes them. -/
theorem roundTrip_iff (buf : ℕ) (rs : List Req) (msg : Bytes) (hnul : ∀ b ∈ msg, b ≠ 0)
    (readable n : ℕ)
    (hwritten : (mywrite ((procFile buf).run (.init buf) rs) msg readable).1 = .ok n)
    (reads : List (Call × ℕ)) (call : Call) :
    RoundTrip msg n call
      (myread ((procFile buf).run (.init buf)
        (rs ++ .write msg readable :: reads.map fun r => .read r.1 r.2)) call 0) ↔
      msg.length + call.reader.line.length < BUFSIZE ∧
        msg.length + call.reader.line.length ≤ call.ubuf.len + call.ubuf.behind := by
  obtain ⟨rfl, -⟩ := mywrite_accepted hwritten
  have htext := mywrite_text hnul hwritten
  rw [Machine.run_append, Machine.run_cons, run_reads]
  exact roundTrip_myread htext call

/-- Process 1234 reads into a buffer of 512 bytes. -/
def someCall : Call :=
  ⟨⟨1234, 1235, 500000⟩, ⟨512, 0⟩, Mem.zero, 0⟩

theorem roundTrip_hello :
    RoundTrip (chars "hello") 5 someCall
      (myread ((procFile 0).run (.init 0)
        [.write (chars "a longer message") 16, .write (chars "hello") 5, .read someCall 7])
        someCall 0) :=
  (roundTrip_iff 0 [.write (chars "a longer message") 16] (chars "hello") (by decide +kernel) 5 5 (by rfl)
    [(someCall, 7)] someCall).mpr
    ⟨by decide +kernel, by decide +kernel⟩

/-- As many characters as `buf` takes. -/
def fullMessage : Bytes := List.replicate (BUFSIZE - 1) 97

theorem fullMessage_cut : ¬ ∀ (k : KernelBuf 0) (msg : Bytes) (readable n : ℕ) (call : Call),
    (∀ b ∈ msg, b ≠ 0) → (mywrite k msg readable).1 = .ok n →
      RoundTrip msg n call (myread (mywrite k msg readable).2 call 0) := by
  intro hall
  have hnul : ∀ b ∈ fullMessage, b ≠ 0 := by
    intro b hb
    rw [List.eq_of_mem_replicate hb]
    decide
  have hlen : fullMessage.length = BUFSIZE - 1 := List.length_replicate
  have hwritten : (mywrite (.init 0) fullMessage (BUFSIZE - 1)).1 =
      .ok fullMessage.length := by
    have hclip : clip fullMessage.length ≤ BUFSIZE - 1 := by
      rw [clip_eq]
      exact Nat.min_le_right ..
    simp only [mywrite, writeMem_eq, hclip, ite_true]
  have hread := hall _ _ _ _ someCall hnul hwritten
  rw [roundTrip_myread (mywrite_text hnul hwritten), hlen] at hread
  have hline := line_length someCall.reader
  omega

/-! ### The module of the two threads -/

/-- Nothing is lost when the text fits: the module of `ProcFile` keeps the same buffer. -/
def Models (m : ProcFile.Module) (k : KernelBuf buf) : Prop := m.buf = k.mem.load buf BUFSIZE

variable {ids : ProcFile.Ids} {t : Thread} {m : ProcFile.Module}

theorem mywrite_models (h : Models m k) (msg : Bytes) :
    (mywrite k msg msg.length).1 = .ok (ProcFile.mywrite m msg).1 ∧
      Models (ProcFile.mywrite m msg).2 (mywrite k msg msg.length).2 := by
  have hclip : clip msg.length ≤ msg.length := by
    rw [clip_eq]
    exact Nat.min_le_left ..
  obtain ⟨d, hd⟩ := Nat.exists_eq_add_of_lt (clip_lt msg.length)
  have hlen : (msg.take (clip msg.length)).length = clip msg.length := by
    rw [List.length_take, Nat.min_eq_left hclip]
  simp only [mywrite, writeMem_eq, hclip, ite_true]
  refine ⟨rfl, ?_⟩
  have hold : m.buf.drop (clip msg.length + 1) = k.mem.load (buf + (clip msg.length + 1)) d := by
    rw [h, Mem.load_drop _ _ _ _ (by omega)]
    congr 1
    omega
  have hsplit : BUFSIZE = clip msg.length + (1 + d) := by omega
  have hload := load_stores k.mem buf d (msg.take (clip msg.length))
  rw [hlen, ← hsplit, ← hold] at hload
  exact hload.symm

theorem Reader.line_eq_idLine {reader : Reader} (htgid : reader.tgid.toInt = ids.tgid)
    (hpid : reader.pid.toInt = ids.pid t) :
    reader.line = ProcFile.idLine ids t reader.utime.toNat := by
  simp only [Reader.line, htgid, hpid, printInt_natCast]
  rfl

theorem myread_models (h : Models m k) {call : Call} (htgid : call.reader.tgid.toInt = ids.tgid)
    (hpid : call.reader.pid.toInt = ids.pid t)
    (hfits : (k.text ++ call.reader.line).length < BUFSIZE)
    (hroom : (k.text ++ call.reader.line).length ≤ call.ubuf.len + call.ubuf.behind) :
    (myread k call (m.offset t)).bytes = (ProcFile.myread ids m t call.reader.utime.toNat).1 := by
  unfold myread ProcFile.myread
  split
  · rfl
  · have htext : k.text = cstr m.buf := by rw [h, KernelBuf.text]
    have hline := Reader.line_eq_idLine htgid hpid
    dsimp only
    rw [snprintf_fst, ← htext, ← hline]
    exact ((copyOut_text_iff (by decide) bufsize_le (text_noNul k call.reader)).mpr ⟨hfits, hroom⟩).1

end OSLab.ProcBuffer
