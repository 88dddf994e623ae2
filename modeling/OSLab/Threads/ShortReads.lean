import OSLab.Threads.ProcBuffer
import OSLab.Threads.ThreadInfo

/-!
# Reading the proc files in pieces (Lab3/3_1 and 3_2, My_Kernel.c)

A process reads through one open file, with a buffer of its own for every
call, until a read returns 0 or fails. Both `Myread` copy the whole text in the
first call, whatever `buffer_len` is.
-/

namespace OSLab.ShortReads
open OSLab.Base OSLab.Kernel OSLab.ProcRead

/-- The answer to read `i` at an offset. -/
abbrev Handler := ℕ → ℕ → Read

/-- A read that fails delivers nothing. -/
def delivered (r : Read) : Bytes :=
  match r.ret with
  | .ok _ => r.bytes
  | .error _ => []

/-- Of each read it is noted how many bytes were copied and how many were asked for. -/
def page (handler : Handler) (ubufs : ℕ → UserBuf) (i offset : ℕ) : Page Byte (ℕ × ℕ) :=
  let r := handler i offset
  { items := delivered r, reads := [(r.bytes.length, (ubufs i).len)], pos := r.offset }

/-- The reads from offset 0 on, read `i` into `ubufs i`, deliver the text, and none of them copies
more than its `buffer_len`. -/
def ReadsExactly (handler : Handler) (ubufs : ℕ → UserBuf) (text : Bytes) : Prop :=
  ∃ copies, Pages (page handler ubufs) id 0 text copies ∧ ∀ c ∈ copies, c.1 ≤ c.2

/-- The text is copied in one piece by a read at offset 0, or the read fails. -/
structure OneShot (handler : Handler) (ubufs : ℕ → UserBuf) (text : Bytes) : Prop where
  whole : ∀ i, text.length ≤ (ubufs i).len + (ubufs i).behind →
    delivered (handler i 0) = text ∧ (handler i 0).bytes = text ∧ (handler i 0).offset = text.length
  fails : ∀ i, (ubufs i).len + (ubufs i).behind < text.length → delivered (handler i 0) = []
  behind : ∀ i offset, 0 < offset → handler i offset = .nothing offset

variable {handler : Handler} {ubufs : ℕ → UserBuf} {text : Bytes}

/-- Behind the text a read gives nothing. -/
theorem OneShot.last (h : OneShot handler ubufs text) {rooms : ℕ → ℕ} {offset : ℕ}
    (hoffset : 0 < offset) :
    Pages (page handler ubufs) rooms offset [] [(0, (ubufs (rooms 0)).len)] := by
  have hpage : page handler ubufs (rooms 0) offset =
      { items := [], reads := [(0, (ubufs (rooms 0)).len)], pos := offset } := by
    simp only [page, h.behind _ _ hoffset]
    rfl
  have hlast : Pages (page handler ubufs) rooms offset [] (page handler ubufs (rooms 0) offset).reads :=
    Pages.last (by rw [hpage])
  rw [hpage] at hlast
  exact hlast

theorem OneShot.readsExactly_iff (h : OneShot handler ubufs text) :
    ReadsExactly handler ubufs text ↔ text.length ≤ (ubufs 0).len := by
  by_cases hroom : text.length ≤ (ubufs 0).len + (ubufs 0).behind
  · obtain ⟨hdelivered, hbytes, hoffset⟩ := h.whole 0 hroom
    have hpage : page handler ubufs (id 0) 0 =
        { items := text, reads := [(text.length, (ubufs 0).len)], pos := text.length } := by
      simp only [page, id, hdelivered, hbytes, hoffset]
    constructor
    · rintro ⟨copies, hpages, hcopies⟩
      have hfirst := hpages.first_reads (text.length, (ubufs 0).len) (by
        rw [hpage]
        exact List.mem_singleton_self _)
      exact hcopies _ hfirst
    · intro hlen
      cases htext : text with
      | nil =>
        have hlast : Pages (page handler ubufs) id 0 [] (page handler ubufs (id 0) 0).reads :=
          Pages.last (by rw [hpage, htext])
        rw [hpage] at hlast
        refine ⟨_, hlast, fun c hc => ?_⟩
        rw [List.mem_singleton.mp hc]
        exact hlen
      | cons b rest =>
        have hsome : (page handler ubufs (id 0) 0).items ≠ [] := by
          rw [hpage, htext]
          exact List.cons_ne_nil b rest
        have hpos : 0 < (page handler ubufs (id 0) 0).pos := by
          rw [hpage, htext]
          exact Nat.succ_pos _
        have hmore : Pages (page handler ubufs) id 0 _ _ := Pages.more hsome (h.last hpos)
        rw [hpage, List.append_nil, htext] at hmore
        refine ⟨_, hmore, fun c hc => ?_⟩
        rcases List.mem_append.mp hc with hc | hc
        · rw [List.mem_singleton.mp hc, ← htext]
          exact hlen
        · rw [List.mem_singleton.mp hc]
          exact Nat.zero_le _
  · -- the first read fails, and the text has characters
    refine iff_of_false ?_ fun hlen => hroom (Nat.le_add_right_of_le hlen)
    rintro ⟨copies, hpages, -⟩
    have hnil : (page handler ubufs (id 0) 0).items = [] := h.fails 0 (Nat.lt_of_not_le hroom)
    cases hpages with
    | last _ => exact hroom (Nat.zero_le _)
    | more hsome _ => exact hsome hnil

theorem copyOut_oneShot {size : ℕ} {mems : ℕ → Mem} {stores : ℕ → List ByteStore} (srcs : ℕ → ℕ)
    (hmax : size ≤ INT_MAX) (hfits : text.length < size)
    (hload : ∀ i, ((mems i).apply (stores i)).load (srcs i) text.length = text)
    (hfirst : ∀ i, handler i 0 =
      copyOut (mems i) (stores i) (srcs i) size text.length (ubufs i) 0 text.length)
    (hbehind : ∀ i offset, 0 < offset → handler i offset = .nothing offset) :
    OneShot handler ubufs text where
  whole := by
    intro i hroom
    rw [hfirst, copyOut_ok hmax (Nat.le_of_lt hfits) hroom]
    exact ⟨hload i, hload i, rfl⟩
  fails := by
    intro i hroom
    rw [hfirst, copyOut_fault hmax (Nat.le_of_lt hfits) hroom]
    rfl
  behind := hbehind

/-! ### The two modules -/

section ThreadInfo
open OSLab.ThreadInfo

theorem threadInfo_oneShot {p : Process} (h : p.text.length < BUFSIZE) (buf : ℕ) (mems : ℕ → Mem) :
    OneShot (fun i => myread buf p (mems i) (ubufs i)) ubufs p.text := by
  have hfits := fun i => Process.formatThreads_fits h buf (mems i)
  refine copyOut_oneShot (fun _ => buf) bufsize_le h (fun i => (hfits i).2.1) (fun i => ?_) fun i offset hoffset => ?_
  · simp only [myread, Nat.lt_irrefl, ite_false, (hfits i).1, Nat.zero_add]
  · simp only [myread, hoffset, ite_true]

end ThreadInfo

section ProcBuffer
open OSLab.ProcBuffer OSLab.ProcFile

theorem procBuffer_oneShot {buf : ℕ} {k : KernelBuf buf} {reader : Reader}
    (h : (k.text ++ reader.line).length < BUFSIZE) (mems : ℕ → Mem) (temp_bufs : ℕ → ℕ) :
    OneShot (fun i => ProcBuffer.myread k ⟨reader, ubufs i, mems i, temp_bufs i⟩) ubufs
      (k.text ++ reader.line) := by
  refine copyOut_oneShot temp_bufs ProcBuffer.bufsize_le h (fun i => snprintf_load h (mems i)) (fun i => ?_) fun i offset hoffset => ?_
  · simp only [ProcBuffer.myread, Nat.lt_irrefl, ite_false, snprintf_fst]
  · simp only [ProcBuffer.myread, hoffset, ite_true]

end ProcBuffer

/-- For a text that fits the buffer of the module, a sequence of reads is right iff the first of them
asks for the whole text. -/
theorem shortReads_iff (p : ThreadInfo.Process) (hinfo : p.text.length < ThreadInfo.BUFSIZE)
    {buf : ℕ} (k : ProcBuffer.KernelBuf buf) (reader : ProcBuffer.Reader)
    (hbuffer : (k.text ++ reader.line).length < ProcFile.BUFSIZE) (ubufs : ℕ → UserBuf)
    (mems : ℕ → Mem) (temp_bufs : ℕ → ℕ) :
    (ReadsExactly (fun i => ThreadInfo.myread buf p (mems i) (ubufs i)) ubufs p.text ↔
      p.text.length ≤ (ubufs 0).len) ∧
    (ReadsExactly (fun i => ProcBuffer.myread k ⟨reader, ubufs i, mems i, temp_bufs i⟩) ubufs
        (k.text ++ reader.line) ↔
      (k.text ++ reader.line).length ≤ (ubufs 0).len) :=
  ⟨(threadInfo_oneShot hinfo buf mems).readsExactly_iff,
    (procBuffer_oneShot hbuffer mems temp_bufs).readsExactly_iff⟩

/-- A process with one thread besides its leader. -/
def twoThreads : ThreadInfo.Process := ⟨100, [⟨100, 120, 0⟩, ⟨101, 120, 1⟩]⟩

def someReader : ProcBuffer.Reader := ⟨100, 101, 0⟩

theorem shortReads_large :
    ReadsExactly (fun _ => ThreadInfo.myread 0 twoThreads Mem.zero ⟨4096, 0⟩) (fun _ => ⟨4096, 0⟩)
        twoThreads.text ∧
      ReadsExactly (fun _ => ProcBuffer.myread (.init 0)
          ⟨someReader, ⟨4096, 0⟩, Mem.zero, 0⟩) (fun _ => ⟨4096, 0⟩)
        ((ProcBuffer.KernelBuf.init 0).text ++ someReader.line) := by
  have hboth := shortReads_iff twoThreads (by decide +kernel) (.init 0) someReader (by decide +kernel)
    (fun _ => ⟨4096, 0⟩) (fun _ => Mem.zero) fun _ => 0
  exact ⟨hboth.1.mpr (by decide +kernel), hboth.2.mpr (by decide +kernel)⟩

/-- Reads of ten bytes each, into memory with room behind the buffer. -/
theorem tenBytes_overrun : ¬ ∀ (p : ThreadInfo.Process) (m : Mem) (ubufs : ℕ → UserBuf),
    p.text.length < ThreadInfo.BUFSIZE → (∀ i, 0 < (ubufs i).len) →
      ReadsExactly (fun i => ThreadInfo.myread 0 p m (ubufs i)) ubufs p.text := by
  intro hall
  have hreads := hall twoThreads Mem.zero (fun _ => ⟨10, 100⟩) (by decide +kernel) fun _ => by decide
  rw [(threadInfo_oneShot (by decide +kernel) 0 fun _ => Mem.zero).readsExactly_iff] at hreads
  exact absurd hreads (by decide +kernel)

end OSLab.ShortReads
