import OSLab.Base.CString
import OSLab.Base.Fgets

/-!
# Messages of the mailbox

The text buffers, the two copies through shared memory, and how the sender
makes its messages from the lines of the input file.
-/

namespace OSLab.Mailbox

open Base

/- `sizeof(message.msgText)` and the size of the shared segment -/
def MSG_SIZE : ℕ := 1024

def EXIT_MSG : Bytes := [101, 120, 105, 116]

def NEWLINE : Byte := 10

/-- The field `msgText` of a `message_t`. -/
structure MsgBuf where
  bytes : Bytes
  len : bytes.length = MSG_SIZE

def zeroBuf : MsgBuf where
  bytes := List.replicate MSG_SIZE 0
  len := List.length_replicate

/-- A buffer that holds a C string. -/
structure MsgText extends MsgBuf where
  nul : 0 ∈ bytes

def MsgText.text (m : MsgText) : Bytes := cstr m.bytes

/- `strncpy(shm_ptr, message.msgText, 1024); shm_ptr[1023] = '\0'` -/
def toShm (msgText : Bytes) : Bytes := (strncpy msgText MSG_SIZE).set (MSG_SIZE - 1) 0

/- `strncpy(msgText, shm_addr, sizeof(msgText)-1); msgText[sizeof(msgText)-1] = '\0'` -/
def fromShm (shm : Bytes) : Bytes := strncpy shm (MSG_SIZE - 1) ++ [0]

theorem MsgText.text_length_lt (m : MsgText) : m.text.length < MSG_SIZE := by
  have hne : cstr m.bytes ≠ m.bytes := by
    intro he
    have h0 := m.nul
    rw [← he] at h0
    exact cstr_noNul m.bytes 0 h0 rfl
  have hle := cstr_length_le m.bytes
  have hlt : (cstr m.bytes).length ≠ m.bytes.length := fun he =>
    hne ((List.takeWhile_prefix _).eq_of_length he)
  rw [← m.len]
  exact Nat.lt_of_le_of_ne hle hlt

theorem set_last_zero {l : Bytes} {n : ℕ} (h : l[n]? = some 0) : l.set n 0 = l := by
  obtain ⟨hn, he⟩ := List.getElem?_eq_some_iff.mp h
  rw [← he]
  exact List.set_getElem_self hn

theorem cstr_fromShm_toShm (m : MsgText) : cstr (fromShm (toShm m.bytes)) = m.text := by
  have hlt : (cstr m.bytes).length < MSG_SIZE := m.text_length_lt
  have hlast : (strncpy m.bytes MSG_SIZE)[MSG_SIZE - 1]? = some 0 := by
    rw [strncpy, List.take_of_length_le (Nat.le_of_lt hlt)]
    rw [List.getElem?_append_right (Nat.le_sub_one_of_lt hlt), List.getElem?_replicate]
    simp only [ite_eq_left_iff, reduceCtorEq, imp_false, not_not]
    omega
  have hshm : toShm m.bytes = strncpy m.bytes MSG_SIZE := set_last_zero hlast
  have hsent : cstr (strncpy m.bytes MSG_SIZE) = m.text := by
    have h := cstr_strncpy hlt []
    rw [List.append_nil] at h
    exact h
  rw [hshm, fromShm, cstr_strncpy_nul (by rw [hsent]; exact Nat.le_sub_one_of_lt hlt), hsent]

/-! ### Reading the file -/

/- The bytes `fgets` takes from the file when there is room for `n`, and what is left. -/
def readLine : ℕ → Bytes → Bytes × Bytes
  | 0, file => ([], file)
  | _ + 1, [] => ([], [])
  | n + 1, c :: file =>
    if c = NEWLINE then ([c], file)
    else
      let r := readLine n file
      (c :: r.1, r.2)

theorem readLine_length_le (n : ℕ) (file : Bytes) : (readLine n file).1.length ≤ n := by
  induction n generalizing file with
  | zero => simp only [readLine, List.length_nil, Nat.le_refl]
  | succ n ih =>
    cases file with
    | nil => simp only [readLine, List.length_nil, Nat.zero_le]
    | cons c file =>
      simp only [readLine]
      split
      · simp only [List.length_singleton, Nat.le_add_left]
      · have h := ih file
        simp only [List.length_cons]
        omega

/- The buffer after `fgets` has read the bytes `l`. -/
def MsgBuf.fill (buf : MsgBuf) (l : Bytes) (h : l.length ≤ MSG_SIZE - 1) : MsgText where
  bytes := l ++ 0 :: buf.bytes.drop (l.length + 1)
  len := by
    simp only [List.length_append, List.length_cons, List.length_drop, buf.len]
    have h1 : MSG_SIZE = 1024 := rfl
    omega
  nul := List.mem_append_right _ (List.mem_cons_self ..)

/- `fgets(msgText, sizeof(msgText), fp)`, nothing at the end of the file -/
def fgets (buf : MsgBuf) (file : Bytes) : Option (MsgText × Bytes) :=
  let r := readLine (MSG_SIZE - 1) file
  if r.1 = [] then none
  else some (buf.fill r.1 (readLine_length_le _ file), r.2)

/- `strcspn(s, "c")` -/
def strcspn (s : Bytes) (c : Byte) : ℕ := ((cstr s).takeWhile fun b => b ≠ c).length

theorem zero_mem_set {l : Bytes} {n : ℕ} (h : n < l.length) : 0 ∈ l.set n 0 :=
  List.mem_iff_getElem.mpr ⟨n, by simpa using h, by simp⟩

theorem MsgText.strcspn_lt (m : MsgText) (c : Byte) : strcspn m.bytes c < m.bytes.length := by
  have h1 : strcspn m.bytes c ≤ (cstr m.bytes).length := (List.takeWhile_sublist _).length_le
  have h2 : (cstr m.bytes).length < MSG_SIZE := m.text_length_lt
  rw [m.len]
  omega

/- `msgText[strcspn(msgText, "\n")] = '\0'` -/
def MsgText.chomp (m : MsgText) : MsgText where
  bytes := m.bytes.set (strcspn m.bytes NEWLINE) 0
  len := by rw [List.length_set, m.len]
  nul := zero_mem_set (m.strcspn_lt NEWLINE)

/- `strncpy(msgText, EXIT_MSG, sizeof(msgText)-1); msgText[sizeof(msgText)-1] = '\0'` -/
def exitMsg : MsgText where
  bytes := strncpy EXIT_MSG (MSG_SIZE - 1) ++ [0]
  len := by rw [List.length_append, strncpy_length]; rfl
  nul := List.mem_append_right _ (List.mem_cons_self ..)

/- The messages of the loop `while (fgets(..))` of `main`, for at most `n` rounds. -/
def sendLines : ℕ → MsgBuf → Bytes → List MsgText
  | 0, _, _ => []
  | n + 1, buf, file =>
    match fgets buf file with
    | none => []
    | some (m, rest) => m.chomp :: sendLines n m.chomp.toMsgBuf rest

/- All messages of the sender's `main`, in the order it sends them. The loop reads at least one
byte in each round. -/
def messages (buf : MsgBuf) (file : Bytes) : List MsgText :=
  sendLines (file.length + 1) buf file ++ [exitMsg]

/-! ### The lines of a file -/

/- A newline ends a line, and so does the end of the file. -/
def fileLines : Bytes → List Bytes
  | [] => []
  | c :: file =>
    if c = NEWLINE then [] :: fileLines file
    else
      match fileLines file with
      | [] => [[c]]
      | l :: ls => (c :: l) :: ls

theorem fileLines_eq (file : Bytes) : fileLines file = Base.lines NEWLINE file := by
  induction file with
  | nil => rfl
  | cons c file ih =>
    unfold fileLines Base.lines
    rw [ih]
    cases Base.lines NEWLINE file with
    | nil => rfl
    | cons l ls => rfl

theorem readLine_eq (n : ℕ) (file : Bytes) : readLine n file = Base.fgets NEWLINE n file := by
  induction n generalizing file with
  | zero => rfl
  | succ n ih =>
    cases file with
    | nil => rfl
    | cons c file => simp only [readLine, Base.fgets, ih]

/-- The text of a message is what `fgets` has read, without its newline. -/
theorem chomp_fill_text {l : Bytes} (hnul : ∀ b ∈ l, b ≠ 0) (buf : MsgBuf)
    (hl : l.length ≤ MSG_SIZE - 1) : (buf.fill l hl).chomp.text = Base.chomp NEWLINE l := by
  have hspan : strcspn (buf.fill l hl).bytes NEWLINE = (Base.chomp NEWLINE l).length := by
    rw [strcspn, MsgBuf.fill, cstr_append_nul hnul]
    rfl
  have hprefix : Base.chomp NEWLINE l <+: l := List.takeWhile_prefix _
  obtain ⟨r, hr⟩ := hprefix
  have hbytes : (buf.fill l hl).chomp.bytes =
      (l ++ 0 :: buf.bytes.drop (l.length + 1)).set (Base.chomp NEWLINE l).length 0 :=
    congrArg (fun i => (buf.fill l hl).bytes.set i 0) hspan
  have hset : ∃ t, (l ++ 0 :: buf.bytes.drop (l.length + 1)).set (Base.chomp NEWLINE l).length 0 =
      Base.chomp NEWLINE l ++ 0 :: t := by
    generalize buf.bytes.drop (l.length + 1) = d
    generalize Base.chomp NEWLINE l = k at hr
    subst hr
    cases r with
    | nil =>
      refine ⟨d, ?_⟩
      rw [List.append_nil, List.set_append_right _ _ (Nat.le_refl _), Nat.sub_self,
        List.set_cons_zero]
    | cons c r =>
      refine ⟨r ++ 0 :: d, ?_⟩
      rw [List.append_assoc, List.set_append_right _ _ (Nat.le_refl _), Nat.sub_self,
        List.cons_append, List.set_cons_zero]
  obtain ⟨t, ht⟩ := hset
  rw [MsgText.text, hbytes, ht]
  refine cstr_append_nul (fun b hb => hnul b ?_) t
  rw [← hr]
  exact List.mem_append_left _ hb

/-- The loop of `main` sends a message for each piece that `fgets` reads. -/
theorem sendLines_pieces {n : ℕ} {buf : MsgBuf} {file : Bytes} (hn : file.length < n)
    (hnul : ∀ b ∈ file, b ≠ 0) : (sendLines n buf file).map MsgText.text =
      (pieces NEWLINE (MSG_SIZE - 2) file).map (Base.chomp NEWLINE) := by
  induction n generalizing buf file with
  | zero => omega
  | succ n ih =>
    cases file with
    | nil =>
      rw [pieces_nil]
      rfl
    | cons c file =>
      have hroom : MSG_SIZE - 2 + 1 = MSG_SIZE - 1 := rfl
      have happend := fgets_append NEWLINE (MSG_SIZE - 1) (c :: file)
      have hlt := fgets_length NEWLINE (MSG_SIZE - 2) c file
      rw [hroom] at hlt
      have hne : (readLine (MSG_SIZE - 1) (c :: file)).1 ≠ [] := by
        intro hnil
        rw [readLine_eq] at hnil
        rw [hnil, List.nil_append] at happend
        rw [happend] at hlt
        exact Nat.lt_irrefl _ hlt
      have hgot : ∀ b ∈ (readLine (MSG_SIZE - 1) (c :: file)).1, b ≠ 0 := by
        intro b hb
        apply hnul
        rw [← happend, ← readLine_eq]
        exact List.mem_append_left _ hb
      have hleft : ∀ b ∈ (readLine (MSG_SIZE - 1) (c :: file)).2, b ≠ 0 := by
        intro b hb
        apply hnul
        rw [← happend, ← readLine_eq]
        exact List.mem_append_right _ hb
      have hshort : (readLine (MSG_SIZE - 1) (c :: file)).2.length < n := by
        rw [readLine_eq]
        omega
      simp only [sendLines, fgets, hne, ite_false, List.map_cons]
      rw [chomp_fill_text hgot, ih hshort hleft, pieces_of_ne_nil _ _ (List.cons_ne_nil c file),
        List.map_cons, hroom, readLine_eq]

theorem exitMsg_text : exitMsg.text = EXIT_MSG := by
  have hexit : cstr EXIT_MSG = EXIT_MSG := by decide
  have hlen : (cstr EXIT_MSG).length ≤ MSG_SIZE - 1 := by decide
  exact (cstr_strncpy_nul hlen []).trans hexit

theorem messages_pieces (buf : MsgBuf) {file : Bytes} (hnul : ∀ b ∈ file, b ≠ 0) :
    (messages buf file).map MsgText.text =
      (pieces NEWLINE (MSG_SIZE - 2) file).map (Base.chomp NEWLINE) ++ [EXIT_MSG] := by
  rw [messages, List.map_append, sendLines_pieces (Nat.lt_succ_self _) hnul]
  rw [List.map_singleton, exitMsg_text]

/-- The sender sends the text of each line and then the exit message. -/
theorem messages_text {buf : MsgBuf} {file : Bytes} (hnul : ∀ b ∈ file, b ≠ 0)
    (hfits : ∀ l ∈ fileLines file, l.length < MSG_SIZE - 1) :
    (messages buf file).map MsgText.text = fileLines file ++ [EXIT_MSG] := by
  rw [fileLines_eq] at hfits ⊢
  have hlines := (pieces_chomp_iff NEWLINE (MSG_SIZE - 2) fun l hl => Nat.le_of_lt (hfits l hl)).mpr
    fun l hl => Nat.le_of_lt_succ (hfits l ((endedLines_prefix_lines NEWLINE file).subset hl))
  rw [messages_pieces buf hnul, hlines]

/-- When every line of the file fits `msgText`, the sender sends each line once and in order iff those
that end with a newline leave room for it in the buffer. -/
theorem messages_lines_iff {buf : MsgBuf} {file : Bytes} (hnul : ∀ b ∈ file, b ≠ 0)
    (hfits : ∀ l ∈ fileLines file, l.length ≤ MSG_SIZE - 1) :
    (messages buf file).map MsgText.text = fileLines file ++ [EXIT_MSG] ↔
      ∀ l ∈ endedLines NEWLINE file, l.length < MSG_SIZE - 1 := by
  rw [fileLines_eq] at hfits ⊢
  have hlines := pieces_chomp_iff NEWLINE (MSG_SIZE - 2) hfits
  rw [messages_pieces buf hnul, List.append_cancel_right_eq, hlines]
  exact forall₂_congr fun l _ => Nat.lt_succ_iff.symm

/- A line of `n` bytes with its newline. -/
def lineOf (n : ℕ) : Bytes := List.replicate n 97 ++ [NEWLINE]

theorem lineOf_line (n : ℕ) : fileLines (lineOf n) = [List.replicate n 97] := by
  induction n with
  | zero => rfl
  | succ n ih =>
    have hcons : lineOf (n + 1) = 97 :: lineOf n := rfl
    have hne : (97 : Byte) ≠ NEWLINE := by decide
    simp only [hcons, fileLines, hne, ite_false, ih, List.replicate_succ]

theorem lineOf_noNul (n : ℕ) : ∀ b ∈ lineOf n, b ≠ 0 := by
  intro b hb
  rcases List.mem_append.mp hb with hb | hb
  · rw [List.eq_of_mem_replicate hb]
    decide
  · rw [List.mem_singleton.mp hb]
    decide

theorem lineOf_ended (n : ℕ) : endedLines NEWLINE (lineOf n) = [List.replicate n 97] := by
  refine endedLines_line (fun h => ?_) []
  have hne : (97 : Byte) ≠ NEWLINE := by decide
  exact hne (List.eq_of_mem_replicate h).symm

theorem messages_lines_iff_lineOf :
    (messages zeroBuf (lineOf 2)).map MsgText.text = fileLines (lineOf 2) ++ [EXIT_MSG] :=
  (messages_lines_iff (lineOf_noNul 2) (by
    rw [lineOf_line, List.forall_mem_singleton]
    decide)).mpr (by
    rw [lineOf_ended, List.forall_mem_singleton]
    decide)

/-- A line of 1023 bytes fits `msgText`, and is followed by an empty message. -/
theorem fullLine_splits : ¬ ∀ (buf : MsgBuf) (file : Bytes), (∀ b ∈ file, b ≠ 0) →
    (∀ l ∈ fileLines file, l.length ≤ MSG_SIZE - 1) →
    (messages buf file).map MsgText.text = fileLines file ++ [EXIT_MSG] := by
  intro h
  have hfits : ∀ l ∈ fileLines (lineOf (MSG_SIZE - 1)), l.length ≤ MSG_SIZE - 1 := by
    rw [lineOf_line, List.forall_mem_singleton, List.length_replicate]
  have hlines := h zeroBuf _ (lineOf_noNul _) hfits
  rw [fileLines_eq] at hfits hlines
  rw [messages_pieces _ (lineOf_noNul _), List.append_cancel_right_eq,
    pieces_chomp_iff NEWLINE (MSG_SIZE - 2) hfits, lineOf_ended, List.forall_mem_singleton,
    List.length_replicate] at hlines
  exact absurd hlines (by decide)

end OSLab.Mailbox
