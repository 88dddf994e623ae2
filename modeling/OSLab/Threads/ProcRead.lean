import OSLab.Base.Format
import OSLab.Base.Paging
import OSLab.Kernel.Vfs

/-!
# Reading a proc file (Lab3/3_1 and 3_2, My_Kernel.c)

How the two `Myread` hand a formatted text to `copy_to_user`, and what a
process gets that reads until nothing comes.
-/

namespace OSLab.ProcRead
open OSLab.Base OSLab.Kernel

/-- The buffer of a `read`: the `buffer_len` bytes that the process passes, and how many bytes behind
them it may write to as well. -/
structure UserBuf where
  len : ℕ
  behind : ℕ

/-- One call of `Myread`: its result, the stores of `snprintf`, the length that `copy_to_user` gets,
the bytes that arrive in user space, and `*offset` afterwards. -/
structure Read where
  ret : Except Errno ℕ
  stores : List ByteStore
  passed : ℕ
  bytes : Bytes
  offset : ℕ

/- `if (*offset > 0) return 0`. -/
def Read.nothing (offset : ℕ) : Read :=
  { ret := .ok 0, stores := [], passed := 0, bytes := [], offset }

/- `if (copy_to_user(ubuf, src, len)) return -EFAULT`, behind the stores of `snprintf`; then `*offset`
becomes `next` and `len` is returned. `src` is an array of `size` bytes, and `check_copy_size` refuses
to copy more. -/
def copyOut (m : Mem) (stores : List ByteStore) (src size len : ℕ) (ubuf : UserBuf)
    (offset next : ℕ) : Read :=
  let copy :=
    if size < len then (len, []) else copyToUser (m.apply stores) src (ubuf.len + ubuf.behind) len
  if copy.1 ≠ 0 then { ret := .error .EFAULT, stores, passed := len, bytes := copy.2, offset }
  else { ret := .ok len, stores, passed := len, bytes := copy.2, offset := next }

/-- The bytes of `size` from `a` on that were stored to. -/
def storedBytes (a size : ℕ) (stores : List ByteStore) : ℕ :=
  (List.range size).countP fun i => ∃ st ∈ stores, st.addr ≤ a + i ∧ a + i < st.addr + st.bytes.length

theorem storedBytes_le (a size : ℕ) (stores : List ByteStore) : storedBytes a size stores ≤ size :=
  List.countP_le_length.trans (Nat.le_of_eq (List.length_range ..))

theorem le_storedBytes {a size n : ℕ} {stores : List ByteStore} (hn : n ≤ size)
    (h : ∀ i, i < n → ∃ st ∈ stores, st.Covers (a + i)) : n ≤ storedBytes a size stores := by
  obtain ⟨d, rfl⟩ := Nat.exists_eq_add_of_le hn
  unfold storedBytes
  rw [List.range_add, List.countP_append]
  have hall : (List.range n).countP (fun i => ∃ st ∈ stores, st.addr ≤ a + i ∧
      a + i < st.addr + st.bytes.length) = (List.range n).length :=
    List.countP_eq_length.mpr fun i hi => decide_eq_true (h i (List.mem_range.mp hi))
  rw [List.length_range] at hall
  omega

variable {m : Mem} {stores : List ByteStore} {src size len offset next : ℕ} {ubuf : UserBuf}

@[simp] theorem copyOut_stores :
    (copyOut m stores src size len ubuf offset next).stores = stores := by
  unfold copyOut
  dsimp only
  rw [apply_ite Read.stores]
  exact ite_self _

@[simp] theorem copyOut_passed :
    (copyOut m stores src size len ubuf offset next).passed = len := by
  unfold copyOut
  dsimp only
  rw [apply_ite Read.passed]
  exact ite_self _

theorem copyOut_ok (hmax : size ≤ INT_MAX) (hlen : len ≤ size) (hroom : len ≤ ubuf.len + ubuf.behind) :
    copyOut m stores src size len ubuf offset next =
      { ret := .ok len, stores, passed := len, bytes := (m.apply stores).load src len,
        offset := next } := by
  have hsize : ¬ size < len := Nat.not_lt_of_le hlen
  simp only [copyOut, hsize, copyToUser_full _ _ _ (hlen.trans hmax) hroom, ne_eq, not_true_eq_false,
    ite_false]

theorem copyOut_fault (hmax : size ≤ INT_MAX) (hlen : len ≤ size)
    (hroom : ubuf.len + ubuf.behind < len) :
    copyOut m stores src size len ubuf offset next =
      { ret := .error .EFAULT, stores, passed := len,
        bytes := (m.apply stores).load src (ubuf.len + ubuf.behind), offset } := by
  have hsize : ¬ size < len := Nat.not_lt_of_le hlen
  have hrefused : ¬ INT_MAX < len := Nat.not_lt_of_le (hlen.trans hmax)
  have hmin : min len (ubuf.len + ubuf.behind) = ubuf.len + ubuf.behind :=
    Nat.min_eq_right (Nat.le_of_lt hroom)
  have hrest : len - (ubuf.len + ubuf.behind) ≠ 0 := by omega
  simp only [copyOut, hsize, copyToUser, hrefused, hmin, ite_false, ne_eq, hrest, not_false_eq_true,
    ite_true]

/-! ### One formatted text -/

variable {text : Bytes}

theorem snprintf_stored (h : text.length < size) :
    text.length ≤ storedBytes src size (snprintf src size text).2 :=
  le_storedBytes (Nat.le_of_lt h) fun _ hi => snprintf_covers h hi

/-- The text of one `snprintf` arrives whole, and no more than was stored is handed over, iff it fits
the array and the memory of the user. -/
theorem copyOut_text_iff (hsize : 0 < size) (hmax : size ≤ INT_MAX) (hnul : ∀ b ∈ text, b ≠ 0) :
    ((copyOut m (snprintf src size text).2 src size text.length ubuf offset next).bytes = text ∧
      text.length ≤ storedBytes src size (snprintf src size text).2) ↔
    text.length < size ∧ text.length ≤ ubuf.len + ubuf.behind := by
  constructor
  · rintro ⟨hbytes, hstored⟩
    have hle : text.length ≤ size := hstored.trans (storedBytes_le ..)
    have hroom : text.length ≤ ubuf.len + ubuf.behind := by
      by_contra hshort
      rw [copyOut_fault hmax hle (Nat.lt_of_not_le hshort)] at hbytes
      have hlen := congrArg List.length hbytes
      rw [Mem.load_length] at hlen
      exact hshort (Nat.le_of_eq hlen.symm)
    refine ⟨Nat.lt_of_le_of_ne hle fun heq => ?_, hroom⟩
    rw [copyOut_ok hmax hle hroom, heq] at hbytes
    have hmem : (0 : Byte) ∈ (m.apply (snprintf src size text).2).load src size :=
      List.mem_map.mpr ⟨size - 1, List.mem_range.mpr (Nat.sub_lt hsize Nat.one_pos),
        snprintf_last src hsize (Nat.le_of_eq heq.symm) m⟩
    have htext : (m.apply (snprintf src size text).2).load src size = text := hbytes
    rw [htext] at hmem
    exact hnul 0 hmem rfl
  · rintro ⟨hfits, hroom⟩
    rw [copyOut_ok hmax (Nat.le_of_lt hfits) hroom]
    exact ⟨snprintf_load hfits m, snprintf_stored hfits⟩

end OSLab.ProcRead
