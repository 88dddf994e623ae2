import OSLab.Base.Memory
import Mathlib.Algebra.Group.Nat.Defs
import Mathlib.Data.List.TakeWhile

/-!
# C strings and little-endian words in flat memory

`strlen`, `strncmp` and `strncpy` as the C library documents them, and the
32-bit little-endian words of the machine.
-/

namespace OSLab.Base

/-- The text of a buffer: its bytes up to the first NUL. -/
def cstr (bs : Bytes) : Bytes := bs.takeWhile fun b => b ≠ 0

/- The `n` bytes that `strncpy(dst, src, n)` stores: the text of the source, cut at `n` and
padded with NULs up to `n`. No terminator is stored when the text has `n` bytes or more. -/
def strncpy (src : Bytes) (n : ℕ) : Bytes :=
  (cstr src).take n ++ List.replicate (n - (cstr src).length) 0

/-- `strlen`, looking at no more than the given number of bytes. -/
def strlen (m : Mem) : ℕ → ℕ → Option ℕ
  | 0, _ => none
  | n + 1, a => if m a = 0 then some 0 else (strlen m n (a + 1)).map (· + 1)

/-- `strncmp(a, s, n) == 0`, where `s` stands for a NUL-terminated string. -/
def strncmpEq (m : Mem) : ℕ → ℕ → Bytes → Bool
  | 0, _, _ => true
  | n + 1, a, s =>
    if m a ≠ s.headD 0 then false
    else if m a = 0 then true
    else strncmpEq m n (a + 1) s.tail

/-- The C string `s` stands at address `a`. -/
structure CStrAt (m : Mem) (a : ℕ) (s : Bytes) : Prop where
  text : m.load a s.length = s
  nul : m (a + s.length) = 0
  noNul : ∀ b ∈ s, b ≠ 0

/-! ### Buffers -/

theorem cstr_of_noNul {s : Bytes} (h : ∀ b ∈ s, b ≠ 0) : cstr s = s := by
  unfold cstr
  rw [List.takeWhile_eq_self_iff]
  intro b hb
  simpa using h b hb

theorem cstr_noNul (s : Bytes) : ∀ b ∈ cstr s, b ≠ 0 := by
  intro b hb
  have h := List.mem_takeWhile_imp hb
  simpa using h

theorem cstr_append_nul {s : Bytes} (h : ∀ b ∈ s, b ≠ 0) (t : Bytes) : cstr (s ++ 0 :: t) = s := by
  unfold cstr
  rw [List.takeWhile_append_of_pos (by intro b hb; simpa using h b hb)]
  simp

theorem cstr_length_le (s : Bytes) : (cstr s).length ≤ s.length :=
  (List.takeWhile_sublist _).length_le

theorem strncpy_length (src : Bytes) (n : ℕ) : (strncpy src n).length = n := by
  simp only [strncpy, List.length_append, List.length_take, List.length_replicate]
  omega

theorem strncpy_of_noNul {s : Bytes} (h : ∀ b ∈ s, b ≠ 0) : strncpy s s.length = s := by
  simp only [strncpy, cstr_of_noNul h, List.take_length, Nat.sub_self, List.replicate_zero,
    List.append_nil]

theorem cstr_strncpy {src : Bytes} {n : ℕ} (h : (cstr src).length < n) (t : Bytes) :
    cstr (strncpy src n ++ t) = cstr src := by
  obtain ⟨d, hd⟩ := Nat.exists_eq_add_of_lt h
  have hrep : n - (cstr src).length = d + 1 := by omega
  rw [strncpy, List.take_of_length_le (by omega), hrep, List.replicate_succ, List.append_assoc]
  exact cstr_append_nul (cstr_noNul src) _

/-- With a terminator stored behind the copy the text may have `n` bytes. -/
theorem cstr_strncpy_nul {src : Bytes} {n : ℕ} (h : (cstr src).length ≤ n) (t : Bytes) :
    cstr (strncpy src n ++ 0 :: t) = cstr src := by
  rw [strncpy, List.take_of_length_le h, List.append_assoc]
  cases hn : n - (cstr src).length with
  | zero => exact cstr_append_nul (cstr_noNul src) t
  | succ k =>
    rw [List.replicate_succ, List.cons_append]
    exact cstr_append_nul (cstr_noNul src) _

/-! ### Strings in memory -/

theorem CStrAt.nil {m : Mem} {a : ℕ} (h : m a = 0) : CStrAt m a [] :=
  ⟨rfl, h, fun _ hb => absurd hb (List.not_mem_nil)⟩

/-- The string is the text of every buffer that reaches to its terminator. -/
theorem CStrAt.cstr_load {m : Mem} {a n : ℕ} {s : Bytes} (h : CStrAt m a s) (hn : s.length < n) :
    cstr (m.load a n) = s := by
  obtain ⟨d, rfl⟩ := Nat.exists_eq_add_of_lt hn
  have hsplit : m.load a (s.length + d + 1) = s ++ 0 :: m.load (a + s.length + 1) d := by
    rw [Nat.add_right_comm, Mem.load_append, Mem.load_append, h.text, ← Nat.add_assoc, List.append_assoc]
    have hone : m.load (a + s.length) 1 = [0] := by
      rw [← h.nul]
      rfl
    rw [hone]
    rfl
  rw [hsplit]
  exact cstr_append_nul h.noNul _

theorem CStrAt.of_stores (m : Mem) (a : ℕ) {s : Bytes} (hs : ∀ b ∈ s, b ≠ 0) :
    CStrAt ((m.store a s).store (a + s.length) [0]) a s := by
  refine ⟨?_, Mem.store_inside (i := 0) _ _ (by decide), hs⟩
  rw [Mem.load_store_disjoint _ (Or.inl (Nat.le_refl _)), Mem.load_store_self]

/-- A string stored with its terminator, and what was behind. -/
theorem load_stores (m : Mem) (a d : ℕ) (s : Bytes) :
    ((m.store a s).store (a + s.length) [0]).load a (s.length + (1 + d)) =
      s ++ 0 :: m.load (a + (s.length + 1)) d := by
  have hbehind : ((m.store a s).store (a + s.length) [0]).load (a + s.length + 1) d =
      m.load (a + (s.length + 1)) d := by
    have hnul : ((m.store a s).store (a + s.length) [0]).load (a + s.length + 1) d =
        (m.store a s).load (a + s.length + 1) d :=
      Mem.load_store_disjoint _ (Or.inr (Nat.le_refl _))
    rw [hnul]
    exact Mem.load_store_disjoint _ (Or.inr (Nat.le_succ _))
  rw [Mem.load_append, Mem.load_append, hbehind, Mem.load_store_disjoint _ (Or.inl (Nat.le_refl _)),
    Mem.load_store_self]
  congr 1
  have hnul : ((m.store a s).store (a + s.length) [0]).load (a + s.length) 1 = [0] :=
    Mem.load_store_self _ _ [0]
  rw [hnul]
  rfl

theorem CStrAt.cons_iff {m : Mem} {a : ℕ} {c : Byte} {s : Bytes} :
    CStrAt m a (c :: s) ↔ m a = c ∧ c ≠ 0 ∧ CStrAt m (a + 1) s := by
  have hload : m.load a (s.length + 1) = m a :: m.load (a + 1) s.length := by
    rw [Nat.add_comm s.length 1, Mem.load_append]
    rfl
  have haddr : a + (s.length + 1) = a + 1 + s.length := by omega
  constructor
  · intro h
    have htext := h.text
    rw [List.length_cons, hload] at htext
    have hnul := h.nul
    rw [List.length_cons, haddr] at hnul
    exact ⟨List.head_eq_of_cons_eq htext, h.noNul c (List.mem_cons_self ..),
      ⟨List.tail_eq_of_cons_eq htext, hnul, fun b hb => h.noNul b (List.mem_cons_of_mem _ hb)⟩⟩
  · intro ⟨hc, hne, hs⟩
    refine ⟨?_, ?_, ?_⟩
    · rw [List.length_cons, hload, hc, hs.text]
    · rw [List.length_cons, haddr]
      exact hs.nul
    · intro b hb
      rcases List.mem_cons.mp hb with rfl | hb
      · exact hne
      · exact hs.noNul b hb

theorem CStrAt.congr {m m' : Mem} {a : ℕ} {s : Bytes} (h : CStrAt m a s)
    (hm : ∀ i, i ≤ s.length → m' (a + i) = m (a + i)) : CStrAt m' a s := by
  refine ⟨?_, ?_, h.noNul⟩
  · have hload : m'.load a s.length = m.load a s.length :=
      Mem.load_congr fun i hi => hm i (by omega)
    rw [hload]
    exact h.text
  · rw [hm s.length (Nat.le_refl _)]
    exact h.nul

theorem CStrAt.strlen_eq {m : Mem} {a n : ℕ} {s : Bytes} (h : CStrAt m a s) (hn : s.length < n) :
    strlen m n a = some s.length := by
  induction s generalizing a n with
  | nil =>
    cases n with
    | zero => omega
    | succ n =>
      have h0 : m a = 0 := h.nul
      simp only [strlen, h0, ite_true, List.length_nil]
  | cons c s ih =>
    cases n with
    | zero => omega
    | succ n =>
      obtain ⟨hc, hne, hs⟩ := CStrAt.cons_iff.mp h
      have h0 : m a ≠ 0 := by rw [hc]; exact hne
      simp only [List.length_cons] at hn
      have hrec := ih hs (n := n) (by omega)
      simp only [strlen, h0, ite_false, hrec, Option.map_some, List.length_cons]

/-- `strlen` needs to look as far as the terminator. -/
theorem CStrAt.lt_of_strlen {m : Mem} {a n l : ℕ} {s : Bytes} (h : CStrAt m a s)
    (hl : strlen m n a = some l) : s.length < n := by
  induction s generalizing a n l with
  | nil =>
    cases n with
    | zero => cases hl
    | succ n => exact Nat.succ_pos n
  | cons c s ih =>
    cases n with
    | zero => cases hl
    | succ n =>
      obtain ⟨hc, hne, hs⟩ := CStrAt.cons_iff.mp h
      have h0 : m a ≠ 0 := by rw [hc]; exact hne
      simp only [strlen, h0, ite_false, Option.map_eq_some_iff] at hl
      obtain ⟨l', hl', -⟩ := hl
      exact Nat.succ_lt_succ (ih hs hl')

theorem CStrAt.strncmpEq_iff {m : Mem} {a : ℕ} {s t : Bytes} (h : CStrAt m a t)
    (hs : ∀ b ∈ s, b ≠ 0) (hlen : t.length = s.length) :
    strncmpEq m s.length a s = true ↔ t = s := by
  induction t generalizing a s with
  | nil =>
    obtain rfl : s = [] := List.length_eq_zero_iff.mp hlen.symm
    simp [strncmpEq]
  | cons c t ih =>
    cases s with
    | nil => simp at hlen
    | cons d s =>
      obtain ⟨hc, hne, ht⟩ := CStrAt.cons_iff.mp h
      have hrec := ih ht (fun b hb => hs b (List.mem_cons_of_mem _ hb)) (by simpa using hlen)
      simp only [List.length_cons, strncmpEq, List.headD_cons, List.tail_cons, hc]
      by_cases hcd : c = d
      · subst hcd
        simp only [ne_eq, not_true_eq_false, ite_false, hne, List.cons.injEq, true_and]
        exact hrec
      · simp only [ne_eq, hcd, not_false_eq_true, ite_true, List.cons.injEq, false_and]
        exact Bool.false_eq_true.to_iff

/-- The comparison `strlen(a) == len && strncmp(a, s, len) == 0` the file systems use for names. -/
def strMatches (m : Mem) (n a : ℕ) (s : Bytes) : Bool :=
  strlen m n a == some s.length && strncmpEq m s.length a s

theorem CStrAt.strMatches_iff {m : Mem} {a n : ℕ} {s t : Bytes} (h : CStrAt m a t)
    (hn : t.length < n) (hs : ∀ b ∈ s, b ≠ 0) : strMatches m n a s = true ↔ t = s := by
  simp only [strMatches, h.strlen_eq hn, Bool.and_eq_true, beq_iff_eq, Option.some.injEq]
  constructor
  · intro ⟨hlen, hcmp⟩
    exact (h.strncmpEq_iff hs hlen).mp hcmp
  · intro he
    subst he
    exact ⟨rfl, (h.strncmpEq_iff hs rfl).mpr rfl⟩

theorem CStrAt.unique {m : Mem} {a : ℕ} {s t : Bytes} (hs : CStrAt m a s) (ht : CStrAt m a t) :
    s = t := by
  have h1 := hs.strlen_eq (n := s.length + t.length + 1) (by omega)
  have h2 := ht.strlen_eq (n := s.length + t.length + 1) (by omega)
  rw [h1, Option.some.injEq] at h2
  have htext := ht.text
  rw [← h2, hs.text] at htext
  exact htext

/-! ### 32-bit words -/

def le32 (n : ℕ) : Bytes :=
  [Fin.ofNat 256 n, Fin.ofNat 256 (n / 256), Fin.ofNat 256 (n / 256 ^ 2), Fin.ofNat 256 (n / 256 ^ 3)]

def readLe32 (m : Mem) (a : ℕ) : ℕ :=
  m a + 256 * (m (a + 1) + 256 * (m (a + 2) + 256 * m (a + 3)))

@[simp] theorem le32_length (n : ℕ) : (le32 n).length = 4 := rfl

theorem readLe32_congr {m m' : Mem} {a : ℕ} (h : ∀ i, i < 4 → m (a + i) = m' (a + i)) :
    readLe32 m a = readLe32 m' a := by
  have h0 := h 0 (by omega)
  rw [Nat.add_zero] at h0
  simp only [readLe32, h0, h 1 (by omega), h 2 (by omega), h 3 (by omega)]

theorem readLe32_store (m : Mem) (a : ℕ) {n : ℕ} (h : n < 2 ^ 32) :
    readLe32 (m.store a (le32 n)) a = n := by
  have hi (i : ℕ) (hi : i < (le32 n).length) := m.store_inside a hi
  have h0 := hi 0 (by simp)
  have h1 := hi 1 (by simp)
  have h2 := hi 2 (by simp)
  have h3 := hi 3 (by simp)
  rw [Nat.add_zero] at h0
  simp only [readLe32, h0, h1, h2, h3]
  simp only [le32, List.getElem_cons_zero, List.getElem_cons_succ, Fin.ofNat]
  omega

end OSLab.Base
