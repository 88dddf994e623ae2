import OSLab.Base.Memory
import Mathlib.Data.Nat.Digits.Lemmas

/-!
# Formatted text

The conversions `%d` and `%2d`, and `snprintf` into memory.
-/

namespace OSLab.Base

/- The characters of a string literal. -/
def chars (s : String) : Bytes := s.toList.map fun c => Fin.ofNat 256 c.toNat

def printNat (n : ℕ) : Bytes :=
  if n = 0 then chars "0" else (Nat.digits 10 n).reverse.map fun d => Fin.ofNat 256 (48 + d)

/- `%d`. -/
def printInt (n : ℤ) : Bytes :=
  if n < 0 then chars "-" ++ printNat n.natAbs else printNat n.natAbs

/- A conversion with a field width: blanks on the left. -/
def padLeft (width : ℕ) (text : Bytes) : Bytes := text.leftpad width 32

/- What `snprintf(p, size, ..)` stores of the formatted text: at most `size - 1` characters and a
NUL. It returns the length of the whole text. -/
def snprintf (p size : ℕ) (text : Bytes) : ℕ × List ByteStore :=
  (text.length, if size = 0 then [] else [⟨p, text.take (size - 1) ++ [0]⟩])

theorem chars_noNul {s : String} (h : (0 : Byte) ∉ chars s) : ∀ b ∈ chars s, b ≠ 0 :=
  fun _ hb he => h (he ▸ hb)

theorem printNat_noNul (n : ℕ) : ∀ b ∈ printNat n, b ≠ 0 := by
  intro b hb
  unfold printNat at hb
  split at hb
  · have h0 : b = 48 := List.mem_singleton.mp hb
    rw [h0]
    decide
  · obtain ⟨d, hd, rfl⟩ := List.mem_map.mp hb
    have hlt : d < 10 := Nat.digits_lt_base (by decide) (List.mem_reverse.mp hd)
    intro he
    have hval := congrArg Fin.val he
    simp only [Fin.ofNat, Fin.val_zero] at hval
    omega

theorem printInt_noNul (n : ℤ) : ∀ b ∈ printInt n, b ≠ 0 := by
  intro b hb
  unfold printInt at hb
  split at hb
  · rcases List.mem_append.mp hb with hb | hb
    · have h45 : b = 45 := List.mem_singleton.mp hb
      rw [h45]
      decide
    · exact printNat_noNul _ b hb
  · exact printNat_noNul _ b hb

theorem printInt_natCast (n : ℕ) : printInt n = printNat n := by
  have hneg : ¬ (n : ℤ) < 0 := Int.not_lt.mpr (Int.natCast_nonneg n)
  simp only [printInt, hneg, ite_false, Int.natAbs_natCast]

theorem printNat_length {n k : ℕ} (hk : 0 < k) (hn : n < 10 ^ k) : (printNat n).length ≤ k := by
  unfold printNat
  split
  · exact hk
  · rw [List.length_map, List.length_reverse]
    exact (Nat.digits_length_le_iff (by decide) n).mpr hn

/-- The sign is one character more. -/
theorem printInt_length {n : ℤ} {k : ℕ} (hk : 0 < k) (hn : n.natAbs < 10 ^ k) :
    (printInt n).length ≤ k + 1 := by
  have hdigits := printNat_length hk hn
  have hsign : (chars "-").length = 1 := rfl
  unfold printInt
  split
  · rw [List.length_append]
    omega
  · omega

/-! ### Printing into a buffer -/

variable {p size : ℕ} {text : Bytes}

@[simp] theorem snprintf_fst : (snprintf p size text).1 = text.length := rfl

theorem snprintf_full (h : text.length < size) :
    snprintf p size text = (text.length, [⟨p, text ++ [0]⟩]) := by
  have hne : size ≠ 0 := by omega
  have hle : text.length ≤ size - 1 := by omega
  simp only [snprintf, hne, ite_false, List.take_of_length_le hle]

theorem snprintf_pos (p : ℕ) (text : Bytes) (hsize : 0 < size) :
    snprintf p size text = (text.length, [⟨p, text.take (size - 1) ++ [0]⟩]) := by
  have hne : size ≠ 0 := by omega
  simp only [snprintf, hne, ite_false]

theorem snprintf_within :
    ∀ st ∈ (snprintf p size text).2, ∀ x, st.Covers x → p ≤ x ∧ x < p + size := by
  intro st hst x hx
  unfold snprintf at hst
  dsimp only at hst
  split at hst
  · exact absurd hst List.not_mem_nil
  · rw [List.mem_singleton] at hst
    subst hst
    simp only [ByteStore.Covers, List.length_append, List.length_take, List.length_singleton] at hx
    omega

/-- A text that fits stands where it was stored. -/
theorem snprintf_load (h : text.length < size) (m : Mem) :
    (m.apply (snprintf p size text).2).load p text.length = text := by
  rw [snprintf_full h, Mem.apply_cons, Mem.apply_nil]
  have hself := congrArg (List.take text.length) (m.load_store_self p (text ++ [0]))
  rw [Mem.load_take _ _ _ _ (by
    rw [List.length_append]
    exact Nat.le_add_right ..), List.take_left] at hself
  exact hself

theorem snprintf_covers (h : text.length < size) {i : ℕ} (hi : i < text.length) :
    ∃ st ∈ (snprintf p size text).2, st.Covers (p + i) := by
  rw [snprintf_full h]
  refine ⟨_, List.mem_singleton_self _, ?_⟩
  simp only [ByteStore.Covers, List.length_append, List.length_singleton]
  omega

/-- A text that is cut has its NUL at the end of the array. -/
theorem snprintf_last (p : ℕ) (hsize : 0 < size) (h : size ≤ text.length) (m : Mem) :
    (m.apply (snprintf p size text).2) (p + (size - 1)) = 0 := by
  have htake : (text.take (size - 1)).length = size - 1 := by
    rw [List.length_take]
    omega
  rw [snprintf_pos _ _ hsize, Mem.apply_cons, Mem.apply_nil, Mem.store_inside _ _ (by
    rw [List.length_append, htake]
    exact Nat.lt_succ_self _), List.getElem_append_right (Nat.le_of_eq htake)]
  exact List.getElem_singleton _

end OSLab.Base
