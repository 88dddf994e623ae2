import Mathlib.Data.List.GetD
import Mathlib.Data.Nat.Notation
import Mathlib.Tactic.Common

/-!
# Flat byte memory

Memory is a function from addresses to bytes. A store replaces the bytes from
an address on, a load reads a given number of them.
-/

namespace OSLab.Base

abbrev Byte := Fin 256
abbrev Bytes := List Byte
abbrev Mem := ℕ → Byte

instance (priority := 2000) byteSize_neZero : @NeZero ℕ Zero.ofOfNat0 256 := ⟨by decide⟩

namespace Mem

def zero : Mem := fun _ => 0

def store (m : Mem) (a : ℕ) (bs : Bytes) : Mem :=
  fun x => if a ≤ x then bs.getD (x - a) (m x) else m x

def load (m : Mem) (a n : ℕ) : Bytes := (List.range n).map fun i => m (a + i)

theorem store_below (m : Mem) (bs : Bytes) {a x : ℕ} (h : x < a) : m.store a bs x = m x := by
  have hn : ¬ a ≤ x := by omega
  simp only [store, hn, ite_false]

theorem store_above (m : Mem) {a x : ℕ} {bs : Bytes} (h : a + bs.length ≤ x) :
    m.store a bs x = m x := by
  have hle : a ≤ x := by omega
  have hlen : bs.length ≤ x - a := by omega
  simp only [store, hle, ite_true, List.getD_eq_default _ _ hlen]

theorem store_outside (m : Mem) {a x : ℕ} {bs : Bytes} (h : x < a ∨ a + bs.length ≤ x) :
    m.store a bs x = m x := by
  rcases h with h | h
  · exact m.store_below bs h
  · exact m.store_above h

theorem store_inside (m : Mem) (a : ℕ) {bs : Bytes} {i : ℕ} (h : i < bs.length) :
    m.store a bs (a + i) = bs[i] := by
  have hle : a ≤ a + i := by omega
  have hsub : a + i - a = i := by omega
  simp only [store, hle, ite_true, hsub, List.getD_eq_getElem _ _ h]

@[simp] theorem load_length (m : Mem) (a n : ℕ) : (m.load a n).length = n := by
  simp only [load, List.length_map, List.length_range]

theorem load_getElem (m : Mem) (a n i : ℕ) (h : i < (m.load a n).length) :
    (m.load a n)[i] = m (a + i) := by
  simp only [load, List.getElem_map, List.getElem_range]

theorem load_congr {m m' : Mem} {a n : ℕ} (h : ∀ i, i < n → m (a + i) = m' (a + i)) :
    m.load a n = m'.load a n := by
  apply List.ext_getElem
  · simp only [load_length]
  · intro i h1 h2
    rw [load_getElem, load_getElem]
    exact h i (by simpa only [load_length] using h1)

theorem load_append (m : Mem) (a n k : ℕ) : m.load a (n + k) = m.load a n ++ m.load (a + n) k := by
  simp only [load, List.range_add, List.map_append, List.map_map]
  congr 1
  apply List.map_congr_left
  intro i _
  simp only [Function.comp_apply, Nat.add_assoc]

theorem load_take (m : Mem) (a n k : ℕ) (h : k ≤ n) : (m.load a n).take k = m.load a k := by
  obtain ⟨d, rfl⟩ := Nat.exists_eq_add_of_le h
  rw [load_append, List.take_append_of_le_length (by simp only [load_length, Nat.le_refl]),
    List.take_of_length_le (by simp only [load_length, Nat.le_refl])]

theorem load_drop (m : Mem) (a n k : ℕ) (h : k ≤ n) :
    (m.load a n).drop k = m.load (a + k) (n - k) := by
  obtain ⟨d, rfl⟩ := Nat.exists_eq_add_of_le h
  rw [load_append, List.drop_append_of_le_length (by simp only [load_length, Nat.le_refl]),
    List.drop_of_length_le (by simp only [load_length, Nat.le_refl]), List.nil_append]
  congr 1
  omega

theorem load_store_self (m : Mem) (a : ℕ) (bs : Bytes) : (m.store a bs).load a bs.length = bs := by
  apply List.ext_getElem
  · simp only [load_length]
  · intro i h1 h2
    rw [load_getElem]
    exact m.store_inside a h2

theorem load_store_disjoint (m : Mem) {a b n : ℕ} {bs : Bytes}
    (h : b + n ≤ a ∨ a + bs.length ≤ b) : (m.store a bs).load b n = m.load b n := by
  apply load_congr
  intro i hi
  exact m.store_outside (by omega)

/-- A store changes nothing iff the bytes are there already. -/
theorem store_eq_self_iff (m : Mem) (a : ℕ) (bs : Bytes) :
    m.store a bs = m ↔ m.load a bs.length = bs := by
  constructor
  · intro h
    have hload := m.load_store_self a bs
    rwa [h] at hload
  · intro h
    funext x
    by_cases hx : x < a ∨ a + bs.length ≤ x
    · exact m.store_outside hx
    · obtain ⟨i, rfl⟩ := Nat.exists_eq_add_of_le (show a ≤ x by omega)
      have hi : i < bs.length := by omega
      have hget := m.load_getElem a bs.length i (by rw [load_length]; exact hi)
      rw [m.store_inside a hi, ← hget]
      simp only [h]

end Mem

/-! ### Several stores -/

structure ByteStore where
  addr : ℕ
  bytes : Bytes

/-- The address is one that the store writes. -/
def ByteStore.Covers (st : ByteStore) (x : ℕ) : Prop := st.addr ≤ x ∧ x < st.addr + st.bytes.length

namespace Mem

/-- The memory after the stores of a list, the first one first. -/
def apply (m : Mem) (l : List ByteStore) : Mem := l.foldl (fun m st => m.store st.addr st.bytes) m

@[simp] theorem apply_nil (m : Mem) : m.apply [] = m := rfl

@[simp] theorem apply_cons (m : Mem) (st : ByteStore) (l : List ByteStore) :
    m.apply (st :: l) = (m.store st.addr st.bytes).apply l := rfl

theorem apply_append (m : Mem) (l l' : List ByteStore) :
    m.apply (l ++ l') = (m.apply l).apply l' := List.foldl_append

theorem apply_outside {m : Mem} {l : List ByteStore} {x : ℕ} (h : ∀ st ∈ l, ¬ st.Covers x) :
    m.apply l x = m x := by
  induction l generalizing m with
  | nil => rfl
  | cons st l ih =>
    have hst := h st (List.mem_cons_self ..)
    unfold ByteStore.Covers at hst
    rw [apply_cons, ih fun st' hmem => h st' (List.mem_cons_of_mem _ hmem)]
    exact m.store_outside (by omega)

/-- Stores that keep to the `n` bytes from `a` on change nothing else. -/
theorem apply_within {m : Mem} {l : List ByteStore} {a n x : ℕ}
    (h : ∀ st ∈ l, ∀ y, st.Covers y → a ≤ y ∧ y < a + n) (hx : x < a ∨ a + n ≤ x) :
    m.apply l x = m x := by
  refine apply_outside fun st hst hc => ?_
  have hin := h st hst x hc
  omega

end Mem

/-! ### Overwriting a byte string -/

/-- `bs` written at position `p` of `c`, which is first extended with zeros when it is too short. -/
def writeAt (c : Bytes) (p : ℕ) (bs : Bytes) : Bytes :=
  let ext := c ++ List.replicate (p + bs.length - c.length) 0
  ext.take p ++ bs ++ ext.drop (p + bs.length)

theorem writeAt_length (c : Bytes) (p : ℕ) (bs : Bytes) :
    (writeAt c p bs).length = max c.length (p + bs.length) := by
  simp only [writeAt, List.length_append, List.length_take, List.length_drop,
    List.length_replicate]
  omega

theorem writeAt_getElem (c : Bytes) (p : ℕ) (bs : Bytes) (i : ℕ)
    (h : i < (writeAt c p bs).length) :
    (writeAt c p bs)[i] =
      if p ≤ i ∧ i < p + bs.length then bs.getD (i - p) 0 else c.getD i 0 := by
  have hext (j : ℕ) : (c ++ List.replicate (p + bs.length - c.length) (0 : Byte)).getD j 0 =
      c.getD j 0 := by
    by_cases hj : j < c.length
    · rw [List.getD_append _ _ _ _ hj]
    · rw [List.getD_append_right _ _ _ _ (by omega), List.getD_eq_default c _ (by omega)]
      rw [List.getD_eq_getElem?_getD, List.getElem?_replicate]
      split <;> rfl
  rw [← List.getD_eq_getElem _ 0 h]
  have hlen : (c ++ List.replicate (p + bs.length - c.length) (0 : Byte)).length =
      max c.length (p + bs.length) := by
    simp only [List.length_append, List.length_replicate]
    omega
  have hp : ((c ++ List.replicate (p + bs.length - c.length) (0 : Byte)).take p).length = p := by
    rw [List.length_take, hlen]
    omega
  simp only [writeAt]
  by_cases h1 : i < p
  · rw [List.getD_append _ _ _ _ (by rw [List.length_append, hp]; omega),
      List.getD_append _ _ _ _ (by rw [hp]; exact h1), if_neg (by omega), ← hext i]
    simp only [List.getD_eq_getElem?_getD, List.getElem?_take, h1, ite_true]
  · by_cases h2 : i < p + bs.length
    · rw [List.getD_append _ _ _ _ (by rw [List.length_append, hp]; omega),
        List.getD_append_right _ _ _ _ (by rw [hp]; omega), hp, if_pos ⟨by omega, h2⟩]
    · rw [List.getD_append_right _ _ _ _ (by rw [List.length_append, hp]; omega),
        if_neg (by omega), ← hext i, List.length_append, hp]
      simp only [List.getD_eq_getElem?_getD, List.getElem?_drop]
      congr 2
      omega

theorem writeAt_append (u c w : Bytes) :
    writeAt (u ++ c) u.length w = u ++ w ++ c.drop w.length := by
  unfold writeAt
  dsimp only
  have hpad : (u ++ c ++ List.replicate (u.length + w.length - (u ++ c).length) (0 : Byte)).take
      u.length = u := by
    rw [List.append_assoc, List.take_left]
  have hrest : (u ++ c ++ List.replicate (u.length + w.length - (u ++ c).length) (0 : Byte)).drop
      (u.length + w.length) = c.drop w.length := by
    rw [List.append_assoc, ← List.drop_drop, List.drop_left, List.drop_append, List.drop_replicate,
      List.length_append]
    have hzero : u.length + w.length - (u.length + c.length) - (w.length - c.length) = 0 := by omega
    rw [hzero, List.replicate_zero, List.append_nil]
  rw [hpad, hrest]

/-- The bytes of a file in memory after a store at `p`: what lies between the old end of the file
and `p` is zero, so the file reads as the old text extended with zeros and overwritten at `p`. -/
theorem Mem.load_store_writeAt (m : Mem) (a p size : ℕ) (bs : Bytes)
    (hz : ∀ i, size ≤ i → i < p → m (a + i) = 0) :
    (m.store (a + p) bs).load a (max size (p + bs.length)) = writeAt (m.load a size) p bs := by
  apply List.ext_getElem
  · rw [Mem.load_length, writeAt_length, Mem.load_length]
  · intro i h1 h2
    rw [Mem.load_getElem, writeAt_getElem]
    rw [Mem.load_length] at h1
    split
    · rename_i hin
      have hlt : i - p < bs.length := by omega
      have haddr : a + i = a + p + (i - p) := by omega
      rw [haddr, m.store_inside _ hlt, List.getD_eq_getElem _ _ hlt]
    · rename_i hout
      rw [m.store_outside (by omega)]
      by_cases hi : i < size
      · rw [List.getD_eq_getElem _ _ (by rw [Mem.load_length]; exact hi), Mem.load_getElem]
      · rw [List.getD_eq_default _ _ (by rw [Mem.load_length]; omega)]
        exact hz i (by omega) (by omega)

end OSLab.Base
