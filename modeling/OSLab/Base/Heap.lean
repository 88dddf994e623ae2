import Mathlib.Data.List.Basic

/-!
# Blocks of memory and linked lists in them

`malloc`, `free`, loads and stores on whole blocks. A block keeps its number
for good, so that an access through a stale pointer is told from one that is
allowed. Lists of cells are described by segments that own their blocks.
-/

namespace OSLab.Base

variable {β γ : Type*}

/-- The blocks by their numbers; `none` has been freed. -/
structure Heap (β : Type*) where
  cells : List (Option β)

namespace Heap

def empty : Heap β := ⟨[]⟩

def size (h : Heap β) : ℕ := h.cells.length

def malloc (h : Heap β) (b : β) : ℕ × Heap β := (h.size, ⟨h.cells ++ [some b]⟩)

def load (h : Heap β) (p : ℕ) : Option β := (h.cells[p]?).join

/- Nothing can be stored in a block that is not allocated. -/
def store (h : Heap β) (p : ℕ) (b : β) : Option (Heap β) :=
  if (h.load p).isSome then some ⟨h.cells.set p (some b)⟩ else none

/- A block can be freed once. -/
def free (h : Heap β) (p : ℕ) : Option (Heap β) :=
  if (h.load p).isSome then some ⟨h.cells.set p none⟩ else none

theorem load_behind (h : Heap β) {p : ℕ} (hp : h.size ≤ p) : h.load p = none := by
  unfold load
  rw [List.getElem?_eq_none hp]
  rfl

theorem lt_size {h : Heap β} {p : ℕ} {b : β} (hp : h.load p = some b) : p < h.size := by
  by_contra hle
  rw [h.load_behind (Nat.not_lt.mp hle)] at hp
  cases hp

theorem malloc_size (h : Heap β) (b : β) : (h.malloc b).2.size = h.size + 1 := List.length_append ..

theorem malloc_same (h : Heap β) (b : β) : (h.malloc b).2.load (h.malloc b).1 = some b := by
  unfold load malloc size
  rw [List.getElem?_concat_length]
  rfl

theorem malloc_other (h : Heap β) (b : β) {p : ℕ} (hp : p ≠ h.size) :
    (h.malloc b).2.load p = h.load p := by
  by_cases hlt : p < h.size
  · unfold load malloc
    rw [List.getElem?_append_left hlt]
  · rw [h.load_behind (by omega), (h.malloc b).2.load_behind (by rw [malloc_size]; omega)]

theorem load_set (h : Heap β) (p q : ℕ) (b : Option β) (hp : p < h.size) :
    (⟨h.cells.set p b⟩ : Heap β).load q = if q = p then b else h.load q := by
  unfold load
  by_cases he : q = p
  · subst he
    rw [if_pos rfl, List.getElem?_set_self hp]
    rfl
  · rw [if_neg he, List.getElem?_set_ne (Ne.symm he)]

theorem store_spec {h : Heap β} {p : ℕ} {b' : β} (hp : h.load p = some b') (b : β) :
    ∃ h', h.store p b = some h' ∧ h'.size = h.size ∧ h'.load p = some b ∧
      ∀ q, q ≠ p → h'.load q = h.load q := by
  refine ⟨⟨h.cells.set p (some b)⟩, ?_, List.length_set .., ?_, fun q hq => ?_⟩
  · unfold store
    rw [hp]
    rfl
  · rw [load_set h p p _ (lt_size hp), if_pos rfl]
  · rw [load_set h p q _ (lt_size hp), if_neg hq]

theorem free_spec {h : Heap β} {p : ℕ} {b : β} (hp : h.load p = some b) :
    ∃ h', h.free p = some h' ∧ h'.size = h.size ∧ h'.load p = none ∧
      ∀ q, q ≠ p → h'.load q = h.load q := by
  refine ⟨⟨h.cells.set p none⟩, ?_, List.length_set .., ?_, fun q hq => ?_⟩
  · unfold free
    rw [hp]
    rfl
  · rw [load_set h p p _ (lt_size hp), if_pos rfl]
  · rw [load_set h p q _ (lt_size hp), if_neg hq]

/-! ### Segments of linked lists -/

variable (cell : Heap β → ℕ → List ℕ → Option ℕ → γ → Prop)

/-- From pointer `p` to pointer `q`: the blocks that the cells own, and what they hold. The cell at a
block, with the blocks it owns and the pointer to the next one, is given by `cell`. -/
inductive Segment (h : Heap β) : Option ℕ → List ℕ → List γ → Option ℕ → Prop where
  | nil (q : Option ℕ) : Segment h q [] [] q
  | cons {p : ℕ} {ids ids' : List ℕ} {next q : Option ℕ} {c : γ} {cs : List γ} :
      cell h p ids next c → Segment h next ids' cs q →
      Segment h (some p) (ids ++ ids') (c :: cs) q

/-- A cell depends on nothing but its blocks. -/
def LocalCell : Prop :=
  ∀ h h' p ids next c, cell h p ids next c → (∀ id ∈ ids, h'.load id = h.load id) →
    cell h' p ids next c

variable {cell} {h h' : Heap β} {p q r : Option ℕ} {ids ids' : List ℕ} {cs ds : List γ}

theorem Segment.frame (hlocal : LocalCell cell) (hs : Segment cell h p ids cs q)
    (hsame : ∀ id ∈ ids, h'.load id = h.load id) : Segment cell h' p ids cs q := by
  induction hs with
  | nil q => exact .nil q
  | cons hc _ ih =>
    exact .cons (hlocal _ _ _ _ _ _ hc fun id hid => hsame id (List.mem_append_left _ hid))
      (ih fun id hid => hsame id (List.mem_append_right _ hid))

theorem Segment.append (h1 : Segment cell h p ids cs q) (h2 : Segment cell h q ids' ds r) :
    Segment cell h p (ids ++ ids') (cs ++ ds) r := by
  induction h1 with
  | nil q => exact h2
  | cons hc _ ih =>
    rw [List.append_assoc]
    exact .cons hc (ih h2)

theorem Segment.single {p : ℕ} {c : γ} (hc : cell h p ids q c) :
    Segment cell h (some p) ids [c] q := by
  have hs := Segment.cons hc (.nil q)
  rwa [List.append_nil] at hs

end Heap

end OSLab.Base
