import Mathlib.Data.List.Basic

/-!
# Output streams that are buffered by lines

A newline writes what is pending; what comes behind the last newline stays
pending until more is printed or the stream is flushed. Where a write goes is
up to the descriptor at the time of the write.
-/

namespace OSLab.Base

variable {α : Type*} {nl : α → Bool}

/-- No newline is pending. -/
structure LineBuffer (nl : α → Bool) where
  pending : List α
  unended : ∀ c ∈ pending, nl c = false

namespace LineBuffer

def empty : LineBuffer nl := ⟨[], fun _ h => absurd h List.not_mem_nil⟩

def put (b : LineBuffer nl) (c : α) (hc : nl c = false) : LineBuffer nl where
  pending := b.pending ++ [c]
  unended := by
    intro c' h
    rcases List.mem_append.mp h with h | h
    · exact b.unended c' h
    · rw [List.mem_singleton.mp h]
      exact hc

/-- What is written when a text is printed, and the stream afterwards. -/
def print : LineBuffer nl → List α → List α × LineBuffer nl
  | b, [] => ([], b)
  | b, c :: text =>
    if hc : nl c = false then print (b.put c hc) text
    else
      let rest := print empty text
      (b.pending ++ c :: rest.1, rest.2)

def flush (b : LineBuffer nl) : List α × LineBuffer nl := (b.pending, empty)

theorem print_append (b : LineBuffer nl) (s t : List α) :
    b.print (s ++ t) = ((b.print s).1 ++ ((b.print s).2.print t).1, ((b.print s).2.print t).2) := by
  induction s generalizing b with
  | nil => rfl
  | cons c s ih =>
    rw [List.cons_append, print, print]
    split
    · exact ih _
    · dsimp only
      rw [ih empty, List.append_assoc, List.cons_append]

/-- Nothing is lost and the order is kept. -/
theorem written_append_pending (b : LineBuffer nl) (text : List α) :
    (b.print text).1 ++ (b.print text).2.pending = b.pending ++ text := by
  induction text generalizing b with
  | nil => exact (List.append_nil _).symm
  | cons c text ih =>
    rw [print]
    split
    · rw [ih]
      exact (List.append_assoc ..).trans rfl
    · dsimp only
      rw [List.append_assoc, List.cons_append, ih empty]
      rfl

theorem print_unended (b : LineBuffer nl) {text : List α} (h : ∀ c ∈ text, nl c = false) :
    (b.print text).1 = [] := by
  induction text generalizing b with
  | nil => rfl
  | cons c text ih =>
    rw [List.forall_mem_cons] at h
    rw [print, dif_pos h.1]
    exact ih _ h.2

theorem print_ended (b : LineBuffer nl) (text : List α) {c : α} (h : nl c = true) :
    b.print (text ++ [c]) = (b.pending ++ (text ++ [c]), empty) := by
  have hpending : (b.print (text ++ [c])).2 = empty := by
    have hc : ¬ nl c = false := by
      rw [h]
      decide
    rw [print_append, print, dif_neg hc]
    rfl
  have hwritten := b.written_append_pending (text ++ [c])
  rw [hpending] at hwritten
  exact Prod.ext ((List.append_nil _).symm.trans hwritten) hpending

end LineBuffer

end OSLab.Base
