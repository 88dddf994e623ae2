import OSLab.Base.Paging
import OSLab.Done.Names
import OSLab.Optimize.Iterate
import OSLab.Optimize.System

/-!
# Listing a directory through a small buffer

Both modules start with the dots only at position 0 and turn every other
position into the index of an entry. A first call that has room for `.` alone
leaves position 1, and the call that resumes there starts at index -1.
-/

namespace OSLab.Templates
open OSLab.Base OSLab.Kernel
open OSLab.Done (Emitted dirEmitDots)

/- The indices of `entries` that the loop reads; an entry is read before `dir_emit` takes or
refuses it. -/
def loopReads : ℕ → ℕ → ℤ → List ℤ
  | 0, _, _ => []
  | _ + 1, 0, i => [i]
  | n + 1, room + 1, i => i :: loopReads n room (i + 1)

/- The indices that one call reads in a directory of `count` entries. -/
def iterateReads (count room pos : ℕ) : List ℤ :=
  let (dots, pos, ok) := if pos = 0 then dirEmitDots room pos else ([], pos, true)
  if !ok then []
  else loopReads ((count : ℤ) - ((pos : ℤ) - 2)).toNat (room - dots.length) ((pos : ℤ) - 2)

/- One call of `osfs_iterate` (`Lab4_Template_Done/dir.c`), with the indices it reads. -/
def donePage (fs : Done.Fs) (dir : InodePtr) (room pos : ℕ) : Page Emitted ℤ :=
  let r := Done.osfsIterate fs dir room pos
  ⟨r.2.1, iterateReads (fs.sb.dirEntryCount (fs.icache.inode dir).iPrivate) room pos, r.2.2⟩

/- One call of `osfs_iterate` (`Lab4_Template_Optimize/dir.c`), with the indices it reads. -/
def optimizePage (fs : Optimize.Fs) (dir : InodePtr) (room pos : ℕ) : Page Emitted ℤ :=
  let r := Optimize.osfsIterate fs dir room pos
  ⟨r.1, iterateReads (fs.sb.dirEntryCount (fs.icache.inode dir).iPrivate) room pos, r.2⟩

/-- The `n` entries of a directory, by their indices. -/
def entries (n : ℕ) : List Emitted := (List.range n).map fun k : ℕ => .entry k

/-- The calls from position 0 on list the dots and every entry once and in order, and read no
index outside the directory. -/
def ListsAll (call : ℕ → ℕ → Page Emitted ℤ) (n : ℕ) (rooms : ℕ → ℕ) : Prop :=
  ∃ reads, Pages call rooms 0 (.dot :: .dotDot :: entries n) reads ∧ ∀ i ∈ reads, 0 ≤ i ∧ i < n

/-! ### One call -/

/-- What a call of either module gives in a directory of `n` entries, by the position. -/
structure Iterates (n : ℕ) (call : ℕ → ℕ → Page Emitted ℤ) : Prop where
  reads : ∀ room pos, (call room pos).reads = iterateReads n room pos
  /-- Behind the dots: the loop from the index of the position on. -/
  behind : ∀ room pos, pos ≠ 0 → (call room pos).items =
      (List.range (min ((n : ℤ) - ((pos : ℤ) - 2)).toNat room)).map
        (fun k : ℕ => .entry ((pos : ℤ) - 2 + k)) ∧
    (call room pos).pos = pos + (call room pos).items.length
  /-- Room for `.` only. -/
  dot : (call 1 0).items = [.dot] ∧ (call 1 0).pos = 1
  /-- Room for both dots. -/
  dots : ∀ room, (call (room + 2) 0).items = .dot :: .dotDot :: (call room 2).items ∧
    (call (room + 2) 0).pos = (call room 2).pos

theorem donePage_iterates (fs : Done.Fs) (dir : InodePtr) :
    Iterates (fs.sb.dirEntryCount (fs.icache.inode dir).iPrivate) (donePage fs dir) where
  reads _ _ := rfl
  behind room pos hpos := by
    simp only [donePage, Done.osfsIterate, hpos, ite_false, Bool.not_true, Bool.false_eq_true,
      List.length_nil, Nat.sub_zero, List.nil_append, Done.osfsIterateLoop_eq, List.length_map,
      List.length_range, and_self]
  dot := ⟨rfl, rfl⟩
  dots room := ⟨rfl, rfl⟩

theorem optimizePage_iterates (fs : Optimize.Fs) (dir : InodePtr) :
    Iterates (fs.sb.dirEntryCount (fs.icache.inode dir).iPrivate) (optimizePage fs dir) where
  reads _ _ := rfl
  behind room pos hpos := by
    simp only [optimizePage, Optimize.osfsIterate, hpos, ite_false, Bool.not_true,
      Bool.false_eq_true, List.length_nil, Nat.sub_zero, List.nil_append,
      Optimize.osfsIterateLoop_done, Done.osfsIterateLoop_eq, List.length_map, List.length_range,
      and_self]
  dot := ⟨rfl, rfl⟩
  dots room := ⟨rfl, rfl⟩

theorem loopReads_range {n room : ℕ} {i : ℤ} :
    ∀ j ∈ loopReads n room i, i ≤ j ∧ j < i + n := by
  induction n generalizing room i with
  | zero => exact fun j hj => absurd hj List.not_mem_nil
  | succ n ih =>
    intro j hj
    cases room with
    | zero =>
      rw [loopReads, List.mem_singleton] at hj
      omega
    | succ room =>
      rcases List.mem_cons.mp hj with rfl | hj
      · omega
      · have hrest := ih j hj
        omega

/-- From position 2 on only indices of the directory are read. -/
theorem iterateReads_range {n room pos : ℕ} (hpos : 2 ≤ pos) :
    ∀ i ∈ iterateReads n room pos, 0 ≤ i ∧ i < n := by
  have h0 : ¬ pos = 0 := by omega
  intro i hi
  simp only [iterateReads, h0, ite_false, Bool.not_true, Bool.false_eq_true] at hi
  have hrange := loopReads_range i hi
  omega

/-- So does a call that has room for both dots. -/
theorem iterateReads_dots (n room : ℕ) : iterateReads n (room + 2) 0 = iterateReads n room 2 := rfl

/-! ### All calls -/

variable {n : ℕ} {call : ℕ → ℕ → Page Emitted ℤ}

theorem Iterates.windowed (h : Iterates n call) : Pages.Windowed call 2 (entries n) where
  items room k := by
    rw [(h.behind room (2 + k) (by omega)).1]
    have hcount : ((n : ℤ) - (((2 + k : ℕ) : ℤ) - 2)).toNat = n - k := by omega
    rw [hcount]
    apply List.ext_getElem
    · simp only [entries, List.length_map, List.length_range, List.length_take, List.length_drop]
      omega
    · intro j h1 h2
      simp only [entries, List.getElem_map, List.getElem_range, List.getElem_take,
        List.getElem_drop]
      rw [show (((2 + k : ℕ) : ℤ) - 2 + (j : ℤ)) = ((k + j : ℕ) : ℤ) by omega]
  pos room k := (h.behind room (2 + k) (by omega)).2

/-- With room for both dots in the first call the listing is complete. -/
theorem Iterates.listsAll (h : Iterates n call) {rooms : ℕ → ℕ} (hrooms : ∀ k, 1 ≤ rooms k)
    (h2 : 2 ≤ rooms 0) : ListsAll call n rooms := by
  obtain ⟨room, hroom⟩ := Nat.exists_eq_add_of_le' h2
  obtain ⟨hitems, hpos⟩ := h.dots room
  have hwin := h.windowed.items room 0
  have hwpos := h.windowed.pos room 0
  have hinside (room k : ℕ) : ∀ i ∈ (call room (2 + k)).reads, 0 ≤ i ∧ i < (n : ℤ) := by
    rw [h.reads]
    exact iterateReads_range (by omega)
  obtain ⟨rs, hrest, hrs⟩ := Pages.rest h.windowed hinside (fun k => hrooms (k + 1))
    (call room 2).items.length
  rw [Nat.add_zero, List.drop_zero] at hwin
  rw [Nat.add_zero] at hwpos
  have hlist : (call room 2).items ++ (entries n).drop (call room 2).items.length = entries n := by
    rw [hwin]
    exact Pages.take_append_rest _ _
  have hmore : Pages call rooms 0
      ((call (rooms 0) 0).items ++ (entries n).drop (call room 2).items.length)
      ((call (rooms 0) 0).reads ++ rs) := by
    refine Pages.more ?_ ?_
    · rw [hroom, hitems]
      exact List.cons_ne_nil _ _
    · rw [hroom, hpos, hwpos]
      exact hrest
  rw [hroom, hitems, List.cons_append, List.cons_append, hlist, h.reads, iterateReads_dots] at hmore
  refine ⟨_, hmore, fun i hi => ?_⟩
  rcases List.mem_append.mp hi with hi | hi
  · exact iterateReads_range (Nat.le_refl 2) i hi
  · exact hrs i hi

/-- With room for `.` alone the second call gives an entry in front of the directory in the place
of `..`. -/
theorem Iterates.not_listsAll (h : Iterates n call) {rooms : ℕ → ℕ} (hrooms : ∀ k, 1 ≤ rooms k)
    (h1 : rooms 0 = 1) : ¬ ListsAll call n rooms := by
  intro ⟨reads, hpages, hreads⟩
  obtain ⟨hdot, hpos⟩ := h.dot
  have hsome : (call (rooms 0) 0).items ≠ [] := by
    rw [h1, hdot]
    exact List.cons_ne_nil _ _
  obtain ⟨es, rs, hrest, hsub⟩ := hpages.tail hsome
  rw [h1, hpos] at hrest
  -- the resumed call reads index -1
  obtain ⟨room, hroom⟩ := Nat.exists_eq_add_of_le' (hrooms 1)
  have hread : (-1 : ℤ) ∈ (call (rooms (0 + 1)) 1).reads := by
    rw [h.reads, Nat.zero_add, hroom]
    have hcount : ((n : ℤ) - (((1 : ℕ) : ℤ) - 2)).toNat = n + 1 := by omega
    simp only [iterateReads, one_ne_zero, ite_false, Bool.not_true, Bool.false_eq_true, hcount,
      List.length_nil, Nat.sub_zero, loopReads]
    exact List.mem_cons_self ..
  have hbad := hreads _ (hsub _ (hrest.first_reads _ hread))
  omega

theorem Iterates.listsAll_iff (h : Iterates n call) {rooms : ℕ → ℕ} (hrooms : ∀ k, 1 ≤ rooms k) :
    ListsAll call n rooms ↔ 2 ≤ rooms 0 := by
  constructor
  · intro hall
    by_contra hlt
    have hfirst := hrooms 0
    exact h.not_listsAll hrooms (by omega) hall
  · exact h.listsAll hrooms

/-- The calls of a reader list a directory of either module completely, and read nothing outside
it, exactly when the first call has room for both dots. -/
theorem osfsIterate_listsAll_iff {rooms : ℕ → ℕ} (hrooms : ∀ k, 1 ≤ rooms k) :
    (∀ (fs : Done.Fs) (dir : InodePtr),
      ListsAll (donePage fs dir) (fs.sb.dirEntryCount (fs.icache.inode dir).iPrivate) rooms ↔
        2 ≤ rooms 0) ∧
    (∀ (fs : Optimize.Fs) (dir : InodePtr),
      ListsAll (optimizePage fs dir) (fs.sb.dirEntryCount (fs.icache.inode dir).iPrivate) rooms ↔
        2 ≤ rooms 0) :=
  ⟨fun fs dir => (donePage_iterates fs dir).listsAll_iff hrooms,
    fun fs dir => (optimizePage_iterates fs dir).listsAll_iff hrooms⟩

theorem osfsIterate_listsAll_iff_two :
    ListsAll (donePage Done.freshMount.fs 0) 0 (fun _ => 2) ∧
      ListsAll (optimizePage Optimize.freshMount.fs 0) 0 (fun _ => 2) :=
  have h := @osfsIterate_listsAll_iff (fun _ => 2) fun _ => by decide
  ⟨(h.1 Done.freshMount.fs 0).mpr (Nat.le_refl 2), (h.2 Optimize.freshMount.fs 0).mpr (Nat.le_refl 2)⟩

/-- A reader that takes one entry at a time, in the root directory of a fresh mount. -/
theorem osfsIterate_one_skips :
    ¬ ListsAll (donePage Done.freshMount.fs 0) 0 (fun _ => 1) ∧
      ¬ ListsAll (optimizePage Optimize.freshMount.fs 0) 0 (fun _ => 1) :=
  ⟨(donePage_iterates Done.freshMount.fs 0).not_listsAll (fun _ => Nat.le_refl 1) rfl,
    (optimizePage_iterates Optimize.freshMount.fs 0).not_listsAll (fun _ => Nat.le_refl 1) rfl⟩

end OSLab.Templates
