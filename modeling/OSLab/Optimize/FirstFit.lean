import OSLab.Optimize.Extents

/-!
# First fit (Lab4_Template_Optimize/inode.c)

`osfs_alloc_extent` loop by loop, with the bits of the block bitmap that it
tests and those that it sets. Positions are `uint32_t` values.
-/

namespace OSLab.Optimize
open OSLab.Base OSLab.Kernel

/-- What one call of `osfs_alloc_extent` leaves: its result, the superblock information,
`*start_block`, and the bits it has tested and set, in order. -/
structure AllocExtent where
  ret : Except Errno Unit
  sb : OsfsSbInfo
  startBlock : ℕ
  tested : List ℕ
  marked : List ℕ

/- `inode.c:27-30` from `j` on with `n` passes left: `count`, and the bits tested. -/
def countClear (b : Bitmap) (i : ℕ) : ℕ → ℕ → ℕ → ℕ × List ℕ
  | _, 0, count => (count, [])
  | j, n + 1, count =>
    let bit := u32 (i + j : ℕ)
    if b bit then (count, [bit])
    else
      let rest := countClear b i (j + 1) n (count + 1)
      (rest.1, bit :: rest.2)

/- `inode.c:32` from `j` on with `n` passes left: the bitmap, and the bits set. -/
def markRun (b : Bitmap) (i : ℕ) : ℕ → ℕ → Bitmap × List ℕ
  | _, 0 => (b, [])
  | j, n + 1 =>
    let bit := u32 (i + j : ℕ)
    let rest := markRun (b.set bit) i (j + 1) n
    (rest.1, bit :: rest.2)

/- `inode.c:25-39` from position `i` on with `k` positions left. -/
def searchExtent (sb : OsfsSbInfo) (nrBlocks startBlock : ℕ) : ℕ → ℕ → AllocExtent
  | _, 0 => { ret := .error .ENOSPC, sb, startBlock, tested := [], marked := [] }
  | i, k + 1 =>
    let (count, tested) := countClear sb.blockBitmap i 0 nrBlocks 0
    if count = nrBlocks then
      let (bitmap, marked) := markRun sb.blockBitmap i 0 nrBlocks
      { ret := .ok ()
        sb := { sb with
          blockBitmap := bitmap
          nrFreeBlocks := u32 ((sb.nrFreeBlocks : ℤ) - nrBlocks) }
        startBlock := i, tested, marked }
    else
      let rest := searchExtent sb nrBlocks startBlock (i + 1) k
      { rest with tested := tested ++ rest.tested }

/- `inode.c:23-40`: `i` runs up to `block_count - nr_blocks`, which is computed in 32 bits. -/
def allocExtent (sb : OsfsSbInfo) (nrBlocks startBlock : ℕ) : AllocExtent :=
  searchExtent sb nrBlocks startBlock 0 (u32 ((sb.blockCount : ℤ) - nrBlocks) + 1)

/- Blocks `s … s + n - 1` lie below `block_count` and are free. -/
def OsfsSbInfo.FreeRun (sb : OsfsSbInfo) (n s : ℕ) : Prop :=
  s + n ≤ sb.blockCount ∧ ∀ b, s ≤ b → b < s + n → sb.blockBitmap b = false

/-- First fit: `r` finds the leftmost run of `n` free blocks when there is one, takes exactly its
blocks, and otherwise changes nothing. -/
structure FirstFit (sb : OsfsSbInfo) (n start : ℕ) (r : AllocExtent) : Prop where
  found_iff : r.ret = .ok () ↔ ∃ s, sb.FreeRun n s
  leftmost : r.ret = .ok () →
    sb.FreeRun n r.startBlock ∧ ∀ s, sb.FreeRun n s → r.startBlock ≤ s
  bits : r.ret = .ok () → ∀ b, r.sb.blockBitmap b =
    if r.startBlock ≤ b ∧ b < r.startBlock + n then true else sb.blockBitmap b
  counter : r.ret = .ok () → r.sb.nrFreeBlocks = u32 ((sb.nrFreeBlocks : ℤ) - n)
  falls : r.ret = .ok () → n ≤ sb.nrFreeBlocks → sb.nrFreeBlocks < 2 ^ 32 →
    r.sb.nrFreeBlocks + n = sb.nrFreeBlocks
  rest : r.sb =
    { sb with blockBitmap := r.sb.blockBitmap, nrFreeBlocks := r.sb.nrFreeBlocks }
  failed : r.ret ≠ .ok () → r.ret = .error .ENOSPC ∧ r.sb = sb ∧ r.startBlock = start
  inside : ∀ b, b ∈ r.tested ∨ b ∈ r.marked → b < sb.blockCount

variable {sb : OsfsSbInfo} {b : Bitmap} {i j k n c start : ℕ}

/-! ### The loops over one position -/

theorem countClear_iff (h : i + j + n ≤ 2 ^ 32) :
    (countClear b i j n c).1 = c + n ↔ b.allClear (i + j) n = true := by
  induction n generalizing j c with
  | zero => exact ⟨fun _ => rfl, fun _ => rfl⟩
  | succ n ih =>
    have hbit : u32 (i + j : ℕ) = i + j := u32_of_lt (by omega)
    unfold countClear Bitmap.allClear
    dsimp only
    rw [hbit]
    cases hb : b (i + j) with
    | true =>
      simp only [if_true, Bool.not_true, Bool.false_and, Bool.false_eq_true, iff_false]
      omega
    | false =>
      have hrec := ih (j := j + 1) (c := c + 1) (by omega)
      simp only [Bool.false_eq_true, if_false, Bool.not_false, Bool.true_and]
      rw [Nat.add_assoc i j 1, ← hrec]
      constructor <;> intro he <;> omega

theorem countClear_tested (h : i + j + n ≤ 2 ^ 32) {x : ℕ}
    (hx : x ∈ (countClear b i j n c).2) : x < i + j + n := by
  induction n generalizing j c with
  | zero => exact absurd hx List.not_mem_nil
  | succ n ih =>
    have hbit : u32 (i + j : ℕ) = i + j := u32_of_lt (by omega)
    unfold countClear at hx
    dsimp only at hx
    rw [hbit] at hx
    split at hx
    · rw [List.mem_singleton] at hx
      omega
    · rcases List.mem_cons.mp hx with rfl | hrest
      · omega
      · have hlt := ih (j := j + 1) (by omega) hrest
        omega

theorem markRun_eq (b : Bitmap) (h : i + j + n ≤ 2 ^ 32) :
    markRun b i j n = (b.setRun (i + j) n, List.range' (i + j) n) := by
  induction n generalizing b j with
  | zero => rfl
  | succ n ih =>
    have hbit : u32 (i + j : ℕ) = i + j := u32_of_lt (by omega)
    unfold markRun Bitmap.setRun
    dsimp only
    rw [hbit, ih _ (j := j + 1) (by omega), List.range'_succ, Nat.add_assoc]

/-! ### The search -/

/-- The search follows `findRun`, and touches no bit from `block_count` on. -/
theorem searchExtent_spec (hc : sb.blockCount < 2 ^ 32) (h : i + k + n ≤ sb.blockCount + 1) :
    (match sb.blockBitmap.findRun n i k with
      | none => (searchExtent sb n start i k).ret = .error .ENOSPC ∧
          (searchExtent sb n start i k).sb = sb ∧
          (searchExtent sb n start i k).startBlock = start
      | some s => (searchExtent sb n start i k).ret = .ok () ∧
          (searchExtent sb n start i k).sb = sb.claimBlocks s n ∧
          (searchExtent sb n start i k).startBlock = s) ∧
      ∀ x, x ∈ (searchExtent sb n start i k).tested ∨ x ∈ (searchExtent sb n start i k).marked →
        x < sb.blockCount := by
  induction k generalizing i with
  | zero =>
    refine ⟨⟨rfl, rfl, rfl⟩, ?_⟩
    rintro x (hx | hx) <;> exact absurd hx List.not_mem_nil
  | succ k ih =>
    have hcount := countClear_iff (b := sb.blockBitmap) (i := i) (j := 0) (n := n) (c := 0) (by omega)
    have htested := @countClear_tested sb.blockBitmap i 0 n 0 (by omega)
    rw [Nat.zero_add, Nat.add_zero] at hcount
    unfold searchExtent Bitmap.findRun
    dsimp only
    by_cases hclear : sb.blockBitmap.allClear i n = true
    · rw [if_pos (hcount.mpr hclear), if_pos hclear, markRun_eq _ (by omega)]
      refine ⟨⟨rfl, rfl, rfl⟩, ?_⟩
      rintro x (hx | hx)
      · have hlt := htested hx
        omega
      · rw [List.mem_range'_1] at hx
        omega
    · rw [if_neg (fun he => hclear (hcount.mp he)), if_neg hclear]
      obtain ⟨hfound, hinside⟩ := ih (i := i + 1) (by omega)
      refine ⟨hfound, ?_⟩
      rintro x (hx | hx)
      · rcases List.mem_append.mp hx with hx | hx
        · have hlt := htested hx
          omega
        · exact hinside x (.inl hx)
      · exact hinside x (.inr hx)

/-- The last position that the loop tries. -/
theorem lastStart_eq (hc : sb.blockCount < 2 ^ 32) (hn : n ≤ sb.blockCount) :
    u32 ((sb.blockCount : ℤ) - n) = sb.blockCount - n := by
  unfold u32
  omega

theorem allocExtent_spec (hc : sb.blockCount < 2 ^ 32) (hn : n ≤ sb.blockCount) (start : ℕ) :
    (match sb.blockBitmap.findRun n 0 (sb.blockCount - n + 1) with
      | none => (allocExtent sb n start).ret = .error .ENOSPC ∧
          (allocExtent sb n start).sb = sb ∧ (allocExtent sb n start).startBlock = start
      | some s => (allocExtent sb n start).ret = .ok () ∧
          (allocExtent sb n start).sb = sb.claimBlocks s n ∧
          (allocExtent sb n start).startBlock = s) ∧
      ∀ x, x ∈ (allocExtent sb n start).tested ∨ x ∈ (allocExtent sb n start).marked →
        x < sb.blockCount := by
  unfold allocExtent
  rw [lastStart_eq hc hn]
  exact searchExtent_spec hc (by omega)

/-- The loops compute `osfsAllocExtent`, whatever `*start_block` holds. -/
theorem allocExtent_eq (hc : sb.blockCount < 2 ^ 32) (hn : n ≤ sb.blockCount) (start : ℕ) :
    osfsAllocExtent sb n = match (allocExtent sb n start).ret with
      | .ok () => some ((allocExtent sb n start).startBlock, (allocExtent sb n start).sb)
      | .error _ => none := by
  have hspec := (allocExtent_spec hc hn start).1
  unfold osfsAllocExtent
  rw [lastStart_eq hc hn]
  cases hfind : sb.blockBitmap.findRun n 0 (sb.blockCount - n + 1) with
  | none =>
    rw [hfind] at hspec
    rw [hspec.1]
    rfl
  | some s =>
    rw [hfind] at hspec
    obtain ⟨hret, hsb, hstart⟩ := hspec
    rw [hret, hsb, hstart]
    rfl

/-- For every block count, bitmap and length up to the block count. -/
theorem allocExtent_firstFit (hc : sb.blockCount < 2 ^ 32) (hn : n ≤ sb.blockCount) (start : ℕ) :
    FirstFit sb n start (allocExtent sb n start) := by
  obtain ⟨hspec, hinside⟩ := allocExtent_spec hc hn start
  cases hfind : sb.blockBitmap.findRun n 0 (sb.blockCount - n + 1) with
  | none =>
    rw [hfind] at hspec
    obtain ⟨hret, hsb, hstart⟩ := hspec
    have hno : (allocExtent sb n start).ret ≠ .ok () := by
      rw [hret]
      exact fun h => nomatch h
    refine ⟨⟨fun h => absurd h hno, ?_⟩, fun h => absurd h hno, fun h => absurd h hno,
      fun h => absurd h hno, fun h => absurd h hno, ?_, fun _ => ⟨hret, hsb, hstart⟩, hinside⟩
    · rintro ⟨s, hle, hfree⟩
      have hlast : s < 0 + (sb.blockCount - n + 1) := by omega
      obtain ⟨t, ht, -⟩ := Bitmap.findRun_le (Nat.zero_le s) hlast hfree
      rw [hfind] at ht
      cases ht
    · rw [hsb]
  | some s =>
    rw [hfind] at hspec
    obtain ⟨hret, hsb, hstart⟩ := hspec
    obtain ⟨-, hlt, hfree⟩ := Bitmap.findRun_some hfind
    have hrun : sb.FreeRun n s := ⟨by omega, hfree⟩
    refine ⟨⟨fun _ => ⟨s, hrun⟩, fun _ => hret⟩, fun _ => ?_, fun _ b => ?_, fun _ => ?_,
      fun _ hle hbound => ?_, ?_, fun h => absurd hret h, hinside⟩
    · rw [hstart]
      refine ⟨hrun, fun s' ⟨hle', hfree'⟩ => ?_⟩
      have hlast : s' < 0 + (sb.blockCount - n + 1) := by omega
      obtain ⟨t, ht, hts⟩ := Bitmap.findRun_le (Nat.zero_le s') hlast hfree'
      rw [hfind] at ht
      obtain rfl := Option.some.inj ht
      exact hts
    · rw [hsb, hstart]
      exact sb.blockBitmap.setRun_apply s n b
    · rw [hsb]
      rfl
    · rw [hsb]
      change u32 ((sb.nrFreeBlocks : ℤ) - n) + n = sb.nrFreeBlocks
      unfold u32
      omega
    · rw [hsb]
      rfl

/- Block 2 is in use. -/
theorem allocExtent_firstFit_hole :
    FirstFit { emptySbInfo with blockBitmap := Bitmap.empty.set 2 } 5 0
        (allocExtent { emptySbInfo with blockBitmap := Bitmap.empty.set 2 } 5 0) ∧
      (allocExtent { emptySbInfo with blockBitmap := Bitmap.empty.set 2 } 5 0).startBlock = 3 :=
  ⟨allocExtent_firstFit (by decide) (by decide) 0, by decide⟩

/-- A counter that counts the free blocks still does. -/
theorem FirstFit.clearCount {r : AllocExtent} (h : FirstFit sb n start r)
    (hc : sb.blockCount < 2 ^ 32)
    (hcount : sb.nrFreeBlocks = sb.blockBitmap.clearCount sb.blockCount) :
    r.sb.nrFreeBlocks = r.sb.blockBitmap.clearCount sb.blockCount := by
  by_cases hret : r.ret = .ok ()
  · obtain ⟨⟨hle, hfree⟩, -⟩ := h.leftmost hret
    have hbits : r.sb.blockBitmap = sb.blockBitmap.setRun r.startBlock n := by
      funext b
      rw [h.bits hret, Bitmap.setRun_apply]
    have hset := sb.blockBitmap.clearCount_setRun hle hfree
    have hbound := sb.blockBitmap.clearCount_le sb.blockCount
    have hfalls := h.falls hret (by omega) (by omega)
    rw [hbits]
    omega
  · rw [(h.failed hret).2.1]
    exact hcount

end OSLab.Optimize
