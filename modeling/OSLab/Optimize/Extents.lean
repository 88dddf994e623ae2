import OSLab.Optimize.System

/-!
# The extents of the data area

An extent belongs to one slot of the inode table, and the blocks of no extent
are zero. What one slot and its extent change leaves the others as they are.
-/

namespace OSLab.Optimize
open OSLab.Base OSLab.Kernel

/- Block `b` belongs to the extent of slot `k`. -/
def OsfsSbInfo.Owns (sb : OsfsSbInfo) (k b : ℕ) : Prop :=
  (sb.inodeTable k).iExtent.eeStart ≤ b ∧
    b < (sb.inodeTable k).iExtent.eeStart + (sb.inodeTable k).iExtent.eeLen

/- Address `x` lies in the extent of slot `k`. -/
def OsfsSbInfo.InExtent (sb : OsfsSbInfo) (k x : ℕ) : Prop :=
  sb.extentAddr k ≤ x ∧ x < sb.extentAddr k + sb.extentBytes k

/-- The bytes of a slot up to `i_size`: a file's content, or the entries of a directory. -/
def OsfsSbInfo.content (sb : OsfsSbInfo) (k : ℕ) : Bytes :=
  sb.dataBlocks.load (sb.extentAddr k) (sb.inodeTable k).iSize

def OsfsSbInfo.isDir (sb : OsfsSbInfo) (k : ℕ) : Bool := sIsDir (sb.inodeTable k).iMode

structure Layout (sb : OsfsSbInfo) : Prop where
  inodes : sb.inodeCount = INODE_COUNT
  blocks : sb.blockCount = DATA_BLOCK_COUNT
  unused : ∀ k, sb.inodeBitmap k = false → sb.inodeTable k = OsfsInode.zero
  owned : ∀ k b, sb.Owns k b → b < DATA_BLOCK_COUNT ∧ sb.blockBitmap b = true
  disjoint : ∀ j k b, sb.Owns j b → sb.Owns k b → j = k
  size : ∀ k, (sb.inodeTable k).iSize ≤ (sb.inodeTable k).iExtent.eeLen * BLOCK_SIZE
  zero : ∀ x, sb.blockBitmap (x / BLOCK_SIZE) = false → sb.dataBlocks x = 0

/-- From `sb` to `sb'` only slot `k` and the bytes of its extent change. -/
structure Changes (sb sb' : OsfsSbInfo) (k : ℕ) : Prop where
  layout : Layout sb'
  table : ∀ j, j ≠ k → sb'.inodeTable j = sb.inodeTable j
  data : ∀ x, ¬ sb'.InExtent k x → sb'.dataBlocks x = sb.dataBlocks x
  bits : ∀ j, sb.inodeBitmap j = true → sb'.inodeBitmap j = true
  mode : sb.inodeBitmap k = true → (sb'.inodeTable k).iMode = (sb.inodeTable k).iMode

variable {sb sb' : OsfsSbInfo} {k : ℕ}

@[simp] theorem setOsfsInode_self (sb : OsfsSbInfo) (k : ℕ) (oi : OsfsInode) :
    (sb.setOsfsInode k oi).inodeTable k = oi := Function.update_self ..

theorem setOsfsInode_ne (sb : OsfsSbInfo) (oi : OsfsInode) {j k : ℕ} (h : j ≠ k) :
    (sb.setOsfsInode k oi).inodeTable j = sb.inodeTable j := Function.update_of_ne h ..

/-! ### Addresses -/

theorem Layout.bound (h : Layout sb) (hne : (sb.inodeTable k).iExtent.eeLen ≠ 0) :
    (sb.inodeTable k).iExtent.eeStart + (sb.inodeTable k).iExtent.eeLen ≤ DATA_BLOCK_COUNT := by
  have hlast : sb.Owns k ((sb.inodeTable k).iExtent.eeStart +
      (sb.inodeTable k).iExtent.eeLen - 1) := by
    unfold OsfsSbInfo.Owns
    omega
  have hlt := (h.owned k _ hlast).1
  omega

theorem Layout.extentAddr_eq (h : Layout sb) (hne : (sb.inodeTable k).iExtent.eeLen ≠ 0) :
    sb.extentAddr k = (sb.inodeTable k).iExtent.eeStart * BLOCK_SIZE := by
  have hle := h.bound hne
  unfold DATA_BLOCK_COUNT at hle
  unfold OsfsSbInfo.extentAddr BLOCK_SIZE
  exact u32_of_lt (by omega)

theorem Layout.extentBytes_eq (h : Layout sb) (k : ℕ) :
    sb.extentBytes k = (sb.inodeTable k).iExtent.eeLen * BLOCK_SIZE := by
  have hle : (sb.inodeTable k).iExtent.eeLen ≤ 20 := by
    by_cases hne : (sb.inodeTable k).iExtent.eeLen = 0
    · omega
    · have hle := h.bound hne
      unfold DATA_BLOCK_COUNT at hle
      omega
  unfold OsfsSbInfo.extentBytes BLOCK_SIZE
  exact u32_of_lt (by omega)

theorem Layout.extentBytes_le (h : Layout sb) (k : ℕ) : sb.extentBytes k ≤ DATA_AREA := by
  rw [h.extentBytes_eq k]
  unfold DATA_AREA
  apply Nat.mul_le_mul_right
  by_cases hne : (sb.inodeTable k).iExtent.eeLen = 0
  · omega
  · have hle := h.bound hne
    omega

theorem Layout.inExtent_iff (h : Layout sb) {x : ℕ} :
    sb.InExtent k x ↔ sb.Owns k (x / BLOCK_SIZE) := by
  unfold OsfsSbInfo.InExtent OsfsSbInfo.Owns
  rw [h.extentBytes_eq k]
  by_cases hne : (sb.inodeTable k).iExtent.eeLen = 0
  · rw [hne]
    constructor <;> intro hx <;> omega
  · rw [h.extentAddr_eq hne]
    unfold BLOCK_SIZE
    constructor <;> intro hx <;> omega

theorem Layout.inExtent_disjoint (h : Layout sb) {j x : ℕ} (hj : sb.InExtent j x)
    (hk : sb.InExtent k x) : j = k :=
  h.disjoint j k _ (h.inExtent_iff.mp hj) (h.inExtent_iff.mp hk)

theorem Layout.size_le (h : Layout sb) (k : ℕ) : (sb.inodeTable k).iSize ≤ sb.extentBytes k := by
  rw [h.extentBytes_eq k]
  exact h.size k

theorem Layout.dir_used (h : Layout sb) (hd : sb.isDir k = true) : sb.inodeBitmap k = true := by
  cases hb : sb.inodeBitmap k with
  | true => rfl
  | false =>
    rw [OsfsSbInfo.isDir, h.unused k hb] at hd
    exact absurd hd (by decide)

theorem Layout.unused_ne (h : Layout sb) (hk : sb.inodeBitmap k = true) {j : ℕ}
    (hj : sb.inodeBitmap j = false) (oi : OsfsInode) :
    (sb.setOsfsInode k oi).inodeTable j = OsfsInode.zero := by
  have hjk : j ≠ k := fun he => by
    rw [he, hk] at hj
    exact absurd hj (by decide)
  rw [setOsfsInode_ne _ _ hjk]
  exact h.unused j hj

theorem Layout.dir_ne (h : Layout sb) (hd : sb.isDir k = true) {ino : ℕ}
    (hfree : sb.inodeBitmap ino = false) : k ≠ ino := fun he => by
  have hused := h.dir_used hd
  rw [he, hfree] at hused
  exact absurd hused (by decide)

/-! ### What a change leaves alone -/

theorem Changes.extentAddr (h : Changes sb sb' k) {j : ℕ} (hj : j ≠ k) :
    sb'.extentAddr j = sb.extentAddr j := by
  simp only [OsfsSbInfo.extentAddr, h.table j hj]

theorem Changes.extentBytes (h : Changes sb sb' k) {j : ℕ} (hj : j ≠ k) :
    sb'.extentBytes j = sb.extentBytes j := by
  simp only [OsfsSbInfo.extentBytes, h.table j hj]

theorem Changes.inExtent (h : Changes sb sb' k) {j : ℕ} (hj : j ≠ k) (x : ℕ) :
    sb'.InExtent j x ↔ sb.InExtent j x := by
  simp only [OsfsSbInfo.InExtent, h.extentAddr hj, h.extentBytes hj]

theorem Changes.data_ne (h : Changes sb sb' k) {j x : ℕ} (hj : j ≠ k) (hx : sb.InExtent j x) :
    sb'.dataBlocks x = sb.dataBlocks x := by
  refine h.data x fun hk => hj ?_
  exact h.layout.inExtent_disjoint ((h.inExtent hj x).mpr hx) hk

theorem Changes.content (h : Changes sb sb' k) {j : ℕ} (hj : j ≠ k) :
    sb'.content j = sb.content j := by
  have hsize := h.layout.size_le j
  unfold OsfsSbInfo.content
  rw [h.extentAddr hj, h.table j hj]
  rw [h.table j hj, h.extentBytes hj] at hsize
  apply Mem.load_congr
  intro i hi
  apply h.data_ne hj
  unfold OsfsSbInfo.InExtent
  omega

theorem Changes.isDir (h : Changes sb sb' k) {j : ℕ} (hj : j ≠ k) : sb'.isDir j = sb.isDir j := by
  unfold OsfsSbInfo.isDir
  rw [h.table j hj]

theorem Changes.mode_used (h : Changes sb sb' k) {j : ℕ} (hj : sb.inodeBitmap j = true) :
    (sb'.inodeTable j).iMode = (sb.inodeTable j).iMode := by
  by_cases hjk : j = k
  · subst hjk
    exact h.mode hj
  · rw [h.table j hjk]

/-- Two changes of one slot, of which the second keeps its extent. -/
theorem Changes.trans {sb₁ : OsfsSbInfo} (h : Changes sb sb₁ k) (h' : Changes sb₁ sb' k)
    (hin : ∀ x, sb₁.InExtent k x → sb'.InExtent k x) : Changes sb sb' k where
  layout := h'.layout
  table j hj := (h'.table j hj).trans (h.table j hj)
  data x hx := (h'.data x hx).trans (h.data x fun hx₁ => hx (hin x hx₁))
  bits j hj := h'.bits j (h.bits j hj)
  mode hk := (h'.mode (h.bits k hk)).trans (h.mode hk)

/-! ### The changes that the handlers make -/

/- `set_bit(ino, inode_bitmap)` with the new counter. -/
def OsfsSbInfo.claimInode (sb : OsfsSbInfo) (ino : ℕ) : OsfsSbInfo :=
  { sb with
    inodeBitmap := sb.inodeBitmap.set ino
    nrFreeInodes := u32 ((sb.nrFreeInodes : ℤ) - 1) }

/- The blocks of an allocated extent marked, with the new counter. -/
def OsfsSbInfo.claimBlocks (sb : OsfsSbInfo) (i n : ℕ) : OsfsSbInfo :=
  { sb with
    blockBitmap := sb.blockBitmap.setRun i n
    nrFreeBlocks := u32 ((sb.nrFreeBlocks : ℤ) - n) }

theorem Layout.claimInode (h : Layout sb) (ino : ℕ) : Layout (sb.claimInode ino) := by
  refine ⟨h.inodes, h.blocks, fun k hk => h.unused k ?_, h.owned, h.disjoint, h.size, h.zero⟩
  cases hb : sb.inodeBitmap k with
  | false => rfl
  | true => exact (sb.inodeBitmap.set_of_true ino hb).symm.trans hk

theorem claimInode_changes (h : Layout sb) (ino k : ℕ) : Changes sb (sb.claimInode ino) k where
  layout := h.claimInode ino
  table _ _ := rfl
  data _ _ := rfl
  bits _ hj := sb.inodeBitmap.set_of_true ino hj
  mode _ := rfl

/-- A slot in use whose new value has no extent. -/
theorem Layout.resetSlot (h : Layout sb) (hk : sb.inodeBitmap k = true) {oi : OsfsInode}
    (hlen : oi.iExtent.eeLen = 0) (hsize : oi.iSize = 0) : Layout (sb.setOsfsInode k oi) := by
  have hown (j b : ℕ) (hj : (sb.setOsfsInode k oi).Owns j b) : sb.Owns j b := by
    unfold OsfsSbInfo.Owns at hj ⊢
    by_cases hjk : j = k
    · subst hjk
      rw [setOsfsInode_self] at hj
      omega
    · rwa [setOsfsInode_ne _ _ hjk] at hj
  refine ⟨h.inodes, h.blocks, fun j hj => ?_, fun j b hj => h.owned j b (hown j b hj),
    fun i j b hi hj => h.disjoint i j b (hown i b hi) (hown j b hj), fun j => ?_, h.zero⟩
  · exact h.unused_ne hk hj oi
  · by_cases hjk : j = k
    · subst hjk
      rw [setOsfsInode_self, hsize]
      exact Nat.zero_le _
    · rw [setOsfsInode_ne _ _ hjk]
      exact h.size j

/-- A slot in use without an extent gets `n` free blocks. -/
theorem Layout.giveExtent (h : Layout sb) (hk : sb.inodeBitmap k = true) {i n : ℕ}
    (hle : i + n ≤ DATA_BLOCK_COUNT)
    (hfree : ∀ b, i ≤ b → b < i + n → sb.blockBitmap b = false) {oi : OsfsInode}
    (hext : oi.iExtent = ⟨i, n⟩) (hsize : oi.iSize = 0) :
    Layout ((sb.claimBlocks i n).setOsfsInode k oi) := by
  have hown (j b : ℕ) (hj : ((sb.claimBlocks i n).setOsfsInode k oi).Owns j b) :
      (j = k ∧ i ≤ b ∧ b < i + n) ∨ sb.Owns j b := by
    unfold OsfsSbInfo.Owns at hj ⊢
    by_cases hjk : j = k
    · subst hjk
      rw [setOsfsInode_self, hext] at hj
      exact Or.inl ⟨rfl, hj⟩
    · rw [setOsfsInode_ne _ _ hjk] at hj
      exact Or.inr hj
  have hnot (j b : ℕ) (hj : sb.Owns j b) (h1 : i ≤ b) (h2 : b < i + n) : False := by
    have hset := (h.owned j b hj).2
    rw [hfree b h1 h2] at hset
    exact absurd hset (by decide)
  refine ⟨h.inodes, h.blocks, fun j hj => ?_, fun j b hj => ?_, fun j l b hj hl => ?_,
    fun j => ?_, fun x hx => ?_⟩
  · exact h.unused_ne hk hj oi
  · rcases hown j b hj with ⟨-, h1, h2⟩ | hold
    · refine ⟨by omega, ?_⟩
      change sb.blockBitmap.setRun i n b = true
      rw [Bitmap.setRun_apply, if_pos ⟨h1, h2⟩]
    · have hb := h.owned j b hold
      exact ⟨hb.1, sb.blockBitmap.setRun_of_true i n hb.2⟩
  · rcases hown j b hj with ⟨rfl, h1, h2⟩ | hj'
    · rcases hown l b hl with ⟨rfl, -, -⟩ | hl'
      · rfl
      · exact absurd (hnot l b hl' h1 h2) id
    · rcases hown l b hl with ⟨-, h1, h2⟩ | hl'
      · exact absurd (hnot j b hj' h1 h2) id
      · exact h.disjoint j l b hj' hl'
  · by_cases hjk : j = k
    · subst hjk
      rw [setOsfsInode_self, hsize]
      exact Nat.zero_le _
    · rw [setOsfsInode_ne _ _ hjk]
      exact h.size j
  · refine h.zero x ?_
    cases hb : sb.blockBitmap (x / BLOCK_SIZE) with
    | false => rfl
    | true => exact (sb.blockBitmap.setRun_of_true i n hb).symm.trans hx

/-- New bytes in the extent of a slot in use, and a new size within the extent. -/
theorem Layout.setSlot (h : Layout sb) (hk : sb.inodeBitmap k = true) {oi : OsfsInode} {data : Mem}
    (hext : oi.iExtent = (sb.inodeTable k).iExtent)
    (hsize : oi.iSize ≤ oi.iExtent.eeLen * BLOCK_SIZE)
    (hdata : ∀ x, ¬ sb.InExtent k x → data x = sb.dataBlocks x) :
    Layout ({ sb with dataBlocks := data }.setOsfsInode k oi) := by
  have hown (j b : ℕ) (hj : ({ sb with dataBlocks := data }.setOsfsInode k oi).Owns j b) :
      sb.Owns j b := by
    unfold OsfsSbInfo.Owns at hj ⊢
    by_cases hjk : j = k
    · subst hjk
      rwa [setOsfsInode_self, hext] at hj
    · rwa [setOsfsInode_ne _ _ hjk] at hj
  refine ⟨h.inodes, h.blocks, fun j hj => ?_, fun j b hj => h.owned j b (hown j b hj),
    fun i j b hi hj => h.disjoint i j b (hown i b hi) (hown j b hj), fun j => ?_, fun x hx => ?_⟩
  · exact h.unused_ne hk hj oi
  · by_cases hjk : j = k
    · subst hjk
      rw [setOsfsInode_self]
      exact hsize
    · rw [setOsfsInode_ne _ _ hjk]
      exact h.size j
  · have hx' : sb.blockBitmap (x / BLOCK_SIZE) = false := hx
    refine (hdata x fun hin => ?_).trans (h.zero x hx')
    have hset := (h.owned k _ (h.inExtent_iff.mp hin)).2
    rw [hx'] at hset
    exact absurd hset (by decide)

theorem setSlot_inExtent {oi : OsfsInode} (data : Mem)
    (hext : oi.iExtent = (sb.inodeTable k).iExtent) (x : ℕ) :
    ({ sb with dataBlocks := data }.setOsfsInode k oi).InExtent k x ↔ sb.InExtent k x := by
  simp only [OsfsSbInfo.InExtent, OsfsSbInfo.extentAddr, OsfsSbInfo.extentBytes,
    setOsfsInode_self, hext]

theorem setSlot_changes (h : Layout sb) (hk : sb.inodeBitmap k = true) {oi : OsfsInode} {data : Mem}
    (hext : oi.iExtent = (sb.inodeTable k).iExtent) (hmode : oi.iMode = (sb.inodeTable k).iMode)
    (hsize : oi.iSize ≤ oi.iExtent.eeLen * BLOCK_SIZE)
    (hdata : ∀ x, ¬ sb.InExtent k x → data x = sb.dataBlocks x) :
    Changes sb ({ sb with dataBlocks := data }.setOsfsInode k oi) k where
  layout := h.setSlot hk hext hsize hdata
  table _ hj := setOsfsInode_ne _ _ hj
  data x hx := hdata x fun hin => hx ((setSlot_inExtent data hext x).mpr hin)
  bits _ hj := hj
  mode _ := by
    rw [setOsfsInode_self]
    exact hmode

theorem osfsAllocExtent_some (h : sb.blockCount = DATA_BLOCK_COUNT) {n i : ℕ}
    (hn : n ≤ DATA_BLOCK_COUNT)
    (ha : osfsAllocExtent sb n = some (i, sb')) :
    sb' = sb.claimBlocks i n ∧ i + n ≤ DATA_BLOCK_COUNT ∧
      ∀ b, i ≤ b → b < i + n → sb.blockBitmap b = false := by
  unfold osfsAllocExtent at ha
  rw [Option.map_eq_some_iff] at ha
  obtain ⟨j, hj, he⟩ := ha
  obtain ⟨rfl, rfl⟩ := Prod.mk.inj he
  obtain ⟨-, hlt, hfree⟩ := Bitmap.findRun_some hj
  refine ⟨rfl, ?_, hfree⟩
  rw [h] at hlt
  unfold DATA_BLOCK_COUNT at hn hlt ⊢
  have hcast : ((20 : ℕ) : ℤ) - n = ((20 - n : ℕ) : ℤ) := by omega
  rw [hcast, u32_of_lt (by omega)] at hlt
  omega

end OSLab.Optimize
