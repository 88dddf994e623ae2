import OSLab.Optimize.Extents

/-!
# The entries of a directory

A directory holds the entries that were made in it, in order, each name with a
terminator behind it, and zeros from the last entry to the end of its extent.
The name of an entry is not always the name that was passed: from 256 bytes on
it runs into the inode number.
-/

namespace OSLab.Optimize
open OSLab.Base OSLab.Kernel

/- Address `x` lies in `entries[i]` of directory `d`. -/
def OsfsSbInfo.InEntry (sb : OsfsSbInfo) (d i x : ℕ) : Prop :=
  sb.entryAddr d i ≤ x ∧ x < sb.entryAddr d i + DIR_ENTRY_SIZE

structure EntryAt (sb : OsfsSbInfo) (d i : ℕ) (m : Made) : Prop where
  name : CStrAt sb.dataBlocks (sb.entryAddr d i) m.name
  short : m.name.length < DIR_ENTRY_SIZE
  ino : sb.entryInodeNo d i = m.ino

structure DirOk (sb : OsfsSbInfo) (d : ℕ) (l : List Made) : Prop where
  size : (sb.inodeTable d).iSize = l.length * DIR_ENTRY_SIZE
  entry : ∀ i m, l[i]? = some m → EntryAt sb d i m
  tail : ∀ x, (sb.inodeTable d).iSize ≤ x → x < sb.extentBytes d →
    sb.dataBlocks (sb.extentAddr d + x) = 0

/- The text of an entry after the two stores: the low byte of the inode number stands at 256. -/
def entryText (name : Bytes) (ino : ℕ) : Bytes :=
  if name.length ≤ MAX_FILENAME_LEN then name else name.take INODE_NO_OFFSET ++ [Fin.ofNat 256 ino]

/- The name of the entry is the name that was passed. A name of 257 bytes is, if its last byte
is the inode number. -/
def NameFits (name : Bytes) (ino : ℕ) : Prop :=
  name.length ≤ MAX_FILENAME_LEN ∨
    name.length = INODE_NO_OFFSET + 1 ∧ name.getD INODE_NO_OFFSET 0 = Fin.ofNat 256 ino

variable {sb sb' : OsfsSbInfo} {d : ℕ} {l : List Made}

theorem entryText_eq_iff {name : Bytes} {ino : ℕ} :
    entryText name ino = name ↔ NameFits name ino := by
  unfold entryText NameFits MAX_FILENAME_LEN INODE_NO_OFFSET
  by_cases hlen : name.length ≤ 255
  · simp only [hlen, ite_true, true_or]
  · simp only [hlen, ite_false, false_or]
    constructor
    · intro h
      have hl := congrArg List.length h
      rw [List.length_append, List.length_take, List.length_singleton] at hl
      refine ⟨by omega, ?_⟩
      rw [← h, List.getD_append_right _ _ _ _ (by rw [List.length_take]; omega), List.length_take]
      have hmin : 256 - min 256 name.length = 0 := by omega
      rw [hmin]
      rfl
    · intro ⟨hl, hlast⟩
      have hdrop : name.drop 256 = [Fin.ofNat 256 ino] := by
        rw [← hlast, List.getD_eq_getElem _ _ (by omega), List.drop_eq_getElem_cons (by omega),
          List.drop_of_length_le (by omega)]
      rw [← hdrop, List.take_append_drop]

theorem DirOk.count (h : DirOk sb d l) : sb.dirEntryCount d = l.length := by
  unfold OsfsSbInfo.dirEntryCount
  rw [h.size]
  exact Nat.mul_div_cancel _ (by decide)

theorem DirOk.entry_inExtent (hl : Layout sb) (h : DirOk sb d l) {i x : ℕ} (hi : i < l.length)
    (hx : sb.InEntry d i x) : sb.InExtent d x := by
  have hsize := hl.size_le d
  have hmul : (i + 1) * DIR_ENTRY_SIZE ≤ l.length * DIR_ENTRY_SIZE := Nat.mul_le_mul_right _ hi
  rw [h.size] at hsize
  rw [Nat.add_mul, Nat.one_mul] at hmul
  unfold OsfsSbInfo.InEntry OsfsSbInfo.entryAddr at hx
  unfold OsfsSbInfo.InExtent
  omega

theorem EntryAt.congr {i : ℕ} {m : Made} (h : EntryAt sb d i m)
    (haddr : sb'.entryAddr d i = sb.entryAddr d i)
    (hdata : ∀ x, sb.InEntry d i x → sb'.dataBlocks x = sb.dataBlocks x) : EntryAt sb' d i m := by
  have hshort := h.short
  have hin (o : ℕ) (ho : o < DIR_ENTRY_SIZE) :
      sb'.dataBlocks (sb.entryAddr d i + o) = sb.dataBlocks (sb.entryAddr d i + o) := by
    apply hdata
    unfold OsfsSbInfo.InEntry
    omega
  refine ⟨?_, hshort, ?_⟩
  · rw [haddr]
    exact h.name.congr fun o ho => hin o (by omega)
  · refine Eq.trans ?_ h.ino
    unfold OsfsSbInfo.entryInodeNo
    rw [haddr]
    apply readLe32_congr
    intro o ho
    rw [Nat.add_assoc]
    exact hin _ (by unfold INODE_NO_OFFSET DIR_ENTRY_SIZE; omega)

theorem Changes.dirOk {k : ℕ} (hc : Changes sb sb' k) (hl : Layout sb) (hd : d ≠ k)
    (h : DirOk sb d l) : DirOk sb' d l := by
  have haddr := hc.extentAddr hd
  refine ⟨?_, fun i m hm => ?_, fun x h1 h2 => ?_⟩
  · rw [hc.table d hd]
    exact h.size
  · have hi : i < l.length := (List.getElem?_eq_some_iff.mp hm).1
    refine (h.entry i m hm).congr ?_ fun x hx => ?_
    · unfold OsfsSbInfo.entryAddr
      rw [haddr]
    · exact hc.data_ne hd (h.entry_inExtent hl hi hx)
  · rw [hc.table d hd] at h1
    rw [hc.extentBytes hd] at h2
    rw [haddr, hc.data_ne hd (by unfold OsfsSbInfo.InExtent; omega)]
    exact h.tail x h1 h2

/-! ### Searching a directory -/

theorem DirOk.entryMatches_iff (h : DirOk sb d l) {name : Bytes} (hname : ∀ b ∈ name, b ≠ 0)
    {i : ℕ} {m : Made} (hm : l[i]? = some m) :
    sb.entryMatches d name i = true ↔ m.name = name := by
  have he := h.entry i m hm
  have hshort := he.short
  unfold DIR_ENTRY_SIZE at hshort
  exact he.name.strMatches_iff (by unfold DATA_AREA DATA_BLOCK_COUNT BLOCK_SIZE; omega) hname

theorem DirOk.find_some (h : DirOk sb d l) {name : Bytes} (hname : ∀ b ∈ name, b ≠ 0)
    {m : Made} (hm : m ∈ l) (hn : m.name = name) :
    ∃ i m', (List.range (sb.dirEntryCount d)).find? (sb.entryMatches d name) = some i ∧
      l[i]? = some m' ∧ m'.name = name := by
  obtain ⟨j, hj, rfl⟩ := List.mem_iff_getElem.mp hm
  cases hfind : (List.range (sb.dirEntryCount d)).find? (sb.entryMatches d name) with
  | none =>
    have hno := List.find?_eq_none.mp hfind j (by rw [h.count]; exact List.mem_range.mpr hj)
    exact absurd ((h.entryMatches_iff hname (List.getElem?_eq_getElem hj)).mpr hn) hno
  | some i =>
    have hi := List.mem_range.mp (List.mem_of_find?_eq_some hfind)
    rw [h.count] at hi
    have hget := List.getElem?_eq_getElem hi
    exact ⟨i, l[i], rfl, hget, (h.entryMatches_iff hname hget).mp (List.find?_some hfind)⟩

theorem DirOk.find_none (h : DirOk sb d l) {name : Bytes} (hname : ∀ b ∈ name, b ≠ 0)
    (hno : ∀ m ∈ l, m.name ≠ name) :
    (List.range (sb.dirEntryCount d)).find? (sb.entryMatches d name) = none := by
  rw [List.find?_eq_none]
  intro i hi hmatch
  have hlt := List.mem_range.mp hi
  rw [h.count] at hlt
  have hn := (h.entryMatches_iff hname (List.getElem?_eq_getElem hlt)).mp hmatch
  exact hno _ (List.getElem_mem hlt) hn

/-! ### Appending an entry -/

/- The first `n` bytes of the entry are what the name stores, the others what the inode number
stores. -/
theorem entryStores_covers {e ino x : ℕ} {name : Bytes} (hname : ∀ b ∈ name, b ≠ 0) :
    (∃ st ∈ entryStores e ino name, st.Covers x) ↔
      (e ≤ x ∧ x < e + name.length) ∨
        (e + INODE_NO_OFFSET ≤ x ∧ x < e + INODE_NO_OFFSET + 4) := by
  simp only [entryStores, strncpy_of_noNul hname, List.mem_cons, List.not_mem_nil, or_false,
    exists_eq_or_imp, exists_eq_left, ByteStore.Covers, le32_length]

theorem entryStores_within {e ino : ℕ} {name : Bytes} (hname : ∀ b ∈ name, b ≠ 0)
    (hlen : name.length ≤ DIR_ENTRY_SIZE) :
    ∀ st ∈ entryStores e ino name, ∀ x, st.Covers x → e ≤ x ∧ x < e + DIR_ENTRY_SIZE := by
  intro st hst x hx
  have hc := (entryStores_covers hname).mp ⟨st, hst, hx⟩
  unfold INODE_NO_OFFSET at hc
  unfold DIR_ENTRY_SIZE at hlen ⊢
  omega

theorem apply_entryStores (m : Mem) {e ino : ℕ} {name : Bytes} (hname : ∀ b ∈ name, b ≠ 0) :
    m.apply (entryStores e ino name) =
      (m.store e name).store (e + INODE_NO_OFFSET) (le32 ino) := by
  simp only [entryStores, strncpy_of_noNul hname, Mem.apply_cons, Mem.apply_nil]

/-- The text that is read back from an entry written into zeros. -/
theorem entryStores_cstrAt {m : Mem} {e ino : ℕ} {name : Bytes} (hname : ∀ b ∈ name, b ≠ 0)
    (hlen : name.length ≤ DIR_ENTRY_SIZE) (hino : 0 < ino) (hlt : ino < 256)
    (hzero : ∀ o, o < DIR_ENTRY_SIZE → m (e + o) = 0) :
    CStrAt (m.apply (entryStores e ino name)) e (entryText name ino) := by
  have hbyte : (Fin.ofNat 256 ino : Byte) ≠ 0 := by
    intro h
    have hval := congrArg Fin.val h
    simp only [Fin.ofNat, Fin.val_zero] at hval
    omega
  rw [apply_entryStores m hname]
  unfold DIR_ENTRY_SIZE at hlen hzero
  unfold entryText MAX_FILENAME_LEN INODE_NO_OFFSET
  split
  · rename_i hshort
    refine ⟨?_, ?_, hname⟩
    · rw [Mem.load_store_disjoint _ (Or.inl (by omega))]
      exact Mem.load_store_self m e name
    · rw [Mem.store_below _ _ (by omega), Mem.store_above _ (Nat.le_refl _)]
      exact hzero _ (by omega)
  · rename_i hlong
    have htake : (name.take 256).length = 256 := by
      rw [List.length_take]
      omega
    have hfirst : 0 < (le32 ino).length := Nat.zero_lt_succ 3
    have hsecond : 1 < (le32 ino).length := Nat.succ_lt_succ (Nat.zero_lt_succ 2)
    have h0 : ((m.store e name).store (e + 256) (le32 ino)) (e + 256) = Fin.ofNat 256 ino := by
      have h := (m.store e name).store_inside (e + 256) hfirst
      rwa [Nat.add_zero] at h
    have h1 : ((m.store e name).store (e + 256) (le32 ino)) (e + 256 + 1) = 0 := by
      rw [(m.store e name).store_inside (e + 256) hsecond]
      have hdiv : ino / 256 = 0 := by omega
      simp only [le32, List.getElem_cons_succ, List.getElem_cons_zero, hdiv]
      rfl
    -- 256 bytes of the name, and the byte of the inode number that follows them
    have hleft : ((m.store e name).store (e + 256) (le32 ino)).load e 256 = name.take 256 := by
      rw [Mem.load_store_disjoint _ (Or.inl (by omega))]
      have hself := Mem.load_store_self m e name
      rw [← Mem.load_take _ e name.length 256 (by omega), hself]
    have hright : ((m.store e name).store (e + 256) (le32 ino)).load (e + 256) 1 =
        [Fin.ofNat 256 ino] := congrArg (fun b => [b]) h0
    refine ⟨?_, ?_, ?_⟩
    · rw [List.length_append, htake, List.length_singleton, Mem.load_append, hleft, hright]
    · rw [List.length_append, htake, List.length_singleton, ← Nat.add_assoc]
      exact h1
    · intro b hb
      rcases List.mem_append.mp hb with hb | hb
      · exact hname b (List.mem_of_mem_take hb)
      · rw [List.mem_singleton.mp hb]
        exact hbyte

theorem entryText_length {name : Bytes} {ino : ℕ} (hlen : name.length ≤ DIR_ENTRY_SIZE) :
    (entryText name ino).length < DIR_ENTRY_SIZE := by
  unfold DIR_ENTRY_SIZE at hlen ⊢
  unfold entryText MAX_FILENAME_LEN INODE_NO_OFFSET
  split
  · omega
  · rw [List.length_append, List.length_take, List.length_singleton]
    omega

section Append

variable {ino : ℕ} {name : Bytes}

/- The directory has room for another whole entry. -/
def OsfsSbInfo.HasRoom (sb : OsfsSbInfo) (d : ℕ) : Prop :=
  (sb.dirEntryCount d + 1) * DIR_ENTRY_SIZE ≤ sb.extentBytes d

instance (sb : OsfsSbInfo) (d : ℕ) : Decidable (sb.HasRoom d) := Nat.decLe ..

theorem appendEntry_size (hl : Layout sb) (h : DirOk sb d l) (hroom : sb.HasRoom d) :
    u32 ((sb.inodeTable d).iSize + DIR_ENTRY_SIZE : ℕ) = (l.length + 1) * DIR_ENTRY_SIZE ∧
      (l.length + 1) * DIR_ENTRY_SIZE ≤ sb.extentBytes d := by
  have hle := hl.extentBytes_le d
  unfold OsfsSbInfo.HasRoom at hroom
  rw [h.count] at hroom
  rw [h.size]
  unfold DATA_AREA DATA_BLOCK_COUNT BLOCK_SIZE at hle
  unfold DIR_ENTRY_SIZE at hroom ⊢
  refine ⟨?_, hroom⟩
  rw [u32_of_lt (by omega), Nat.add_mul]

theorem appendEntry_addr (h : DirOk sb d l) :
    sb.entryAddr d (sb.dirEntryCount d) = sb.extentAddr d + (sb.inodeTable d).iSize := by
  unfold OsfsSbInfo.entryAddr
  rw [h.count, h.size]

theorem newEntry_inExtent (hl : Layout sb) (h : DirOk sb d l) (hroom : sb.HasRoom d) {x : ℕ}
    (hx : sb.InEntry d (sb.dirEntryCount d) x) : sb.InExtent d x := by
  have hsize := (appendEntry_size hl h hroom).2
  rw [Nat.add_mul, Nat.one_mul, ← h.size] at hsize
  unfold OsfsSbInfo.InEntry at hx
  rw [appendEntry_addr h] at hx
  unfold OsfsSbInfo.InExtent
  omega

theorem appendEntry_changes (hl : Layout sb) (h : DirOk sb d l) (hd : sb.inodeBitmap d = true)
    (hroom : sb.HasRoom d) (hname : ∀ b ∈ name, b ≠ 0) (hlen : name.length ≤ DIR_ENTRY_SIZE) :
    Changes sb (appendEntry sb d ino name).2 d := by
  obtain ⟨hsize, hfits⟩ := appendEntry_size hl h hroom
  rw [hl.extentBytes_eq d] at hfits
  refine setSlot_changes hl hd rfl rfl ?_ fun x hx => ?_
  · rw [hsize]
    exact hfits
  · refine Mem.apply_outside fun st hst hc => hx ?_
    exact newEntry_inExtent hl h hroom (entryStores_within hname hlen st hst x hc)

/-- The directory after `osfs_create` has stored an entry into its extent: the entry has the
text `entryText`, whatever name was passed. -/
theorem appendEntry_dirOk (hl : Layout sb) (h : DirOk sb d l) (hroom : sb.HasRoom d)
    (hname : ∀ b ∈ name, b ≠ 0) (hlen : name.length ≤ DIR_ENTRY_SIZE) (hino : 0 < ino)
    (hlt : ino < 256) :
    DirOk (appendEntry sb d ino name).2 d (l ++ [⟨d, entryText name ino, ino⟩]) := by
  obtain ⟨hsize, hfits⟩ := appendEntry_size hl h hroom
  have hnew := appendEntry_addr h
  have haddr : (appendEntry sb d ino name).2.extentAddr d = sb.extentAddr d := by
    simp only [appendEntry, OsfsSbInfo.extentAddr, setOsfsInode_self]
  have hbytes : (appendEntry sb d ino name).2.extentBytes d = sb.extentBytes d := by
    simp only [appendEntry, OsfsSbInfo.extentBytes, setOsfsInode_self]
  have hentry (i : ℕ) : (appendEntry sb d ino name).2.entryAddr d i = sb.entryAddr d i := by
    unfold OsfsSbInfo.entryAddr
    rw [haddr]
  have hdata : (appendEntry sb d ino name).2.dataBlocks =
      sb.dataBlocks.apply (entryStores (sb.entryAddr d (sb.dirEntryCount d)) ino name) := rfl
  have hwithin := @entryStores_within (sb.entryAddr d (sb.dirEntryCount d)) ino name hname hlen
  rw [Nat.add_mul, Nat.one_mul, ← h.size] at hfits hsize
  have hsize' : ((appendEntry sb d ino name).2.inodeTable d).iSize =
      (sb.inodeTable d).iSize + DIR_ENTRY_SIZE := by
    simp only [appendEntry, setOsfsInode_self]
    exact hsize
  refine ⟨?_, fun i m hm => ?_, fun x h1 h2 => ?_⟩
  · rw [hsize', h.size, List.length_append, List.length_singleton, Nat.add_mul, Nat.one_mul]
  · rcases Nat.lt_or_ge i l.length with hi | hi
    · -- an older entry lies below the bytes stored
      rw [List.getElem?_append_left hi] at hm
      refine (h.entry i m hm).congr (hentry i) fun x hx => ?_
      rw [hdata]
      refine Mem.apply_within hwithin (Or.inl ?_)
      have hmul : (i + 1) * DIR_ENTRY_SIZE ≤ l.length * DIR_ENTRY_SIZE := Nat.mul_le_mul_right _ hi
      rw [Nat.add_mul, Nat.one_mul, ← h.size] at hmul
      unfold OsfsSbInfo.InEntry OsfsSbInfo.entryAddr at hx
      rw [hnew]
      omega
    · rw [List.getElem?_append_right hi] at hm
      obtain ⟨hi0, hm⟩ := List.getElem?_eq_some_iff.mp hm
      rw [List.length_singleton] at hi0
      obtain rfl : i = sb.dirEntryCount d := by
        rw [h.count]
        omega
      have hzero (o : ℕ) (ho : o < DIR_ENTRY_SIZE) :
          sb.dataBlocks (sb.entryAddr d (sb.dirEntryCount d) + o) = 0 := by
        rw [hnew, Nat.add_assoc]
        exact h.tail _ (by omega) (by omega)
      subst hm
      rw [List.getElem_singleton]
      refine ⟨?_, entryText_length hlen, ?_⟩
      · rw [hentry, hdata]
        exact entryStores_cstrAt hname hlen hino hlt hzero
      · unfold OsfsSbInfo.entryInodeNo
        rw [hentry, hdata, apply_entryStores _ hname]
        exact readLe32_store _ _ (by omega)
  · rw [hsize'] at h1
    rw [hbytes] at h2
    rw [haddr, hdata, Mem.apply_within hwithin (Or.inr (by rw [hnew]; omega))]
    exact h.tail x (by omega) h2

end Append

end OSLab.Optimize
