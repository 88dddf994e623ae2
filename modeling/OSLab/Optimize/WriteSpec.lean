import OSLab.Optimize.Extents

/-!
# What `osfs_write` does

Whatever the outcome, a write changes one slot and bytes of its extent. A
length that does not fit is clipped at the end of the extent, and past the end
it becomes so large that nothing is copied.
-/

namespace OSLab.Optimize
open OSLab.Base OSLab.Kernel

variable {sb sb' : OsfsSbInfo} {k : ℕ}

theorem osfsWriteExtent_changes (h : Layout sb) (hk : sb.inodeBitmap k = true)
    (hw : osfsWriteExtent sb k = some sb') : Changes sb sb' k := by
  unfold osfsWriteExtent at hw
  split at hw
  · rename_i hlen
    rw [Option.map_eq_some_iff] at hw
    obtain ⟨⟨i, sb₁⟩, halloc, rfl⟩ := hw
    obtain ⟨rfl, hle, hfree⟩ := osfsAllocExtent_some h.blocks (by decide) halloc
    have hsize := h.size k
    rw [hlen] at hsize
    have hempty : (sb.inodeTable k).iSize = 0 := by omega
    refine ⟨h.giveExtent hk hle hfree rfl hempty, fun j hj => ?_, fun _ _ => rfl,
      fun _ hj => hj, fun _ => ?_⟩
    · exact setOsfsInode_ne _ _ hj
    · rw [setOsfsInode_self]
      rfl
  · obtain rfl := Option.some.inj hw
    exact ⟨h, fun _ _ => rfl, fun _ _ => rfl, fun _ hj => hj, fun _ => rfl⟩

/-- The bytes copied lie in the extent, and unless the copy is refused so does the end. -/
theorem clipLen_inExtent (h : Layout sb) (k : ℕ) (buf : Bytes) {len ppos : ℕ}
    (hpos : rwVerifyArea ppos len = true) :
    (∀ st ∈ copyFromUserStores (sb.extentAddr k + ppos) buf
        (clipLen (sb.extentBytes k) ppos (rwCount len)),
      ∀ x, st.Covers x → sb.InExtent k x) ∧
    (INT_MAX < clipLen (sb.extentBytes k) ppos (rwCount len) ∨
      ppos + clipLen (sb.extentBytes k) ppos (rwCount len) ≤ sb.extentBytes k) := by
  have hle := h.extentBytes_le k
  unfold DATA_AREA DATA_BLOCK_COUNT BLOCK_SIZE at hle
  have harea : ppos + len ≤ LLONG_MAX := by simpa only [rwVerifyArea, decide_eq_true_eq] using hpos
  have hcount : rwCount len ≤ len := Nat.min_le_left ..
  rcases Nat.lt_or_ge (sb.extentBytes k) ppos with hpast | hin
  · have hclip : INT_MAX < clipLen (sb.extentBytes k) ppos (rwCount len) :=
      clipLen_past hpast (by omega)
    refine ⟨fun st hst => ?_, Or.inl hclip⟩
    unfold copyFromUserStores at hst
    rw [if_pos hclip] at hst
    exact absurd hst List.not_mem_nil
  · unfold LLONG_MAX at harea
    have hclip : clipLen (sb.extentBytes k) ppos (rwCount len) =
        min (rwCount len) (sb.extentBytes k - ppos) :=
      clipLen_eq (by omega) hin (by omega)
    refine ⟨fun st hst x hx => ?_, Or.inr (by omega)⟩
    have hwithin := copyFromUserStores_within st hst x hx
    unfold OsfsSbInfo.InExtent
    omega

/-- From `fs` to `fs'` slot `k` and its extent change, and of a VFS inode not more than its size. -/
structure Writes (fs fs' : Fs) (k : ℕ) : Prop where
  changes : Changes fs.sb fs'.sb k
  count : fs'.icache.count = fs.icache.count
  mode : ∀ p, (fs'.icache.inode p).iMode = (fs.icache.inode p).iMode
  slot : ∀ p, (fs'.icache.inode p).iPrivate = (fs.icache.inode p).iPrivate

theorem Changes.store (h : Changes sb sb' k) (hk : sb.inodeBitmap k = true) {stores : List ByteStore}
    (hin : ∀ st ∈ stores, ∀ x, st.Covers x → sb'.InExtent k x) {oi : OsfsInode}
    (hext : oi.iExtent = (sb'.inodeTable k).iExtent) (hmode : oi.iMode = (sb'.inodeTable k).iMode)
    (hsize : oi.iSize ≤ oi.iExtent.eeLen * BLOCK_SIZE) :
    Changes sb ({ sb' with dataBlocks := sb'.dataBlocks.apply stores }.setOsfsInode k oi) k := by
  refine h.trans ?_ fun x hx => (setSlot_inExtent _ hext x).mpr hx
  refine setSlot_changes h.layout (h.bits k hk) hext hmode hsize fun x hx => ?_
  exact Mem.apply_outside fun st hst hc => hx (hin st hst x hc)

theorem setOsfsInode_same (sb : OsfsSbInfo) (k : ℕ) :
    sb.setOsfsInode k (sb.inodeTable k) = sb := by
  unfold OsfsSbInfo.setOsfsInode
  rw [Function.update_eq_self]

theorem Changes.storeData (h : Changes sb sb' k) (hk : sb.inodeBitmap k = true)
    {stores : List ByteStore} (hin : ∀ st ∈ stores, ∀ x, st.Covers x → sb'.InExtent k x) :
    Changes sb { sb' with dataBlocks := sb'.dataBlocks.apply stores } k := by
  have hstore := h.store hk hin rfl rfl (h.layout.size k)
  have heq := setOsfsInode_same { sb' with dataBlocks := sb'.dataBlocks.apply stores } k
  rwa [heq] at hstore

theorem osfsWriteUpdate_writes {fs fs' : Fs} {inode : InodePtr} {ppos : ℕ}
    {stores : List ByteStore} (hk : fs.sb.inodeBitmap (fs.icache.inode inode).iPrivate = true)
    (hc : Changes fs.sb sb' (fs.icache.inode inode).iPrivate)
    (hin : ∀ st ∈ stores, ∀ x, st.Covers x → sb'.InExtent (fs.icache.inode inode).iPrivate x)
    (hpos : ppos ≤ sb'.extentBytes (fs.icache.inode inode).iPrivate)
    (hfs' : fs' = osfsWriteUpdate
      ⟨{ sb' with dataBlocks := sb'.dataBlocks.apply stores }, fs.icache⟩ inode ppos) :
    Writes fs fs' (fs.icache.inode inode).iPrivate ∧
      ∀ x, sb'.InExtent (fs.icache.inode inode).iPrivate x →
        fs'.sb.InExtent (fs.icache.inode inode).iPrivate x := by
  subst hfs'
  unfold osfsWriteUpdate
  dsimp only
  have hbytes := hc.layout.extentBytes_eq (fs.icache.inode inode).iPrivate
  have hle := hc.layout.extentBytes_le (fs.icache.inode inode).iPrivate
  unfold DATA_AREA DATA_BLOCK_COUNT BLOCK_SIZE at hle
  split
  · let oi := { sb'.inodeTable (fs.icache.inode inode).iPrivate with iSize := u32 (ppos : ℕ) }
    have hsize : oi.iSize ≤ oi.iExtent.eeLen * BLOCK_SIZE := by
      change u32 (ppos : ℕ) ≤ _
      rw [u32_of_lt (by omega)]
      exact hbytes ▸ hpos
    have hkeep (p : InodePtr) :
        ((fs.icache.set inode { fs.icache.inode inode with iSize := ppos }).inode p).iMode =
            (fs.icache.inode p).iMode ∧
          ((fs.icache.set inode { fs.icache.inode inode with iSize := ppos }).inode p).iPrivate =
            (fs.icache.inode p).iPrivate := by
      by_cases he : p = inode
      · subst he
        rw [Icache.set_same]
        exact ⟨rfl, rfl⟩
      · rw [Icache.set_ne _ _ he]
        exact ⟨rfl, rfl⟩
    have hstore := hc.store hk hin (Eq.refl oi.iExtent) rfl hsize
    exact ⟨⟨hstore, rfl, fun p => (hkeep p).1, fun p => (hkeep p).2⟩,
      fun x hx => (setSlot_inExtent _ (Eq.refl oi.iExtent) x).mpr hx⟩
  · exact ⟨⟨hc.storeData hk hin, rfl, fun _ => rfl, fun _ => rfl⟩, fun _ hx => hx⟩

/-- A write to a live inode changes the slot of this inode, and every byte it stores lies in the
extent that the slot has afterwards. -/
theorem osfsWrite_writes {fs : Fs} (h : Layout fs.sb) {inode : InodePtr}
    (hk : fs.sb.inodeBitmap (fs.icache.inode inode).iPrivate = true) (buf : Bytes) {len ppos : ℕ}
    (hpos : rwVerifyArea ppos len = true) :
    Writes fs (osfsWrite fs inode buf (rwCount len) ppos).2.2.2
        (fs.icache.inode inode).iPrivate ∧
      ∀ st ∈ (osfsWrite fs inode buf (rwCount len) ppos).2.2.1, ∀ x, st.Covers x →
        (osfsWrite fs inode buf (rwCount len) ppos).2.2.2.sb.InExtent
          (fs.icache.inode inode).iPrivate x := by
  cases hext : osfsWriteExtent fs.sb (fs.icache.inode inode).iPrivate with
  | none =>
    simp only [osfsWrite, hext]
    exact ⟨⟨⟨h, fun _ _ => rfl, fun _ _ => rfl, fun _ hj => hj, fun _ => rfl⟩, rfl,
      fun _ => rfl, fun _ => rfl⟩, fun st hst => absurd hst List.not_mem_nil⟩
  | some sb =>
    have hc := osfsWriteExtent_changes h hk hext
    obtain ⟨hin, hend⟩ := clipLen_inExtent hc.layout (fs.icache.inode inode).iPrivate buf hpos
    simp only [osfsWrite, hext]
    generalize clipLen (sb.extentBytes (fs.icache.inode inode).iPrivate) ppos (rwCount len) = n
      at hin hend
    have hdata := copyFromUser_apply sb.dataBlocks
      (sb.extentAddr (fs.icache.inode inode).iPrivate + ppos) buf n
    cases hcopy : copyFromUser sb.dataBlocks
        (sb.extentAddr (fs.icache.inode inode).iPrivate + ppos) buf n with
    | mk left data =>
      rw [hcopy] at hdata
      obtain rfl : data = _ := hdata
      cases left with
      | zero =>
        have hle : ppos + n ≤ sb.extentBytes (fs.icache.inode inode).iPrivate := by
          rcases hend with hbig | hle
          · rw [copyFromUser_refused _ _ _ hbig] at hcopy
            have h0 := congrArg Prod.fst hcopy
            dsimp only at h0
            omega
          · exact hle
        have hw := osfsWriteUpdate_writes hk hc hin hle rfl
        exact ⟨hw.1, fun st hst x hx => hw.2 x (hin st hst x hx)⟩
      | succ left =>
        exact ⟨⟨hc.storeData hk hin, rfl, fun _ => rfl, fun _ => rfl⟩, hin⟩

end OSLab.Optimize
