import OSLab.Done.Step

/-!
# Writes that write nothing

When `osfs_write` returns zero or an error the caller takes it that nothing
has been written. A copy that faults has stored what it got, and a write of
zero bytes behind the end of the file moves the end.
-/

namespace OSLab.Done
open OSLab.Base OSLab.Kernel

/-- What `stat` reports, and the bytes that reads of the regular files can return, now or when the
files have grown. -/
structure SameFiles (fs fs' : Fs) : Prop where
  stat : ∀ p, (fs'.icache.inode p).iSize = (fs.icache.inode p).iSize
  size : ∀ k, (fs'.sb.inodeTable k).iSize = (fs.sb.inodeTable k).iSize
  bytes : ∀ k, FileSlot fs.sb k → ∀ i, i < BLOCK_SIZE →
    fs'.sb.dataBlocks (fs'.sb.blockAddr k + i) = fs.sb.dataBlocks (fs.sb.blockAddr k + i)

/- The result is zero or an error. -/
def WroteNothing (r : Except Errno ℕ) : Prop := ∀ n, r = .ok n → n = 0

/-- The write starts behind the block, or it does not fault and has a byte to write or starts inside
the file, or it faults when the block already holds the bytes that it stores. -/
def WritesClean (fs : Fs) (p : InodePtr) (buf : Bytes) (len ppos : ℕ) : Prop :=
  let k := (fs.icache.inode p).iPrivate
  let n := min len (BLOCK_SIZE - ppos)
  BLOCK_SIZE < ppos ∨ n ≤ buf.length ∧ (0 < n ∨ ppos ≤ (fs.sb.inodeTable k).iSize) ∨
    buf.length < n ∧ fs.sb.dataBlocks.load (fs.sb.blockAddr k + ppos) n =
      buf ++ List.replicate (n - buf.length) 0

variable {fs : Fs} {p : InodePtr} {ppos : ℕ}

theorem SameFiles.refl (fs : Fs) : SameFiles fs fs :=
  ⟨fun _ => rfl, fun _ => rfl, fun _ _ _ _ => rfl⟩

theorem withWrite_addr (fs : Fs) (env : Env) (p : InodePtr) (ppos : ℕ) (bs : Bytes) (k : ℕ) :
    (fs.withWrite env p ppos bs).sb.blockAddr k = fs.sb.blockAddr k := by
  apply blockAddr_congr
  rw [withWrite_sb]
  by_cases hk : k = (fs.icache.inode p).iPrivate
  · rw [hk, setSlot_table_self]
    rfl
  · rw [setSlot_table_ne _ _ _ hk]

theorem withWrite_nil_data (fs : Fs) (env : Env) (p : InodePtr) (ppos : ℕ) :
    (fs.withWrite env p ppos []).sb.dataBlocks = fs.sb.dataBlocks :=
  (Mem.store_eq_self_iff _ (fs.sb.blockAddr (fs.icache.inode p).iPrivate + ppos) []).mpr rfl

/-- A write of zero bytes moves the end of the file to a position behind it. -/
theorem withWrite_nil_iff (env : Env) (hle : ppos ≤ BLOCK_SIZE) :
    SameFiles fs (fs.withWrite env p ppos []) ↔
      ppos ≤ (fs.sb.inodeTable (fs.icache.inode p).iPrivate).iSize := by
  have hsize := writtenSlot_size env (fs.sb.inodeTable (fs.icache.inode p).iPrivate) hle
  constructor
  · intro h
    have hk := h.size (fs.icache.inode p).iPrivate
    rw [withWrite_sb, setSlot_table_self] at hk
    rw [List.length_nil, Nat.add_zero, hsize] at hk
    omega
  · intro h
    have hgrow : ¬ (fs.sb.inodeTable (fs.icache.inode p).iPrivate).iSize < ppos + 0 := by omega
    refine ⟨fun q => ?_, fun k => ?_, fun k _ i _ => ?_⟩
    · unfold Fs.withWrite osfsWriteUpdate
      dsimp only
      by_cases hq : q = p
      · subst hq
        rw [Icache.set_same]
        exact if_neg hgrow
      · rw [Icache.set_ne _ _ hq]
    · rw [withWrite_sb]
      by_cases hk : k = (fs.icache.inode p).iPrivate
      · rw [hk, setSlot_table_self, List.length_nil, Nat.add_zero, hsize]
        omega
      · rw [setSlot_table_ne _ _ _ hk]
    · rw [withWrite_addr, withWrite_nil_data]

/-- A fault leaves everything as it was iff it leaves the block as it was. -/
theorem withFault_iff (hs : FileSlot fs.sb (fs.icache.inode p).iPrivate) (data : Mem)
    (hdata : ∀ x, ¬ InBlock fs.sb (fs.icache.inode p).iPrivate x → data x = fs.sb.dataBlocks x) :
    SameFiles fs (fs.withFault p data) ↔ data = fs.sb.dataBlocks := by
  have hfault : (fs.withFault p data).sb = { fs.sb with dataBlocks := data } := setSlot_same ..
  constructor
  · intro h
    funext x
    by_cases hx : InBlock fs.sb (fs.icache.inode p).iPrivate x
    · rw [InBlock, ← hs.addr] at hx
      obtain ⟨i, rfl⟩ := Nat.exists_eq_add_of_le hx.1
      have hbyte := h.bytes _ hs i (by omega)
      rw [hfault] at hbyte
      exact hbyte
    · exact hdata x hx
  · rintro rfl
    refine ⟨fun _ => rfl, fun k => ?_, fun k _ i _ => ?_⟩
    · rw [hfault]
    · rw [hfault, blockAddr_congr]
      rfl

/-- A copy that faults leaves everything as it was iff the bytes that it stored were there already. -/
theorem FsInv.fault_clean_iff (h : FsInv fs) (env : Env) (hp : fs.isFileInode p = true)
    {buf : Bytes} {len : ℕ} (hle : ppos ≤ BLOCK_SIZE) (hpos : ppos + len ≤ LLONG_MAX)
    (hshort : buf.length < min len (BLOCK_SIZE - ppos)) :
    SameFiles fs (osfsWrite env fs p buf len ppos).2.2 ↔
      fs.sb.dataBlocks.load (fs.sb.blockAddr (fs.icache.inode p).iPrivate + ppos)
          (min len (BLOCK_SIZE - ppos)) =
        buf ++ List.replicate (min len (BLOCK_SIZE - ppos) - buf.length) 0 := by
  have hs := h.fileSlot hp
  have hstored := Mem.store_eq_self_iff fs.sb.dataBlocks
    (fs.sb.blockAddr (fs.icache.inode p).iPrivate + ppos)
    (buf ++ List.replicate (min len (BLOCK_SIZE - ppos) - buf.length) 0)
  have hlen : (buf ++ List.replicate (min len (BLOCK_SIZE - ppos) - buf.length)
      (0 : Byte)).length = min len (BLOCK_SIZE - ppos) := by
    rw [List.length_append, List.length_replicate]
    omega
  rw [hlen] at hstored
  have houtside (x : ℕ) (hx : ¬ InBlock fs.sb (fs.icache.inode p).iPrivate x) :
      fs.sb.dataBlocks.store (fs.sb.blockAddr (fs.icache.inode p).iPrivate + ppos)
        (buf ++ List.replicate (min len (BLOCK_SIZE - ppos) - buf.length) 0) x =
          fs.sb.dataBlocks x := by
    rw [InBlock, ← hs.addr] at hx
    apply Mem.store_outside
    omega
  rw [osfsWrite_fault h env hp hle hpos hshort, withFault_iff hs _ houtside, hstored]

/-- For every file, position, length and outcome of the copy. -/
theorem FsInv.write_clean_iff (h : FsInv fs) (env : Env) (hp : fs.isFileInode p = true)
    (buf : Bytes) {len : ℕ} (hpos : ppos + len ≤ LLONG_MAX) :
    (WroteNothing (osfsWrite env fs p buf len ppos).1 →
        SameFiles fs (osfsWrite env fs p buf len ppos).2.2) ↔ WritesClean fs p buf len ppos := by
  by_cases hshort : ppos ≤ BLOCK_SIZE ∧ buf.length < min len (BLOCK_SIZE - ppos)
  · obtain ⟨hle, hshort⟩ := hshort
    have hnothing : WroteNothing (osfsWrite env fs p buf len ppos).1 := by
      rw [osfsWrite_fault h env hp hle hpos hshort]
      intro n hn
      cases hn
    rw [forall_prop_of_true hnothing, h.fault_clean_iff env hp hle hpos hshort]
    unfold WritesClean
    constructor
    · intro heq
      exact .inr (.inr ⟨hshort, heq⟩)
    · rintro (hpast | ⟨hfull, -⟩ | ⟨-, heq⟩)
      · omega
      · omega
      · exact heq
  · have hout := osfsWrite_outcome h env hp buf len ppos hpos
    generalize osfsWrite env fs p buf len ppos = r at hout
    cases hout with
    | past hpast =>
      exact ⟨fun _ => .inl hpast, fun _ _ => .refl fs⟩
    | fault data hle hbuf _ => exact absurd ⟨hle, hbuf⟩ hshort
    | written n hle hn hbuf =>
      subst hn
      unfold WritesClean
      by_cases hn : min len (BLOCK_SIZE - ppos) = 0
      · have hnothing : WroteNothing (.ok (min len (BLOCK_SIZE - ppos))) := fun n he => by
          rw [← Except.ok.inj he]
          exact hn
        rw [forall_prop_of_true hnothing]
        rw [hn, List.take_zero, withWrite_nil_iff env hle]
        constructor
        · exact fun hin => .inr (.inl ⟨Nat.zero_le _, .inr hin⟩)
        · rintro (hpast | ⟨-, hpos | hin⟩ | ⟨hlt, -⟩)
          · omega
          · omega
          · exact hin
          · omega
      · constructor
        · exact fun _ => .inr (.inl ⟨hbuf, .inl (Nat.pos_of_ne_zero hn)⟩)
        · exact fun _ hzero => absurd (hzero _ rfl) hn

/-- Every byte of the block of a file can be returned later: a write of zero bytes at the end of the
block makes all of it readable. -/
theorem FsInv.byte_readable (h : FsInv fs) (env : Env) (hp : fs.isFileInode p = true) {i : ℕ}
    (hi : i < BLOCK_SIZE) :
    (osfsRead (osfsWrite env fs p [] 0 BLOCK_SIZE).2.2 p 1 1 i).1 =
      .ok [fs.sb.dataBlocks (fs.sb.blockAddr (fs.icache.inode p).iPrivate + i)] := by
  have hpos : BLOCK_SIZE + 0 ≤ LLONG_MAX := by decide
  have hout := osfsWrite_outcome h env hp [] 0 BLOCK_SIZE hpos
  have hinv := h.write hp hout
  have hp' := hout.keeps.isFile hp
  have hfs : (osfsWrite env fs p [] 0 BLOCK_SIZE).2.2 = fs.withWrite env p BLOCK_SIZE [] := by
    generalize osfsWrite env fs p [] 0 BLOCK_SIZE = r at hout
    cases hout with
    | past hpast => exact absurd hpast (Nat.lt_irrefl _)
    | fault data _ hbuf _ => exact absurd hbuf (by decide)
    | written n _ hn _ =>
      subst hn
      rfl
  rw [hfs] at hinv hp' ⊢
  have hsize := writtenSlot_size env (fs.sb.inodeTable (fs.icache.inode p).iPrivate)
    (Nat.le_refl BLOCK_SIZE)
  have htext : (fs.withWrite env p BLOCK_SIZE []).sb.fileBytes (fs.icache.inode p).iPrivate =
      fs.sb.dataBlocks.load (fs.sb.blockAddr (fs.icache.inode p).iPrivate) BLOCK_SIZE := by
    unfold OsfsSbInfo.fileBytes
    rw [withWrite_addr, withWrite_nil_data, withWrite_sb, setSlot_table_self, List.length_nil,
      Nat.add_zero, hsize, Nat.max_eq_right (h.fileSlot hp).size]
  have hread := osfsRead_eq hinv hp' 1 1 i (by unfold BLOCK_SIZE at hi; unfold LLONG_MAX; omega)
  rw [withWrite_private, htext, Mem.load_drop _ _ _ _ (Nat.le_of_lt hi),
    Mem.load_take _ _ _ _ (by omega)] at hread
  rw [hread]
  rfl

/-- In every reachable state a write that returns zero or an error leaves the files as they were iff
it is clean. -/
theorem run_write_clean_iff {s : Sys} (h : Mounted s) (rs : List Req) (env : Env) {p : InodePtr}
    (hp : (osfs.run s rs).fs.isFileInode p = true) (buf : Bytes) {len ppos : ℕ}
    (hpos : ppos + len ≤ LLONG_MAX) :
    (WroteNothing (osfsWrite env (osfs.run s rs).fs p buf len ppos).1 →
        SameFiles (osfs.run s rs).fs (osfsWrite env (osfs.run s rs).fs p buf len ppos).2.2) ↔
      WritesClean (osfs.run s rs).fs p buf len ppos :=
  (SysInv.run h rs).fs.write_clean_iff env hp buf hpos

/- A file with the text `hi` in it. -/
def textHi : List Req := [.create 0 nameA S_IFREG plainEnv, .open 1, .write 0 [104, 105] 2 plainEnv]

theorem run_write_clean_iff_inside :
    SameFiles (osfs.run freshMount textHi).fs
      (osfsWrite plainEnv (osfs.run freshMount textHi).fs 1 [] 0 2).2.2 :=
  have hres : (osfsWrite plainEnv (osfs.run freshMount textHi).fs 1 [] 0 2).1 = .ok 0 := by rfl
  (run_write_clean_iff freshMount_mounted textHi plainEnv (by decide +kernel) [] (by decide)).mpr
    (.inr (.inl ⟨by decide, .inr (by decide +kernel)⟩))
    (fun _ hn => Except.ok.inj (hn.symm.trans hres))

/-- Zero bytes written at position 5 of the two-byte file: the file has five bytes. Two bytes of which
only the first can be copied: the text is `x` and a zero byte. -/
theorem write_nothing_changes :
    (osfsWrite plainEnv (osfs.run freshMount textHi).fs 1 [] 0 5).1 = .ok 0 ∧
      ¬ SameFiles (osfs.run freshMount textHi).fs
        (osfsWrite plainEnv (osfs.run freshMount textHi).fs 1 [] 0 5).2.2 ∧
      (osfsWrite plainEnv (osfs.run freshMount textHi).fs 1 [120] 2 0).1 = .error .EFAULT ∧
      ¬ SameFiles (osfs.run freshMount textHi).fs
        (osfsWrite plainEnv (osfs.run freshMount textHi).fs 1 [120] 2 0).2.2 := by
  have hs := (SysInv.run freshMount_mounted textHi).fs.fileSlot (p := 1) (by decide +kernel)
  refine ⟨by rfl, fun h => ?_, by rfl, fun h => ?_⟩
  · exact absurd (h.size 2) (by decide +kernel)
  · exact absurd (h.bytes _ hs 0 (by decide)) (by decide +kernel)

end OSLab.Done
