import OSLab.Done.Names

/-!
# The array of a file name (Lab4_Template_Done)

A directory entry has an array of `MAX_FILENAME_LEN` bytes for the name, and
`osfs_create` accepts names of that many bytes. `osfs_add_dir_entry` stores
the terminator behind the name, and every `strlen` over a stored name runs to
it.
-/

namespace OSLab.Done
open OSLab.Base OSLab.Kernel

/- The stores of `dir.c:233-234` to the array at address `e`. -/
def filenameStores (e : ℕ) (name : Bytes) : List ByteStore :=
  [⟨e, strncpy name name.length⟩, ⟨e + name.length, [0]⟩]

/- All of them are to the array, whatever its address. -/
def StoresInside (name : Bytes) : Prop :=
  ∀ e, ∀ st ∈ filenameStores e name, ∀ x, st.Covers x → e ≤ x ∧ x < e + MAX_FILENAME_LEN

/- The `strlen` over each stored name ends within the array. -/
def OsfsSbInfo.NamesEnd (sb : OsfsSbInfo) : Prop :=
  ∀ d, Formatted sb d → sIsDir (sb.inodeTable d).iMode = true → ∀ i, i < sb.dirEntryCount d →
    ∃ l, strlen sb.dataBlocks MAX_FILENAME_LEN (sb.entryAddr d i) = some l

def Req.name : Req → Bytes
  | .create _ dentry _ _ => dentry.name
  | _ => []

/-- A create that succeeds stores in the array, and all names end in their arrays afterwards. -/
structure NamesInArray (s : Sys) (r : Req) : Prop where
  inside : ∀ p ino, osfs.resp s r = .created p ino → StoresInside r.name
  ends : (osfs.next s r).fs.sb.NamesEnd

/-- The request is a create for which there is an inode, and whose name is new and has room. -/
def AddsEntry (s : Sys) : Req → Prop
  | .create dir dentry mode env =>
    s.fs.isDirInode dir = true ∧ dentry.len ≤ MAX_FILENAME_LEN ∧ CanAllocate s.fs.sb mode ∧
      env.newInodeOk = true ∧
      ¬ EntryRefused s.fs.sb (s.fs.icache.inode dir).iPrivate dentry.name
  | _ => False

/- Such a create with a name that leaves no room for the terminator. -/
def FillsArray (s : Sys) (r : Req) : Prop := AddsEntry s r ∧ r.name.length = MAX_FILENAME_LEN

variable {s : Sys} {r : Req} {sb : OsfsSbInfo} {name : Bytes}

theorem storeEntry_eq_apply (m : Mem) (e inodeNo : ℕ) (name : Bytes) :
    storeEntry m e inodeNo name =
      m.apply (filenameStores e name ++ [⟨e + INODE_NO_OFFSET, le32 inodeNo⟩]) := rfl

theorem storesInside_iff : StoresInside name ↔ name.length < MAX_FILENAME_LEN := by
  constructor
  · intro h
    have hlast := h 0 ⟨0 + name.length, [0]⟩ (by simp [filenameStores]) (0 + name.length)
      ⟨Nat.le_refl _, Nat.lt_succ_self _⟩
    omega
  · intro h e st hst x hx
    simp only [filenameStores, List.mem_cons, List.not_mem_nil, or_false] at hst
    rcases hst with rfl | rfl
    · simp only [ByteStore.Covers, strncpy_length] at hx
      omega
    · simp only [ByteStore.Covers, List.length_singleton] at hx
      omega

/-- A request is answered with a new inode exactly when it adds an entry. -/
theorem addsEntry_iff (h : SysInv s) :
    AddsEntry s r ↔ ∃ p ino, osfs.resp s r = .created p ino := by
  have ho := osfs_outcome h r
  revert ho
  generalize osfs.resp s r = o
  generalize osfs.next s r = s'
  intro ho
  cases ho with
  | refused r hno =>
    refine iff_of_false (fun ha => ?_) fun ⟨_, _, hc⟩ => nomatch hc
    cases r with
    | create dir dentry mode env =>
      rw [AddsEntry, show s.fs.isDirInode dir = false from hno] at ha
      exact Bool.false_ne_true ha.1
    | _ => exact ha
  | create dir dentry mode env r hdir hco =>
    cases hco with
    | refused e hno =>
      refine iff_of_false (fun ha => ?_) fun ⟨_, _, hc⟩ => nomatch hc
      rcases hno with hlen | hcan
      · exact absurd ha.2.1 (Nat.not_le_of_lt hlen)
      · exact hcan ha.2.2.1
    | noMemory ino hlen hcan hmem hlt hfree =>
      refine iff_of_false (fun ha => ?_) fun ⟨_, _, hc⟩ => nomatch hc
      exact Bool.false_ne_true (hmem.symm.trans ha.2.2.2.1)
    | rejected e ino b hlen hcan hmem hf href =>
      exact iff_of_false (fun ha => ha.2.2.2.2 href) fun ⟨_, _, hc⟩ => nomatch hc
    | created ino b hlen hcan hmem hf hent =>
      exact iff_of_true ⟨hdir, hlen, hcan, hmem, hent⟩ ⟨_, _, rfl⟩
  | lookup dir dentry env r hdir ho =>
    refine iff_of_false id fun ⟨_, _, hc⟩ => ?_
    cases ho <;> cases hc
  | _ => exact iff_of_false id fun ⟨_, _, hc⟩ => nomatch hc

theorem SbInv.namesEnd_iff (h : SbInv sb) :
    sb.NamesEnd ↔ ∀ d, ∀ e ∈ sb.dirLog d, e.1.length < MAX_FILENAME_LEN := by
  constructor
  · intro hends d e he
    by_cases hd : Formatted sb d ∧ sIsDir (sb.inodeTable d).iMode = true
    · have hok := h.dir d hd.1 hd.2
      rw [dirLog_dir hd.1 hd.2, OsfsSbInfo.dirEntries, List.mem_map] at he
      obtain ⟨i, hi, rfl⟩ := he
      have hlt := List.mem_range.mp hi
      obtain ⟨l, hl⟩ := hends d hd.1 hd.2 i hlt
      exact (hok.name i hlt).lt_of_strlen hl
    · rw [dirLog_none hd] at he
      exact absurd he List.not_mem_nil
  · intro hshort d hf hdir i hi
    have hmem : (sb.entryName d i, sb.entryInodeNo d i) ∈ sb.dirLog d := by
      rw [dirLog_dir hf hdir, OsfsSbInfo.dirEntries, List.mem_map]
      exact ⟨i, List.mem_range.mpr hi, rfl⟩
    exact ⟨_, ((h.dir d hf hdir).name i hi).strlen_eq (hshort d _ hmem)⟩

/-- A request adds an entry with its own name at most. -/
theorem SysInv.entries_next (h : SysInv s) (r : Req) {d : ℕ} {e : Bytes × ℕ}
    (he : e ∈ (osfs.next s r).fs.sb.dirLog d) :
    e ∈ s.fs.sb.dirLog d ∨ e.1 = r.name ∧ AddsEntry s r := by
  have hlog : (osfs.next s r).fs.sb.dirLog d = _ := (osfs_outcome h r).dirLog h d
  rw [hlog, List.mem_append] at he
  rcases he with hold | hnew
  · exact .inl hold
  · unfold entryOf at hnew
    split at hnew
    · rename_i p ino hres
      split at hnew
      · rw [List.mem_singleton.mp hnew]
        exact .inr ⟨rfl, (addsEntry_iff h).mpr ⟨p, ino, hres⟩⟩
      · exact absurd hnew List.not_mem_nil
    · exact absurd hnew List.not_mem_nil

theorem namesInArray_of_not_fills (h : SysInv s) (hends : s.fs.sb.NamesEnd)
    (hno : ¬ FillsArray s r) : NamesInArray s r := by
  have hshort (ha : AddsEntry s r) : r.name.length < MAX_FILENAME_LEN := by
    have hne : r.name.length ≠ MAX_FILENAME_LEN := fun he => hno ⟨ha, he⟩
    cases r with
    | create dir dentry mode env => exact Nat.lt_of_le_of_ne ha.2.1 hne
    | _ => exact ha.elim
  refine ⟨fun p ino hres => storesInside_iff.mpr (hshort ((addsEntry_iff h).mpr ⟨p, ino, hres⟩)), ?_⟩
  rw [(h.next r).fs.sb.namesEnd_iff]
  intro d e he
  rcases h.entries_next r he with hold | ⟨hname, ha⟩
  · exact h.fs.sb.namesEnd_iff.mp hends d e hold
  · rw [hname]
    exact hshort ha

theorem not_fills_of_namesInArray (h : SysInv s) (hn : NamesInArray s r) : ¬ FillsArray s r := by
  rintro ⟨ha, hlen⟩
  obtain ⟨p, ino, hres⟩ := (addsEntry_iff h).mp ha
  have hlt := storesInside_iff.mp (hn.inside p ino hres)
  omega

theorem mounted_namesEnd (h : Mounted s) : s.fs.sb.NamesEnd := by
  rw [(SysInv.mounted h).1.fs.sb.namesEnd_iff]
  intro d e he
  rw [mounted_dirLog h] at he
  exact absurd he List.not_mem_nil

theorem run_namesEnd {rs : List Req} (h : s.fs.sb.NamesEnd)
    (hrs : osfs.EveryStep NamesInArray s rs) : (osfs.run s rs).fs.sb.NamesEnd :=
  osfs.run_invariant (P := fun s => s.fs.sb.NamesEnd) (fun _ _ _ hn => hn.ends) h hrs

/-- Along a run every name is stored in its array and ends there as long as no create adds a name
that fills the array; the first one that does stores behind it. -/
theorem namesInArray_iff {s : Sys} (h : Mounted s) (rs : List Req) :
    osfs.EveryStep NamesInArray s rs ↔ osfs.EveryStep (fun s r => ¬ FillsArray s r) s rs := by
  apply osfs.everyStep_iff_of_invariant (P := fun s => SysInv s ∧ s.fs.sb.NamesEnd)
    (H := fun _ _ => True)
  · intro s r ⟨hinv, hends⟩ _ hno
    have hn := namesInArray_of_not_fills hinv hends hno
    exact ⟨hn, hinv.next r, hn.ends⟩
  · intro s r ⟨hinv, _⟩ _ hn
    exact not_fills_of_namesInArray hinv hn
  · exact ⟨(SysInv.mounted h).1, mounted_namesEnd h⟩
  · exact osfs.everyStep_of_forall (fun _ _ => trivial) s rs

/- A file whose name has as many bytes as the array. -/
def fullName : List Req := [.create 0 (Qstr.ofBytes (List.replicate 255 97)) S_IFREG plainEnv]

theorem namesInArray_iff_fullName :
    osfs.EveryStep NamesInArray freshMount fullName ↔
      osfs.EveryStep (fun s r => ¬ FillsArray s r) freshMount fullName :=
  namesInArray_iff freshMount_mounted fullName

/-- Its terminator is stored behind the array, and `strlen` finds none in the array. -/
theorem fullName_outside : ¬ osfs.EveryStep NamesInArray freshMount fullName := by
  intro h
  have hends := run_namesEnd (mounted_namesEnd freshMount_mounted) h
  obtain ⟨l, hl⟩ := hends 1 (by decide +kernel) (by decide +kernel) 0 (by decide +kernel)
  have hnone : strlen (osfs.run freshMount fullName).fs.sb.dataBlocks MAX_FILENAME_LEN
      ((osfs.run freshMount fullName).fs.sb.entryAddr 1 0) = none := by decide +kernel
  rw [hnone] at hl
  cases hl

end OSLab.Done
