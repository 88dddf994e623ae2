import OSLab.Done.Step

/-!
# Overwriting a file that is opened with O_TRUNC

The truncation reaches the VFS inode only, so the end of the old text stays
readable behind a shorter new one.
-/

namespace OSLab.Done
open OSLab.Base OSLab.Kernel

/- The shell's `> file`, the writes of the new text, and a read from the start. -/
def overwrite (p : InodePtr) (fd : ℕ) (env : Env) (ws : List Bytes) (ls : List ℕ) : List Req :=
  .open p :: .truncate p env :: (ws.map (fun w => .write fd w w.length env) ++
    .seek fd 0 :: ls.map fun l => .read fd l l)

/- The bytes that the reads of a run delivered. -/
def readBytes (es : List (Req × Res)) : Bytes :=
  es.flatMap fun e => match e.2 with
    | .read (.ok bytes) => bytes
    | _ => []

/-- Descriptor `fd` is open on the inode at position `pos`, and the text of its file is `c`. -/
structure OpenAt (s : Sys) (fd : ℕ) (p : InodePtr) (pos : ℕ) (c : Bytes) : Prop where
  inv : SysInv s
  file : s.file fd = some ⟨p, pos⟩
  text : s.fs.sb.fileBytes (s.fs.icache.inode p).iPrivate = c

theorem file_length {s : Sys} {fd : ℕ} {f : File} (h : s.file fd = some f) :
    fd < s.files.length := by
  unfold Sys.file at h
  by_contra hn
  rw [List.getElem?_eq_none (by omega)] at h
  cases h

theorem setPos_file_self {s : Sys} {fd : ℕ} {f : File} (h : s.file fd = some f) (pos : ℕ) :
    (s.setPos fd f pos).file fd = some { f with fPos := pos } := by
  have hlt := file_length h
  unfold Sys.file Sys.setPos
  dsimp only
  rw [List.getElem?_set_self hlt]
  rfl

section OpenAt
variable {s : Sys} {fd : ℕ} {p : InodePtr} {pos : ℕ} {c : Bytes}

theorem OpenAt.bound (h : OpenAt s fd p pos c) : c.length ≤ BLOCK_SIZE := by
  have hs := h.inv.fs.fileSlot (h.inv.files fd _ h.file).1
  rw [← h.text, fileBytes_length]
  exact hs.size

theorem SysInv.openAt (h : SysInv s) (hp : s.fs.isFileInode p = true) :
    OpenAt (osfs.next s (.open p)) s.files.length p 0
      (s.fs.sb.fileBytes (s.fs.icache.inode p).iPrivate) := by
  have hnext : osfs.next s (.open p) = { s with files := s.files ++ [some ⟨p, 0⟩] } := by
    show (sysStep s (.open p)).2 = _
    simp only [sysStep]
    rw [if_pos hp]
  have hinv := h.next (.open p)
  rw [hnext] at hinv ⊢
  refine ⟨hinv, ?_, rfl⟩
  unfold Sys.file
  rw [List.getElem?_append_right (Nat.le_refl _), Nat.sub_self]
  rfl

theorem OpenAt.truncate (h : OpenAt s fd p pos c) (env : Env) :
    OpenAt (osfs.next s (.truncate p env)) fd p pos c := by
  have hp := (h.inv.files fd _ h.file).1
  have hnext : osfs.next s (.truncate p env) = { s with fs := s.fs.truncate env p } := by
    show (sysStep s (.truncate p env)).2 = _
    simp only [sysStep]
    rw [if_pos hp]
    rfl
  have hinv := h.inv.next (.truncate p env)
  rw [hnext] at hinv ⊢
  refine ⟨hinv, h.file, ?_⟩
  have hpriv : ((s.fs.truncate env p).icache.inode p).iPrivate =
      (s.fs.icache.inode p).iPrivate := by
    unfold Fs.truncate
    dsimp only
    rw [Icache.set_same]
    rfl
  show s.fs.sb.fileBytes ((s.fs.truncate env p).icache.inode p).iPrivate = c
  rw [hpriv]
  exact h.text

theorem OpenAt.seek (h : OpenAt s fd p pos c) (pos' : ℕ) (hpos : pos' ≤ LLONG_MAX) :
    OpenAt (osfs.next s (.seek fd pos')) fd p pos' c := by
  have hnext : osfs.next s (.seek fd pos') = s.setPos fd ⟨p, pos⟩ pos' := by
    show (sysStep s (.seek fd pos')).2 = _
    simp only [sysStep, sysSeek, h.file]
    rw [if_pos hpos]
  have hinv := h.inv.next (.seek fd pos')
  rw [hnext] at hinv ⊢
  exact ⟨hinv, setPos_file_self h.file pos', h.text⟩

/-- Writing on behind what has been written keeps the rest of the old text. -/
theorem OpenAt.write {u : Bytes} (h : OpenAt s fd p u.length (u ++ c)) (env : Env) {w : Bytes}
    (hfit : u.length + w.length ≤ BLOCK_SIZE) :
    OpenAt (osfs.next s (.write fd w w.length env)) fd p (u ++ w).length
      (u ++ w ++ c.drop w.length) := by
  have hfile := (h.inv.files fd _ h.file).1
  have ho := osfs_outcome h.inv (.write fd w w.length env)
  have hinv := h.inv.next (.write fd w w.length env)
  have hcount : rwCount w.length = w.length := by
    unfold BLOCK_SIZE at hfit
    unfold rwCount MAX_RW_COUNT
    omega
  have hlim : u.length + w.length ≤ LLONG_MAX := by
    unfold BLOCK_SIZE at hfit
    unfold LLONG_MAX
    omega
  revert ho hinv
  generalize osfs.resp s (.write fd w w.length env) = o
  generalize osfs.next s (.write fd w w.length env) = s'
  intro ho hinv
  cases ho with
  | refused _ hno =>
    have hnone : s.file fd = none := hno
    rw [h.file] at hnone
    cases hnone
  | writeRefused _ _ _ _ f hf hpos =>
    obtain rfl := Option.some.inj (h.file.symm.trans hf)
    exact absurd hlim (Nat.not_le_of_lt hpos)
  | writePast _ _ _ _ f hf hpos hpast =>
    obtain rfl := Option.some.inj (h.file.symm.trans hf)
    dsimp only at hpast
    omega
  | writeFault _ _ _ _ f hf hpos data hle hbuf hdata =>
    rw [hcount] at hbuf
    omega
  | written _ _ _ _ f hf hpos n hle hn hbuf =>
    obtain rfl := Option.some.inj (h.file.symm.trans hf)
    dsimp only at hle hn hinv ⊢
    have hnw : n = w.length := by
      rw [hcount] at hn
      omega
    subst hnw
    rw [List.take_length] at hinv ⊢
    have hs : FileSlot s.fs.sb (s.fs.icache.inode p).iPrivate := h.inv.fs.fileSlot hfile
    have hsize := fileBytes_length s.fs.sb (s.fs.icache.inode p).iPrivate
    rw [h.text, List.length_append] at hsize
    have hbytes := fileBytes_write env (p := p) hs hfit
      (fun i hi hlt => by omega)
    rw [h.text, writeAt_append] at hbytes
    refine ⟨hinv, ?_, ?_⟩
    · rw [List.length_append]
      exact setPos_file_self (s := { s with fs := s.fs.withWrite env p u.length w }) h.file _
    · show (s.fs.withWrite env p u.length w).sb.fileBytes
        ((s.fs.withWrite env p u.length w).icache.inode p).iPrivate = _
      rw [withWrite_private]
      exact hbytes

theorem OpenAt.writes {u : Bytes} (h : OpenAt s fd p u.length (u ++ c)) (env : Env)
    (ws : List Bytes) (hfit : u.length + ws.flatten.length ≤ BLOCK_SIZE) :
    OpenAt (osfs.run s (ws.map fun w => .write fd w w.length env)) fd p
      (u ++ ws.flatten).length (u ++ ws.flatten ++ c.drop ws.flatten.length) := by
  induction ws generalizing s u c with
  | nil =>
    simp only [List.flatten_nil, List.append_nil, List.length_nil, List.drop_zero]
    exact h
  | cons w ws ih =>
    rw [List.flatten_cons, List.length_append] at hfit
    have hw := h.write env (w := w) (by omega)
    have hrest := ih hw (by rw [List.length_append]; omega)
    rw [List.drop_drop] at hrest
    simp only [List.flatten_cons, List.map_cons, Machine.run_cons, ← List.append_assoc,
      List.length_append] at hrest ⊢
    exact hrest

/-! ### Reading to the end -/

theorem OpenAt.read (h : OpenAt s fd p pos c) (hpos : pos ≤ c.length) {l : ℕ}
    (hl : l ≤ MAX_RW_COUNT) :
    osfs.resp s (.read fd l l) = .read (.ok ((c.drop pos).take l)) ∧
      OpenAt (osfs.next s (.read fd l l)) fd p (pos + ((c.drop pos).take l).length) c := by
  have ho := osfs_outcome h.inv (.read fd l l)
  have hinv := h.inv.next (.read fd l l)
  have hbound := h.bound
  have hcount : rwCount l = l := Nat.min_eq_left hl
  have hlim : pos + l ≤ LLONG_MAX := by
    unfold BLOCK_SIZE at hbound
    unfold MAX_RW_COUNT at hl
    unfold LLONG_MAX
    omega
  have htext : s.text ⟨p, pos⟩ = c := h.text
  revert ho hinv
  generalize osfs.resp s (.read fd l l) = o
  generalize osfs.next s (.read fd l l) = s'
  intro ho hinv
  cases ho with
  | refused _ hno =>
    have hnone : s.file fd = none := hno
    rw [h.file] at hnone
    cases hnone
  | readRefused _ _ _ f hf hp =>
    obtain rfl := Option.some.inj (h.file.symm.trans hf)
    exact absurd hlim (Nat.not_le_of_lt hp)
  | readFault _ _ _ f hf hp hroom =>
    have hlen := List.length_take_le (rwCount l) ((s.text f).drop f.fPos)
    rw [hcount] at hlen hroom
    omega
  | read _ _ _ f hf hp bytes hbytes =>
    obtain rfl := Option.some.inj (h.file.symm.trans hf)
    rw [htext, hcount] at hbytes
    subst hbytes
    exact ⟨rfl, hinv, setPos_file_self h.file _, h.text⟩

theorem drop_take_length (x : Bytes) (l : ℕ) : x.drop (x.take l).length = x.drop l := by
  rw [List.length_take]
  by_cases hl : l ≤ x.length
  · rw [Nat.min_eq_left hl]
  · rw [Nat.min_eq_right (by omega), List.drop_length, List.drop_eq_nil_of_le (by omega)]

theorem OpenAt.reads (h : OpenAt s fd p pos c) (hpos : pos ≤ c.length) {ls : List ℕ}
    (hls : ∀ l ∈ ls, l ≤ MAX_RW_COUNT) :
    readBytes (osfs.trace s (ls.map fun l => .read fd l l)) = (c.drop pos).take ls.sum := by
  induction ls generalizing s pos with
  | nil => rfl
  | cons l ls ih =>
    obtain ⟨hresp, hnext⟩ := h.read hpos (hls l (List.mem_cons_self ..))
    have hle : pos + ((c.drop pos).take l).length ≤ c.length := by
      rw [List.length_take, List.length_drop]
      omega
    have hrest := ih hnext hle fun k hk => hls k (List.mem_cons_of_mem _ hk)
    rw [← List.drop_drop, drop_take_length] at hrest
    simp only [readBytes, List.map_cons, Machine.trace, List.flatMap_cons, hresp,
      List.sum_cons, List.take_add] at hrest ⊢
    rw [hrest]

end OpenAt

theorem readBytes_append (es fs : List (Req × Res)) :
    readBytes (es ++ fs) = readBytes es ++ readBytes fs := List.flatMap_append ..

theorem readBytes_cons (s : Sys) (r : Req) (rs : List Req) :
    readBytes (osfs.trace s (r :: rs)) =
      readBytes [(r, osfs.resp s r)] ++ readBytes (osfs.trace (osfs.next s r) rs) :=
  readBytes_append [(r, osfs.resp s r)] _

theorem readBytes_other {s : Sys} (h : SysInv s) {r : Req}
    (hr : ∀ fd room len, r ≠ .read fd room len) : readBytes [(r, osfs.resp s r)] = [] := by
  have ho := osfs_outcome h r
  revert ho
  generalize osfs.resp s r = o
  generalize osfs.next s r = s'
  intro ho
  cases ho with
  | create dir dentry mode env r hdir ho => cases ho <;> rfl
  | lookup dir dentry env r hdir ho => cases ho <;> rfl
  | read fd room len f hf hpos bytes hbytes => exact absurd rfl (hr fd room len)
  | _ => rfl

theorem readBytes_writes {s : Sys} (h : SysInv s) (fd : ℕ) (env : Env) (ws : List Bytes) :
    readBytes (osfs.trace s (ws.map fun w => .write fd w w.length env)) = [] := by
  induction ws generalizing s with
  | nil => rfl
  | cons w ws ih =>
    rw [List.map_cons, readBytes_cons, readBytes_other h (fun _ _ _ hr => by cases hr),
      ih (h.next _), List.nil_append]

/-- What is read back after the file was overwritten: the new text, and the end of the old one. -/
theorem SysInv.overwrite_bytes {s : Sys} (h : SysInv s) {p : InodePtr}
    (hp : s.fs.isFileInode p = true) (env : Env) {ws : List Bytes} {ls : List ℕ}
    (hfit : ws.flatten.length ≤ BLOCK_SIZE) (hend : BLOCK_SIZE ≤ ls.sum)
    (hls : ∀ l ∈ ls, l ≤ MAX_RW_COUNT) :
    readBytes (osfs.trace s (overwrite p s.files.length env ws ls)) =
      ws.flatten ++
        (s.fs.sb.fileBytes (s.fs.icache.inode p).iPrivate).drop ws.flatten.length := by
  have hopen := h.openAt hp
  have htrunc := hopen.truncate env
  have hwritten := OpenAt.writes (u := [])
    (c := s.fs.sb.fileBytes (s.fs.icache.inode p).iPrivate) htrunc env ws
    (by simpa using hfit)
  rw [List.nil_append] at hwritten
  have hseek := hwritten.seek 0 (Nat.zero_le _)
  have hbound := hseek.bound
  have hreads := hseek.reads (Nat.zero_le _) hls
  rw [List.drop_zero, List.take_of_length_le (by omega)] at hreads
  -- only the reads at the end deliver anything
  unfold overwrite
  rw [readBytes_cons, readBytes_other h (fun _ _ _ hr => by cases hr), List.nil_append,
    readBytes_cons, readBytes_other hopen.inv (fun _ _ _ hr => by cases hr), List.nil_append,
    Machine.trace_append, readBytes_append, readBytes_writes htrunc.inv, List.nil_append,
    readBytes_cons, readBytes_other hwritten.inv (fun _ _ _ hr => by cases hr), List.nil_append]
  exact hreads

/-- The new text is what comes back exactly when the old one was not longer: `i_size` of the slot
is what the truncation leaves alone. -/
theorem overwrite_returns_iff {s : Sys} (h : Mounted s) (rs : List Req) {p : InodePtr}
    (hp : (osfs.run s rs).fs.isFileInode p = true) (env : Env) {ws : List Bytes} {ls : List ℕ}
    (hfit : ws.flatten.length ≤ BLOCK_SIZE) (hend : BLOCK_SIZE ≤ ls.sum)
    (hls : ∀ l ∈ ls, l ≤ MAX_RW_COUNT) :
    readBytes (osfs.trace (osfs.run s rs)
        (overwrite p (osfs.run s rs).files.length env ws ls)) = ws.flatten ↔
      ((osfs.run s rs).fs.sb.inodeTable ((osfs.run s rs).fs.icache.inode p).iPrivate).iSize ≤
        ws.flatten.length := by
  rw [(SysInv.run h rs).overwrite_bytes hp env hfit hend hls, List.append_right_eq_self,
    List.drop_eq_nil_iff, fileBytes_length]

/- A file with the text `ab` in it. -/
def twoBytes : List Req :=
  [.create 0 nameA S_IFREG plainEnv, .open 1, .write 0 [97, 98] 2 plainEnv]

theorem overwrite_returns_iff_oneByte :
    readBytes (osfs.trace (osfs.run freshMount twoBytes) (overwrite 1 1 plainEnv [[99]] [1024])) =
        [[99]].flatten ↔
      ((osfs.run freshMount twoBytes).fs.sb.inodeTable
        ((osfs.run freshMount twoBytes).fs.icache.inode 1).iPrivate).iSize ≤ [[99]].flatten.length :=
  overwrite_returns_iff freshMount_mounted twoBytes (by decide +kernel) plainEnv (by decide)
    (by decide) (by decide)

/-- A shorter text written over `ab`: the `b` is read back behind it. -/
theorem overwrite_shorter :
    readBytes (osfs.trace (osfs.run freshMount twoBytes) (overwrite 1 1 plainEnv [[99]] [1024])) ≠
      [99] := by
  decide +kernel

end OSLab.Done
