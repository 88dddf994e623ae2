import OSLab.Done.Equivalence

/-!
# What a mount has room for

The numbers of new inodes only go up, a directory that has answered -ENOSPC
never takes another entry, and a file keeps its bytes as long as nobody writes
to it. All three are read off the tree.
-/

namespace OSLab.Done
open OSLab.Base OSLab.Kernel

/- The inode numbers that the creates of a run returned, in their order. -/
def createdNumbers (es : List (Req × Res)) : List ℕ :=
  es.filterMap fun e => match e.2 with
    | .created _ ino => some ino
    | _ => none

section Tree
variable {t : Tree}

/-- A create that succeeds returns the next number. -/
theorem Tree.create_created {dir : InodePtr} {dentry : Qstr} {mode : UMode} {env : Env}
    {p : InodePtr} {ino : ℕ} (h : (t.create dir dentry mode env).1 = .created p ino) :
    ino = t.taken + 1 ∧ (t.create dir dentry mode env).2.taken = t.taken + 1 ∧
      ¬ Exhausted t.taken t.made ∧
      ∀ d entries, t.dirAt dir = some (d, entries) → entries.length < MAX_DIR_ENTRIES := by
  unfold Tree.create at h ⊢
  cases hdir : t.dirAt dir with
  | none =>
    rw [hdir] at h
    cases h
  | some de =>
    obtain ⟨d, entries⟩ := de
    rw [hdir] at h
    dsimp only at h ⊢
    split at h
    · cases h
    split at h
    · cases h
    split at h
    · cases h
    split at h
    · cases h
    split at h
    · cases h
    split at h
    · cases h
    rename_i hlen hmode hex henv hfull hin
    obtain ⟨rfl, rfl⟩ := Res.created.inj h
    rw [if_neg hlen, if_neg hmode, if_neg hex, if_neg henv, if_neg hfull, if_neg hin]
    refine ⟨rfl, rfl, hex, fun d' es he => ?_⟩
    obtain ⟨-, rfl⟩ := Prod.mk.inj (Option.some.inj he)
    exact Nat.lt_of_not_le hfull

theorem Tree.resp_created {r : Req} {p : InodePtr} {ino : ℕ} (h : (t.step r).1 = .created p ino) :
    ∃ dir dentry mode env, r = .create dir dentry mode env := by
  cases r with
  | create dir dentry mode env => exact ⟨dir, dentry, mode, env, rfl⟩
  | lookup dir dentry env =>
    simp only [Tree.step, Tree.lookup] at h
    split at h
    · cases h
    split at h
    · cases h
    split at h <;> cases h
  | «open» p =>
    simp only [Tree.step] at h
    split at h <;> cases h
  | close fd => cases h
  | seek fd pos =>
    simp only [Tree.step] at h
    split at h
    · cases h
    split at h <;> cases h
  | read fd room len =>
    simp only [Tree.step, Tree.read] at h
    split at h
    · cases h
    split at h
    · cases h
    split at h
    · cases h
    split at h <;> cases h
  | write fd buf len env =>
    simp only [Tree.step, Tree.write] at h
    split at h
    · cases h
    split at h
    · cases h
    split at h
    · cases h
    split at h
    · cases h
    split at h <;> cases h
  | truncate p env =>
    simp only [Tree.step] at h
    split at h <;> cases h
  | evict p =>
    simp only [Tree.step] at h
    split at h <;> cases h

theorem Tree.Effect.taken_le {r : Req} {u : Tree} (h : t.Effect r u) : t.taken ≤ u.taken := by
  cases h with
  | idle hn hi ht hm => omega
  | found d entries e hd he hn hi ht hm => omega
  | spent hex hn hi ht hm => omega
  | created hex d entries name node hd hroom hn hi hnew ht hm => omega
  | file k block block' size size' hr hk hn hi ht hm => omega

theorem Tree.Effect.taken_lt {r : Req} {u : Tree} (h : t.Effect r u) (hlt : t.taken < INODE_COUNT) :
    u.taken < INODE_COUNT := by
  have hnext (hex : ¬ Exhausted t.taken t.made) : t.taken + 1 ≠ INODE_COUNT := (not_or.mp hex).2
  cases h with
  | idle hn hi ht hm => omega
  | found d entries e hd he hn hi ht hm => omega
  | spent hex hn hi ht hm =>
    have hne := hnext hex
    omega
  | created hex d entries name node hd hroom hn hi hnew ht hm =>
    have hne := hnext hex
    omega
  | file k block block' size size' hr hk hn hi ht hm => omega

theorem createdNumbers_created (r : Req) (p : InodePtr) (ino : ℕ) (es : List (Req × Res)) :
    createdNumbers ((r, .created p ino) :: es) = ino :: createdNumbers es := rfl

theorem createdNumbers_other {o : Res} (h : ∀ p ino, o ≠ .created p ino) (r : Req)
    (es : List (Req × Res)) : createdNumbers ((r, o) :: es) = createdNumbers es := by
  cases o with
  | created p ino => exact absurd rfl (h p ino)
  | _ => rfl

/-- From a state of the tree on the new numbers go up from the one taken last. -/
theorem Tree.numbers_run (t : Tree) (rs : List Req) (hlt : t.taken < INODE_COUNT) :
    (createdNumbers (tree.trace t rs)).Pairwise (· < ·) ∧
      ∀ n ∈ createdNumbers (tree.trace t rs), t.taken < n ∧ n < INODE_COUNT := by
  induction rs generalizing t with
  | nil => exact ⟨List.Pairwise.nil, fun n hn => absurd hn List.not_mem_nil⟩
  | cons r rs ih =>
    have heffect := t.step_effect r
    have hle := heffect.taken_le
    obtain ⟨hsorted, hrange⟩ := ih (tree.next t r) (heffect.taken_lt hlt)
    rw [Machine.trace]
    by_cases hr : ∃ p ino, (t.step r).1 = .created p ino
    · obtain ⟨p, ino, hr⟩ := hr
      obtain ⟨dir, dentry, mode, env, rfl⟩ := Tree.resp_created hr
      obtain ⟨rfl, htaken, -⟩ := Tree.create_created hr
      have hnext : (tree.next t (.create dir dentry mode env)).taken = t.taken + 1 := htaken
      rw [show tree.resp t (.create dir dentry mode env) = .created p (t.taken + 1) from hr,
        createdNumbers_created]
      refine ⟨List.pairwise_cons.mpr ⟨fun n hn => ?_, hsorted⟩, fun n hn => ?_⟩
      · have hgt := (hrange n hn).1
        omega
      · rcases List.mem_cons.mp hn with rfl | hn
        · have hbound := heffect.taken_lt hlt
          exact ⟨Nat.lt_succ_self _, htaken ▸ hbound⟩
        · obtain ⟨hgt, hbound⟩ := hrange n hn
          exact ⟨by omega, hbound⟩
    · have hother (p : InodePtr) (ino : ℕ) : tree.resp t r ≠ .created p ino :=
        fun he => hr ⟨p, ino, he⟩
      rw [createdNumbers_other hother]
      refine ⟨hsorted, fun n hn => ?_⟩
      obtain ⟨hgt, hbound⟩ := hrange n hn
      exact ⟨Nat.lt_of_le_of_lt hle hgt, hbound⟩

/-! ### No room -/

/-- Nothing can be created in directory `d`: the numbers have run out, or its block is full. -/
def Tree.NoRoom (t : Tree) (d : ℕ) : Prop :=
  Exhausted t.taken t.made ∨
    ∃ entries, t.node d = some (.dir entries) ∧ MAX_DIR_ENTRIES ≤ entries.length

theorem Tree.NoRoom.effect {r : Req} {u : Tree} {d : ℕ} (h : t.NoRoom d) (hok : t.Ok) (he : t.Effect r u) :
    u.NoRoom d := by
  have hnode (hn : u.node = t.node) (ht : u.taken = t.taken) (hm : u.made = t.made) :
      u.NoRoom d := by
    unfold Tree.NoRoom
    rw [hn, ht, hm]
    exact h
  cases he with
  | idle hn hi ht hm => exact hnode hn ht hm
  | found d' entries e hd he hn hi ht hm => exact hnode hn ht hm
  | spent hex hn hi ht hm =>
    refine .inr ?_
    rw [hn]
    exact h.resolve_left hex
  | created hex d' entries name node hd hroom hn hi hnew ht hm =>
    obtain ⟨es, hes, hfull⟩ := h.resolve_left hex
    have hne : d ≠ d' := by
      rintro rfl
      rw [hd] at hes
      rw [Node.dir.inj (Option.some.inj hes)] at hroom
      omega
    have hold : d ≠ t.taken + 1 := by
      have hle := hok.below d (by rw [hes]; exact Option.some_ne_none _)
      omega
    refine .inr ⟨es, ?_, hfull⟩
    rw [hn, Function.update_of_ne hne, Function.update_of_ne hold]
    exact hes
  | file k block block' size size' hr hk hn hi ht hm =>
    unfold Tree.NoRoom
    rw [hn, ht, hm]
    refine h.imp_right ?_
    rintro ⟨es, hes, hfull⟩
    have hne : d ≠ k := by
      rintro rfl
      rw [hk] at hes
      cases hes
    refine ⟨es, ?_, hfull⟩
    rw [Function.update_of_ne hne]
    exact hes

theorem Tree.create_noSpace {dir : InodePtr} {dentry : Qstr} {mode : UMode} {env : Env}
    (h : (t.create dir dentry mode env).1 = .createFailed .ENOSPC) :
    ∃ d, t.inode dir = some d ∧ t.NoRoom d := by
  unfold Tree.create at h
  cases hdir : t.dirAt dir with
  | none =>
    rw [hdir] at h
    cases h
  | some de =>
    obtain ⟨d, entries⟩ := de
    obtain ⟨hd, hnode⟩ := dirAt_some hdir
    refine ⟨d, hd, ?_⟩
    rw [hdir] at h
    dsimp only at h
    split at h
    · cases h
    split at h
    · cases h
    split at h
    · rename_i hex
      exact .inl hex
    split at h
    · cases h
    split at h
    · rename_i hfull
      exact .inr ⟨entries, hnode, hfull⟩
    split at h <;> cases h

theorem Tree.NoRoom.refuses {d : ℕ} (h : t.NoRoom d) {dir : InodePtr} (hdir : t.inode dir = some d)
    (dentry : Qstr) (mode : UMode) (env : Env) (p : InodePtr) (ino : ℕ) :
    (t.create dir dentry mode env).1 ≠ .created p ino := by
  intro hc
  obtain ⟨-, -, hex, hroom⟩ := Tree.create_created hc
  obtain ⟨entries, hnode, hfull⟩ := h.resolve_left hex
  have hat : t.dirAt dir = some (d, entries) := by
    unfold Tree.dirAt
    rw [hdir, Option.bind_some, hnode]
  exact absurd (hroom d entries hat) (Nat.not_lt.mpr hfull)

end Tree

/-! ### Runs -/

theorem Tree.NoRoom.run {t : Tree} {d : ℕ} (h : t.NoRoom d) (hok : t.Ok) (rs : List Req) :
    (tree.run t rs).NoRoom d := by
  induction rs generalizing t with
  | nil => exact h
  | cons r rs ih =>
    have heffect := t.step_effect r
    exact ih (h.effect hok heffect) (hok.effect heffect)

/-- The numbers of new inodes go up along every run, so no run creates more than eighteen. -/
theorem run_numbers {s : Sys} (h : Mounted s) (rs : List Req) :
    (createdNumbers (osfs.trace s rs)).Pairwise (· < ·) ∧
      (∀ n ∈ createdNumbers (osfs.trace s rs), 1 < n ∧ n < INODE_COUNT) ∧
      (createdNumbers (osfs.trace s rs)).length ≤ INODE_COUNT - 2 := by
  rw [(TreeSim.mounted h).trace rs]
  obtain ⟨hsorted, hrange⟩ := Tree.root.numbers_run rs (by decide)
  refine ⟨hsorted, hrange, ?_⟩
  have hnodup : (createdNumbers (tree.trace Tree.root rs)).Nodup := hsorted.imp Nat.ne_of_lt
  have hsub : createdNumbers (tree.trace Tree.root rs) ⊆ List.range' 2 (INODE_COUNT - 2) := by
    intro n hn
    obtain ⟨h1, h2⟩ := hrange n hn
    exact List.mem_range'_1.mpr ⟨h1, h2⟩
  have hlen := (List.subperm_of_subset hnodup hsub).length_le
  rw [List.length_range'] at hlen
  exact hlen

/-- A directory that has once answered `-ENOSPC` takes no other entry, whoever asks. -/
theorem noSpace_final {s : Sys} (h : Mounted s) (rs rs' : List Req) {dir dir' : InodePtr}
    {dentry : Qstr} {mode : UMode} {env : Env}
    (hfull : osfs.resp (osfs.run s rs) (.create dir dentry mode env) = .createFailed .ENOSPC)
    (hsame : ((osfs.run s (rs ++ rs')).fs.icache.inode dir').iPrivate =
      ((osfs.run s rs).fs.icache.inode dir).iPrivate)
    (dentry' : Qstr) (mode' : UMode) (env' : Env) (p : InodePtr) (ino : ℕ) :
    osfs.resp (osfs.run s (rs ++ rs')) (.create dir' dentry' mode' env') ≠ .created p ino := by
  have hsim := (TreeSim.mounted h).run rs
  have hsim' := (TreeSim.mounted h).run (rs ++ rs')
  have hresp : tree.resp (tree.run Tree.root rs) (.create dir dentry mode env) =
      .createFailed .ENOSPC := (hsim.resp _).trans hfull
  obtain ⟨d, hd, hno⟩ := Tree.create_noSpace hresp
  have hlive := hsim.shows.inode ▸ hd
  have hlater : (tree.run Tree.root (rs ++ rs')).NoRoom d := by
    rw [Machine.run_append]
    exact hno.run hsim.ok rs'
  have hdir' : (tree.run Tree.root (rs ++ rs')).inode dir' = some d := by
    rw [hsim'.shows.inode]
    unfold Fs.live at hlive ⊢
    rw [hsame]
    exact hlive
  intro hc
  exact hlater.refuses hdir' dentry' mode' env' p ino ((hsim'.resp _).trans hc)

/- The root directory takes three entries. -/
def threeFiles : List Req :=
  [.create 0 nameA S_IFREG plainEnv, .create 0 nameB S_IFREG plainEnv,
    .create 0 (Qstr.ofBytes [99]) S_IFREG plainEnv]

theorem threeFiles_full : osfs.resp (osfs.run freshMount threeFiles)
    (.create 0 (Qstr.ofBytes [100]) S_IFREG plainEnv) = .createFailed .ENOSPC := by
  rw [← ((TreeSim.mounted freshMount_mounted).run threeFiles).resp]
  rfl

theorem noSpace_final_three : osfs.resp
    (osfs.run freshMount (threeFiles ++ [.create 0 (Qstr.ofBytes [100]) S_IFREG plainEnv]))
    (.create 0 (Qstr.ofBytes [101]) S_IFREG plainEnv) ≠ .created 4 6 :=
  noSpace_final freshMount_mounted threeFiles _ threeFiles_full (by decide +kernel) _ _ _ 4 6

theorem run_numbers_three :
    (createdNumbers (osfs.trace freshMount threeFiles)).Pairwise (· < ·) ∧
      (∀ n ∈ createdNumbers (osfs.trace freshMount threeFiles), 1 < n ∧ n < INODE_COUNT) ∧
      (createdNumbers (osfs.trace freshMount threeFiles)).length ≤ INODE_COUNT - 2 :=
  run_numbers freshMount_mounted threeFiles

/-! ### Files nobody writes to -/

/- The request is a write through a descriptor that is open on file `k`. -/
def WritesTo (k : ℕ) (s : Sys) (r : Req) : Prop :=
  ∃ fd buf len env f, r = .write fd buf len env ∧ s.file fd = some f ∧
    (s.fs.icache.inode f.fInode).iPrivate = k

theorem fileText_node {sb : OsfsSbInfo} (h : SbInv sb) {k : ℕ} {c : Bytes} :
    sb.fileText k = some c ↔
      ∃ block size, sb.nodeOf k = some (.file block size) ∧ c = block.take size := by
  constructor
  · intro hc
    by_cases hk : sb.Named k ∧ Formatted sb k ∧ sIsReg (sb.inodeTable k).iMode = true
    · obtain ⟨hn, hf, hreg⟩ := hk
      rw [fileText_some hn hf hreg, ← text_eq_take (h.fileSlot hf hreg).size] at hc
      exact ⟨_, _, by rw [nodeOf_some (.inr hn), nodeAt_file hreg], (Option.some.inj hc).symm⟩
    · rw [fileText_none hk] at hc
      cases hc
  · rintro ⟨block, size, hnode, rfl⟩
    have hknown := nodeOf_ne_none (by rw [hnode]; exact Option.some_ne_none _)
    rw [nodeOf_some hknown] at hnode
    have hat := Option.some.inj hnode
    by_cases hd : sIsDir (sb.inodeTable k).iMode = true
    · rw [nodeAt_dir hd] at hat
      cases hat
    by_cases hreg : sIsReg (sb.inodeTable k).iMode = true
    · have hn : sb.Named k := hknown.resolve_left fun hroot => hd (hroot ▸ h.rootDir)
      have hf := h.named_formatted hn
      rw [nodeAt_file hreg] at hat
      obtain ⟨rfl, rfl⟩ := Node.file.inj hat
      rw [fileText_some hn hf hreg, text_eq_take (h.fileSlot hf hreg).size]
    · unfold OsfsSbInfo.nodeAt at hat
      rw [if_neg hd, if_neg hreg] at hat
      cases hat

theorem Tree.Effect.file_keep {t u : Tree} {r : Req} (h : t.Effect r u) (hok : t.Ok) {k size : ℕ}
    {block : Bytes} (hk : t.node k = some (.file block size))
    (hr : ∀ fd buf len env f, r = .write fd buf len env → t.openFile fd = some f →
      t.inode f.fInode ≠ some k) : u.node k = some (.file block size) := by
  cases h with
  | idle hn hi ht hm => rw [hn, hk]
  | found d entries e hd he hn hi ht hm => rw [hn, hk]
  | spent hex hn hi ht hm => rw [hn, hk]
  | created hex d entries name node hd hroom hn hi hnew ht hm =>
    have hne : k ≠ d := by
      rintro rfl
      rw [hd] at hk
      cases hk
    have hold : k ≠ t.taken + 1 := by
      have hle := hok.below k (by rw [hk]; exact Option.some_ne_none _)
      omega
    rw [hn, Function.update_of_ne hne, Function.update_of_ne hold, hk]
  | file j block₁ block' size₁ size' hw hj hn hi ht hm =>
    obtain ⟨fd, buf, len, env, f, he, hopen, hinode⟩ := hw
    have hne : k ≠ j := by
      rintro rfl
      exact hr fd buf len env f he hopen hinode
    rw [hn, Function.update_of_ne hne, hk]

theorem TreeSim.file_keep {s : Sys} {t : Tree} (h : TreeSim s t) {rs : List Req} {k size : ℕ}
    {block : Bytes} (hk : t.node k = some (.file block size))
    (hno : osfs.EveryStep (fun s r => ¬ WritesTo k s r) s rs) :
    (tree.run t rs).node k = some (.file block size) := by
  induction rs generalizing s t with
  | nil => exact hk
  | cons r rs ih =>
    refine ih (h.next r) ((t.step_effect r).file_keep h.ok hk ?_) hno.2
    rintro fd buf len env f rfl hopen hinode
    rw [h.openFile fd] at hopen
    rw [h.shows.inode] at hinode
    unfold Fs.live at hinode
    split at hinode
    · cases hinode
    · exact hno.1 ⟨fd, buf, len, env, f, rfl, hopen, Option.some.inj hinode⟩

/-- A file keeps its text over any run in which nobody writes to it, whatever else is created,
truncated, evicted or written, and whichever writes to other files fault. -/
theorem file_untouched {s : Sys} (h : Mounted s) (rs rs' : List Req) {k : ℕ} {c : Bytes}
    (hk : (osfs.run s rs).fs.sb.fileText k = some c)
    (hno : osfs.EveryStep (fun s r => ¬ WritesTo k s r) (osfs.run s rs) rs') :
    (osfs.run s (rs ++ rs')).fs.sb.fileText k = some c := by
  have hsim := (TreeSim.mounted h).run rs
  have hsim' := (TreeSim.mounted h).run (rs ++ rs')
  obtain ⟨block, size, hnode, rfl⟩ := (fileText_node hsim.inv.fs.sb).mp hk
  have hkeep := hsim.file_keep (by rw [hsim.shows.node]; exact hnode) hno
  rw [← Machine.run_append, hsim'.shows.node] at hkeep
  exact (fileText_node hsim'.inv.fs.sb).mpr ⟨block, size, hkeep, rfl⟩

/- One file is written, then the other one is written with a fault, and the first one truncated. -/
def twoOpen : List Req :=
  [.create 0 nameA S_IFREG plainEnv, .create 0 nameB S_IFREG plainEnv, .open 1, .open 2,
    .write 0 [104, 105] 2 plainEnv]

def otherFault : List Req := [.write 1 [106] 5 plainEnv, .truncate 1 plainEnv]

theorem twoOpen_text : (osfs.run freshMount twoOpen).fs.sb.fileText 2 = some [104, 105] :=
  have hsim := (TreeSim.mounted freshMount_mounted).run twoOpen
  (fileText_node hsim.inv.fs.sb).mpr ⟨_, _, (congrFun hsim.shows.node 2).symm, rfl⟩

theorem otherFault_elsewhere :
    osfs.EveryStep (fun s r => ¬ WritesTo 2 s r) (osfs.run freshMount twoOpen) otherFault := by
  refine ⟨?_, ?_, trivial⟩
  · rintro ⟨fd, buf, len, env, f, he, hf, hk⟩
    cases he
    have hfile : (osfs.run freshMount twoOpen).file 1 = some ⟨2, 0⟩ := by decide +kernel
    rw [hfile] at hf
    cases hf
    revert hk
    decide +kernel
  · rintro ⟨fd, buf, len, env, f, he, -, -⟩
    cases he

theorem file_untouched_otherFault :
    (osfs.run freshMount (twoOpen ++ otherFault)).fs.sb.fileText 2 = some [104, 105] :=
  file_untouched freshMount_mounted twoOpen otherFault twoOpen_text otherFault_elsewhere

end OSLab.Done
