import OSLab.Done.Tree

/-!
# How the tree grows

What one request can do to the tree, and what follows for runs: numbers and
entries only ever come, nodes keep their kind.
-/

namespace OSLab.Done
open OSLab.Base OSLab.Kernel

theorem Tree.dirAt_some {t : Tree} {p : InodePtr} {d : ℕ} {entries : List (Bytes × ℕ)}
    (h : t.dirAt p = some (d, entries)) : t.inode p = some d ∧ t.node d = some (.dir entries) := by
  unfold Tree.dirAt at h
  obtain ⟨k, hk, hnode⟩ := Option.bind_eq_some_iff.mp h
  cases hn : t.node k with
  | none =>
    rw [hn] at hnode
    cases hnode
  | some node =>
    rw [hn] at hnode
    cases node with
    | dir es =>
      obtain ⟨rfl, rfl⟩ := Prod.mk.inj (Option.some.inj hnode)
      exact ⟨hk, hn⟩
    | file block size => cases hnode
    | symlink => cases hnode

theorem Tree.fileAt_some {t : Tree} {p : InodePtr} {k size : ℕ} {block : Bytes}
    (h : t.fileAt p = some (k, block, size)) :
    t.inode p = some k ∧ t.node k = some (.file block size) := by
  unfold Tree.fileAt at h
  obtain ⟨j, hj, hnode⟩ := Option.bind_eq_some_iff.mp h
  cases hn : t.node j with
  | none =>
    rw [hn] at hnode
    cases hnode
  | some node =>
    rw [hn] at hnode
    cases node with
    | dir es => cases hnode
    | file b n =>
      obtain ⟨rfl, hrest⟩ := Prod.mk.inj (Option.some.inj hnode)
      obtain ⟨rfl, rfl⟩ := Prod.mk.inj hrest
      exact ⟨hj, hn⟩
    | symlink => cases hnode

/-- What one request can do to the tree. -/
inductive Tree.Effect (t : Tree) (r : Req) (u : Tree) : Prop where
  | idle (hn : u.node = t.node) (hi : ∀ p k, u.inode p = some k → t.inode p = some k)
      (ht : u.taken = t.taken) (hm : u.made = t.made)
  | found (d : ℕ) (entries : List (Bytes × ℕ)) (e : Bytes × ℕ)
      (hd : t.node d = some (.dir entries)) (he : e ∈ entries) (hn : u.node = t.node)
      (hi : u.inode = Function.update t.inode t.count (some e.2)) (ht : u.taken = t.taken)
      (hm : u.made = t.made)
  | spent (hex : ¬ Exhausted t.taken t.made) (hn : u.node = t.node)
      (hi : u.inode = t.inode) (ht : u.taken = t.taken + 1)
      (hm : u.made = t.made ∨ u.made = t.made + 1)
  | created (hex : ¬ Exhausted t.taken t.made) (d : ℕ) (entries : List (Bytes × ℕ))
      (name : Bytes) (node : Node) (hd : t.node d = some (.dir entries))
      (hroom : entries.length < MAX_DIR_ENTRIES)
      (hn : u.node = Function.update (Function.update t.node (t.taken + 1) (some node)) d
        (some (.dir (entries ++ [(name, t.taken + 1)]))))
      (hi : u.inode = Function.update t.inode t.count (some (t.taken + 1)))
      (hnew : ∃ mode, node = .new mode)
      (ht : u.taken = t.taken + 1) (hm : u.made = t.made + 1)
  | file (k : ℕ) (block block' : Bytes) (size size' : ℕ)
      (hr : ∃ fd buf len env f, r = .write fd buf len env ∧ t.openFile fd = some f ∧
        t.inode f.fInode = some k)
      (hk : t.node k = some (.file block size))
      (hn : u.node = Function.update t.node k (some (.file block' size')))
      (hi : u.inode = t.inode) (ht : u.taken = t.taken) (hm : u.made = t.made)

theorem Tree.Effect.refl (t : Tree) (r : Req) : t.Effect r t := .idle rfl (fun _ _ h => h) rfl rfl

theorem Tree.create_effect (t : Tree) (dir : InodePtr) (dentry : Qstr) (mode : UMode) (env : Env) :
    t.Effect (.create dir dentry mode env) (t.create dir dentry mode env).2 := by
  unfold Tree.create
  cases hdir : t.dirAt dir with
  | none => exact .refl t _
  | some de =>
    obtain ⟨d, entries⟩ := de
    have hd := (dirAt_some hdir).2
    dsimp only
    by_cases hlen : MAX_FILENAME_LEN < dentry.len
    · rw [if_pos hlen]
      exact .refl t _
    rw [if_neg hlen]
    by_cases hmode : (!modeSupported mode) = true
    · rw [if_pos hmode]
      exact .refl t _
    rw [if_neg hmode]
    by_cases hex : Exhausted t.taken t.made
    · rw [if_pos hex]
      exact .refl t _
    rw [if_neg hex]
    by_cases henv : (!env.newInodeOk) = true
    · rw [if_pos henv]
      exact .spent hex rfl rfl rfl (.inl rfl)
    rw [if_neg henv]
    by_cases hfull : MAX_DIR_ENTRIES ≤ entries.length
    · rw [if_pos hfull]
      exact .spent hex rfl rfl rfl (.inr rfl)
    rw [if_neg hfull]
    by_cases hin : (entries.any fun e => e.1 = dentry.name) = true
    · rw [if_pos hin]
      exact .spent hex rfl rfl rfl (.inr rfl)
    rw [if_neg hin]
    exact .created hex d entries dentry.name _ hd (Nat.lt_of_not_le hfull) rfl rfl ⟨mode, rfl⟩ rfl
      rfl

theorem Tree.lookup_effect (t : Tree) (dir : InodePtr) (dentry : Qstr) (env : Env) :
    t.Effect (.lookup dir dentry env) (t.lookup dir dentry env).2 := by
  unfold Tree.lookup
  cases hdir : t.dirAt dir with
  | none => exact .refl t _
  | some de =>
    obtain ⟨d, entries⟩ := de
    have hd := (dirAt_some hdir).2
    dsimp only
    cases hfind : entries.find? fun e => e.1 = dentry.name with
    | none => exact .refl t _
    | some e =>
      have he := List.mem_of_find?_eq_some hfind
      dsimp only
      by_cases henv : env.newInodeOk = true
      · rw [if_pos henv]
        exact .found d entries e hd he rfl rfl rfl rfl
      · rw [if_neg henv]
        exact .refl t _

theorem Tree.write_effect (t : Tree) (fd : ℕ) (buf : Bytes) (len : ℕ) (env : Env) :
    t.Effect (.write fd buf len env) (t.write fd buf len).2 := by
  unfold Tree.write
  cases hopen : t.openFile fd with
  | none => exact .refl t _
  | some f =>
    dsimp only
    cases hfile : t.fileAt f.fInode with
    | none => exact .refl t _
    | some r =>
      obtain ⟨k, block, size⟩ := r
      obtain ⟨hinode, hk⟩ := fileAt_some hfile
      dsimp only
      by_cases hpos : LLONG_MAX < f.fPos + len
      · rw [if_pos hpos]
        exact .refl t _
      rw [if_neg hpos]
      by_cases hpast : BLOCK_SIZE < f.fPos
      · rw [if_pos hpast]
        exact .refl t _
      rw [if_neg hpast]
      split
      · exact .file k block _ size _ ⟨fd, buf, len, env, f, rfl, hopen, hinode⟩ hk rfl rfl rfl rfl
      · exact .file k block _ size _ ⟨fd, buf, len, env, f, rfl, hopen, hinode⟩ hk rfl rfl rfl rfl

theorem Tree.step_effect (t : Tree) (r : Req) : t.Effect r (t.step r).2 := by
  cases r with
  | create dir dentry mode env => exact t.create_effect dir dentry mode env
  | lookup dir dentry env => exact t.lookup_effect dir dentry env
  | write fd buf len env => exact t.write_effect fd buf len env
  | «open» p =>
    simp only [Tree.step]
    split
    · exact .idle rfl (fun _ _ h => h) rfl rfl
    · exact .refl t _
  | close fd => exact .idle rfl (fun _ _ h => h) rfl rfl
  | seek fd pos =>
    simp only [Tree.step]
    cases t.openFile fd with
    | none => exact .refl t _
    | some f =>
      dsimp only
      split
      · exact .idle rfl (fun _ _ h => h) rfl rfl
      · exact .refl t _
  | read fd room len =>
    simp only [Tree.step, Tree.read]
    cases t.openFile fd with
    | none => exact .refl t _
    | some f =>
      dsimp only
      cases t.fileAt f.fInode with
      | none => exact .refl t _
      | some r =>
        dsimp only
        split
        · exact .refl t _
        split
        · exact .idle rfl (fun _ _ h => h) rfl rfl
        · exact .refl t _
  | truncate p env =>
    simp only [Tree.step]
    split <;> exact .refl t _
  | evict p =>
    simp only [Tree.step]
    split
    · refine .idle rfl (fun q k h => ?_) rfl rfl
      dsimp only at h
      by_cases hq : q = p
      · subst hq
        rw [Function.update_self] at h
        cases h
      · rw [Function.update_of_ne hq] at h
        exact h
    · exact .refl t _

/-- Every live VFS inode and every entry stands for a node, and the numbers of the nodes are taken. -/
structure Tree.Ok (t : Tree) : Prop where
  linked : ∀ p k, t.inode p = some k → t.node k ≠ none
  named : ∀ d entries, t.node d = some (.dir entries) → ∀ e ∈ entries, t.node e.2 ≠ none
  below : ∀ k, t.node k ≠ none → k ≤ t.taken

theorem Tree.root_node : Tree.root.node =
    Function.update (fun _ => none) ROOT_INODE (some (.dir [])) := rfl

theorem Tree.root_inode : Tree.root.inode = Function.update (fun _ => none) 0 (some ROOT_INODE) := rfl

theorem Tree.root_only {k : ℕ} {node : Node} (h : Tree.root.node k = some node) :
    k = ROOT_INODE ∧ node = .dir [] := by
  rw [Tree.root_node] at h
  by_cases hk : k = ROOT_INODE
  · subst hk
    rw [Function.update_self] at h
    exact ⟨rfl, (Option.some.inj h).symm⟩
  · rw [Function.update_of_ne hk] at h
    cases h

theorem Tree.Ok.root : Tree.root.Ok := by
  refine ⟨fun p k h => ?_, fun d entries h e he => ?_, fun k h => ?_⟩
  · rw [Tree.root_inode] at h
    by_cases hp : p = 0
    · subst hp
      rw [Function.update_self] at h
      rw [← Option.some.inj h, Tree.root_node, Function.update_self]
      exact Option.some_ne_none _
    · rw [Function.update_of_ne hp] at h
      cases h
  · rw [Node.dir.inj (Tree.root_only h).2] at he
    cases he
  · obtain ⟨node, hn⟩ := Option.ne_none_iff_exists'.mp h
    rw [(Tree.root_only hn).1]
    exact Nat.le_refl 1

section Effect
variable {t u : Tree} {r : Req}

theorem Tree.Effect.node_keep (h : t.Effect r u) {k : ℕ} (hk : t.node k ≠ none) : u.node k ≠ none := by
  cases h with
  | idle hn _ _ _ =>
    rw [hn]
    exact hk
  | found d entries e hd he hn hi ht hm =>
    rw [hn]
    exact hk
  | spent hex hn hi ht hm =>
    rw [hn]
    exact hk
  | created hex d entries name node hd hroom hn hi hnew ht hm =>
    rw [hn, Function.update_apply, Function.update_apply]
    split
    · exact Option.some_ne_none _
    split
    · exact Option.some_ne_none _
    · exact hk
  | file j block block' size size' hr hj hn hi ht hm =>
    rw [hn, Function.update_apply]
    split
    · exact Option.some_ne_none _
    · exact hk

theorem Tree.Ok.effect (h : t.Ok) (he : t.Effect r u) : u.Ok := by
  have hkeep {k : ℕ} (hk : t.node k ≠ none) : u.node k ≠ none := he.node_keep hk
  cases he with
  | idle hn hi ht hm =>
    refine ⟨fun p k hp => hkeep (h.linked p k (hi p k hp)), ?_, ?_⟩
    · rw [hn]
      exact h.named
    · rw [hn, ht]
      exact h.below
  | found d entries e hd he hn hi ht hm =>
    refine ⟨fun p k hp => ?_, ?_, ?_⟩
    · rw [hi, Function.update_apply] at hp
      split at hp
      · rw [← Option.some.inj hp]
        exact hkeep (h.named d entries hd e he)
      · exact hkeep (h.linked p k hp)
    · rw [hn]
      exact h.named
    · rw [hn, ht]
      exact h.below
  | spent hex hn hi ht hm =>
    refine ⟨?_, ?_, fun k hk => ?_⟩
    · rw [hn, hi]
      exact h.linked
    · rw [hn]
      exact h.named
    · rw [hn] at hk
      rw [ht]
      exact Nat.le_succ_of_le (h.below k hk)
  | created hex d entries name node hd hroom hn hi hnew ht hm =>
    have hino : u.node (t.taken + 1) ≠ none := by
      rw [hn, Function.update_apply, Function.update_self]
      split <;> exact Option.some_ne_none _
    refine ⟨fun p k hp => ?_, fun c es hc e hin => ?_, fun k hk => ?_⟩
    · rw [hi, Function.update_apply] at hp
      split at hp
      · rw [← Option.some.inj hp]
        exact hino
      · exact hkeep (h.linked p k hp)
    · rw [hn] at hc
      by_cases hcd : c = d
      · subst hcd
        rw [Function.update_self] at hc
        rw [← Node.dir.inj (Option.some.inj hc)] at hin
        rcases List.mem_append.mp hin with hold | hnew
        · exact hkeep (h.named c entries hd e hold)
        · rw [List.mem_singleton.mp hnew]
          exact hino
      · rw [Function.update_of_ne hcd, Function.update_apply] at hc
        split at hc
        · obtain ⟨mode, rfl⟩ := hnew
          unfold Node.new at hc
          split at hc
          · rw [← Node.dir.inj (Option.some.inj hc)] at hin
            cases hin
          · split at hc <;> cases hc
        · exact hkeep (h.named c es hc e hin)
    · rw [ht]
      by_cases hki : k = t.taken + 1
      · exact Nat.le_of_eq hki
      · rw [hn, Function.update_apply] at hk
        split at hk
        · rename_i hkd
          rw [hkd]
          exact Nat.le_succ_of_le (h.below d (by rw [hd]; exact Option.some_ne_none _))
        · rw [Function.update_of_ne hki] at hk
          exact Nat.le_succ_of_le (h.below k hk)
  | file j block block' size size' hr hj hn hi ht hm =>
    refine ⟨fun p k hp => hkeep (h.linked p k (hi ▸ hp)), fun c es hc e hin => ?_, fun k hk => ?_⟩
    · rw [hn, Function.update_apply] at hc
      split at hc
      · cases hc
      · exact hkeep (h.named c es hc e hin)
    · rw [ht]
      apply h.below
      rw [hn, Function.update_apply] at hk
      split at hk
      · rename_i hkj
        rw [hkj, hj]
        exact Option.some_ne_none _
      · exact hk

end Effect

end OSLab.Done
