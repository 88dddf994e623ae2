import Mathlib.Data.List.Perm.Subperm
import OSLab.Shell.Malloc
import OSLab.Shell.Pieces
import OSLab.Shell.Reading

/-!
# What the shell owns

The blocks of a command are those that `split_line` has got from `malloc`, and
the loop behind the command frees each of them once. Between two commands the
shell has the history buffers and nothing else.
-/

namespace OSLab.Shell.Malloc
open OSLab.Base OSLab.Base.Heap

/-- The node at a pointer, with the two blocks that it owns. -/
def NodeAt (h : Memory) (p : ℕ) (ids : List ℕ) (next : Option ℕ) (n : CmdNode) : Prop :=
  ∃ b slots, h.load p = some (.node b) ∧ h.load b.args = some (.array slots) ∧
    ids = [p, b.args] ∧ b.next = next ∧ n = b.node slots

theorem nodeAt_local : LocalCell NodeAt := by
  intro h h' p ids next n ⟨b, slots, hp, hargs, hids, hnext, hn⟩ hsame
  subst hids
  refine ⟨b, slots, ?_, ?_, rfl, hnext, hn⟩
  · rw [hsame p (List.mem_cons_self ..), hp]
  · rw [hsame b.args (List.mem_cons_of_mem _ (List.mem_singleton_self _)), hargs]

theorem NodeAt.blocks {h : Memory} {p : ℕ} {ids : List ℕ} {next : Option ℕ} {n : CmdNode}
    (hn : NodeAt h p ids next n) {b : NodeBlock} (hb : h.load p = some (.node b)) :
    ids = [p, b.args] ∧ b.next = next := by
  obtain ⟨b', _, hb', -, hids, hnext, -⟩ := hn
  rw [hb, Option.some.injEq, Block.node.injEq] at hb'
  subst hb'
  exact ⟨hids, hnext⟩

/-- The blocks behind the command block are those of the nodes, and the ones in front of it are as
they were in `h₀`. -/
structure Owns (h₀ h : Memory) (cmd : ℕ) (ids : List ℕ) : Prop where
  first : cmd = h₀.size
  nodup : ids.Nodup
  mem : ∀ id, id ∈ ids ↔ cmd < id ∧ id < h.size
  frame : ∀ id, id < cmd → h.load id = h₀.load id

/-- The parser in memory: the list from the command block to `temp`, and the node at `temp`. -/
structure ParseAt (h₀ h : Memory) (cmd temp : ℕ) (p : Parse) (head : Option ℕ) (ids ids' : List ℕ) :
    Prop where
  list : h.load cmd = some (.cmd head p.pipeNum)
  before : Segment NodeAt h head ids p.before (some temp)
  temp : NodeAt h temp ids' none p.temp
  owns : Owns h₀ h cmd (ids ++ ids')

structure CmdAt (h₀ h : Memory) (cmd : ℕ) (c : Cmd) (head : Option ℕ) (ids : List ℕ) : Prop where
  list : h.load cmd = some (.cmd head c.pipeNum)
  nodes : Segment NodeAt h head ids c.nodes none
  owns : Owns h₀ h cmd ids

variable {h₀ h h' : Memory} {cmd temp : ℕ} {p : Parse} {head : Option ℕ} {ids ids' : List ℕ}
  {ns : List CmdNode}

theorem ParseAt.cmdAt (hp : ParseAt h₀ h cmd temp p head ids ids') :
    CmdAt h₀ h cmd p.cmd head (ids ++ ids') :=
  ⟨hp.list, hp.before.append (.single hp.temp), hp.owns⟩

theorem Owns.not_cmd (ho : Owns h₀ h cmd ids) : cmd ∉ ids := fun hin =>
  absurd ((ho.mem cmd).mp hin).1 (Nat.lt_irrefl cmd)

theorem loadNode_eq {b : NodeBlock} (hp : h.load temp = some (.node b)) :
    loadNode h temp = some b := by
  unfold loadNode
  rw [hp]

theorem loadArray_eq {q : ℕ} {slots : List (Option Bytes)} (hq : h.load q = some (.array slots)) :
    loadArray h q = some slots := by
  unfold loadArray
  rw [hq]

theorem loadCmd_eq {n : ℕ} (hp : h.load cmd = some (.cmd head n)) :
    loadCmd h cmd = some (head, n) := by
  unfold loadCmd
  rw [hp]

/-! ### One token -/

/-- A new node takes the next two blocks. -/
theorem newNode_spec (h : Memory) :
    ∃ h', newNode h = some (h.size, h') ∧ h'.size = h.size + 2 ∧
      NodeAt h' h.size [h.size, h.size + 1] none .empty ∧
      ∀ id, id < h.size → h'.load id = h.load id := by
  let h1 := (h.malloc .raw).2
  let h2 := (h1.malloc (.array (List.replicate argsLength none))).2
  have hsize1 : h1.size = h.size + 1 := h.malloc_size _
  have hsize2 : h2.size = h.size + 2 := by
    rw [h1.malloc_size, hsize1]
  have hraw : h1.load h.size = some .raw := h.malloc_same _
  have harray : h2.load (h.size + 1) = some (.array (List.replicate argsLength none)) := by
    rw [← hsize1]
    exact h1.malloc_same _
  have hnode : h2.load h.size = some .raw :=
    (h1.malloc_other _ (by omega)).trans hraw
  obtain ⟨h', hstore, hsize, hsame, hother⟩ := store_spec hnode (.node (.empty h1.size))
  refine ⟨h', ?_, hsize.trans hsize2, ?_, fun id hid => ?_⟩
  · change (h2.store h.size (.node (.empty h1.size))).bind (fun h' => some (h.size, h')) = _
    rw [hstore]
    rfl
  · refine ⟨.empty h1.size, List.replicate argsLength none, hsame, ?_, ?_, rfl, rfl⟩
    · change h'.load h1.size = _
      rw [hsize1, hother _ (by omega), harray]
    · change [h.size, h.size + 1] = [h.size, h1.size]
      rw [hsize1]
  · rw [hother id (by omega)]
    exact (h1.malloc_other _ (by omega)).trans (h.malloc_other _ (by omega))

/-- A store to blocks of the node at `temp` that leaves it a node at the end of the list. -/
theorem ParseAt.setTemp (hp : ParseAt h₀ h cmd temp p head ids ids') {n : CmdNode}
    (hn : NodeAt h' temp ids' none n) (hsize : h'.size = h.size)
    (hother : ∀ id, id ∉ ids' → h'.load id = h.load id) :
    ParseAt h₀ h' cmd temp { p with temp := n } head ids ids' where
  list := by
    have hcmd : cmd ∉ ids' := fun hin => hp.owns.not_cmd (List.mem_append_right _ hin)
    rw [hother cmd hcmd]
    exact hp.list
  before := hp.before.frame nodeAt_local fun id hid =>
    hother id fun hid' => (List.nodup_append.mp hp.owns.nodup).2.2 id hid id hid' rfl
  temp := hn
  owns := by
    refine ⟨hp.owns.first, hp.owns.nodup, fun id => ?_, fun id hid => ?_⟩
    · rw [hp.owns.mem, hsize]
    · have hnot : id ∉ ids' := fun hin => by
        have hlt := ((hp.owns.mem id).mp (List.mem_append_right _ hin)).1
        omega
      rw [hother id hnot]
      exact hp.owns.frame id hid

/-- The node at `temp` is stored anew, with the same array and at the end of the list. -/
theorem ParseAt.storeNode (hp : ParseAt h₀ h cmd temp p head ids ids') {b : NodeBlock}
    {slots : List (Option Bytes)} (hb : h.load temp = some (.node b))
    (hslots : h.load b.args = some (.array slots)) (b' : NodeBlock) (hargs : b'.args = b.args)
    (hnext : b'.next = none) :
    ∃ h', h.store temp (.node b') = some h' ∧
      ParseAt h₀ h' cmd temp { p with temp := b'.node slots } head ids ids' := by
  obtain ⟨hids, -⟩ := hp.temp.blocks hb
  have hne : b.args ≠ temp := fun he => by
    rw [he, hb] at hslots
    cases hslots
  obtain ⟨h', hstore, hsize, hsame, hother⟩ := store_spec hb (.node b')
  refine ⟨h', hstore, hp.setTemp ⟨b', slots, hsame, ?_, ?_, hnext, rfl⟩ hsize fun id hid => ?_⟩
  · rw [hargs, hother _ hne, hslots]
  · rw [hids, hargs]
  · refine hother id fun he => hid ?_
    rw [hids, he]
    exact List.mem_cons_self ..

theorem ParseAt.addArg (hp : ParseAt h₀ h cmd temp p head ids ids') {b : NodeBlock}
    {slots : List (Option Bytes)} (hb : h.load temp = some (.node b))
    (hslots : h.load b.args = some (.array slots)) (hroom : b.length < argsLength) (token : Bytes) :
    ∃ h', addArg h temp b token = some h' ∧ ParseAt h₀ h' cmd temp
      { p with temp := NodeBlock.node { b with length := b.length + 1 }
                (slots.set b.length (some token)) } head ids ids' := by
  obtain ⟨hids, hnext⟩ := hp.temp.blocks hb
  have hne : temp ≠ b.args := fun he => by
    rw [← he, hb] at hslots
    cases hslots
  obtain ⟨h₁, hstore₁, hsize₁, hsame₁, hother₁⟩ :=
    store_spec hslots (.array (slots.set b.length (some token)))
  have hnode : h₁.load temp = some (.node b) := (hother₁ temp hne).trans hb
  have hp₁ : ParseAt h₀ h₁ cmd temp { p with temp := b.node (slots.set b.length (some token)) } head
      ids ids' := by
    refine hp.setTemp ⟨b, _, hnode, hsame₁, hids, hnext, rfl⟩ hsize₁ fun id hid => ?_
    refine hother₁ id fun he => hid ?_
    rw [hids, he]
    exact List.mem_cons_of_mem _ (List.mem_singleton_self _)
  obtain ⟨h', hstore, hp'⟩ :=
    hp₁.storeNode hnode hsame₁ { b with length := b.length + 1 } rfl hnext
  refine ⟨h', ?_, hp'⟩
  simp only [Malloc.addArg, loadArray_eq hslots, Option.bind_eq_bind, Option.bind_some, hroom,
    ite_true, hstore₁, hstore]

/-- A bar puts a new node behind `temp`. -/
theorem ParseAt.newPipe (hp : ParseAt h₀ h cmd temp p head ids ids') :
    ∃ h₁ h' b, newNode h = some (h.size, h₁) ∧ h₁.load temp = some (.node b) ∧
      h₁.store temp (.node { b with next := some h.size }) = some h' ∧
      ParseAt h₀ h' cmd h.size ⟨p.before ++ [p.temp], .empty, p.pipeNum⟩ head (ids ++ ids')
        [h.size, h.size + 1] := by
  obtain ⟨b, slots, hb, hslots, hids, hnext, hn⟩ := hp.temp
  obtain ⟨h₁, hnew, hsize₁, hempty, hold⟩ := newNode_spec h
  have htemp := lt_size hb
  have hargs := lt_size hslots
  have hb₁ : h₁.load temp = some (.node b) := (hold _ htemp).trans hb
  obtain ⟨h', hstore, hsize, hsame, hother⟩ := store_spec hb₁ (.node { b with next := some h.size })
  have hmem : temp ∈ ids ++ ids' := by
    rw [hids]
    exact List.mem_append_right _ (List.mem_cons_self ..)
  have hfar {id : ℕ} (hlt : id < h.size) (hne : id ≠ temp) : h'.load id = h.load id :=
    (hother id hne).trans (hold id hlt)
  have hcmd : cmd < temp := ((hp.owns.mem temp).mp hmem).1
  have hne : b.args ≠ temp := fun he => by
    rw [he, hb] at hslots
    cases hslots
  have hnotin {id : ℕ} (hid : id ∈ ids) : id ≠ temp := fun he => by
    refine (List.nodup_append.mp hp.owns.nodup).2.2 id hid temp ?_ he
    rw [hids]
    exact List.mem_cons_self ..
  have hlast : NodeAt h' temp ids' (some h.size) p.temp := by
    refine ⟨{ b with next := some h.size }, slots, hsame, ?_, hids, rfl, hn⟩
    exact (hfar hargs hne).trans hslots
  refine ⟨h₁, h', b, hnew, hb₁, hstore, ?_, ?_, ?_, ?_⟩
  · rw [hfar (by omega) (Nat.ne_of_lt hcmd)]
    exact hp.list
  · refine Segment.append (hp.before.frame nodeAt_local fun id hid => ?_) (.single hlast)
    exact hfar ((hp.owns.mem id).mp (List.mem_append_left _ hid)).2 (hnotin hid)
  · refine nodeAt_local _ _ _ _ _ _ hempty fun id hid => hother id ?_
    simp only [List.mem_cons, List.not_mem_nil, or_false] at hid
    omega
  · refine ⟨hp.owns.first, ?_, fun id => ?_, fun id hid => ?_⟩
    · refine List.nodup_append.mpr ⟨hp.owns.nodup, by simp, fun id hid id' hid' => ?_⟩
      have hlt := ((hp.owns.mem id).mp hid).2
      simp only [List.mem_cons, List.not_mem_nil, or_false] at hid'
      omega
    · rw [List.mem_append, hp.owns.mem, hsize, hsize₁]
      simp only [List.mem_cons, List.not_mem_nil, or_false]
      omega
    · rw [hfar (by omega) (by omega)]
      exact hp.owns.frame id hid

/-- The parser has got as far as `p`. -/
def Parses (h₀ h : Memory) (cmd temp : ℕ) (p : Parse) : Prop :=
  ∃ head ids ids', ParseAt h₀ h cmd temp p head ids ids'

theorem Parses.token (hp : Parses h₀ h cmd temp p) (token rest : Bytes) :
    match p.token token rest with
    | none => tokenPass h temp token rest = none
    | some (p', rest') => ∃ temp' h', tokenPass h temp token rest = some (temp', rest', h') ∧
        Parses h₀ h' cmd temp' p' := by
  obtain ⟨head, ids, ids', hp⟩ := hp
  obtain ⟨b, slots, hb, hslots, -, hnext, hn⟩ := hp.temp
  unfold Parse.token tokenPass
  by_cases hbar : token.head? = some BAR
  · obtain ⟨h₁, h', b₁, hnew, hb₁, hstore, hp'⟩ := hp.newPipe
    simp only [hbar, ite_true, hnew, Option.bind_eq_bind, Option.bind_some, loadNode_eq hb₁, hstore]
    exact ⟨h.size, h', rfl, _, _, _, hp'⟩
  by_cases hless : token.head? = some LESS
  · obtain ⟨h', hstore, hp'⟩ :=
      hp.storeNode hb hslots { b with inFile := (nextToken rest).1 } rfl hnext
    rw [if_neg hbar, if_neg hbar, if_pos hless]
    simp only [hless, ite_true, loadNode_eq hb, Option.bind_eq_bind, Option.bind_some, hstore]
    rw [hn]
    exact ⟨temp, h', rfl, head, ids, ids', hp'⟩
  by_cases hgreater : token.head? = some GREATER
  · obtain ⟨h', hstore, hp'⟩ :=
      hp.storeNode hb hslots { b with outFile := (nextToken rest).1 } rfl hnext
    rw [if_neg hbar, if_neg hbar, if_neg hless, if_pos hgreater]
    simp only [hgreater, ite_true, loadNode_eq hb, Option.bind_eq_bind, Option.bind_some, hstore]
    rw [hn]
    exact ⟨temp, h', rfl, head, ids, ids', hp'⟩
  · have hlength : p.temp.length = b.length := by
      rw [hn]
      rfl
    unfold CmdNode.addArg
    rw [hlength]
    by_cases hroom : b.length < argsLength
    · obtain ⟨h', hadd, hp'⟩ := hp.addArg hb hslots hroom token
      simp only [hbar, hless, hgreater, ite_false, loadNode_eq hb, Option.bind_eq_bind,
        Option.bind_some, hadd, hroom, ite_true, Option.map_some]
      rw [hn]
      exact ⟨temp, h', rfl, head, ids, ids', hp'⟩
    · simp only [hbar, hless, hgreater, ite_false, loadNode_eq hb, Option.bind_eq_bind,
        Option.bind_some, hroom, Option.map_none, Malloc.addArg, loadArray_eq hslots,
        Option.bind_none]

theorem Parses.count (hp : Parses h₀ h cmd temp p) :
    ∃ h', countToken h cmd = some h' ∧
      Parses h₀ h' cmd temp { p with pipeNum := p.pipeNum + 1 } := by
  obtain ⟨head, ids, ids', hp⟩ := hp
  obtain ⟨h', hstore, hsize, hsame, hother⟩ := store_spec hp.list (.cmd head (p.pipeNum + 1))
  have hkeep {id : ℕ} (hid : id ∈ ids ++ ids') : h'.load id = h.load id :=
    hother id fun he => hp.owns.not_cmd (he ▸ hid)
  refine ⟨h', ?_, head, ids, ids', hsame, ?_, ?_, hp.owns.first, hp.owns.nodup, ?_, ?_⟩
  · simp only [countToken, loadCmd_eq hp.list, Option.bind_eq_bind, Option.bind_some, hstore]
  · exact hp.before.frame nodeAt_local fun id hid => hkeep (List.mem_append_left _ hid)
  · exact nodeAt_local _ _ _ _ _ _ hp.temp fun id hid => hkeep (List.mem_append_right _ hid)
  · intro id
    rw [hp.owns.mem, hsize]
  · intro id hid
    rw [hother id (Nat.ne_of_lt hid)]
    exact hp.owns.frame id hid

/-! ### The whole line -/

/-- The command is in memory as `c`. -/
def Holds (h₀ h : Memory) (cmd : ℕ) (c : Cmd) : Prop := ∃ head ids, CmdAt h₀ h cmd c head ids

theorem splitLoop_end {rest : Bytes} (ht : strtok SPACE rest = none) :
    splitLoop h cmd temp rest = some h := by
  rw [splitLoop]
  split
  · rfl
  · rename_i heq
    rw [ht] at heq
    cases heq

theorem splitLoop_next {s t rest : Bytes} (ht : strtok SPACE s = some (t, rest)) :
    splitLoop h cmd temp s = (tokenPass h temp t rest).bind fun r =>
      (countToken r.2.2 cmd).bind fun h => splitLoop h cmd r.1 r.2.1 := by
  rw [splitLoop]
  split
  · rename_i heq
    rw [ht] at heq
    cases heq
  · rename_i heq
    rw [ht] at heq
    obtain ⟨rfl, rfl⟩ := Prod.mk.inj (Option.some.inj heq)
    split
    · rename_i hpass
      rw [hpass]
      rfl
    · rename_i hpass
      rw [hpass, Option.bind_some]
      split
      · rename_i hcount
        rw [hcount]
        rfl
      · rename_i hcount
        rw [hcount]
        rfl

theorem Parses.loop (hp : Parses h₀ h cmd temp p) (rest : Bytes) :
    match Shell.splitLoop p rest with
    | none => splitLoop h cmd temp rest = none
    | some c => ∃ h', splitLoop h cmd temp rest = some h' ∧ Holds h₀ h' cmd c := by
  -- induction on the text that is left
  induction hn : rest.length using Nat.strongRecOn generalizing h temp p rest with
  | ind n ih =>
    subst hn
    cases htok : strtok SPACE rest with
    | none =>
      obtain ⟨head, ids, ids', hat⟩ := hp
      rw [Shell.splitLoop_end htok, splitLoop_end htok]
      exact ⟨h, rfl, head, _, hat.cmdAt⟩
    | some r =>
      obtain ⟨token, rest₁⟩ := r
      rw [Shell.splitLoop_next htok, splitLoop_next htok]
      have hpass := hp.token token rest₁
      cases hspec : p.token token rest₁ with
      | none =>
        rw [hspec] at hpass
        rw [hpass]
        rfl
      | some r =>
        obtain ⟨p', rest₂⟩ := r
        rw [hspec] at hpass
        obtain ⟨temp', h₁, hpass, hp₁⟩ := hpass
        obtain ⟨h₂, hcount, hp₂⟩ := hp₁.count
        have hlen : rest₂.length < rest.length :=
          Nat.lt_of_le_of_lt (Parse.token_length hspec) (strtok_length htok)
        have hrest := ih _ hlen hp₂ rest₂ rfl
        rw [hpass]
        simp only [Option.bind_some, hcount]
        exact hrest

/-- `split_line` in memory gives the command that it gives on lists. -/
theorem splitLine_spec {h : Memory} {buffer : ℕ} {line : Bytes}
    (hbuf : h.load buffer = some (.text line)) :
    match Shell.splitLine line with
    | none => splitLine h buffer = none
    | some c => ∃ h', splitLine h buffer = some (h.size, h') ∧ Holds h h' h.size c := by
  have hsize : (h.malloc Block.raw).2.size = h.size + 1 := h.malloc_size _
  obtain ⟨h₁, hnew, hsize₁, hempty, hold⟩ := newNode_spec (h.malloc .raw).2
  have hraw : h₁.load h.size = some .raw :=
    (hold _ (by omega)).trans (h.malloc_same _)
  obtain ⟨h₂, hstore, hsize₂, hsame, hother⟩ := store_spec hraw (.cmd (some (h.size + 1)) 0)
  have hparse : Parses h h₂ h.size (h.size + 1) ⟨[], .empty, 0⟩ := by
    rw [hsize] at hempty hsize₁
    refine ⟨some (h.size + 1), [], [h.size + 1, h.size + 2], hsame, .nil _, ?_, rfl, by simp, ?_, ?_⟩
    · refine nodeAt_local _ _ _ _ _ _ hempty fun id hid => hother id ?_
      simp only [List.mem_cons, List.not_mem_nil, or_false] at hid
      omega
    · intro id
      simp only [List.nil_append, List.mem_cons, List.not_mem_nil, or_false]
      omega
    · intro id hid
      rw [hother id (by omega), hold id (by omega), h.malloc_other _ (by omega)]
  have hloop := hparse.loop (cstr line)
  have hunfold : splitLine h buffer =
      (splitLoop h₂ h.size (h.size + 1) (cstr line)).bind fun h' => some (h.size, h') := by
    unfold splitLine
    rw [hbuf]
    dsimp only
    rw [hnew]
    change (h₁.store h.size (.cmd (some (h.malloc .raw).2.size) 0)).bind _ = _
    rw [hsize, hstore]
    rfl
  unfold Shell.splitLine
  rw [hunfold]
  cases hspec : Shell.splitLoop ⟨[], .empty, 0⟩ (cstr line) with
  | none =>
    rw [hspec] at hloop
    rw [hloop]
    rfl
  | some c =>
    rw [hspec] at hloop
    obtain ⟨h', hloop, hc⟩ := hloop
    rw [hloop]
    exact ⟨h', rfl, hc⟩

/-! ### The commands of a list -/

theorem segment_length {q : Option ℕ} (hs : Segment NodeAt h head ids ns q) :
    ids.length = 2 * ns.length := by
  induction hs with
  | nil => rfl
  | cons hn _ ih =>
    obtain ⟨_, _, _, _, rfl, _⟩ := hn
    rw [List.length_append, ih, List.length_cons, List.length_cons, List.length_cons, List.length_nil]
    omega

/-- A list is no longer than the memory. -/
theorem CmdAt.short {c : Cmd} (hc : CmdAt h₀ h cmd c head ids) : c.nodes.length ≤ h.size := by
  have hsub : ids ⊆ List.range h.size := fun id hid => List.mem_range.mpr ((hc.owns.mem id).mp hid).2
  have hle := (hc.owns.nodup.subperm hsub).length_le
  rw [segment_length hc.nodes, List.length_range] at hle
  omega

theorem nodesFrom_eq (hs : Segment NodeAt h head ids ns none) {fuel : ℕ} (hfuel : ns.length ≤ fuel) :
    nodesFrom h fuel head = some ns := by
  induction ns generalizing head ids fuel with
  | nil =>
    cases hs
    cases fuel <;> rfl
  | cons n ns ih =>
    cases hs with
    | cons hn hrest =>
      obtain ⟨b, slots, hb, hslots, -, rfl, rfl⟩ := hn
      obtain ⟨fuel, rfl⟩ := Nat.exists_eq_add_of_le' hfuel
      rw [List.length_cons, ← Nat.add_assoc]
      have htail := ih hrest (Nat.le_add_left ns.length fuel)
      simp only [nodesFrom, loadNode_eq hb, loadArray_eq hslots, htail, Option.bind_eq_bind,
        Option.bind_some]

/-! ### Freeing -/

/-- The blocks of a list are freed, and nothing else is. -/
theorem freeNodes_spec (hs : Segment NodeAt h head ids ns none) {k : ℕ}
    (hlist : h.load cmd = some (.cmd head k)) (hcmd : cmd ∉ ids) (hnodup : ids.Nodup) {fuel : ℕ}
    (hfuel : ns.length < fuel) :
    ∃ h', freeNodes cmd fuel h = some h' ∧ h'.size = h.size ∧ (∃ c, h'.load cmd = some c) ∧
      (∀ id ∈ ids, h'.load id = none) ∧ ∀ id, id ∉ ids → id ≠ cmd → h'.load id = h.load id := by
  induction ns generalizing h head ids fuel with
  | nil =>
    cases hs
    obtain ⟨fuel, rfl⟩ := Nat.exists_eq_add_of_lt hfuel
    refine ⟨h, ?_, rfl, ⟨_, hlist⟩, fun id hid => absurd hid List.not_mem_nil, fun _ _ _ => rfl⟩
    rw [List.length_nil, Nat.zero_add, freeNodes, loadCmd_eq hlist]
    rfl
  | cons n ns ih =>
    cases hs with
    | @cons temp idsn idst next _ _ _ hn hrest =>
      obtain ⟨b, slots, hb, hslots, rfl, rfl, rfl⟩ := hn
      obtain ⟨fuel, rfl⟩ := Nat.exists_eq_add_of_lt hfuel
      rw [List.length_cons] at hfuel ⊢
      have hparts := List.nodup_append.mp hnodup
      have hne : b.args ≠ temp := fun he => by
        rw [he, hb] at hslots
        cases hslots
      simp only [List.cons_append, List.nil_append, List.mem_cons, not_or] at hcmd
      -- the pointer to the list, the array and the node
      obtain ⟨h₁, hstore, hsize₁, hsame₁, hother₁⟩ := store_spec hlist (.cmd b.next k)
      have hargs₁ : h₁.load b.args = some (.array slots) :=
        (hother₁ _ (Ne.symm hcmd.2.1)).trans hslots
      obtain ⟨h₂, hfree₂, hsize₂, hsame₂, hother₂⟩ := free_spec hargs₁
      have htemp₂ : h₂.load temp = some (.node b) := by
        rw [hother₂ _ (Ne.symm hne), hother₁ _ (Ne.symm hcmd.1), hb]
      obtain ⟨h₃, hfree₃, hsize₃, hsame₃, hother₃⟩ := free_spec htemp₂
      have hfar {id : ℕ} (h1 : id ≠ cmd) (h2 : id ≠ b.args) (h3 : id ≠ temp) :
          h₃.load id = h.load id :=
        (hother₃ id h3).trans ((hother₂ id h2).trans (hother₁ id h1))
      have hrest₃ : Segment NodeAt h₃ b.next idst ns none := by
        refine hrest.frame nodeAt_local fun id hid => hfar ?_ ?_ ?_
        · rintro rfl
          exact hcmd.2.2 hid
        · rintro rfl
          exact hparts.2.2 b.args (by simp) b.args hid rfl
        · rintro rfl
          exact hparts.2.2 id (by simp) id hid rfl
      have hlist₃ : h₃.load cmd = some (.cmd b.next k) := by
        rw [hother₃ _ hcmd.1, hother₂ _ hcmd.2.1, hsame₁]
      obtain ⟨h', hfree, hsize, hlive, hgone, hkept⟩ :=
        ih hrest₃ hlist₃ hcmd.2.2 hparts.2.1 (Nat.lt_succ_of_le (Nat.le_add_right ns.length fuel))
      refine ⟨h', ?_, ?_, hlive, fun id hid => ?_, fun id hid hidc => ?_⟩
      · rw [show ns.length + 1 + fuel + 1 = (ns.length + fuel).succ + 1 by omega, freeNodes,
          loadCmd_eq hlist]
        simp only [Option.bind_eq_bind, Option.bind_some, loadNode_eq hb, hstore, hfree₂, hfree₃]
        exact hfree
      · rw [hsize, hsize₃, hsize₂, hsize₁]
      · have hnode {q : ℕ} (hq : q ∈ [temp, b.args]) : h'.load q = h₃.load q := by
          refine hkept q (fun hin => hparts.2.2 q hq q hin rfl) fun he => ?_
          simp only [List.mem_cons, List.not_mem_nil, or_false] at hq
          omega
        rcases List.mem_append.mp hid with hid | hid
        · rw [hnode hid]
          simp only [List.mem_cons, List.not_mem_nil, or_false] at hid
          rcases hid with rfl | rfl
          · exact hsame₃
          · rw [hother₃ _ hne, hsame₂]
        · exact hgone id hid
      · simp only [List.cons_append, List.nil_append, List.mem_cons, not_or] at hid
        rw [hkept id hid.2.2 hidc, hfar hidc hid.2.1 hid.1]

/-- The blocks in `h` are those in `h₀`. -/
def SameBlocks (h₀ h : Memory) : Prop := ∀ id, h.load id = h₀.load id

theorem Holds.theCmd {c : Cmd} (hc : Holds h₀ h cmd c) {buffer : ℕ} (hbuf : buffer < cmd) {b : Block}
    (hb : h₀.load buffer = some b) : theCmd h cmd buffer = some c := by
  obtain ⟨head, ids, hc⟩ := hc
  have hbuf' : h.load buffer = some b := (hc.owns.frame buffer hbuf).trans hb
  simp only [Malloc.theCmd, hbuf', loadCmd_eq hc.list, nodesFrom_eq hc.nodes hc.short,
    Option.bind_eq_bind, Option.bind_some]

/-- What `shell` frees is what it has got since the buffer, which is the last block before. -/
theorem Holds.freeSpace {g : Memory} {c : Cmd} (hc : Holds h₀ h cmd c) (hsize₀ : h₀.size = g.size + 1)
    (hold : ∀ id, id < g.size → h₀.load id = g.load id) {b : Block} (hb : h₀.load g.size = some b) :
    ∃ h', freeSpace h cmd g.size = some h' ∧ SameBlocks g h' := by
  obtain ⟨head, ids, hc⟩ := hc
  have hcmd : cmd = g.size + 1 := hc.owns.first.trans hsize₀
  have hlt : cmd < h.size := lt_size hc.list
  have hbuf : h.load g.size = some b := (hc.owns.frame _ (by omega)).trans hb
  obtain ⟨h₁, hfree₁, hsize₁, ⟨_, hlive₁⟩, hgone₁, hkept₁⟩ :=
    freeNodes_spec hc.nodes hc.list hc.owns.not_cmd hc.owns.nodup (Nat.lt_succ_of_le hc.short)
  obtain ⟨h₂, hfree₂, hsize₂, hgone₂, hkept₂⟩ := free_spec hlive₁
  have hfront {id : ℕ} (hid : id < cmd) : h₂.load id = h₀.load id := by
    have hnot : id ∉ ids := fun hin => by
      have hbehind := ((hc.owns.mem id).mp hin).1
      omega
    rw [hkept₂ id (Nat.ne_of_lt hid), hkept₁ id hnot (Nat.ne_of_lt hid), hc.owns.frame id hid]
  have hbuf₂ : h₂.load g.size = some b := (hfront (by omega)).trans hb
  obtain ⟨h₃, hfree₃, hsize₃, hgone₃, hkept₃⟩ := free_spec hbuf₂
  refine ⟨h₃, ?_, fun id => ?_⟩
  · simp only [Malloc.freeSpace, hfree₁, hfree₂, hfree₃, Option.bind_eq_bind, Option.bind_some]
  · by_cases hfirst : id < g.size
    · rw [hkept₃ id (by omega), hfront (by omega), hold id hfirst]
    rw [g.load_behind (by omega)]
    by_cases hisbuf : id = g.size
    · rw [hisbuf]
      exact hgone₃
    by_cases hiscmd : id = cmd
    · rw [hkept₃ id hisbuf, hiscmd]
      exact hgone₂
    by_cases hin : id < h.size
    · rw [hkept₃ id hisbuf, hkept₂ id hiscmd]
      exact hgone₁ id ((hc.owns.mem id).mpr ⟨by omega, hin⟩)
    · exact h₃.load_behind (by omega)

/-! ### The loop of the shell -/

/-- A line is run as the lists say, and leaves the blocks that were there before its buffer. -/
theorem runLine_spec (os : Os) (t : Fds) (g : Memory) (text line : Bytes) :
    match (Shell.splitLine line).bind fun c => (runCommand os t c).map fun r => (c, r) with
    | none => runLine os t (g.malloc (.text text)).2 g.size line = none
    | some (c, r) => ∃ h', runLine os t (g.malloc (.text text)).2 g.size line = some (c, r, some h') ∧
        SameBlocks g h' := by
  obtain ⟨h₀, hstore, hsize₀, hsame, hother⟩ := store_spec (g.malloc_same (.text text)) (.text line)
  have hbuf : h₀.load g.size = some (.text line) := hsame
  have hsize : h₀.size = g.size + 1 := hsize₀.trans (g.malloc_size _)
  have hold (id : ℕ) (hid : id < g.size) : h₀.load id = g.load id :=
    (hother id (Nat.ne_of_lt hid)).trans (g.malloc_other _ (Nat.ne_of_lt hid))
  have hparse := splitLine_spec hbuf
  have hstore' : (g.malloc (.text text)).2.store g.size (.text line) = some h₀ := hstore
  unfold runLine
  rw [hstore']
  cases hspec : Shell.splitLine line with
  | none =>
    rw [hspec] at hparse
    simp only [hparse, Option.bind_eq_bind, Option.bind_some, Option.bind_none]
  | some c =>
    rw [hspec] at hparse
    obtain ⟨h, hsplit, hc⟩ := hparse
    have hcmd : theCmd h h₀.size g.size = some c := hc.theCmd (by omega) hbuf
    obtain ⟨h', hfree, hblocks⟩ := hc.freeSpace hsize hold hbuf
    simp only [hsplit, hcmd, Option.bind_eq_bind, Option.bind_some]
    cases runCommand os t c with
    | none => rfl
    | some r => exact ⟨h', by rw [hfree, Option.bind_some], hblocks⟩

/-- The last command has ended the process on lists too: it has exited, or stored behind an array. -/
def Gone (env : Env) (t : Fds) (s : Session) : Prop :=
  s.running = false ∧ ∃ line, s.calls.getLast? = some line ∧
    lineStatus (env.os (s.calls.length - 1)) t line = none

theorem shellPass_spec (env : Env) (t : Fds) {s : Session} (hrun : s.running = true) (g : Memory) :
    (shellPass env s g).1 = Shell.shellPass env s ∧
      ((shellPass env s g).2 = none → Gone env t (shellPass env s g).1) ∧
      ∀ h, (shellPass env s g).2 = some h → SameBlocks g h := by
  have hbuf : (g.malloc (.text (env.fresh s.calls.length))).2.load g.size =
      some (.text (env.fresh s.calls.length)) := g.malloc_same _
  have hsize := g.malloc_size (Block.text (env.fresh s.calls.length))
  unfold shellPass Shell.shellPass
  rw [if_pos hrun]
  dsimp only
  cases hread : (readLine (env.fresh s.calls.length) s.stdin.stream).1 with
  | none =>
    obtain ⟨h₁, hfree, -, hgone, hkept⟩ := free_spec hbuf
    dsimp only
    refine ⟨rfl, fun hnone => ?_, fun h hh => ?_⟩
    · rw [show (g.malloc _).1 = g.size from rfl, hfree] at hnone
      cases hnone
    · rw [show (g.malloc _).1 = g.size from rfl, hfree] at hh
      obtain rfl := Option.some.inj hh
      intro id
      by_cases he : id = g.size
      · rw [he, hgone, g.load_behind (Nat.le_refl _)]
      · rw [hkept id he, g.malloc_other _ he]
  | some line =>
    have hline := runLine_spec (env.os s.calls.length) s.fds g (env.fresh s.calls.length) line
    have hdead (hnone : (Shell.splitLine line).bind (runCommand (env.os s.calls.length) s.fds) = none) :
        lineStatus (env.os s.calls.length) t (cstr line) = none := by
      rw [lineStatus_fds _ t s.fds]
      unfold lineStatus
      rw [splitLine_cstr, hnone]
      rfl
    have hgone {s' : Session} (hcalls : s'.calls = s.calls ++ [cstr line]) (hover : s'.running = false)
        (hnone : (Shell.splitLine line).bind (runCommand (env.os s.calls.length) s.fds) = none) :
        Gone env t s' := by
      refine ⟨hover, cstr line, ?_, ?_⟩
      · rw [hcalls]
        exact List.getLast?_concat ..
      · rw [hcalls, List.length_append, List.length_singleton, Nat.add_sub_cancel]
        exact hdead hnone
    dsimp only
    rw [show (g.malloc _).1 = g.size from rfl]
    cases hsplit : Shell.splitLine line with
    | none =>
      rw [hsplit, Option.bind_none] at hline hgone
      rw [hline]
      exact ⟨rfl, fun _ => hgone rfl rfl rfl, fun h hh => by cases hh⟩
    | some cmd =>
      rw [hsplit, Option.bind_some] at hline hgone
      dsimp only
      cases hcmd : runCommand (env.os s.calls.length) s.fds cmd with
      | none =>
        rw [hcmd, Option.map_none] at hline
        rw [hline]
        exact ⟨rfl, fun _ => hgone rfl rfl hcmd, fun h hh => by cases hh⟩
      | some r =>
        rw [hcmd, Option.map_some] at hline
        obtain ⟨h', hrun', hblocks⟩ := hline
        obtain ⟨status, fds⟩ := r
        rw [hrun']
        refine ⟨rfl, fun hnone => absurd hnone (Option.some_ne_none _), fun h hh => ?_⟩
        obtain rfl := Option.some.inj hh
        exact hblocks

/-- The session in memory is the session on lists, with the blocks that were there at the start. -/
theorem shellPasses_spec (env : Env) (t : Fds) (n : ℕ) {s : Session} {g h₀ : Memory} (hg : SameBlocks h₀ g) :
    (shellPasses env n (s, some g)).1 = (Shell.shellPass env)^[n] s ∧
      ((shellPasses env n (s, some g)).2 = none → Gone env t (shellPasses env n (s, some g)).1) ∧
      ∀ h, (shellPasses env n (s, some g)).2 = some h → SameBlocks h₀ h := by
  have hover {s : Session} (n : ℕ) (hrun : s.running = false) : (Shell.shellPass env)^[n] s = s :=
    Function.iterate_fixed (shellPass_over hrun) n
  induction n generalizing s g with
  | zero =>
    refine ⟨rfl, fun hnone => absurd hnone (Option.some_ne_none _), fun h hh => ?_⟩
    obtain rfl := Option.some.inj hh
    exact hg
  | succ n ih =>
    cases hrun : s.running with
    | false =>
      simp only [shellPasses, hrun, Bool.false_eq_true, ite_false]
      refine ⟨(hover _ hrun).symm, fun hnone => absurd hnone (Option.some_ne_none _), fun h hh => ?_⟩
      obtain rfl := Option.some.inj hh
      exact hg
    | true =>
      obtain ⟨hsession, hgone, hblocks⟩ := shellPass_spec env t hrun g
      simp only [shellPasses, hrun, ite_true]
      rw [Function.iterate_succ_apply, ← hsession]
      generalize shellPass env s g = r at hgone hblocks
      obtain ⟨s', h | h⟩ := r
      · have hnot : Gone env t s' := hgone rfl
        rw [hover n hnot.1]
        cases n <;> exact ⟨rfl, fun _ => hnot, fun h hh => by cases hh⟩
      · exact ih fun id => (hblocks h rfl id).trans (hg id)

/-! ### `main` -/

theorem mainStart_cells (texts : List Bytes) (h : Memory) :
    (texts.foldl (fun h text => (h.malloc (Block.text text)).2) h).cells =
      h.cells ++ texts.map fun text => some (.text text) := by
  induction texts generalizing h with
  | nil => exact (List.append_nil _).symm
  | cons text texts ih =>
    rw [List.foldl_cons, ih, List.map_cons]
    exact List.append_assoc h.cells [some (.text text)] _

theorem mainEnd_spec {n : ℕ} {h : Memory} (hlive : ∀ id, id < n → h.load id ≠ none) :
    ∃ h', mainEnd n h = some h' ∧ (∀ id, id < n → h'.load id = none) ∧
      ∀ id, n ≤ id → h'.load id = h.load id := by
  induction n with
  | zero => exact ⟨h, rfl, fun id hid => absurd hid (Nat.not_lt_zero id), fun _ _ => rfl⟩
  | succ n ih =>
    obtain ⟨h₁, hend, hgone, hkept⟩ := ih fun id hid => hlive id (Nat.lt_succ_of_lt hid)
    obtain ⟨b, hb⟩ := Option.ne_none_iff_exists'.mp (hlive n (Nat.lt_succ_self n))
    obtain ⟨h₂, hfree, -, hnone, hother⟩ := free_spec ((hkept n (Nat.le_refl n)).trans hb)
    refine ⟨h₂, ?_, fun id hid => ?_, fun id hid => ?_⟩
    · unfold mainEnd at hend ⊢
      rw [List.range_succ, List.foldlM_append, hend]
      simp only [Option.bind_eq_bind, Option.bind_some, List.foldlM_cons, List.foldlM_nil, hfree]
      rfl
    · by_cases he : id = n
      · rw [he]
        exact hnone
      · rw [hother id he]
        exact hgone id (by omega)
    · rw [hother id (by omega), hkept id (by omega)]

end OSLab.Shell.Malloc
