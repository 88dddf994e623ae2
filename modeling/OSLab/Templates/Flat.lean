import OSLab.Templates.Listing

/-!
# Small files in the root directory

The requests to either module that stay in the root directory and inside one
block of a file, and what a directory of files answers to them: the entries in
the order of the creates, the text of every file, and the number of the slot
that each VFS inode stands for.
-/

namespace OSLab.Templates
open OSLab.Base OSLab.Kernel
open OSLab.Done (Emitted ROOT_INODE INODE_COUNT MAX_DIR_ENTRIES MAX_FILENAME_LEN)

/-- The handlers are called on the inode concerned. A write passes all of its buffer, a read has
room for what it asks for, and a listing starts at position 0. -/
inductive Req where
  | create (dir : InodePtr) (dentry : Qstr) (mode : UMode) (env : Env)
  | lookup (dir : InodePtr) (dentry : Qstr) (env : Env)
  | write (inode : InodePtr) (buf : Bytes) (ppos : ℕ) (env : Env)
  | read (inode : InodePtr) (len ppos : ℕ)
  | list (dir : InodePtr) (room : ℕ)

/-- What a directory context gets. -/
inductive Item where
  | dot
  | dotDot
  | entry (name : Bytes) (ino : ℕ)
  deriving DecidableEq

inductive Res where
  | invalid
  | failed
  | created (p : InodePtr) (ino : ℕ)
  | absent
  | found (p : InodePtr) (ino : ℕ)
  | written (n : ℕ)
  | read (bytes : Bytes)
  | listed (items : List Item)
  deriving DecidableEq

/- `vfs_create` makes regular files, and a file is read and written inside its first block. -/
def Small : Req → Prop
  | .create _ _ mode _ => sIsReg mode = true
  | .write _ buf ppos _ => ppos + buf.length ≤ BLOCK_SIZE
  | .read _ len ppos => ppos + len ≤ BLOCK_SIZE
  | _ => True

instance : DecidablePred Small := fun r => by
  cases r <;> unfold Small <;> infer_instance

/-! ### The directory -/

structure Flat where
  files : List (Bytes × ℕ)
  text : ℕ → Bytes
  slot : InodePtr → ℕ
  count : ℕ
  used : Bitmap

/- The root directory, on the first VFS inode. -/
def Flat.mounted : Flat :=
  { files := [], text := fun _ => [], slot := Function.update (fun _ => 0) 0 ROOT_INODE, count := 1,
    used := Bitmap.empty.set ROOT_INODE }

def Flat.isDir (t : Flat) (p : InodePtr) : Bool := t.slot p = ROOT_INODE

def Flat.isFile (t : Flat) (p : InodePtr) : Bool := t.slot p ≠ 0 && t.slot p ≠ ROOT_INODE

/- The next VFS inode stands for slot `k`. -/
def Flat.push (t : Flat) (k : ℕ) : Flat :=
  { t with slot := Function.update t.slot t.count k, count := t.count + 1 }

def Flat.add (t : Flat) (name : Bytes) (ino : ℕ) : Flat :=
  { t.push ino with
    files := t.files ++ [(name, ino)]
    text := Function.update t.text ino []
    used := t.used.set ino }

def Flat.setText (t : Flat) (k : ℕ) (bs : Bytes) : Flat :=
  { t with text := Function.update t.text k bs }

def Flat.accepts (t : Flat) (dentry : Qstr) (env : Env) : Bool :=
  env.newInodeOk && dentry.len ≤ MAX_FILENAME_LEN && t.files.length < MAX_DIR_ENTRIES &&
    dentry.name ∉ t.files.map Prod.fst

def Flat.create (t : Flat) (dentry : Qstr) (env : Env) : Res × Flat :=
  if t.accepts dentry env then
    match t.used.findClear 1 (INODE_COUNT - 1) with
    | none => (.failed, t)
    | some ino => (.created t.count ino, t.add dentry.name ino)
  else (.failed, t)

def Flat.lookup (t : Flat) (dentry : Qstr) (env : Env) : Res × Flat :=
  match t.files.find? fun e => e.1 = dentry.name with
  | none => (.absent, t)
  | some e => if env.newInodeOk then (.found t.count e.2, t.push e.2) else (.failed, t)

def Flat.items (t : Flat) : List Item :=
  .dot :: .dotDot :: t.files.map fun e => .entry e.1 e.2

def flatStep (t : Flat) : Req → Res × Flat
  | .create dir dentry _ env => if t.isDir dir then t.create dentry env else (.invalid, t)
  | .lookup dir dentry env => if t.isDir dir then t.lookup dentry env else (.invalid, t)
  | .write inode buf ppos _ =>
    if t.isFile inode then
      (.written buf.length, t.setText (t.slot inode) (writeAt (t.text (t.slot inode)) ppos buf))
    else (.invalid, t)
  | .read inode len ppos =>
    if t.isFile inode then (.read (((t.text (t.slot inode)).drop ppos).take len), t)
    else (.invalid, t)
  | .list dir room =>
    if t.isDir dir then (.listed (t.items.take room), t) else (.invalid, t)

def flat : Machine Flat Req Res := ⟨flatStep⟩

@[simp] theorem Flat.setText_text (t : Flat) (k : ℕ) (bs : Bytes) :
    (t.setText k bs).text = Function.update t.text k bs := rfl

@[simp] theorem Flat.add_text (t : Flat) (name : Bytes) (ino : ℕ) :
    (t.add name ino).text = Function.update t.text ino [] := rfl

@[simp] theorem Flat.add_numbers (t : Flat) (name : Bytes) (ino : ℕ) :
    (t.add name ino).files.map Prod.snd = t.files.map Prod.snd ++ [ino] := List.map_append ..

variable {t : Flat}

/-- What a create that is not failed has met, and what it gives. -/
theorem Flat.create_ok {dentry : Qstr} {env : Env} (h : (t.create dentry env).1 ≠ .failed) :
    env.newInodeOk = true ∧ dentry.len ≤ MAX_FILENAME_LEN ∧ t.files.length < MAX_DIR_ENTRIES ∧
      dentry.name ∉ t.files.map Prod.fst ∧
      ∃ ino, t.used.findClear 1 (INODE_COUNT - 1) = some ino ∧
        t.create dentry env = (.created t.count ino, t.add dentry.name ino) := by
  unfold Flat.create at h ⊢
  by_cases hacc : t.accepts dentry env = true
  · rw [if_pos hacc] at h ⊢
    simp only [Flat.accepts, Bool.and_eq_true, decide_eq_true_eq] at hacc
    obtain ⟨⟨⟨hmem, hlen⟩, hroom⟩, hnew⟩ := hacc
    refine ⟨hmem, hlen, hroom, hnew, ?_⟩
    cases hfind : t.used.findClear 1 (INODE_COUNT - 1) with
    | none =>
      rw [hfind] at h
      exact absurd rfl h
    | some ino => exact ⟨ino, rfl, rfl⟩
  · rw [if_neg hacc] at h
    exact absurd rfl h

theorem Flat.find_some {name : Bytes} {ino : ℕ} (h : (name, ino) ∈ t.files) :
    ∃ e ∈ t.files, t.files.find? (fun e => e.1 = name) = some e ∧ e.1 = name := by
  obtain ⟨e, hfind⟩ : ∃ e, t.files.find? (fun e => e.1 = name) = some e := by
    rw [← Option.isSome_iff_exists, List.find?_isSome]
    exact ⟨_, h, decide_eq_true rfl⟩
  have hname : e.1 = name := by simpa using List.find?_some hfind
  exact ⟨e, List.mem_of_find?_eq_some hfind, hfind, hname⟩

theorem Flat.lookup_absent {dentry : Qstr} (h : ∀ e ∈ t.files, e.1 ≠ dentry.name) (env : Env) :
    t.lookup dentry env = (.absent, t) := by
  have hfind : t.files.find? (fun e => e.1 = dentry.name) = none := by
    rw [List.find?_eq_none]
    intro e he hname
    exact h e he (of_decide_eq_true hname)
  simp only [Flat.lookup, hfind]

/-! ### The slots -/

/- A VFS inode stands for nothing, for the directory, or for a file in it. -/
def Flat.Live (t : Flat) : Prop :=
  ∀ p, t.slot p = 0 ∨ t.slot p = ROOT_INODE ∨ t.slot p ∈ t.files.map Prod.snd

theorem Flat.Live.isFile (h : t.Live) {p : InodePtr} (hp : t.isFile p = true) :
    t.slot p ∈ t.files.map Prod.snd := by
  simp only [Flat.isFile, ne_eq, decide_not, Bool.and_eq_true, Bool.not_eq_true',
    decide_eq_false_iff_not] at hp
  rcases h p with h0 | hroot | hfile
  · exact absurd h0 hp.1
  · exact absurd hroot hp.2
  · exact hfile

theorem Flat.Live.push (h : t.Live) {k : ℕ} (hk : k ∈ t.files.map Prod.snd) : (t.push k).Live := by
  intro p
  unfold Flat.push
  dsimp only
  by_cases he : p = t.count
  · subst he
    rw [Function.update_self]
    exact Or.inr (Or.inr hk)
  · rw [Function.update_of_ne he]
    exact h p

theorem Flat.Live.add (h : t.Live) (name : Bytes) (ino : ℕ) : (t.add name ino).Live := by
  intro p
  rw [Flat.add_numbers, List.mem_append, List.mem_singleton]
  change Function.update t.slot t.count ino p = 0 ∨ _
  by_cases he : p = t.count
  · subst he
    exact Or.inr (Or.inr (Or.inr (Function.update_self ..)))
  · have hslot : (t.add name ino).slot p = t.slot p := Function.update_of_ne he ..
    rw [hslot, Function.update_of_ne he]
    rcases h p with h0 | hroot | hfile
    · exact Or.inl h0
    · exact Or.inr (Or.inl hroot)
    · exact Or.inr (Or.inr (Or.inl hfile))

theorem Flat.mounted_live : Flat.mounted.Live := by
  intro p
  by_cases he : p = 0
  · subst he
    exact Or.inr (Or.inl rfl)
  · left
    simp only [Flat.mounted, Function.update_of_ne he]

theorem Flat.create_live (h : t.Live) (dentry : Qstr) (env : Env) : (t.create dentry env).2.Live := by
  unfold Flat.create
  split
  · split
    · exact h
    · exact h.add _ _
  · exact h

theorem Flat.lookup_live (h : t.Live) (dentry : Qstr) (env : Env) : (t.lookup dentry env).2.Live := by
  unfold Flat.lookup
  split
  · exact h
  · rename_i e he
    split
    · exact h.push (List.mem_map_of_mem (List.mem_of_find?_eq_some he))
    · exact h

theorem Flat.Live.next (h : t.Live) (r : Req) : (flatStep t r).2.Live := by
  cases r with
  | create dir dentry mode env =>
    simp only [flatStep]
    split
    · exact Flat.create_live h dentry env
    · exact h
  | lookup dir dentry env =>
    simp only [flatStep]
    split
    · exact Flat.lookup_live h dentry env
    · exact h
  | write inode buf ppos env =>
    simp only [flatStep]
    split <;> exact h
  | read inode len ppos =>
    simp only [flatStep]
    split <;> exact h
  | list dir room =>
    simp only [flatStep]
    split <;> exact h

theorem push_slot {ic : Icache} (h : ∀ p, (ic.inode p).iPrivate = t.slot p) (hc : ic.count = t.count)
    (inode : Inode) (p : InodePtr) :
    ((ic.push inode).inode p).iPrivate = (t.push inode.iPrivate).slot p := by
  unfold Flat.push
  dsimp only
  by_cases he : p = t.count
  · rw [he, Function.update_self, ← hc, Icache.push_same]
  · rw [Function.update_of_ne he, Icache.push_ne _ _ (by rw [hc]; exact he)]
    exact h p

theorem set_slot {ic ic' : Icache} (h : ∀ p, (ic.inode p).iPrivate = t.slot p) {q : InodePtr}
    {inode : Inode} (hic : ic' = ic.set q inode) (hq : inode.iPrivate = (ic.inode q).iPrivate)
    (p : InodePtr) : (ic'.inode p).iPrivate = t.slot p := by
  subst hic
  by_cases he : p = q
  · rw [he, Icache.set_same, hq]
    exact h q
  · rw [Icache.set_ne _ _ he]
    exact h p

/-! ### A listing from position 0 -/

/- What is emitted, with the entry at each index given. -/
def itemOf (entry : ℕ → Bytes × ℕ) : Emitted → Item
  | .dot => .dot
  | .dotDot => .dotDot
  | .entry i => .entry (entry i.toNat).1 (entry i.toNat).2

theorem entries_items (entry : ℕ → Bytes × ℕ) (n : ℕ) :
    (entries n).map (itemOf entry) =
      ((List.range n).map entry).map fun e => .entry e.1 e.2 := by
  unfold entries
  rw [List.map_map, List.map_map]
  exact List.map_congr_left fun _ _ => rfl

/-- One call lists the dots and the entries as far as the context has room. -/
theorem Iterates.first {n : ℕ} {call : ℕ → ℕ → Page Emitted ℤ} (h : Iterates n call)
    (h0 : (call 0 0).items = []) (room : ℕ) :
    (call room 0).items = (.dot :: .dotDot :: entries n).take room := by
  match room with
  | 0 => exact h0
  | 1 => exact h.dot.1
  | room + 2 =>
    have hrest := h.windowed.items room 0
    rw [Nat.add_zero, List.drop_zero] at hrest
    rw [(h.dots room).1, hrest]
    rfl

end OSLab.Templates
