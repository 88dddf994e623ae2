import OSLab.Base.Cursors
import OSLab.Optimize.Isolation
import OSLab.Templates.DoneFlat
import OSLab.Templates.OptimizeFlat

/-!
# Listing a directory that grows

Any number of open directories are listed, through buffers of any size, while
files are created, written and evicted between the calls. In either module an
entry keeps its index for good, so a listing that goes on from its position
misses nothing and gives nothing twice.
-/

namespace OSLab.Templates
open OSLab.Base OSLab.Kernel
open OSLab.Done (Emitted)

/- `getdents64` hands over what the buffer holds, whatever `osfs_iterate` has returned, and the file
keeps the position of the context. -/
def doneCall (s : Done.Sys) (dir : InodePtr) (room pos : ℕ) : List Item × ℕ :=
  let r := Done.osfsIterate s.fs dir room pos
  (r.2.1.map (doneItem s.fs.sb (s.fs.icache.inode dir).iPrivate), r.2.2)

def optimizeCall (s : Optimize.Sys) (dir : InodePtr) (room pos : ℕ) : List Item × ℕ :=
  let r := Optimize.osfsIterate s.fs dir room pos
  (r.1.map (optimizeItem s.fs.sb (s.fs.icache.inode dir).iPrivate), r.2)

/- An open directory holds its inode. -/
def doneShelf : Shelf Done.Sys Done.Req Done.Res InodePtr Item where
  machine := Done.osfs
  has s p := s.fs.isDirInode p
  drops
    | .evict p => some p
    | _ => none
  call := doneCall

def optimizeShelf : Shelf Optimize.Sys Optimize.Req Optimize.Res InodePtr Item where
  machine := Optimize.osfs
  has s p := s.fs.isDirInode p
  drops _ := none
  call := optimizeCall

/- The context gets the dots, then the entries. -/
def dirItems (es : List (Bytes × ℕ)) : List Item :=
  .dot :: .dotDot :: es.map fun e => .entry e.1 e.2

/- The first call has room for both dots, if it has room at all. -/
def Roomy (pos room : ℕ) : Prop := pos = 0 → room ≠ 1

/-- The next items of a directory from a position that is not between the dots. -/
theorem Iterates.window {n : ℕ} {call : ℕ → ℕ → Page Emitted ℤ} (h : Iterates n call)
    (h0 : (call 0 0).items = [] ∧ (call 0 0).pos = 0) {room pos : ℕ} (hpos : pos ≠ 1)
    (hroom : Roomy pos room) :
    (call room pos).items = ((.dot :: .dotDot :: entries n).drop pos).take room ∧
      (call room pos).pos = pos + (call room pos).items.length ∧ (call room pos).pos ≠ 1 := by
  match pos, hpos with
  | 0, _ =>
    have hitems := h.first h0.1 room
    rw [List.drop_zero]
    refine ⟨hitems, ?_⟩
    match room with
    | 0 =>
      rw [h0.1, h0.2]
      exact ⟨rfl, by decide⟩
    | 1 => exact absurd rfl (hroom rfl)
    | room + 2 =>
      have hwin := h.windowed.pos room 0
      rw [Nat.add_zero] at hwin
      rw [(h.dots room).1, (h.dots room).2, hwin, List.length_cons, List.length_cons]
      omega
  | k + 2, _ =>
    have hitems := h.windowed.items room k
    have hwin := h.windowed.pos room k
    rw [Nat.add_comm 2 k] at hitems hwin
    refine ⟨?_, hwin, by omega⟩
    rw [hitems]
    rfl

theorem dirItems_prefix {es es' : List (Bytes × ℕ)} (h : es <+: es') :
    dirItems es <+: dirItems es' := by
  obtain ⟨rest, rfl⟩ := h
  unfold dirItems
  rw [List.map_append]
  exact ⟨_, rfl⟩

theorem dirItems_nodup {es : List (Bytes × ℕ)} (h : (es.map Prod.fst).Nodup) :
    (dirItems es).Nodup := by
  have hentries : (es.map fun e => Item.entry e.1 e.2).Nodup := by
    apply (List.Nodup.of_map _ h).map
    intro e e' he
    injection he with h1 h2
    exact Prod.ext h1 h2
  unfold dirItems
  simp only [List.nodup_cons, List.mem_cons, List.mem_map, reduceCtorEq, and_false, exists_false,
    or_self, not_false_eq_true, hentries, and_self]

/-- The items of a window, by the entries of the directory. -/
theorem window_items (entry : ℕ → Bytes × ℕ) (n pos room : ℕ) :
    ((((.dot :: .dotDot :: entries n : List Emitted).drop pos).take room).map (itemOf entry)) =
      ((dirItems ((List.range n).map entry)).drop pos).take room := by
  rw [List.map_take, List.map_drop, List.map_cons, List.map_cons, entries_items]
  rfl

/-! ### The checked handlers -/

/-- A request other than its eviction leaves a directory on its slot. -/
theorem doneStep_keepsDir {s : Done.Sys} (h : Done.SysInv s) (r : Done.Req) {p : InodePtr}
    (hp : s.fs.isDirInode p = true) (hr : doneShelf.drops r ≠ some p) :
    (Done.osfs.next s r).fs.isDirInode p = true ∧
      ((Done.osfs.next s r).fs.icache.inode p).iPrivate = (s.fs.icache.inode p).iPrivate := by
  have h0 := (Done.isDirInode_iff.mp hp).1
  have hkeeps (fs' : Done.Fs) (hk : Done.Keeps s.fs fs') :
      fs'.isDirInode p = true ∧ (fs'.icache.inode p).iPrivate = (s.fs.icache.inode p).iPrivate :=
    ⟨hk.isDir hp, (hk p h0).1⟩
  have ho : Done.StepOutcome s r (Done.osfs.step s r) := Done.osfs_outcome h r
  simp only [Machine.next]
  generalize Done.osfs.step s r = q at ho
  cases ho with
  | create dir dentry mode env r hdir ho => exact hkeeps _ (ho.keeps h.fs)
  | lookup dir dentry env r hdir ho => exact hkeeps _ (ho.keeps h.fs)
  | evicted q hq =>
    have hne : p ≠ q := fun he => hr (congrArg some he.symm)
    have hsame : (Done.iput s.fs q).icache.inode p = s.fs.icache.inode p := Icache.set_ne _ _ hne
    dsimp only [Done.Fs.isDirInode] at hp ⊢
    rw [hsame]
    exact ⟨hp, rfl⟩
  | writeFault fd buf len env f hf hpos data hle hbuf hdata => exact ⟨hp, rfl⟩
  | written fd buf len env f hf hpos n hle hn hbuf => exact hkeeps _ (Done.keeps_set rfl rfl rfl)
  | truncated q env hq => exact hkeeps _ (Done.keeps_set rfl rfl rfl)
  | _ => exact ⟨hp, rfl⟩

def doneItems (s : Done.Sys) (p : InodePtr) : List Item :=
  dirItems (s.fs.sb.dirLog (s.fs.icache.inode p).iPrivate)

theorem doneItems_entries {s : Done.Sys} (h : Done.SysInv s) {p : InodePtr}
    (hp : s.fs.isDirInode p = true) :
    doneItems s p = dirItems ((List.range (s.fs.sb.dirEntryCount (s.fs.icache.inode p).iPrivate)).map
      fun i => (s.fs.sb.entryName (s.fs.icache.inode p).iPrivate i,
        s.fs.sb.entryInodeNo (s.fs.icache.inode p).iPrivate i)) := by
  obtain ⟨-, hf, hdir⟩ := h.fs.isDir hp
  unfold doneItems
  rw [Done.dirLog_dir hf hdir]
  rfl

theorem doneShelf_grows :
    doneShelf.Grows doneItems Done.SysInv (fun _ _ => True) (· ≠ 1) Roomy where
  first := by decide
  inv s r h _ := h.next r
  keeps s r p h _ hp hr := by
    obtain ⟨hdir, hpriv⟩ := doneStep_keepsDir h r hp hr
    refine ⟨hdir, dirItems_prefix ?_⟩
    have hlog := (Done.osfs_outcome h r).dirLog h (s.fs.icache.inode p).iPrivate
    change _ <+: (Done.osfs.next s r).fs.sb.dirLog ((Done.osfs.next s r).fs.icache.inode p).iPrivate
    rw [hpriv]
    exact ⟨_, hlog.symm⟩
  call s p room pos h hp hpos hroom := by
    obtain ⟨hitems, hnext, hne⟩ :=
      (donePage_iterates s.fs p).window ⟨rfl, rfl⟩ hpos hroom
    have hcall : (doneCall s p room pos).1 =
        ((donePage s.fs p room pos).items.map
          (doneItem s.fs.sb (s.fs.icache.inode p).iPrivate)) := rfl
    refine ⟨?_, ?_, hne⟩
    · rw [doneItems_entries h hp, ← window_items, ← hitems]
      rfl
    · change (donePage s.fs p room pos).pos = pos + (doneCall s p room pos).1.length
      rw [hcall, List.length_map]
      exact hnext

/-! ### The extent handlers -/

theorem optimizeStep_keepsInode {s : Optimize.Sys} (h : Optimize.SysInv s) (r : Optimize.Req)
    {p : InodePtr} (hp : p < s.fs.icache.count) :
    ((Optimize.osfs.next s r).fs.icache.inode p).iPrivate = (s.fs.icache.inode p).iPrivate ∧
      ((Optimize.osfs.next s r).fs.icache.inode p).iMode = (s.fs.icache.inode p).iMode := by
  have hpush (inode : Inode) : (s.fs.icache.push inode).inode p = s.fs.icache.inode p :=
    Icache.push_ne _ _ (Nat.ne_of_lt hp)
  simp only [Machine.next, Optimize.osfs]
  cases r with
  | create dir dentry mode env =>
    simp only [Optimize.sysStep]
    split
    · have ho := Optimize.osfsCreate_outcome h.layout.inodes env dir dentry mode
      generalize Optimize.osfsCreate env s.fs dir dentry mode = q at ho
      cases ho with
      | full _ => exact ⟨rfl, rfl⟩
      | oops ino _ _ => exact ⟨rfl, rfl⟩
      | created ino _ _ =>
        dsimp only
        rw [hpush]
        exact ⟨rfl, rfl⟩
    · exact ⟨rfl, rfl⟩
  | lookup dir dentry env =>
    simp only [Optimize.sysStep]
    split
    · rename_i hdir
      have ho := h.lookup_outcome env hdir dentry
      generalize Optimize.osfsLookup env s.fs dir dentry = q at ho
      cases ho with
      | null _ => exact ⟨rfl, rfl⟩
      | enomem m _ _ _ => exact ⟨rfl, rfl⟩
      | found m inode _ _ _ _ _ _ =>
        dsimp only
        rw [hpush]
        exact ⟨rfl, rfl⟩
    · exact ⟨rfl, rfl⟩
  | read inode room len ppos =>
    simp only [Optimize.sysStep]
    split <;> exact ⟨rfl, rfl⟩
  | write inode buf len ppos =>
    simp only [Optimize.sysStep]
    split
    · rename_i hfile
      rw [Bool.and_eq_true] at hfile
      have hw := (Optimize.osfsWrite_writes h.layout (h.icache.isFile hfile.1).1 buf hfile.2).1
      exact ⟨hw.slot p, hw.mode p⟩
    · exact ⟨rfl, rfl⟩

theorem optimizeStep_made (s : Optimize.Sys) (r : Optimize.Req) :
    s.made <+: (Optimize.osfs.next s r).made := by
  simp only [Machine.next, Optimize.osfs]
  cases r <;> simp only [Optimize.sysStep] <;> split
  case create.isTrue => exact List.prefix_append ..
  all_goals exact List.prefix_rfl

/-- A create with a new name makes an entry that is not there yet. -/
theorem optimizeStep_made_nodup {s : Optimize.Sys} (h : s.made.Nodup) {r : Optimize.Req}
    (hnew : Optimize.NewName s r) : (Optimize.osfs.next s r).made.Nodup := by
  simp only [Machine.next, Optimize.osfs]
  cases r <;> simp only [Optimize.sysStep] <;> split
  case create.isTrue dir dentry mode env _ =>
    generalize Optimize.osfsCreate env s.fs dir dentry mode = q
    obtain ⟨res, stores, fs'⟩ := q
    cases res with
    | created p =>
      refine h.append (List.nodup_singleton _) fun m hm hm' => ?_
      obtain rfl := List.mem_singleton.mp hm'
      exact hnew _ hm rfl rfl
    | _ =>
      dsimp only [Optimize.madeBy]
      rw [List.append_nil]
      exact h
  all_goals exact h

def optimizeItems (s : Optimize.Sys) (p : InodePtr) : List Item :=
  dirItems ((s.entriesOf (s.fs.icache.inode p).iPrivate).map fun m => (m.name, m.ino))

theorem optimizeShelf_grows :
    optimizeShelf.Grows optimizeItems (fun s => Optimize.SysInv s ∧ s.made.Nodup)
      (fun s r => Optimize.NewName s r ∧ Optimize.EntryFits s r) (· ≠ 1) Roomy where
  first := by decide
  inv s r h hr := ⟨(Optimize.step_isolated h.1 hr.1 hr.2).2, optimizeStep_made_nodup h.2 hr.1⟩
  keeps s r p hs _ hp _ := by
    have h := hs.1
    have hlive : (s.fs.icache.inode p).iPrivate ≠ 0 := by
      have hdir : s.fs.isDirInode p = true := hp
      simp only [Optimize.Fs.isDirInode, Bool.and_eq_true, decide_eq_true_eq] at hdir
      exact hdir.1
    obtain ⟨hpriv, hmode⟩ := optimizeStep_keepsInode h r (h.icache.counted p hlive)
    constructor
    · change Optimize.Fs.isDirInode _ p = true
      unfold Optimize.Fs.isDirInode
      rw [show optimizeShelf.machine = Optimize.osfs from rfl, hpriv, hmode]
      exact hp
    · refine dirItems_prefix (List.IsPrefix.map _ ?_)
      rw [show optimizeShelf.machine = Optimize.osfs from rfl, hpriv]
      exact (optimizeStep_made s r).filter _
  call s p room pos hs hp hpos hroom := by
    have h := hs.1
    obtain ⟨hitems, hnext, hne⟩ :=
      (optimizePage_iterates s.fs p).window ⟨rfl, rfl⟩ hpos hroom
    have hcall : (optimizeCall s p room pos).1 =
        ((optimizePage s.fs p room pos).items.map
          (optimizeItem s.fs.sb (s.fs.icache.inode p).iPrivate)) := rfl
    refine ⟨?_, ?_, hne⟩
    · have hlisted := (h.dir _ (h.icache.isDir hp)).listed
      change (optimizeCall s p room pos).1 = _
      unfold optimizeItems
      rw [← hlisted, ← window_items, ← hitems]
      rfl
    · change (optimizePage s.fs p room pos).pos = pos + (optimizeCall s p room pos).1.length
      rw [hcall, List.length_map]
      exact hnext

/-! ### Any order of requests and calls -/

/-- Where a reader is in a directory with the entries `es`: it has got the first of the dots and
entries, none of them twice. Its next call goes on there, and one with room for an item gives nothing
only when the reader has got everything. -/
structure Lists (es : List (Bytes × ℕ)) (call : ℕ → ℕ → List Item × ℕ) (c : Cursor InodePtr Item) :
    Prop where
  seen : c.seen <+: dirItems es
  once : c.seen.Nodup
  next : ∀ room, Roomy c.pos room → c.seen ++ (call room c.pos).1 <+: dirItems es
  ended : ∀ room, 1 ≤ room → Roomy c.pos room → (call room c.pos).1 = [] → c.seen = dirItems es

theorem optimizeItems_nodup {s : Optimize.Sys} (h : Optimize.SysInv s) (hmade : s.made.Nodup)
    (p : InodePtr) : (optimizeItems s p).Nodup := by
  apply dirItems_nodup
  rw [List.map_map]
  apply List.Nodup.map_on _ (hmade.filter _)
  intro m hm m' hm' hname
  obtain ⟨hin, hdir⟩ := Optimize.Sys.mem_entriesOf.mp hm
  obtain ⟨hin', hdir'⟩ := Optimize.Sys.mem_entriesOf.mp hm'
  exact h.unique m hin m' hin' (hdir.trans hdir'.symm) hname

theorem doneItems_nodup {s : Done.Sys} (h : Done.SysInv s) {p : InodePtr}
    (hp : s.fs.isDirInode p = true) : (doneItems s p).Nodup := by
  obtain ⟨-, hf, hdir⟩ := h.fs.isDir hp
  unfold doneItems
  rw [Done.dirLog_dir hf hdir]
  exact dirItems_nodup (h.fs.sb.dir _ hf hdir).names_nodup

/-- Readers of any number of directories, in any order of their calls and of requests: every reader
has got the first items of its directory as it is now, and goes on with the next. In the extent
template the creates are those with a new name and room for the entry. -/
theorem readers_miss_nothing :
    (∀ (s : Done.Sys) (rs : List (Reading Done.Req InodePtr)), Done.Mounted s →
      doneShelf.reading.EveryStep (Shelf.Meets (fun _ _ => True) Roomy) (s, []) rs →
      let t := doneShelf.reading.run (s, []) rs
      ∀ c ∈ t.2, Lists (t.1.fs.sb.dirLog (t.1.fs.icache.inode c.list).iPrivate)
        (doneCall t.1 c.list) c) ∧
    (∀ (s : Optimize.Sys) (rs : List (Reading Optimize.Req InodePtr)), Optimize.Mounted s →
      optimizeShelf.reading.EveryStep
        (Shelf.Meets (fun s r => Optimize.NewName s r ∧ Optimize.EntryFits s r) Roomy) (s, []) rs →
      let t := optimizeShelf.reading.run (s, []) rs
      ∀ c ∈ t.2, Lists ((t.1.entriesOf (t.1.fs.icache.inode c.list).iPrivate).map
        fun m => (m.name, m.ino)) (optimizeCall t.1 c.list) c) := by
  constructor
  · intro s rs hm hrs t c hc
    obtain ⟨hinv, hcs⟩ := doneShelf_grows.run (Done.SysInv.mounted hm).1 hrs
    obtain ⟨hhas, hfollow⟩ := hcs c hc
    exact {
      seen := hfollow.seen
      once := hfollow.seen.sublist.nodup (doneItems_nodup hinv hhas)
      next := fun room hroom => (doneShelf_grows.next hinv hhas hfollow hroom).1
      ended := fun room h1 hroom => (doneShelf_grows.next hinv hhas hfollow hroom).2 h1 }
  · intro s rs hm hrs t c hc
    have hempty : s.made.Nodup := by
      obtain ⟨_, _, _, _, hmade⟩ := hm
      rw [hmade]
      exact List.nodup_nil
    obtain ⟨hinv, hcs⟩ := optimizeShelf_grows.run ⟨hm.sysInv, hempty⟩ hrs
    obtain ⟨hhas, hfollow⟩ := hcs c hc
    exact {
      seen := hfollow.seen
      once := hfollow.seen.sublist.nodup (optimizeItems_nodup hinv.1 hinv.2 c.list)
      next := fun room hroom => (optimizeShelf_grows.next hinv hhas hfollow hroom).1
      ended := fun room h1 hroom => (optimizeShelf_grows.next hinv hhas hfollow hroom).2 h1 }

/- A file is made before the directory is opened, and listed in two calls. -/
def oneReader {ι : Type} (create : ι) : List (Reading ι InodePtr) :=
  [.step create, .start 0, .fetch 0 2, .fetch 0 2]

theorem readers_miss_nothing_one :
    (let t := doneShelf.reading.run (Done.freshMount, [])
        (oneReader (.create 0 (Qstr.ofBytes [97]) S_IFREG Done.plainEnv))
      ∀ c ∈ t.2, Lists (t.1.fs.sb.dirLog (t.1.fs.icache.inode c.list).iPrivate)
        (doneCall t.1 c.list) c) ∧
    (let t := optimizeShelf.reading.run (Optimize.freshMount, [])
        (oneReader (.create 0 (Qstr.ofBytes [97]) S_IFREG Optimize.plainEnv))
      ∀ c ∈ t.2, Lists ((t.1.entriesOf (t.1.fs.icache.inode c.list).iPrivate).map
        fun m => (m.name, m.ino)) (optimizeCall t.1 c.list) c) := by
  have hroom (c : Cursor InodePtr Item) : Roomy c.pos 2 := fun _ => by decide
  have hfits : Optimize.EntryFits Optimize.freshMount
      (.create 0 (Qstr.ofBytes [97]) S_IFREG Optimize.plainEnv) :=
    fun _ _ ino _ => ⟨by decide +kernel, Or.inl (by decide)⟩
  exact ⟨readers_miss_nothing.1 Done.freshMount (oneReader _) Done.freshMount_mounted
      ⟨trivial, trivial, fun c _ => hroom c, fun c _ => hroom c, trivial⟩,
    readers_miss_nothing.2 Optimize.freshMount (oneReader _) Optimize.freshMount_mounted
      ⟨⟨by decide +kernel, hfits⟩, trivial, fun c _ => hroom c, fun c _ => hroom c, trivial⟩⟩

end OSLab.Templates
