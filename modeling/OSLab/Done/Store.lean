import OSLab.Done.Names

/-!
# The store the file operations implement

Each regular file is a byte string of at most one block, each open file a
position in one of them. Every run of the machine is a run of this store.
-/

namespace OSLab.Done
open OSLab.Base OSLab.Kernel

/-! ### The reference store -/

structure Handle where
  id : ℕ
  pos : ℕ
  deriving DecidableEq

/-- The texts of the files by their numbers, the files the inode pointers stand for, and the open
files. -/
structure Store where
  text : ℕ → Option Bytes
  inode : InodePtr → Option ℕ
  handles : List (Option Handle)

def Store.empty : Store := ⟨fun _ => none, fun _ => none, []⟩

def Store.handle (t : Store) (fd : ℕ) : Option Handle := (t.handles[fd]?).join

def Store.setPos (t : Store) (fd : ℕ) (h : Handle) (pos : ℕ) : Store :=
  { t with handles := t.handles.set fd (some { h with pos }) }

def Store.setText (t : Store) (id : ℕ) (c : Bytes) : Store :=
  { t with text := Function.update t.text id (some c) }

def Store.setInode (t : Store) (p : InodePtr) (id : Option ℕ) : Store :=
  { t with inode := Function.update t.inode p id }

/-- One request to the store. Which creates and lookups succeed, and the numbers they answer with,
is left open; reads and writes are determined. -/
inductive StoreStep : Store → Req → Res → Store → Prop where
  | invalidOpen (t : Store) (p : InodePtr) (h : t.inode p = none) :
      StoreStep t (.open p) .invalid t
  | invalidSeek (t : Store) (fd pos : ℕ) (h : t.handle fd = none ∨ LLONG_MAX < pos) :
      StoreStep t (.seek fd pos) .invalid t
  | invalidRead (t : Store) (fd room len : ℕ) (h : t.handle fd = none) :
      StoreStep t (.read fd room len) .invalid t
  | invalidWrite (t : Store) (fd : ℕ) (buf : Bytes) (len : ℕ) (env : Env)
      (h : t.handle fd = none) : StoreStep t (.write fd buf len env) .invalid t
  | noDirCreate (t : Store) (dir : InodePtr) (dentry : Qstr) (mode : UMode) (env : Env) :
      StoreStep t (.create dir dentry mode env) .invalid t
  | noDirLookup (t : Store) (dir : InodePtr) (dentry : Qstr) (env : Env) :
      StoreStep t (.lookup dir dentry env) .invalid t
  | busy (t : Store) (p : InodePtr) : StoreStep t (.evict p) .invalid t
  | createFailed (t : Store) (dir : InodePtr) (dentry : Qstr) (mode : UMode) (env : Env)
      (e : Errno) : StoreStep t (.create dir dentry mode env) (.createFailed e) t
  | createFile (t : Store) (dir : InodePtr) (dentry : Qstr) (mode : UMode) (env : Env)
      (p : InodePtr) (id : ℕ) (hreg : sIsReg mode = true) (hid : t.text id = none)
      (hp : t.inode p = none) :
      StoreStep t (.create dir dentry mode env) (.created p id)
        ((t.setText id []).setInode p (some id))
  | createOther (t : Store) (dir : InodePtr) (dentry : Qstr) (mode : UMode) (env : Env)
      (p : InodePtr) (id : ℕ) (hreg : sIsReg mode = false) :
      StoreStep t (.create dir dentry mode env) (.created p id) t
  | negative (t : Store) (dir : InodePtr) (dentry : Qstr) (env : Env) :
      StoreStep t (.lookup dir dentry env) .negative t
  | lookupFailed (t : Store) (dir : InodePtr) (dentry : Qstr) (env : Env) (e : Errno) :
      StoreStep t (.lookup dir dentry env) (.lookupFailed e) t
  | foundFile (t : Store) (dir : InodePtr) (dentry : Qstr) (env : Env) (p : InodePtr) (id : ℕ)
      (hid : t.text id ≠ none) (hp : t.inode p = none) :
      StoreStep t (.lookup dir dentry env) (.found p id) (t.setInode p (some id))
  | foundOther (t : Store) (dir : InodePtr) (dentry : Qstr) (env : Env) (p : InodePtr) (id : ℕ)
      (hid : t.text id = none) : StoreStep t (.lookup dir dentry env) (.found p id) t
  | opened (t : Store) (p : InodePtr) (id : ℕ) (h : t.inode p = some id) :
      StoreStep t (.open p) (.opened t.handles.length)
        { t with handles := t.handles ++ [some ⟨id, 0⟩] }
  | closed (t : Store) (fd : ℕ) :
      StoreStep t (.close fd) .done { t with handles := t.handles.set fd none }
  | evicted (t : Store) (p : InodePtr) : StoreStep t (.evict p) .done (t.setInode p none)
  | seeked (t : Store) (fd pos : ℕ) (h : Handle) (hh : t.handle fd = some h)
      (hpos : pos ≤ LLONG_MAX) : StoreStep t (.seek fd pos) .done (t.setPos fd h pos)
  | readRefused (t : Store) (fd room len : ℕ) (h : Handle) (hh : t.handle fd = some h)
      (hpos : LLONG_MAX < h.pos + len) : StoreStep t (.read fd room len) (.read (.error .EINVAL)) t
  | read (t : Store) (fd room len : ℕ) (h : Handle) (c : Bytes) (hh : t.handle fd = some h)
      (hc : t.text h.id = some c) (hpos : h.pos + len ≤ LLONG_MAX) :
      StoreStep t (.read fd room len) (.read (.ok ((c.drop h.pos).take (rwCount len))))
        (t.setPos fd h (h.pos + ((c.drop h.pos).take (rwCount len)).length))
  | writeRefused (t : Store) (fd : ℕ) (buf : Bytes) (len : ℕ) (env : Env) (h : Handle)
      (hh : t.handle fd = some h) (hpos : LLONG_MAX < h.pos + len) :
      StoreStep t (.write fd buf len env) (.written (.error .EINVAL)) t
  | writePast (t : Store) (fd : ℕ) (buf : Bytes) (len : ℕ) (env : Env) (h : Handle)
      (hh : t.handle fd = some h) (hpos : h.pos + len ≤ LLONG_MAX) (hpast : BLOCK_SIZE < h.pos) :
      StoreStep t (.write fd buf len env) (.written (.error .EFAULT)) t
  | written (t : Store) (fd : ℕ) (buf : Bytes) (len : ℕ) (env : Env) (h : Handle) (c : Bytes)
      (n : ℕ) (hh : t.handle fd = some h) (hc : t.text h.id = some c)
      (hpos : h.pos + len ≤ LLONG_MAX) (hle : h.pos ≤ BLOCK_SIZE)
      (hn : n = min (rwCount len) (BLOCK_SIZE - h.pos)) :
      StoreStep t (.write fd buf len env) (.written (.ok n))
        ((t.setText h.id (writeAt c h.pos (buf.take n))).setPos fd h (h.pos + n))

/-- No text is longer than a block. -/
def Store.Bounded (t : Store) : Prop := ∀ id c, t.text id = some c → c.length ≤ BLOCK_SIZE

theorem StoreStep.bounded {t u : Store} {r : Req} {o : Res} (h : StoreStep t r o u)
    (hb : t.Bounded) : u.Bounded := by
  have hset {id : ℕ} {c : Bytes} (hc : c.length ≤ BLOCK_SIZE) : (t.setText id c).Bounded := by
    intro j d hd
    by_cases hj : j = id
    · subst hj
      rw [show (t.setText j c).text j = some c from Function.update_self ..] at hd
      rw [← Option.some.inj hd]
      exact hc
    · rw [show (t.setText id c).text j = t.text j from Function.update_of_ne hj ..] at hd
      exact hb j d hd
  cases h with
  | createFile dir dentry mode env p id _ _ _ => exact hset (Nat.zero_le _)
  | written fd buf len env h c n hh hc hpos hle hn =>
    apply hset
    have hlen := hb h.id c hc
    rw [writeAt_length, List.length_take]
    omega
  | _ => exact hb

/-- Every pointer stands for a file that is there. -/
def Store.Linked (t : Store) : Prop := ∀ p id, t.inode p = some id → t.text id ≠ none

theorem StoreStep.linked {t u : Store} {r : Req} {o : Res} (h : StoreStep t r o u)
    (hl : t.Linked) : u.Linked := by
  have htext {id : ℕ} {c : Bytes} : (t.setText id c).Linked := by
    intro q j hq
    by_cases hj : j = id
    · subst hj
      rw [show (t.setText j c).text j = some c from Function.update_self ..]
      exact Option.some_ne_none c
    · rw [show (t.setText id c).text j = t.text j from Function.update_of_ne hj ..]
      exact hl q j hq
  have hinode {v : Store} (hv : v.Linked) {p : InodePtr} {id : Option ℕ}
      (hid : ∀ k, id = some k → v.text k ≠ none) : (v.setInode p id).Linked := by
    intro q j hq
    by_cases hqp : q = p
    · subst hqp
      rw [show (v.setInode q id).inode q = id from Function.update_self ..] at hq
      exact hid j hq
    · rw [show (v.setInode p id).inode q = v.inode q from Function.update_of_ne hqp ..] at hq
      exact hv q j hq
  cases h with
  | createFile dir dentry mode env p id _ _ _ =>
    apply hinode htext
    intro k hk
    obtain rfl := Option.some.inj hk
    rw [show (t.setText id []).text id = some [] from Function.update_self ..]
    exact Option.some_ne_none _
  | foundFile dir dentry env p id hid _ =>
    apply hinode hl
    intro k hk
    obtain rfl := Option.some.inj hk
    exact hid
  | evicted p => exact hinode hl fun k hk => by cases hk
  | written fd buf len env h c n hh hc hpos hle hn => exact htext
  | _ => exact hl

/-- What a read or a write answers, and what it leaves, is determined by the store. -/
theorem StoreStep.io_det {t u v : Store} {r : Req} {o o' : Res} (h : StoreStep t r o u)
    (h' : StoreStep t r o' v)
    (hr : (∃ fd room len, r = .read fd room len) ∨ ∃ fd buf len env, r = .write fd buf len env) :
    o = o' ∧ u = v := by
  rcases hr with ⟨fd, room, len, rfl⟩ | ⟨fd, buf, len, env, rfl⟩
  · cases h <;> cases h' <;> simp_all <;> omega
  · cases h <;> cases h' <;> simp_all <;> omega

/-! ### The store behind the machine -/

/-- Some directory has an entry for the inode number: what a create that failed has left behind
is formatted, but not named. -/
def OsfsSbInfo.Named (sb : OsfsSbInfo) (k : ℕ) : Prop := ∃ d name, (name, k) ∈ sb.dirLog d

open Classical in
noncomputable def OsfsSbInfo.fileText (sb : OsfsSbInfo) (k : ℕ) : Option Bytes :=
  if sb.Named k ∧ Formatted sb k ∧ sIsReg (sb.inodeTable k).iMode = true then some (sb.fileBytes k)
  else none

def Fs.fileOf (fs : Fs) (p : InodePtr) : Option ℕ :=
  if fs.isFileInode p then some (fs.icache.inode p).iPrivate else none

def Fs.handleOf (fs : Fs) (f : File) : Handle := ⟨(fs.icache.inode f.fInode).iPrivate, f.fPos⟩

noncomputable def Sys.store (s : Sys) : Store :=
  { text := s.fs.sb.fileText
    inode := s.fs.fileOf
    handles := s.files.map (Option.map s.fs.handleOf) }

theorem SbInv.named_formatted {sb : OsfsSbInfo} (h : SbInv sb) {k : ℕ} (hk : sb.Named k) :
    Formatted sb k := by
  obtain ⟨d, name, hin⟩ := hk
  by_cases hd : Formatted sb d ∧ sIsDir (sb.inodeTable d).iMode = true
  · rw [dirLog_dir hd.1 hd.2] at hin
    obtain ⟨i, hi, _, hino⟩ := mem_dirEntries.mp hin
    exact (h.named d i k ⟨hd.1, hd.2, hi, hino⟩).1
  · rw [dirLog_none hd] at hin
    cases hin

theorem named_congr {sb sb' : OsfsSbInfo} (h : ∀ d, sb'.dirLog d = sb.dirLog d) (k : ℕ) :
    sb'.Named k ↔ sb.Named k := by
  unfold OsfsSbInfo.Named
  simp only [h]

theorem named_addEntry {sb : OsfsSbInfo} (h : SbInv sb) {d ino : ℕ} {name : Bytes}
    (hc : CanEnter sb d ino name) (k : ℕ) :
    (sb.addEntry d ino name).Named k ↔ sb.Named k ∨ k = ino := by
  unfold OsfsSbInfo.Named
  simp only [dirLog_addEntry h hc, List.mem_append]
  constructor
  · rintro ⟨d', n, hold | hnew⟩
    · exact Or.inl ⟨d', n, hold⟩
    · split at hnew
      · right
        exact congrArg Prod.snd (List.mem_singleton.mp hnew)
      · cases hnew
  · rintro (⟨d', n, hold⟩ | rfl)
    · exact ⟨d', n, Or.inl hold⟩
    · refine ⟨d, name, Or.inr ?_⟩
      rw [if_pos rfl]
      exact List.mem_singleton.mpr rfl

theorem fileText_some {sb : OsfsSbInfo} {k : ℕ} (hn : sb.Named k) (hf : Formatted sb k)
    (hreg : sIsReg (sb.inodeTable k).iMode = true) : sb.fileText k = some (sb.fileBytes k) :=
  if_pos ⟨hn, hf, hreg⟩

theorem fileText_none {sb : OsfsSbInfo} {k : ℕ}
    (h : ¬ (sb.Named k ∧ Formatted sb k ∧ sIsReg (sb.inodeTable k).iMode = true)) :
    sb.fileText k = none := if_neg h

theorem fileText_congr {sb sb' : OsfsSbInfo} {k : ℕ} (hn : sb'.Named k ↔ sb.Named k)
    (hf : Formatted sb' k ↔ Formatted sb k)
    (hmode : (sb'.inodeTable k).iMode = (sb.inodeTable k).iMode)
    (hbytes : FileSlot sb k → sb'.fileBytes k = sb.fileBytes k) (h : SbInv sb) :
    sb'.fileText k = sb.fileText k := by
  by_cases hk : sb.Named k ∧ Formatted sb k ∧ sIsReg (sb.inodeTable k).iMode = true
  · rw [fileText_some hk.1 hk.2.1 hk.2.2,
      fileText_some (hn.mpr hk.1) (hf.mpr hk.2.1) (by rw [hmode]; exact hk.2.2),
      hbytes (h.fileSlot hk.2.1 hk.2.2)]
  · rw [fileText_none hk]
    apply fileText_none
    rw [hn, hf, hmode]
    exact hk

section Create
variable {fs : Fs} {env : Env} {dir : InodePtr} {mode : UMode} {ino b : ℕ}

theorem SbInv.unused_unnamed {sb : OsfsSbInfo} (h : SbInv sb) {k : ℕ}
    (hk : sb.inodeBitmap k = false) : ¬ sb.Named k :=
  fun hn => h.not_formatted hk (h.named_formatted hn)

theorem fileText_withNewInode (h : FsInv fs) (hf : Fresh fs.sb ino b) :
    (fs.withNewInode env dir mode ino b).sb.fileText = fs.sb.fileText := by
  have hnamed := named_congr (dirLog_withNewInode h env dir mode hf)
  funext k
  by_cases hk : k = ino
  · have hun := h.sb.unused_unnamed hf.inoFree
    rw [hk, fileText_none (fun hn => hun hn.1), fileText_none (fun hn => hun ((hnamed ino).mp hn.1))]
  · have htk : (fs.withNewInode env dir mode ino b).sb.inodeTable k = fs.sb.inodeTable k :=
      formatInode_table_ne fs.sb (createdSlot env (fs.icache.inode dir) ino mode) b hk
    have hbytes : (fs.withNewInode env dir mode ino b).sb.fileBytes k = fs.sb.fileBytes k := by
      have haddr := blockAddr_congr (congrArg OsfsInode.iBlock htk)
      unfold OsfsSbInfo.fileBytes
      rw [haddr, htk]
      rfl
    exact fileText_congr (hnamed k) (formatInode_formatted_ne fs.sb _ b hk) (congrArg OsfsInode.iMode htk)
      (fun _ => hbytes) h.sb

theorem fileText_withEntry (h : FsInv fs) (hf : Fresh fs.sb ino b) {name : Bytes}
    (hc : CanEnter (fs.withNewInode env dir mode ino b).sb
      ((fs.withNewInode env dir mode ino b).icache.inode dir).iPrivate ino name) :
    ((fs.withNewInode env dir mode ino b).withEntry dir ino name).sb.fileText =
      if sIsReg mode then Function.update fs.sb.fileText ino (some []) else fs.sb.fileText := by
  have hinv := h.withNewInode env dir mode hf
  have hnamed (k : ℕ) : ((fs.withNewInode env dir mode ino b).withEntry dir ino name).sb.Named k ↔
      (fs.withNewInode env dir mode ino b).sb.Named k ∨ k = ino := named_addEntry hinv.sb hc k
  have hchange := addEntry_change ino hinv.sb hc.formatted hc.short hc.room
  have hold : fs.sb.fileText ino = none :=
    fileText_none fun hn => h.sb.unused_unnamed hf.inoFree hn.1
  have hnedir {k : ℕ} (hs : FileSlot (fs.withNewInode env dir mode ino b).sb k) :
      k ≠ ((fs.withNewInode env dir mode ino b).icache.inode dir).iPrivate := by
    rintro rfl
    have hd := hc.dir
    rw [hs.notDir] at hd
    cases hd
  have hreg := (createdSlot_dir env (fs.icache.inode dir) ino mode).2
  have htab : (fs.withNewInode env dir mode ino b).sb.inodeTable ino =
      { createdSlot env (fs.icache.inode dir) ino mode with iBlock := b } :=
    formatInode_table_self fs.sb (createdSlot env (fs.icache.inode dir) ino mode) b
  have hmode : sIsReg ((fs.withNewInode env dir mode ino b).sb.inodeTable ino).iMode =
      sIsReg mode := by
    rw [htab]
    exact hreg
  have hmode' : (((fs.withNewInode env dir mode ino b).withEntry dir ino name).sb.inodeTable
      ino).iMode = ((fs.withNewInode env dir mode ino b).sb.inodeTable ino).iMode :=
    (hchange.keep ino).2.2.1
  have hf' : Formatted ((fs.withNewInode env dir mode ino b).withEntry dir ino name).sb ino :=
    hchange.formatted_iff.mpr hc.target
  funext k
  by_cases hk : k = ino
  · subst hk
    by_cases hm : sIsReg mode = true
    · have hs := hinv.sb.fileSlot hc.target (by rw [hmode]; exact hm)
      have hbytes := fileBytes_setSlot_ne hinv.sb hchange hs (hnedir hs)
      rw [if_pos hm, Function.update_self,
        fileText_some ((hnamed k).mpr (Or.inr rfl)) hf' (by rw [hmode', hmode]; exact hm)]
      congr 1
      apply hbytes.trans
      apply List.length_eq_zero_iff.mp
      rw [fileBytes_length, htab]
      exact (hf.newSlot env dir mode).size
    · rw [if_neg hm, hold]
      apply fileText_none
      intro hn
      rw [hmode', hmode] at hn
      exact hm hn.2.2
  · have hsame : ((fs.withNewInode env dir mode ino b).withEntry dir ino name).sb.fileText k =
        (fs.withNewInode env dir mode ino b).sb.fileText k :=
      fileText_congr ((hnamed k).trans (or_iff_left hk)) hchange.formatted_iff
        (hchange.keep k).2.2.1 (fun hs => fileBytes_setSlot_ne hinv.sb hchange hs (hnedir hs))
        hinv.sb
    rw [hsame, fileText_withNewInode h hf]
    split
    · rw [Function.update_of_ne hk]
    · rfl

end Create

theorem fileText_write {fs : Fs} (h : FsInv fs) (hz : ZeroTails fs.sb) (env : Env) {p : InodePtr}
    {ppos : ℕ} {bs : Bytes} (hp : fs.isFileInode p = true)
    (hn : fs.sb.Named (fs.icache.inode p).iPrivate) (hend : ppos + bs.length ≤ BLOCK_SIZE) :
    (fs.withWrite env p ppos bs).sb.fileText =
      Function.update fs.sb.fileText (fs.icache.inode p).iPrivate
        (some (writeAt (fs.sb.fileBytes (fs.icache.inode p).iPrivate) ppos bs)) := by
  have hs := h.fileSlot hp
  have hc := hs.writeChange env hend
  have hnamed := named_congr (dirLog_setFile h.sb hs hc)
  funext k
  by_cases hk : k = (fs.icache.inode p).iPrivate
  · have hzero : ∀ i, (fs.sb.inodeTable (fs.icache.inode p).iPrivate).iSize ≤ i → i < ppos →
        fs.sb.dataBlocks (fs.sb.blockAddr (fs.icache.inode p).iPrivate + i) = 0 := by
      intro i hi hlt
      rw [hs.addr]
      exact hz _ hs.formatted hs.notDir i hi (by omega)
    rw [hk, Function.update_self, ← fileBytes_write env hs hend hzero]
    have hmode : ((fs.withWrite env p ppos bs).sb.inodeTable (fs.icache.inode p).iPrivate).iMode =
        (fs.sb.inodeTable (fs.icache.inode p).iPrivate).iMode := (hc.keep _).2.2.1
    have hf : Formatted (fs.withWrite env p ppos bs).sb (fs.icache.inode p).iPrivate :=
      hc.formatted_iff.mpr hs.formatted
    exact fileText_some ((hnamed _).mpr hn) hf (by rw [hmode]; exact hs.reg)
  · rw [Function.update_of_ne hk]
    exact fileText_congr (hnamed k) hc.formatted_iff (hc.keep k).2.2.1
      (fun hk' => fileBytes_setSlot_ne h.sb hc hk' hk) h.sb

/-! ### Pointers and open files -/

theorem FsInv.fileOf_fresh {fs : Fs} (h : FsInv fs) : fs.fileOf fs.icache.count = none := by
  apply if_neg
  intro hp
  exact Nat.lt_irrefl _ (h.isFile hp).1

theorem fileOf_congr {fs fs' : Fs} {p : InodePtr}
    (hpriv : (fs'.icache.inode p).iPrivate = (fs.icache.inode p).iPrivate)
    (hfop : (fs'.icache.inode p).iFop = (fs.icache.inode p).iFop) : fs'.fileOf p = fs.fileOf p := by
  unfold Fs.fileOf Fs.isFileInode
  rw [hpriv, hfop]

theorem fileOf_set {fs : Fs} {p : InodePtr} {inode : Inode} {sb : OsfsSbInfo}
    (hpriv : inode.iPrivate = (fs.icache.inode p).iPrivate)
    (hfop : inode.iFop = (fs.icache.inode p).iFop) :
    Fs.fileOf ⟨sb, fs.icache.set p inode⟩ = fs.fileOf := by
  funext q
  by_cases hq : q = p
  · subst hq
    apply fileOf_congr
    · rw [show (Icache.set fs.icache q inode).inode q = inode from Icache.set_same ..]
      exact hpriv
    · rw [show (Icache.set fs.icache q inode).inode q = inode from Icache.set_same ..]
      exact hfop
  · apply fileOf_congr
    · rw [show (Icache.set fs.icache p inode).inode q = fs.icache.inode q from
        fs.icache.set_ne _ hq]
    · rw [show (Icache.set fs.icache p inode).inode q = fs.icache.inode q from
        fs.icache.set_ne _ hq]

theorem fileOf_withEntry (fs : Fs) (dir : InodePtr) (ino : ℕ) (name : Bytes) :
    (fs.withEntry dir ino name).fileOf = fs.fileOf := by
  unfold Fs.withEntry
  exact fileOf_set rfl rfl

/-- A new VFS inode is a file or it is not; the other pointers are as before. -/
theorem fileOf_push (fs : Fs) (sb : OsfsSbInfo) (inode : Inode) {reg : Bool}
    (h0 : inode.iPrivate ≠ 0) (hfop : inode.iFop = .osfsFile ↔ reg = true) :
    Fs.fileOf ⟨sb, fs.icache.push inode⟩ =
      Function.update fs.fileOf fs.icache.count (if reg then some inode.iPrivate else none) := by
  funext q
  by_cases hq : q = fs.icache.count
  · subst hq
    rw [Function.update_self]
    unfold Fs.fileOf
    rw [show (fs.icache.push inode).inode fs.icache.count = inode from Icache.push_same ..]
    congr 1
    rw [eq_iff_iff, isFileInode_iff,
      show (fs.icache.push inode).inode fs.icache.count = inode from Icache.push_same ..]
    exact ⟨fun hh => hfop.mp hh.2, fun hr => ⟨h0, hfop.mpr hr⟩⟩
  · rw [Function.update_of_ne hq]
    apply fileOf_congr
    · rw [show (fs.icache.push inode).inode q = fs.icache.inode q from fs.icache.push_ne _ hq]
    · rw [show (fs.icache.push inode).inode q = fs.icache.inode q from fs.icache.push_ne _ hq]

theorem fileOf_iput (fs : Fs) (p : InodePtr) :
    (iput fs p).fileOf = Function.update fs.fileOf p none := by
  funext q
  by_cases hq : q = p
  · subst hq
    rw [Function.update_self]
    apply if_neg
    intro hp
    apply (isFileInode_iff.mp hp).1
    rw [show (iput fs q).icache.inode q = _ from Icache.set_same ..]
    exact osfsDestroyInode_private _
  · rw [Function.update_of_ne hq]
    apply fileOf_congr
    · rw [show (iput fs p).icache.inode q = fs.icache.inode q from fs.icache.set_ne _ hq]
    · rw [show (iput fs p).icache.inode q = fs.icache.inode q from fs.icache.set_ne _ hq]

theorem mem_files {s : Sys} {f : File} (h : some f ∈ s.files) : ∃ fd, s.file fd = some f := by
  obtain ⟨fd, hfd⟩ := List.mem_iff_getElem?.mp h
  exact ⟨fd, by rw [Sys.file, hfd]; rfl⟩

/-- The open files stand for the same files as long as the slots of their inodes stay. -/
theorem handles_congr {s : Sys} {fs : Fs}
    (h : ∀ fd f, s.file fd = some f →
      (fs.icache.inode f.fInode).iPrivate = (s.fs.icache.inode f.fInode).iPrivate) :
    s.files.map (Option.map fs.handleOf) = s.files.map (Option.map s.fs.handleOf) := by
  apply List.map_congr_left
  intro g hg
  cases g with
  | none => rfl
  | some f =>
    obtain ⟨fd, hfd⟩ := mem_files hg
    simp only [Option.map_some, Fs.handleOf, h fd f hfd]

theorem SysInv.handles_keep {s : Sys} (h : SysInv s) (fs : Fs) (hk : Keeps s.fs fs) :
    s.files.map (Option.map fs.handleOf) = s.files.map (Option.map s.fs.handleOf) := by
  apply handles_congr
  intro fd f hf
  exact (hk f.fInode (isFileInode_iff.mp (h.files fd f hf).1).1).1

theorem store_handle (s : Sys) (fd : ℕ) : s.store.handle fd = (s.file fd).map s.fs.handleOf := by
  unfold Store.handle Sys.store Sys.file
  rw [List.getElem?_map]
  cases s.files[fd]? with
  | none => rfl
  | some g => rfl

theorem store_setPos (s : Sys) (fd : ℕ) (f : File) (pos : ℕ) :
    (s.setPos fd f pos).store = s.store.setPos fd (s.fs.handleOf f) pos := by
  unfold Sys.store Sys.setPos Store.setPos
  simp only [List.map_set]
  rfl

end OSLab.Done
