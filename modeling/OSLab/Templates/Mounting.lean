import OSLab.Base.Machine
import OSLab.Done.Super
import OSLab.Optimize.System

/-!
# Mounts and unmounts side by side (osfs_init.c and super.c of either module)

`mount_nodev` calls `osfs_fill_super` for a new superblock and, when that
fails, `deactivate_locked_super`, which calls `osfs_kill_superblock` as an
unmount does. A failing `osfs_fill_super` has released the region it got from
`vmalloc` and leaves `s_fs_info` set, so the region is released twice. Mounts
and unmounts of several superblocks interleave, and `vmalloc` hands out any
address that is not allocated.
-/

namespace OSLab.Templates
open OSLab.Base OSLab.Kernel

inductive Template where
  | done
  | optimize

abbrev Addr := ℕ

/-- A superblock, numbered in the order in which the kernel sets them up. -/
abbrev SuperBlock := ℕ

/-- What an error path of `osfs_fill_super` gives back. -/
inductive Release where
  | iput
  | vfree (a : Addr)
  deriving DecidableEq

/- Lab4_Template_Done/super.c:84-125, behind the `vmalloc` of the region at `a`. A failing
`d_make_root` has put the inode already. -/
def doneReleases (env : Env) (dMakeRootOk : Bool) (a : Addr) : List Release :=
  match newInode env Icache.empty with
  | none => [.vfree a]
  | some _ =>
    match Done.osfsGetOsfsInode Done.emptySbInfo Done.ROOT_INODE with
    | none => [.iput, .vfree a]
    | some _ => if !dMakeRootOk then [.iput, .iput, .vfree a] else []

/- Lab4_Template_Optimize/super.c:43-79. -/
def optimizeReleases (env : Env) (dMakeRootOk : Bool) (a : Addr) : List Release :=
  match newInode env Icache.empty with
  | none => [.vfree a]
  | some _ =>
    match Optimize.osfsGetOsfsInode Optimize.emptySbInfo Optimize.ROOT_INODE with
    | none => [.iput, .vfree a]
    | some _ => if !dMakeRootOk then [.iput, .vfree a] else []

def Template.releases : Template → Env → Bool → Addr → List Release
  | .done => doneReleases
  | .optimize => optimizeReleases

/- `osfs_fill_super` returns 0. -/
def Template.fills : Template → Env → Bool → Bool → Bool
  | .done, env, vmallocOk, dMakeRootOk => (Done.osfsFillSuper env vmallocOk dMakeRootOk).isOk
  | .optimize, env, vmallocOk, dMakeRootOk =>
    (Optimize.osfsFillSuper env vmallocOk dMakeRootOk).isOk

/-- Where a superblock is in its life. -/
inductive Phase where
  | fresh
  | filling
  | mounted
  | failed
  | gone
  deriving DecidableEq

/-- `owner a` is the superblock for which the region at `a` was allocated; `fsInfo sb` is
`sb->s_fs_info`. -/
structure Mounts where
  owner : Addr → Option SuperBlock
  fsInfo : SuperBlock → Option Addr
  phase : SuperBlock → Phase

def Mounts.boot : Mounts :=
  { owner := fun _ => none, fsInfo := fun _ => none, phase := fun _ => .fresh }

/- `vmalloc` begins `osfs_fill_super`, and `none` is that it found no memory; `fill` is the rest
of it. -/
inductive MountReq where
  | vmalloc (sb : SuperBlock) (a : Option Addr)
  | fill (sb : SuperBlock) (env : Env) (dMakeRootOk : Bool)
  | kill (sb : SuperBlock)

/-- A call of `vfree`: on whose behalf, and for whom the region was allocated that it releases. -/
structure Vfree where
  sb : SuperBlock
  owner : Option SuperBlock
  deriving DecidableEq

structure MountRes where
  valid : Bool
  vfrees : List Vfree
  deriving DecidableEq

def Mounts.setPhase (m : Mounts) (sb : SuperBlock) (p : Phase) : Mounts :=
  { m with phase := Function.update m.phase sb p }

def Mounts.vfree (m : Mounts) (sb : SuperBlock) (a : Addr) : Vfree × Mounts :=
  (⟨sb, m.owner a⟩, { m with owner := Function.update m.owner a none })

def Mounts.releaseAll (m : Mounts) (sb : SuperBlock) : List Release → List Vfree × Mounts
  | [] => ([], m)
  | .iput :: rest => m.releaseAll sb rest
  | .vfree a :: rest =>
    let r := (m.vfree sb a).2.releaseAll sb rest
    ((m.vfree sb a).1 :: r.1, r.2)

/- The region at `a` becomes the `s_fs_info` of the superblock. -/
def Mounts.take (m : Mounts) (sb : SuperBlock) (a : Addr) : Mounts :=
  { owner := Function.update m.owner a (some sb), fsInfo := Function.update m.fsInfo sb (some a),
    phase := Function.update m.phase sb .filling }

/- `sb->s_fs_info = NULL`. -/
def Mounts.clear (m : Mounts) (sb : SuperBlock) : Mounts :=
  { m with fsInfo := Function.update m.fsInfo sb none }

/- `osfs_kill_superblock`. -/
def Mounts.killSuperblock (m : Mounts) (sb : SuperBlock) : List Vfree × Mounts :=
  match m.fsInfo sb with
  | none => ([], m)
  | some a => ([(m.vfree sb a).1], (m.vfree sb a).2.clear sb)

def mountStep (t : Template) (m : Mounts) : MountReq → MountRes × Mounts
  | .vmalloc sb a =>
    if m.phase sb = .fresh then
      match a with
      | none => (⟨true, []⟩, m.setPhase sb .failed)
      | some a => if m.owner a = none then (⟨true, []⟩, m.take sb a) else (⟨false, []⟩, m)
    else (⟨false, []⟩, m)
  | .fill sb env dMakeRootOk =>
    match m.phase sb, m.fsInfo sb with
    | .filling, some a =>
      let r := m.releaseAll sb (t.releases env dMakeRootOk a)
      (⟨true, r.1⟩, r.2.setPhase sb (if t.fills env true dMakeRootOk then .mounted else .failed))
    | _, _ => (⟨false, []⟩, m)
  | .kill sb =>
    if m.phase sb = .mounted ∨ m.phase sb = .failed then
      let r := m.killSuperblock sb
      (⟨true, r.1⟩, r.2.setPhase sb .gone)
    else (⟨false, []⟩, m)

def mounts (t : Template) : Machine Mounts MountReq MountRes := ⟨mountStep t⟩

def Phase.Active (p : Phase) : Prop := p = .filling ∨ p = .mounted

/- The region of the superblock is allocated, and for it. -/
def Mounts.Owns (m : Mounts) (sb : SuperBlock) : Prop :=
  ∃ a, m.fsInfo sb = some a ∧ m.owner a = some sb

/- Every region that the step releases was allocated for the superblock concerned. -/
def Rightful (t : Template) (m : Mounts) (r : MountReq) : Prop :=
  ∀ v ∈ ((mounts t).resp m r).vfrees, v.owner = some v.sb

/- The step does not kill a superblock whose `osfs_fill_super` failed behind its `vmalloc`. -/
def SparesFailed (m : Mounts) (r : MountReq) : Prop :=
  ∀ sb, r = .kill sb → m.phase sb = .failed → m.fsInfo sb = none

/- Every superblock that is being filled or mounted has its region after the step. -/
def KeepsRegions (t : Template) (m : Mounts) (r : MountReq) : Prop :=
  ∀ sb, (((mounts t).next m r).phase sb).Active → ((mounts t).next m r).Owns sb

/- A superblock whose `osfs_fill_super` failed behind its `vmalloc` is killed only while no other
superblock that is being filled or mounted holds the address. -/
def KillsInTime (m : Mounts) (r : MountReq) : Prop :=
  ∀ sb a, r = .kill sb → m.phase sb = .failed → m.fsInfo sb = some a →
    ∀ sb', (m.phase sb').Active → m.fsInfo sb' ≠ some a

variable {t : Template} {m m' : Mounts} {r : MountReq} {sb : SuperBlock} {a : Addr}

/-! ### The error paths -/

theorem doneRoot : Done.osfsGetOsfsInode Done.emptySbInfo Done.ROOT_INODE = some Done.ROOT_INODE := rfl

theorem optimizeRoot : Optimize.osfsGetOsfsInode Optimize.emptySbInfo Optimize.ROOT_INODE =
    some Optimize.ROOT_INODE := rfl

theorem fills_eq (t : Template) (env : Env) (dMakeRootOk : Bool) :
    t.fills env true dMakeRootOk = (env.newInodeOk && dMakeRootOk) := by
  cases hmem : env.newInodeOk with
  | false =>
    cases t with
    | done => simp only [Template.fills, Done.osfsFillSuper, newInode_fails hmem]; rfl
    | optimize => simp only [Template.fills, Optimize.osfsFillSuper, newInode_fails hmem]; rfl
  | true =>
    cases t with
    | done =>
      simp only [Template.fills, Done.osfsFillSuper, newInode_ok hmem, doneRoot]
      cases dMakeRootOk <;> rfl
    | optimize =>
      simp only [Template.fills, Optimize.osfsFillSuper, newInode_ok hmem, optimizeRoot]
      cases dMakeRootOk <;> rfl

theorem releases_filled {env : Env} {dMakeRootOk : Bool}
    (h : t.fills env true dMakeRootOk = true) (a : Addr) : t.releases env dMakeRootOk a = [] := by
  rw [fills_eq, Bool.and_eq_true] at h
  obtain ⟨hmem, hroot⟩ := h
  cases t with
  | done => simp only [Template.releases, doneReleases, newInode_ok hmem, doneRoot, hroot]; rfl
  | optimize =>
    simp only [Template.releases, optimizeReleases, newInode_ok hmem, optimizeRoot, hroot]; rfl

/-- Every error path ends with the one release of the region. -/
theorem releases_failed {env : Env} {dMakeRootOk : Bool}
    (h : t.fills env true dMakeRootOk = false) (a : Addr) :
    ∃ n, t.releases env dMakeRootOk a = List.replicate n .iput ++ [.vfree a] := by
  rw [fills_eq] at h
  cases hmem : env.newInodeOk with
  | false =>
    refine ⟨0, ?_⟩
    cases t with
    | done => simp only [Template.releases, doneReleases, newInode_fails hmem]; rfl
    | optimize => simp only [Template.releases, optimizeReleases, newInode_fails hmem]; rfl
  | true =>
    rw [hmem, Bool.true_and] at h
    cases t with
    | done =>
      refine ⟨2, ?_⟩
      simp only [Template.releases, doneReleases, newInode_ok hmem, doneRoot, h]
      rfl
    | optimize =>
      refine ⟨1, ?_⟩
      simp only [Template.releases, optimizeReleases, newInode_ok hmem, optimizeRoot, h]
      rfl

/-- The one reference to the root inode is put once, but for a failing `d_make_root` in
Lab4_Template_Done. -/
theorem iputs_le_one_iff (t : Template) (env : Env) (dMakeRootOk : Bool) (a : Addr) :
    (t.releases env dMakeRootOk a).count .iput ≤ 1 ↔
      t = .optimize ∨ env.newInodeOk = false ∨ dMakeRootOk = true := by
  cases hmem : env.newInodeOk with
  | false =>
    cases t with
    | done => simp [Template.releases, doneReleases, newInode_fails hmem]
    | optimize => simp [Template.releases, optimizeReleases, newInode_fails hmem]
  | true =>
    cases t with
    | done =>
      simp only [Template.releases, doneReleases, newInode_ok hmem, doneRoot]
      cases dMakeRootOk <;> simp
    | optimize =>
      simp only [Template.releases, optimizeReleases, newInode_ok hmem, optimizeRoot]
      cases dMakeRootOk <;> simp

theorem releaseAll_iputs (m : Mounts) (sb : SuperBlock) (n : ℕ) (rest : List Release) :
    m.releaseAll sb (List.replicate n .iput ++ rest) = m.releaseAll sb rest := by
  induction n with
  | zero => rfl
  | succ n ih => exact ih

/-! ### What one step does -/

inductive MountEffect (t : Template) (m : Mounts) : MountReq → MountRes × Mounts → Prop where
  | refused (r : MountReq) : (∀ sb, r = .kill sb → m.phase sb ≠ .failed) →
      MountEffect t m r (⟨false, []⟩, m)
  | noMemory (sb : SuperBlock) : m.phase sb = .fresh →
      MountEffect t m (.vmalloc sb none) (⟨true, []⟩, m.setPhase sb .failed)
  | taken (sb : SuperBlock) (a : Addr) : m.phase sb = .fresh → m.owner a = none →
      MountEffect t m (.vmalloc sb (some a)) (⟨true, []⟩, m.take sb a)
  | filled (sb : SuperBlock) (env : Env) (dMakeRootOk : Bool) : m.phase sb = .filling →
      MountEffect t m (.fill sb env dMakeRootOk) (⟨true, []⟩, m.setPhase sb .mounted)
  | gaveUp (sb : SuperBlock) (env : Env) (dMakeRootOk : Bool) (a : Addr) :
      m.phase sb = .filling → m.fsInfo sb = some a →
      MountEffect t m (.fill sb env dMakeRootOk)
        (⟨true, [⟨sb, m.owner a⟩]⟩, (m.vfree sb a).2.setPhase sb .failed)
  | empty (sb : SuperBlock) : m.phase sb = .mounted ∨ m.phase sb = .failed →
      m.fsInfo sb = none → MountEffect t m (.kill sb) (⟨true, []⟩, m.setPhase sb .gone)
  | killed (sb : SuperBlock) (a : Addr) : m.phase sb = .mounted ∨ m.phase sb = .failed →
      m.fsInfo sb = some a →
      MountEffect t m (.kill sb)
        (⟨true, [⟨sb, m.owner a⟩]⟩, ((m.vfree sb a).2.clear sb).setPhase sb .gone)

theorem mountStep_effect (t : Template) (m : Mounts) (r : MountReq) :
    MountEffect t m r (mountStep t m r) := by
  cases r with
  | vmalloc sb a =>
    simp only [mountStep]
    by_cases hp : m.phase sb = .fresh
    · rw [if_pos hp]
      cases a with
      | none => exact .noMemory sb hp
      | some a =>
        dsimp only
        by_cases ha : m.owner a = none
        · rw [if_pos ha]
          exact .taken sb a hp ha
        · rw [if_neg ha]
          exact .refused _ fun _ hr => by cases hr
    · rw [if_neg hp]
      exact .refused _ fun _ hr => by cases hr
  | fill sb env dMakeRootOk =>
    simp only [mountStep]
    split
    · rename_i a hp ha
      cases hfills : t.fills env true dMakeRootOk with
      | true =>
        rw [releases_filled hfills]
        exact .filled sb env dMakeRootOk hp
      | false =>
        obtain ⟨n, hn⟩ := releases_failed hfills a
        rw [hn, releaseAll_iputs]
        exact .gaveUp sb env dMakeRootOk a hp ha
    · exact .refused _ fun _ hr => by cases hr
  | kill sb =>
    simp only [mountStep]
    by_cases hp : m.phase sb = .mounted ∨ m.phase sb = .failed
    · rw [if_pos hp]
      cases ha : m.fsInfo sb with
      | none =>
        simp only [Mounts.killSuperblock, ha]
        exact .empty sb hp ha
      | some a =>
        simp only [Mounts.killSuperblock, ha]
        exact .killed sb a hp ha
    · rw [if_neg hp]
      refine .refused _ fun sb' hr hfailed => hp (Or.inr ?_)
      obtain rfl := MountReq.kill.inj hr
      exact hfailed

/-! ### Who holds a region -/

/- An allocated region is the `s_fs_info` of a superblock that is being filled or mounted. -/
def Mounts.Pointed (m : Mounts) : Prop :=
  ∀ a sb, m.owner a = some sb → m.fsInfo sb = some a ∧ (m.phase sb).Active

def Mounts.Held (m : Mounts) : Prop := ∀ sb, (m.phase sb).Active → m.Owns sb

theorem boot_pointed : Mounts.boot.Pointed := fun _ _ h => by cases h

theorem boot_held : Mounts.boot.Held := by
  intro sb h
  rcases h with h | h <;> cases h

theorem Mounts.Pointed.unique (h : m.Pointed) {a' : Addr} (ha : m.owner a = some sb)
    (ha' : m.owner a' = some sb) : a = a' :=
  Option.some.inj ((h a sb ha).1.symm.trans (h a' sb ha').1)

theorem Mounts.Pointed.none_of_not_active (h : m.Pointed) (hp : ¬ (m.phase sb).Active) (a : Addr) :
    m.owner a ≠ some sb := fun ha => hp (h a sb ha).2

theorem Mounts.Pointed.setPhase (h : m.Pointed) {p : Phase}
    (hkeep : ∀ a, m.owner a = some sb → p.Active) : (m.setPhase sb p).Pointed := by
  intro a sb' ha
  obtain ⟨hinfo, hactive⟩ := h a sb' ha
  refine ⟨hinfo, ?_⟩
  change (Function.update m.phase sb p sb').Active
  by_cases he : sb' = sb
  · subst he
    rw [Function.update_self]
    exact hkeep a ha
  · rwa [Function.update_of_ne he]

theorem Mounts.Pointed.clear (h : m.Pointed) (hno : ∀ a, m.owner a ≠ some sb) :
    (m.clear sb).Pointed := by
  intro a sb' ha
  have hne : sb' ≠ sb := fun he => hno a (he ▸ ha)
  refine ⟨?_, (h a sb' ha).2⟩
  change Function.update m.fsInfo sb none sb' = some a
  rw [Function.update_of_ne hne]
  exact (h a sb' ha).1

theorem Mounts.vfree_owner {a' : Addr} {sb sb' : SuperBlock}
    (h : (m.vfree sb a).2.owner a' = some sb') : a' ≠ a ∧ m.owner a' = some sb' := by
  change Function.update m.owner a none a' = some sb' at h
  by_cases he : a' = a
  · rw [he, Function.update_self] at h
    cases h
  · rw [Function.update_of_ne he] at h
    exact ⟨he, h⟩

theorem Mounts.Pointed.vfree (h : m.Pointed) (sb : SuperBlock) (a : Addr) :
    (m.vfree sb a).2.Pointed :=
  fun a' sb' ha => h a' sb' (Mounts.vfree_owner ha).2

/-- After its region has been released a superblock has nothing. -/
theorem Mounts.Pointed.vfree_none (h : m.Pointed) (hinfo : m.fsInfo sb = some a) (a' : Addr) :
    (m.vfree sb a).2.owner a' ≠ some sb := by
  intro ha
  obtain ⟨hne, ha⟩ := Mounts.vfree_owner ha
  exact hne (Option.some.inj ((h a' sb ha).1.symm.trans hinfo))

theorem Mounts.Pointed.take (h : m.Pointed) (hfresh : m.phase sb = .fresh) (a : Addr) :
    (m.take sb a).Pointed := by
  have hno : ∀ a, m.owner a ≠ some sb :=
    h.none_of_not_active (by rw [hfresh]; rintro (h | h) <;> cases h)
  intro a' sb' ha
  change Function.update m.owner a (some sb) a' = some sb' at ha
  change Function.update m.fsInfo sb (some a) sb' = some a' ∧
    (Function.update m.phase sb .filling sb').Active
  by_cases he : a' = a
  · rw [he, Function.update_self] at ha
    obtain rfl := Option.some.inj ha
    rw [Function.update_self, Function.update_self, he]
    exact ⟨rfl, Or.inl rfl⟩
  · rw [Function.update_of_ne he] at ha
    have hne : sb' ≠ sb := fun heq => hno a' (heq ▸ ha)
    rw [Function.update_of_ne hne, Function.update_of_ne hne]
    exact h a' sb' ha

theorem MountEffect.pointed {x : MountRes × Mounts} (he : MountEffect t m r x) (h : m.Pointed) :
    x.2.Pointed := by
  cases he with
  | refused _ => exact h
  | noMemory sb hp =>
    have hno : ∀ a, m.owner a ≠ some sb :=
      h.none_of_not_active (by rw [hp]; rintro (h | h) <;> cases h)
    exact h.setPhase fun a ha => absurd ha (hno a)
  | taken sb a hp ha => exact h.take hp a
  | filled sb env dMakeRootOk hp => exact h.setPhase fun _ _ => Or.inr rfl
  | gaveUp sb env dMakeRootOk a hp hinfo =>
    exact (h.vfree sb a).setPhase fun a' ha => absurd ha (h.vfree_none hinfo a')
  | empty sb hp hinfo =>
    refine h.setPhase fun a ha => ?_
    rw [(h a sb ha).1] at hinfo
    cases hinfo
  | killed sb a hp hinfo =>
    have hno := h.vfree_none hinfo
    exact ((h.vfree sb a).clear hno).setPhase fun a' ha => absurd ha (hno a')

/-- No run leaks a region: each is the `s_fs_info` of a superblock that is being filled or mounted. -/
theorem run_pointed (t : Template) (rs : List MountReq) : ((mounts t).run .boot rs).Pointed :=
  (mounts t).run_invariant_all (fun m r h => (mountStep_effect t m r).pointed h) rs boot_pointed

theorem Mounts.Owns.setPhase (h : m.Owns sb) (sb' : SuperBlock) (p : Phase) :
    (m.setPhase sb' p).Owns sb := h

theorem Mounts.Owns.vfree (h : m.Owns sb) {sb' : SuperBlock} (hne : m.fsInfo sb ≠ some a) :
    (m.vfree sb' a).2.Owns sb := by
  obtain ⟨a', hinfo, howner⟩ := h
  have hne' : a' ≠ a := fun he => hne (he ▸ hinfo)
  refine ⟨a', hinfo, ?_⟩
  change Function.update m.owner a none a' = some sb
  rwa [Function.update_of_ne hne']

theorem Mounts.Owns.clear (h : m.Owns sb) {sb' : SuperBlock} (hne : sb ≠ sb') :
    (m.clear sb').Owns sb := by
  obtain ⟨a, hinfo, howner⟩ := h
  refine ⟨a, ?_, howner⟩
  change Function.update m.fsInfo sb' none sb = some a
  rwa [Function.update_of_ne hne]

/- Every superblock but `sb` has its region. -/
def Mounts.HeldBut (m : Mounts) (sb : SuperBlock) : Prop :=
  ∀ sb', sb' ≠ sb → (m.phase sb').Active → m.Owns sb'

theorem Mounts.Held.but (h : m.Held) (sb : SuperBlock) : m.HeldBut sb := fun sb' _ => h sb'

theorem Mounts.HeldBut.setPhase (h : m.HeldBut sb) {p : Phase} (hp : p.Active → m.Owns sb) :
    (m.setPhase sb p).Held := by
  intro sb' hactive
  change (Function.update m.phase sb p sb').Active at hactive
  by_cases he : sb' = sb
  · subst he
    rw [Function.update_self] at hactive
    exact hp hactive
  · rw [Function.update_of_ne he] at hactive
    exact h sb' he hactive

theorem Mounts.HeldBut.clear (h : m.HeldBut sb) : (m.clear sb).HeldBut sb :=
  fun sb' hne hactive => (h sb' hne hactive).clear hne

theorem Mounts.Held.vfree (h : m.Held)
    (hother : ∀ sb', sb' ≠ sb → (m.phase sb').Active → m.fsInfo sb' ≠ some a) :
    (m.vfree sb a).2.HeldBut sb :=
  fun sb' hne hactive => (h sb' hactive).vfree (hother sb' hne hactive)

theorem Mounts.Held.owner (h : m.Held) (hactive : (m.phase sb).Active)
    (hinfo : m.fsInfo sb = some a) : m.owner a = some sb := by
  obtain ⟨a', hinfo', howner⟩ := h sb hactive
  obtain rfl := Option.some.inj (hinfo.symm.trans hinfo')
  exact howner

theorem Mounts.Held.apart (h : m.Held) (hactive : (m.phase sb).Active)
    (hinfo : m.fsInfo sb = some a) {sb' : SuperBlock} (hne : sb' ≠ sb)
    (hactive' : (m.phase sb').Active) : m.fsInfo sb' ≠ some a := fun hinfo' =>
  hne (Option.some.inj ((h.owner hactive' hinfo').symm.trans (h.owner hactive hinfo)))

theorem Mounts.Held.take (h : m.Held) (ha : m.owner a = none) (sb : SuperBlock) :
    (m.take sb a).Held := by
  intro sb' hactive
  change (Function.update m.phase sb .filling sb').Active at hactive
  change ∃ a', Function.update m.fsInfo sb (some a) sb' = some a' ∧
    Function.update m.owner a (some sb) a' = some sb'
  by_cases he : sb' = sb
  · subst he
    exact ⟨a, Function.update_self .., Function.update_self ..⟩
  · rw [Function.update_of_ne he] at hactive
    obtain ⟨a', hinfo, howner⟩ := h sb' hactive
    have hne : a' ≠ a := by
      rintro rfl
      rw [ha] at howner
      cases howner
    rw [Function.update_of_ne he]
    refine ⟨a', hinfo, ?_⟩
    rwa [Function.update_of_ne hne]

theorem MountEffect.held {x : MountRes × Mounts} (he : MountEffect t m r x) (h : m.Held)
    (hkill : KillsInTime m r) : x.2.Held := by
  cases he with
  | refused _ => exact h
  | noMemory sb hp => exact (h.but sb).setPhase fun hactive => by rcases hactive with h | h <;> cases h
  | taken sb a hp ha => exact h.take ha sb
  | filled sb env dMakeRootOk hp => exact (h.but sb).setPhase fun _ => h sb (Or.inl hp)
  | gaveUp sb env dMakeRootOk a hp hinfo =>
    have hbut : (m.vfree sb a).2.HeldBut sb :=
      h.vfree fun sb' hne => h.apart (Or.inl hp) hinfo hne
    exact hbut.setPhase fun hactive => by rcases hactive with h | h <;> cases h
  | empty sb hp hinfo => exact (h.but sb).setPhase fun hactive => by rcases hactive with h | h <;> cases h
  | killed sb a hp hinfo =>
    have hother (sb' : SuperBlock) (hne : sb' ≠ sb) (hactive : (m.phase sb').Active) :
        m.fsInfo sb' ≠ some a := by
      rcases hp with hp | hp
      · exact h.apart (Or.inr hp) hinfo hne hactive
      · exact hkill sb a rfl hp hinfo sb' hactive
    have hbut := (h.vfree hother).clear
    exact hbut.setPhase fun hactive => by rcases hactive with h | h <;> cases h

/-! ### Releases and regions over whole runs -/

theorem SparesFailed.inTime (h : SparesFailed m r) : KillsInTime m r := by
  intro sb a hr hp hinfo
  rw [h sb hr hp] at hinfo
  cases hinfo

theorem MountEffect.rightful {x : MountRes × Mounts} (he : MountEffect t m r x) (h : m.Held)
    (hspare : SparesFailed m r) : ∀ v ∈ x.1.vfrees, v.owner = some v.sb := by
  cases he with
  | gaveUp sb env dMakeRootOk a hp hinfo =>
    rw [List.forall_mem_singleton]
    exact h.owner (Or.inl hp) hinfo
  | killed sb a hp hinfo =>
    rw [List.forall_mem_singleton]
    refine h.owner (Or.inr (hp.resolve_right fun hfailed => ?_)) hinfo
    rw [hspare sb rfl hfailed] at hinfo
    cases hinfo
  | refused _ | noMemory _ _ | taken _ _ _ _ | filled _ _ _ _ | empty _ _ _ =>
    exact fun v hv => absurd hv List.not_mem_nil

/-- The second release of a failed superblock is not of a region of its own. -/
theorem MountEffect.spares {x : MountRes × Mounts} (he : MountEffect t m r x) (h : m.Pointed)
    (hright : ∀ v ∈ x.1.vfrees, v.owner = some v.sb) : SparesFailed m r := by
  rintro sb rfl hfailed
  cases he with
  | refused _ hno => exact absurd hfailed (hno sb rfl)
  | empty _ _ hinfo => exact hinfo
  | killed sb a hp hinfo =>
    rw [List.forall_mem_singleton] at hright
    rcases (h a sb hright).2 with hactive | hactive
    all_goals rw [hfailed] at hactive; cases hactive

/-- Either module, any mounts and unmounts in any order, any addresses that `vmalloc` reuses: every
`vfree` of a run releases a region of the superblock concerned iff no superblock is killed whose
`osfs_fill_super` failed behind its `vmalloc`. -/
theorem vfrees_rightful_iff (t : Template) (rs : List MountReq) :
    (mounts t).EveryStep (Rightful t) .boot rs ↔
      (mounts t).EveryStep SparesFailed .boot rs := by
  refine (mounts t).everyStep_iff_of_invariant (P := fun m => m.Pointed ∧ m.Held)
    (H := fun _ _ => True) (fun m r hm _ hspare => ?_) (fun m r hm _ hright => ?_)
    ⟨boot_pointed, boot_held⟩ ((mounts t).everyStep_of_forall (fun _ _ => trivial) _ _)
  · have he := mountStep_effect t m r
    exact ⟨he.rightful hm.2 hspare, he.pointed hm.1, he.held hm.2 hspare.inTime⟩
  · exact (mountStep_effect t m r).spares hm.1 hright

/-- The superblock that holds the address then loses its region. -/
theorem MountEffect.inTime {x : MountRes × Mounts} (he : MountEffect t m r x) (hnext : x.2.Held) :
    KillsInTime m r := by
  rintro sb a rfl hfailed hinfo sb' hactive hinfo'
  cases he with
  | refused _ hno => exact absurd hfailed (hno sb rfl)
  | empty _ _ hnone =>
    rw [hnone] at hinfo
    cases hinfo
  | killed sb a' hp hinfo'' =>
    obtain rfl := Option.some.inj (hinfo.symm.trans hinfo'')
    have hne : sb' ≠ sb := by
      rintro rfl
      rw [hfailed] at hactive
      rcases hactive with h | h <;> cases h
    have hphase : (((m.vfree sb a).2.clear sb).setPhase sb .gone).phase sb' = m.phase sb' :=
      Function.update_of_ne hne ..
    have hinfo₁ : (((m.vfree sb a).2.clear sb).setPhase sb .gone).fsInfo sb' = some a :=
      (Function.update_of_ne hne ..).trans hinfo'
    have howner : (m.vfree sb a).2.owner a = some sb' :=
      hnext.owner (by rw [hphase]; exact hactive) hinfo₁
    exact (Mounts.vfree_owner howner).1 rfl

/-- Every superblock that is being filled or mounted has its region all the time iff none is killed
whose `osfs_fill_super` failed while another one that is being filled or mounted holds its address. -/
theorem regions_kept_iff (t : Template) (rs : List MountReq) :
    (mounts t).EveryStep (KeepsRegions t) .boot rs ↔
      (mounts t).EveryStep KillsInTime .boot rs := by
  refine (mounts t).everyStep_iff_of_invariant (P := Mounts.Held)
    (H := fun _ _ => True) (fun m r hm _ hkill => ?_) (fun m r hm _ hkeeps => ?_)
    boot_held ((mounts t).everyStep_of_forall (fun _ _ => trivial) _ _)
  · have hnext := (mountStep_effect t m r).held hm hkill
    exact ⟨hnext, hnext⟩
  · exact (mountStep_effect t m r).inTime hkeeps

/-- The region that superblock 0 gave back has become that of superblock 1 when it is released again. -/
example : ((mounts .done).resp
    ((mounts .done).run .boot [.vmalloc 0 (some 7), .fill 0 Optimize.plainEnv false,
      .vmalloc 1 (some 7), .fill 1 Optimize.plainEnv true]) (.kill 0)).vfrees = [⟨0, some 1⟩] := rfl

end OSLab.Templates
