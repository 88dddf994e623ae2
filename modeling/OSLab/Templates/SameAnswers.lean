import OSLab.Templates.DoneFlat
import OSLab.Templates.OptimizeFlat

/-!
# The two modules answer alike

Both modules, freshly mounted, stand for the same empty directory. As long as
the checked handlers fail nothing, their answers are those of the directory,
and then so are the answers of the extent handlers.
-/

namespace OSLab.Templates
open OSLab.Base OSLab.Kernel

variable {d : Done.Fs} {o : Optimize.Fs}

/-- The checked handlers, until they fail a request, and the directory of files. -/
theorem done_trace_flat {env : Env} {vmallocOk dMakeRootOk : Bool}
    (hd : Done.osfsFillSuper env vmallocOk dMakeRootOk = .ok d) {rs : List Req}
    (hsmall : ∀ r ∈ rs, Small r) (hok : ∀ e ∈ done.trace d rs, e.2 ≠ .failed) :
    flat.trace Flat.mounted rs = done.trace d rs :=
  done.trace_eq flat (R := DoneShows) (G := Small) (W := fun res => res ≠ .failed)
    (fun _ _ _ h hr hres => h.step hr hres) (doneShows_mounted hd) hsmall hok

/-- The directory of files and the extent handlers. -/
theorem optimize_trace_flat {env : Env} {vmallocOk dMakeRootOk : Bool}
    (ho : Optimize.osfsFillSuper env vmallocOk dMakeRootOk = .ok o) {rs : List Req}
    (hsmall : ∀ r ∈ rs, Small r) (hok : ∀ e ∈ flat.trace Flat.mounted rs, e.2 ≠ .failed) :
    optimize.trace o rs = flat.trace Flat.mounted rs :=
  flat.trace_eq optimize (R := fun t fs => OptimizeShows fs t) (G := Small)
    (W := fun res => res ≠ .failed) (fun _ _ _ h hr hres => h.step hr hres)
    (optimizeShows_mounted ho) hsmall hok

/-- Requests on small files that the checked handlers do not fail get the same inode numbers, byte
counts, bytes, lookup results and listings from the extent handlers, over runs of any length. -/
theorem optimize_trace_done {env env' : Env} {vmallocOk dMakeRootOk vmallocOk' dMakeRootOk' : Bool}
    (hd : Done.osfsFillSuper env vmallocOk dMakeRootOk = .ok d)
    (ho : Optimize.osfsFillSuper env' vmallocOk' dMakeRootOk' = .ok o) {rs : List Req}
    (hsmall : ∀ r ∈ rs, Small r) (hok : ∀ e ∈ done.trace d rs, e.2 ≠ .failed) :
    optimize.trace o rs = done.trace d rs := by
  have hdone := done_trace_flat hd hsmall hok
  rw [← hdone] at hok ⊢
  exact optimize_trace_flat ho hsmall hok

/- Two files, a write behind a hole, a read, a name that is there and one that is not, a listing. -/
def twoSmallFiles : List Req :=
  [.create 0 Done.nameA S_IFREG Done.plainEnv, .create 0 Done.nameB S_IFREG Done.plainEnv,
    .write 2 [104, 105] 3 Done.plainEnv, .read 2 10 1, .lookup 0 Done.nameA Done.plainEnv,
    .lookup 0 (Qstr.ofBytes [99]) Done.plainEnv, .list 0 4]

theorem optimize_trace_done_two :
    optimize.trace Optimize.freshMount.fs twoSmallFiles =
      done.trace Done.freshMount.fs twoSmallFiles :=
  have hd : Done.osfsFillSuper Done.plainEnv true true = .ok Done.freshMount.fs := rfl
  have ho : Optimize.osfsFillSuper Optimize.plainEnv true true = .ok Optimize.freshMount.fs := rfl
  optimize_trace_done hd ho (by decide) (by decide +kernel)

end OSLab.Templates
