import ReadGoCode.Zapcore.Derive
import ReadGoCode.Zapcore.Write

/-!
# `NewLazyWith` against an eager `With`

A program holds the core it started from and the cores it derived with `With`, and calls
`Enabled`, `With`, `Check` (then `Write` on a non-nil result) and `Sync` on any of them,
with `SetLevel` in between. `CallState.step` is that program on cores: a `With` or `Check`
leaves its receiver after `initOnce`, and the ghost `evaluations` counts the calls that ran
`d.Core = d.Core.With(d.fields)`.

Started from `NewLazyWith(c, fs)` and from `c.With(fs)`, every run makes the same
observations, and the lazy start runs `c.With(fs)` once if the run calls `With` or `Check`
and never otherwise (`newLazyWith_matches_with`). The argument is a simulation, `LazySim`:
the derived cores of both runs are the same and hold no lazy core, because `With` replaces
every lazy core it meets by its `d.Core.With`; and the lazy root either has not run its
`Once`, or holds `c.With(fs)`, the eager root.
-/

namespace ReadGoCode.Zapcore

namespace Core

mutual
/-- No `lazyWithCore` anywhere in the tree. -/
def lazyFree : Core → Bool
  | multi cs => lazyFreeList cs
  | levelFilter core _ => core.lazyFree
  | hooked core _ => core.lazyFree
  | lazyWith _ _ _ => false
  | _ => true

/-- `lazyFree` for every child. -/
def lazyFreeList : List Core → Bool
  | [] => true
  | c :: cs => c.lazyFree && lazyFreeList cs
end

/-- A `lazyWithCore` whose `sync.Once` has not run, so that `With` or `Check` on it runs
`initOnce`. -/
def initPending : Core → Bool
  | lazyWith _ _ false => true
  | _ => false

/-- A tree with no lazy core has no `initOnce` left to run. -/
theorem initPending_of_lazyFree {c : Core} (h : c.lazyFree = true) : c.initPending = false := by
  cases c <;> first | rfl | simp [lazyFree] at h

mutual
/-- `With` returns a tree with no lazy core: it replaces each one by its `d.Core.With`. -/
theorem lazyFree_withChain :
    ∀ (c : Core) (fs : List Field) (fss : List (List Field)), (c.withChain (fs :: fss)).lazyFree
  | nop, _, _ => rfl
  | io _ _ _, _, _ => rfl
  | multi cs, fs, fss => lazyFreeList_withChainList cs fs fss
  | levelFilter core _, fs, fss => lazyFree_withChain core fs fss
  | hooked core _, fs, fss => lazyFree_withChain core fs fss
  | lazyWith core fields done, fs, fss => by
      cases done
      · exact lazyFree_withChain core fields (fs :: fss)
      · exact lazyFree_withChain core fs fss
  | observer _ _ _, _, _ => rfl

/-- `With` on the children leaves no lazy core among them. -/
theorem lazyFreeList_withChainList :
    ∀ (cs : List Core) (fs : List Field) (fss : List (List Field)),
      lazyFreeList (withChainList cs (fs :: fss))
  | [], _, _ => rfl
  | c :: cs, fs, fss => by
      simp only [withChainList, lazyFreeList, lazyFree_withChain c, lazyFreeList_withChainList cs,
        Bool.and_self]
end

mutual
/-- `initOnce` has nothing to run in a tree with no lazy core. -/
theorem afterWith_of_lazyFree : ∀ c : Core, c.lazyFree = true → c.afterWith = c
  | nop, _ => rfl
  | io _ _ _, _ => rfl
  | multi cs, h => congrArg multi (afterWithList_of_lazyFree cs h)
  | levelFilter core level, h => congrArg (levelFilter · level) (afterWith_of_lazyFree core h)
  | hooked core funcs, h => congrArg (hooked · funcs) (afterWith_of_lazyFree core h)
  | lazyWith _ _ _, h => by simp [lazyFree] at h
  | observer _ _ _, _ => rfl

/-- The children of a tree with no lazy core are left as they are by `With`. -/
theorem afterWithList_of_lazyFree : ∀ cs : List Core, lazyFreeList cs = true → afterWithList cs = cs
  | [], _ => rfl
  | c :: cs, h => by
      simp only [lazyFreeList, Bool.and_eq_true] at h
      simp only [afterWithList, afterWith_of_lazyFree c h.1, afterWithList_of_lazyFree cs h.2]
end

mutual
/-- `Check` leaves a tree with no lazy core as it is. -/
theorem afterCheck_of_lazyFree (σ : Atomics) (ent : Entry) :
    ∀ c : Core, c.lazyFree = true → c.afterCheck σ ent = c
  | nop, _ => rfl
  | io _ _ _, _ => rfl
  | multi cs, h => congrArg multi (afterCheckList_of_lazyFree σ ent cs h)
  | levelFilter core level, h => by
      simp only [afterCheck, afterCheck_of_lazyFree σ ent core h, ite_self]
  | hooked core funcs, h => congrArg (hooked · funcs) (afterCheck_of_lazyFree σ ent core h)
  | lazyWith _ _ _, h => by simp [lazyFree] at h
  | observer _ _ _, _ => rfl

/-- `Check` leaves children with no lazy core as they are. -/
theorem afterCheckList_of_lazyFree (σ : Atomics) (ent : Entry) :
    ∀ cs : List Core, lazyFreeList cs = true → afterCheckList σ ent cs = cs
  | [], _ => rfl
  | c :: cs, h => by
      simp only [lazyFreeList, Bool.and_eq_true] at h
      simp only [afterCheckList, afterCheck_of_lazyFree σ ent c h.1,
        afterCheckList_of_lazyFree σ ent cs h.2]
end

mutual
/-- `With` keeps every sink, so `Sync` of a derived core is `Sync` of the original. -/
theorem sync_withChain (w : World) :
    ∀ (c : Core) (fss : List (List Field)), (c.withChain fss).sync w = c.sync w
  | nop, _ => rfl
  | io _ _ _, _ => rfl
  | multi cs, fss => syncList_withChainList w cs fss
  | levelFilter core _, fss => sync_withChain w core fss
  | hooked core _, fss => sync_withChain w core fss
  | lazyWith _ _ _, [] => rfl
  | lazyWith core _ _, _ :: _ => sync_withChain w core _
  | observer _ _ _, _ => rfl

/-- `Sync` of the children after `With` is `Sync` of the children before. -/
theorem syncList_withChainList (w : World) :
    ∀ (cs : List Core) (fss : List (List Field)),
      syncList w (withChainList cs fss) = syncList w cs
  | [], _ => rfl
  | c :: cs, fss => by
      simp only [withChainList, syncList, sync_withChain w c, syncList_withChainList w cs]
end

end Core

/-! ## Programs on cores -/

/-- A call of a program on the cores it holds: handle `0` is the core it started from, handle
`j + 1` the `j`-th core it derived. -/
inductive CallOp where
  /-- `Enabled(l)`. -/
  | enabled (i : Nat) (l : Level)
  /-- `With(fields)`; the result becomes a new handle. -/
  | withFields (i : Nat) (fields : List Field)
  /-- `Check(ent, nil)`, then `Write(fields...)` on a non-nil result. -/
  | checkWrite (i : Nat) (ent : Entry) (fields : List Field)
  /-- `Sync()`. -/
  | sync (i : Nat)
  /-- `SetLevel(l)` on the `AtomicLevel` `ref`. -/
  | setLevel (ref : Nat) (l : Level)

/-- The handle a call is made on. -/
def CallOp.handle : CallOp → Option Nat
  | .enabled i _ | .withFields i _ | .checkWrite i _ _ | .sync i => some i
  | .setLevel _ _ => none

/-- `With` and `Check`, the calls that run `initOnce`. -/
def CallOp.initiates : CallOp → Bool
  | .withFields .. | .checkWrite .. => true
  | _ => false

/-- What a call returns to the program: `Enabled`'s answer, the events of the `Write` on
`Check`'s result (none when it was nil), and `Sync`'s events and error. A call on a handle
the program does not hold returns `none`. -/
inductive Observation where
  | enabled (answer : Option Bool)
  | written (events : Option (Option (List Event)))
  | synced (result : Option (List Event × Errors))
  | nothing

/-- The `AtomicLevel`s, the core the program started from, the cores it derived, and how
many times `initOnce` has run `d.Core.With(d.fields)`. -/
structure CallState where
  atomics : Atomics
  root : Core
  derived : List Core
  evaluations : Nat

namespace CallState

/-- The core behind handle `i`. -/
def core (s : CallState) : Nat → Option Core
  | 0 => some s.root
  | j + 1 => s.derived[j]?

/-- Replace the core behind handle `i`. -/
def setCore (s : CallState) : Nat → Core → CallState
  | 0, d => { s with root := d }
  | j + 1, d => { s with derived := s.derived.set j d }

/-- One call, and what it returns. -/
def step (w : World) (s : CallState) : CallOp → CallState × Observation
  | .enabled i l => (s, .enabled ((s.core i).map (·.enabled s.atomics l)))
  | .withFields i fields =>
      match s.core i with
      | some d =>
          let s' := s.setCore i d.afterWith
          ({ s' with
              derived := s'.derived ++ [d.withFields fields]
              evaluations := s.evaluations + d.initPending.toNat }, .nothing)
      | none => (s, .nothing)
  | .checkWrite i ent fields =>
      match s.core i with
      | some d =>
          ({ s.setCore i (d.afterCheck s.atomics ent) with
              evaluations := s.evaluations + d.initPending.toNat },
            .written (some ((d.check s.atomics ent none).map fun ce => (ce.write w fields).1)))
      | none => (s, .written none)
  | .sync i => (s, .synced ((s.core i).map (·.sync w)))
  | .setLevel ref l => ({ s with atomics := setLevel s.atomics ref l }, .nothing)

/-- A run of calls, and what each returned. -/
def run (w : World) : CallState → List CallOp → CallState × List Observation
  | s, [] => (s, [])
  | s, op :: ops =>
      ((run w (s.step w op).1 ops).1, (s.step w op).2 :: (run w (s.step w op).1 ops).2)

/-- Every call of the run is made on a handle the program holds. -/
def Valid (w : World) : CallState → List CallOp → Prop
  | _, [] => True
  | s, op :: ops => (∀ i, op.handle = some i → (s.core i).isSome) ∧ Valid w (s.step w op).1 ops

/-- Handle `0` is the root. -/
@[simp] theorem setCore_zero_root (s : CallState) (d : Core) : (s.setCore 0 d).root = d := rfl
/-- Replacing the root leaves the derived cores. -/
@[simp] theorem setCore_zero_derived (s : CallState) (d : Core) :
    (s.setCore 0 d).derived = s.derived := rfl
/-- Replacing a derived core leaves the root. -/
@[simp] theorem setCore_succ_root (s : CallState) (j : Nat) (d : Core) :
    (s.setCore (j + 1) d).root = s.root := rfl
/-- Handle `j + 1` is derived core `j`. -/
@[simp] theorem setCore_succ_derived (s : CallState) (j : Nat) (d : Core) :
    (s.setCore (j + 1) d).derived = s.derived.set j d := rfl
/-- Replacing a core leaves the `AtomicLevel`s. -/
@[simp] theorem setCore_atomics (s : CallState) (i : Nat) (d : Core) :
    (s.setCore i d).atomics = s.atomics := by cases i <;> rfl
/-- Replacing a core leaves the count of `c.With(fs)` runs. -/
@[simp] theorem setCore_evaluations (s : CallState) (i : Nat) (d : Core) :
    (s.setCore i d).evaluations = s.evaluations := by cases i <;> rfl

/-- `With` on a held handle: the receiver as `With` leaves it, and the derived core appended. -/
theorem step_withFields {w : World} {s : CallState} {i : Nat} {d : Core} (hd : s.core i = some d)
    (fields : List Field) :
    s.step w (.withFields i fields) =
      ({ s.setCore i d.afterWith with
          derived := (s.setCore i d.afterWith).derived ++ [d.withFields fields]
          evaluations := s.evaluations + d.initPending.toNat }, .nothing) := by
  simp only [step, hd]

/-- `With` on a handle the program does not hold does nothing. -/
theorem step_withFields_none {w : World} {s : CallState} {i : Nat} (hd : s.core i = none)
    (fields : List Field) : s.step w (.withFields i fields) = (s, .nothing) := by
  simp only [step, hd]

/-- `Check` on a handle the program does not hold writes nothing. -/
theorem step_checkWrite_none {w : World} {s : CallState} {i : Nat} (hd : s.core i = none)
    (ent : Entry) (fields : List Field) :
    s.step w (.checkWrite i ent fields) = (s, .written none) := by
  simp only [step, hd]

/-- `Check` then `Write` on a held handle: the receiver as `Check` leaves it, one more `c.With(fs)`
run if its `Once` was pending, and the events of the write. -/
theorem step_checkWrite {w : World} {s : CallState} {i : Nat} {d : Core} (hd : s.core i = some d)
    (ent : Entry) (fields : List Field) :
    s.step w (.checkWrite i ent fields) =
      ({ s.setCore i (d.afterCheck s.atomics ent) with
          evaluations := s.evaluations + d.initPending.toNat },
        .written (some ((d.check s.atomics ent none).map fun ce => (ce.write w fields).1))) := by
  simp only [step, hd]

end CallState

/-! ## The simulation -/

namespace Core

/-- The two states of the root of `NewLazyWith(c, fs)`: before its `Once` has run, and after,
holding `c.With(fs)` as its `d.Core`. -/
def LazyRoot (c : Core) (fs : List Field) (y : Core) : Prop :=
  y = lazyWith c fs false ∨ y = lazyWith (c.withFields fs) fs true

section LazyRoot

variable {c y : Core} {fs : List Field}

/-- A lazy root enables what `c.With(fs)` enables. -/
theorem LazyRoot.enabled (h : LazyRoot c fs y) (σ : Atomics) (l : Level) :
    y.enabled σ l = (c.withFields fs).enabled σ l := by
  rcases h with rfl | rfl
  · exact (enabled_withChain σ c [fs] l).symm
  · rfl

/-- A lazy root checks as `c.With(fs)` checks. -/
theorem LazyRoot.check (h : LazyRoot c fs y) (σ : Atomics) (ent : Entry)
    (ce : Option CheckedEntry) : y.check σ ent ce = (c.withFields fs).check σ ent ce := by
  rcases h with rfl | rfl
  · exact (check_withFields σ c fs ent ce).symm
  · rfl

/-- `With` on a lazy root is `With` on `c.With(fs)`. -/
theorem LazyRoot.withFields (h : LazyRoot c fs y) (gs : List Field) :
    y.withFields gs = (c.withFields fs).withFields gs := by
  rcases h with rfl | rfl
  · exact (withChain_withChain c [fs] [gs]).symm
  · rfl

/-- A lazy root syncs as `c.With(fs)` syncs. -/
theorem LazyRoot.sync (h : LazyRoot c fs y) (w : World) :
    y.sync w = (c.withFields fs).sync w := by
  rcases h with rfl | rfl
  · exact (sync_withChain w c [fs]).symm
  · rfl

/-- After `With` a lazy root has run its `Once`. -/
theorem LazyRoot.afterWith (h : LazyRoot c fs y) :
    y.afterWith = lazyWith (c.withFields fs) fs true := by
  rcases h with rfl | rfl
  · rfl
  · exact congrArg (lazyWith · fs true) (afterWith_of_lazyFree _ (lazyFree_withChain c fs []))

/-- After `Check` a lazy root has run its `Once`. -/
theorem LazyRoot.afterCheck (h : LazyRoot c fs y) (σ : Atomics) (ent : Entry) :
    y.afterCheck σ ent = lazyWith (c.withFields fs) fs true := by
  rcases h with rfl | rfl
  · rfl
  · exact congrArg (lazyWith · fs true)
      (afterCheck_of_lazyFree σ ent _ (lazyFree_withChain c fs []))

end LazyRoot

end Core

namespace CallState

/-- A run from `NewLazyWith(c, fs)` against the same run from `c.With(fs)`: the same
`AtomicLevel`s and derived cores, which hold no lazy core; the eager root is `c.With(fs)` and
never evaluates anything; the lazy root has not run its `Once` and nothing is derived yet, or
it has run it exactly once and holds `c.With(fs)`. -/
structure LazySim (c : Core) (fs : List Field) (sL sE : CallState) : Prop where
  atomics : sL.atomics = sE.atomics
  derived : sL.derived = sE.derived
  lazyFree : ∀ d ∈ sE.derived, d.lazyFree = true
  eager : sE.root = c.withFields fs ∧ sE.evaluations = 0
  lazy : (sL.root = .lazyWith c fs false ∧ sL.derived = [] ∧ sL.evaluations = 0) ∨
    (sL.root = .lazyWith (c.withFields fs) fs true ∧ sL.evaluations = 1)

/-- The two starts, `NewLazyWith(c, fs)` and `c.With(fs)`, are related. -/
theorem LazySim.init (σ : Atomics) (c : Core) (fs : List Field) :
    LazySim c fs ⟨σ, newLazyWith c fs, [], 0⟩ ⟨σ, c.withFields fs, [], 0⟩ :=
  ⟨rfl, rfl, (fun _ h => nomatch h), ⟨rfl, rfl⟩, .inl ⟨rfl, rfl, rfl⟩⟩

section Sim

variable {c : Core} {fs : List Field} {sL sE : CallState}

/-- The lazy run's root is a lazy root of `c` and `fs`. -/
theorem LazySim.lazyRoot (h : LazySim c fs sL sE) : Core.LazyRoot c fs sL.root :=
  h.lazy.imp (·.1) (·.1)

/-- The eager run's root has no lazy core. -/
theorem LazySim.eager_lazyFree (h : LazySim c fs sL sE) : sE.root.lazyFree = true :=
  h.eager.1 ▸ Core.lazyFree_withChain c fs []

/-- The root's `With` or `Check` runs the lazy root's `initOnce` if it has not run yet. -/
theorem LazySim.root_evaluations (h : LazySim c fs sL sE) :
    sL.evaluations + sL.root.initPending.toNat = 1 := by
  rcases h.lazy with ⟨hr, -, he⟩ | ⟨hr, he⟩ <;> simp [hr, he, Core.initPending]

/-- A derived handle holds the same core in both runs, one with no lazy core. -/
theorem LazySim.core_succ (h : LazySim c fs sL sE) (j : Nat) :
    sL.core (j + 1) = sE.core (j + 1) := by
  simp [core, h.derived]

/-- A core derived by `With` and the receiver `With` leaves behind, on a derived handle. -/
theorem LazySim.derive_succ (h : LazySim c fs sL sE) {j : Nat} {d : Core}
    (hd : sE.core (j + 1) = some d) (d' : Core) (hd' : d'.lazyFree = true) (f : Core → Core)
    (hf : f d = d) :
    ∀ x ∈ (sE.derived.set j (f d)) ++ [d'], x.lazyFree = true := by
  intro x hx
  rcases List.mem_append.1 hx with hx | hx
  · rcases List.mem_or_eq_of_mem_set hx with hx | rfl
    · exact h.lazyFree x hx
    · rw [hf]; exact h.lazyFree d (List.getElem?_mem hd)
  · rw [List.mem_singleton.1 hx]; exact hd'

/-- A derived handle holds a core with no lazy core in it. -/
theorem LazySim.derived_lazyFree (h : LazySim c fs sL sE) {j : Nat} {d : Core}
    (hd : sE.core (j + 1) = some d) : d.lazyFree = true :=
  h.lazyFree d (List.getElem?_mem (show sE.derived[j]? = some d from hd))

/-- A derived handle exists only once the lazy root has run `initOnce`. -/
theorem LazySim.initialised (h : LazySim c fs sL sE) {j : Nat} {d : Core}
    (hd : sE.core (j + 1) = some d) :
    sL.root = .lazyWith (c.withFields fs) fs true ∧ sL.evaluations = 1 := by
  rcases h.lazy with ⟨-, hnil, -⟩ | hready
  · have hd' : sL.derived[j]? = some d := (h.core_succ j).trans hd
    simp [hnil] at hd'
  · exact hready

/-- A `With` or `Check` on a held handle leaves the lazy run's count at one. -/
theorem LazySim.initiate_evaluations (h : LazySim c fs sL sE) {i : Nat} {d : Core}
    (hd : sL.core i = some d) : sL.evaluations + d.initPending.toNat = 1 := by
  cases i with
  | zero => cases hd; exact h.root_evaluations
  | succ j =>
      have hE : sE.core (j + 1) = some d := (h.core_succ j).symm.trans hd
      simp [(h.initialised hE).2, Core.initPending_of_lazyFree (h.derived_lazyFree hE)]

/-- One call makes the same observation in both runs and keeps the simulation. -/
theorem LazySim.step (h : LazySim c fs sL sE) (w : World) :
    ∀ op : CallOp, (sL.step w op).2 = (sE.step w op).2 ∧
      LazySim c fs (sL.step w op).1 (sE.step w op).1
  | .enabled 0 l =>
      ⟨by simp only [CallState.step, core, Option.map_some', h.atomics, h.lazyRoot.enabled,
        h.eager.1], h⟩
  | .enabled (j + 1) l => ⟨by simp only [CallState.step, h.core_succ j, h.atomics], h⟩
  | .sync 0 =>
      ⟨by simp only [CallState.step, core, Option.map_some', h.lazyRoot.sync, h.eager.1], h⟩
  | .sync (j + 1) => ⟨by simp only [CallState.step, h.core_succ j], h⟩
  | .setLevel ref l =>
      ⟨rfl, ⟨by simp only [CallState.step, h.atomics], h.derived, h.lazyFree, h.eager, h.lazy⟩⟩
  | .withFields 0 gs => by
      rw [step_withFields (show sL.core 0 = some sL.root from rfl),
        step_withFields (show sE.core 0 = some sE.root from rfl)]
      refine ⟨rfl, ⟨h.atomics, ?_, ?_, ⟨?_, ?_⟩, .inr ⟨h.lazyRoot.afterWith, h.root_evaluations⟩⟩⟩
      · simp only [setCore_zero_derived, h.derived, h.lazyRoot.withFields, h.eager.1]
      · intro x hx
        rcases List.mem_append.1 hx with hx | hx
        · exact h.lazyFree x hx
        · rw [List.mem_singleton.1 hx, h.eager.1]
          exact Core.lazyFree_withChain _ gs []
      · rw [setCore_zero_root, h.eager.1]
        exact Core.afterWith_of_lazyFree _ (Core.lazyFree_withChain c fs [])
      · simp [h.eager.2, Core.initPending_of_lazyFree h.eager_lazyFree]
  | .checkWrite 0 ent gs => by
      rw [step_checkWrite (show sL.core 0 = some sL.root from rfl),
        step_checkWrite (show sE.core 0 = some sE.root from rfl)]
      refine ⟨by rw [h.atomics, h.lazyRoot.check, h.eager.1],
        ⟨h.atomics, h.derived, h.lazyFree, ⟨?_, ?_⟩,
          .inr ⟨h.lazyRoot.afterCheck _ _, h.root_evaluations⟩⟩⟩
      · rw [setCore_zero_root, h.eager.1]
        exact Core.afterCheck_of_lazyFree _ _ _ (Core.lazyFree_withChain c fs [])
      · simp [h.eager.2, Core.initPending_of_lazyFree h.eager_lazyFree]
  | .withFields (j + 1) gs => by
      cases hd : sE.core (j + 1) with
      | none =>
          rw [step_withFields_none ((h.core_succ j).trans hd), step_withFields_none hd]
          exact ⟨rfl, h⟩
      | some d =>
          have hfree := h.derived_lazyFree hd
          have hpending := Core.initPending_of_lazyFree hfree
          rw [step_withFields ((h.core_succ j).trans hd), step_withFields hd]
          refine ⟨rfl, ⟨h.atomics, ?_, ?_, ⟨h.eager.1, ?_⟩, ?_⟩⟩
          · simp only [setCore_succ_derived, h.derived]
          · simp only [setCore_succ_derived]
            exact h.derive_succ hd _ (Core.lazyFree_withChain d gs []) Core.afterWith
              (Core.afterWith_of_lazyFree d hfree)
          · simp [hpending, h.eager.2]
          · exact .inr ⟨(h.initialised hd).1, by simp [hpending, (h.initialised hd).2]⟩
  | .checkWrite (j + 1) ent gs => by
      cases hd : sE.core (j + 1) with
      | none =>
          rw [step_checkWrite_none ((h.core_succ j).trans hd), step_checkWrite_none hd]
          exact ⟨rfl, h⟩
      | some d =>
          have hfree := h.derived_lazyFree hd
          have hpending := Core.initPending_of_lazyFree hfree
          rw [step_checkWrite ((h.core_succ j).trans hd), step_checkWrite hd]
          refine ⟨by rw [h.atomics], ⟨h.atomics, ?_, ?_, ⟨h.eager.1, ?_⟩, ?_⟩⟩
          · simp only [setCore_succ_derived, setCore_atomics, h.derived, h.atomics]
          · simp only [setCore_succ_derived]
            intro x hx
            rcases List.mem_or_eq_of_mem_set hx with hx | rfl
            · exact h.lazyFree x hx
            · rw [Core.afterCheck_of_lazyFree _ _ d hfree]; exact hfree
          · simp [hpending, h.eager.2]
          · exact .inr ⟨(h.initialised hd).1, by simp [hpending, (h.initialised hd).2]⟩

/-- A call on a handle the program holds runs `c.With(fs)` if it is the first `With` or
`Check`, and otherwise leaves the count as it is. -/
theorem LazySim.step_evaluations (h : LazySim c fs sL sE) (w : World) (op : CallOp)
    (hvalid : ∀ i, op.handle = some i → (sL.core i).isSome) :
    (sL.step w op).1.evaluations = if op.initiates then 1 else sL.evaluations := by
  cases op with
  | enabled i l => rfl
  | sync i => rfl
  | setLevel ref l => rfl
  | withFields i gs =>
      obtain ⟨d, hd⟩ := Option.isSome_iff_exists.1 (hvalid i rfl)
      rw [step_withFields hd]
      exact h.initiate_evaluations hd
  | checkWrite i ent gs =>
      obtain ⟨d, hd⟩ := Option.isSome_iff_exists.1 (hvalid i rfl)
      rw [step_checkWrite hd]
      exact h.initiate_evaluations hd

/-- Both runs make the same observations, and stay related. -/
theorem LazySim.run (h : LazySim c fs sL sE) (w : World) (ops : List CallOp) :
    (sL.run w ops).2 = (sE.run w ops).2 ∧ LazySim c fs (sL.run w ops).1 (sE.run w ops).1 := by
  induction ops generalizing sL sE with
  | nil => exact ⟨rfl, h⟩
  | cons op ops ih =>
      have hstep := h.step w op
      have hrest := ih hstep.2
      exact ⟨by simp only [CallState.run, hstep.1, hrest.1], hrest.2⟩

/-- Over a run on held handles, the lazy root runs `c.With(fs)` on the first `With` or
`Check`, and never again. -/
theorem LazySim.run_evaluations (h : LazySim c fs sL sE) (w : World) (ops : List CallOp)
    (hv : Valid w sL ops) :
    (sL.run w ops).1.evaluations = if ops.any CallOp.initiates then 1 else sL.evaluations := by
  induction ops generalizing sL sE with
  | nil => rfl
  | cons op ops ih =>
      have hrest := ih (h.step w op).2 hv.2
      show (CallState.run w (sL.step w op).1 ops).1.evaluations = _
      rw [hrest, h.step_evaluations w op hv.1, List.any_cons]
      cases op.initiates <;> cases ops.any CallOp.initiates <;> rfl

end Sim

end CallState

/-- `NewLazyWith(c, fs)` behaves as `c.With(fs)`. Take any core tree `c`, fields `fs`, and
`AtomicLevel` state, and any run of `Enabled`, `With`, `Check` (each non-nil result then
written) and `Sync` calls on the start core and the cores derived from it, with `SetLevel`
between them: both starts return the same answers, write the same entries to the same sinks
with the same context fields in the same order, and return the same errors. On held handles,
the lazy start runs `c.With(fs)` exactly once if the run calls `With` or `Check`, and never
otherwise. -/
theorem newLazyWith_matches_with (w : World) (σ : Atomics) (c : Core) (fs : List Field)
    (ops : List CallOp) :
    (CallState.run w ⟨σ, newLazyWith c fs, [], 0⟩ ops).2 =
        (CallState.run w ⟨σ, c.withFields fs, [], 0⟩ ops).2 ∧
      (CallState.Valid w ⟨σ, newLazyWith c fs, [], 0⟩ ops →
        (CallState.run w ⟨σ, newLazyWith c fs, [], 0⟩ ops).1.evaluations =
          if ops.any CallOp.initiates then 1 else 0) :=
  ⟨((CallState.LazySim.init σ c fs).run w ops).1,
    CallState.LazySim.run_evaluations (CallState.LazySim.init σ c fs) w ops⟩

end ReadGoCode.Zapcore
