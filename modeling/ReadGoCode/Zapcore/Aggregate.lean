import ReadGoCode.Multierr
import ReadGoCode.Zapcore.Write

/-!
# Error aggregation

`multiCore.Write` and `Sync`, `hooked.Write`, `multiWriteSyncer.Write` and `Sync`, and the
error `CheckedEntry.Write` reports all run the same loop: call every element, combine each
answer into the error with `multierr.Append`, never stop early. Here each keeps its own
definition over `Multierr.appendEach`, with the answers of its calls as a parameter, and
`Aggregates` says what such a loop guarantees. The list model of errors in `Write` is the
image of these Go errors under `multierr.Errors`.

`multiWriteSyncer.Write` also returns a byte count. Its loop uses `0` as the mark of a count
not yet set, so a writer that reports `0` before one that reports more is forgotten.
-/

namespace ReadGoCode.Zapcore

open Multierr

/-- What an aggregating loop over `xs`, whose `i`-th call answers `answer i xs[i]`, returns:
every element called once, in order, and an error that is nil exactly when every call
answered nil and otherwise combines the errors of the non-nil answers, in order. -/
def Aggregates {α : Type} (xs : List α) (answer : Nat → α → Option GoError)
    (r : List (Nat × α) × Option GoError) : Prop :=
  r.1 = xs.enum ∧ (r.2 = none ↔ ∀ p ∈ xs.enum, answer p.1 p.2 = none) ∧
    errors r.2 = ((xs.enum.filterMap fun p => answer p.1 p.2).map fun e => errors (some e)).flatten

/-- The errors of a list of answers, flattened, are the errors of each in order. -/
theorem flatten_map_errors {β : Type} (f : β → Option GoError) (l : List β) :
    (l.map fun p => errors (f p)).flatten =
      ((l.filterMap f).map fun e => errors (some e)).flatten := by
  induction l with
  | nil => rfl
  | cons p l ih => cases h : f p <;> simp [h, ih]

/-- `multierr.Append` over a loop's answers aggregates them. -/
theorem appendEach_aggregates {α : Type} (answer : Nat → α → Option GoError) (xs : List α) :
    Aggregates xs answer (appendEach answer 0 xs none) :=
  ⟨appendEach_calls answer xs 0 none, by simp [appendEach_eq_none, List.enum],
    by rw [errors_appendEach, flatten_map_errors]; rfl⟩

/-- `multiCore.Write(ent, fields)`: the `i`-th child's `Write` answers `answer i c`. -/
def multiCoreWrite (answer : Nat → Core → Option GoError) (cs : List Core) :
    List (Nat × Core) × Option GoError :=
  appendEach answer 0 cs none

/-- `multiCore.Sync()`: the `i`-th child's `Sync` answers `answer i c`. -/
def multiCoreSync (answer : Nat → Core → Option GoError) (cs : List Core) :
    List (Nat × Core) × Option GoError :=
  appendEach answer 0 cs none

/-- `hooked.Write(ent, _)`: the `i`-th callback, called with `ent`, answers `answer i f ent`. -/
def hookedWrite (answer : Nat → HookFunc → Entry → Option GoError) (funcs : List HookFunc)
    (ent : Entry) : List (Nat × HookFunc) × Option GoError :=
  appendEach (fun i f => answer i f ent) 0 funcs none

/-- `multiWriteSyncer.Sync()`: the `i`-th syncer's `Sync` answers `answer i ws`. -/
def multiWriteSyncerSync (answer : Nat → WriteSyncer → Option GoError) (ws : List WriteSyncer) :
    List (Nat × WriteSyncer) × Option GoError :=
  appendEach answer 0 ws none

/-- The error `CheckedEntry.Write` reports: the `i`-th accumulated core's `Write` answers
`answer i c`. -/
def CheckedEntry.writeErr (answer : Nat → Core → Option GoError) (ce : CheckedEntry) :
    List (Nat × Core) × Option GoError :=
  appendEach answer 0 ce.cores none

/-- `nWritten` after a writer reports `n` bytes: `0` means "not set yet", so the first nonzero
count is taken, and afterwards a smaller one. -/
def updateWritten (nWritten n : Int) : Int :=
  if nWritten = 0 ∧ n ≠ 0 then n else if n < nWritten then n else nWritten

/-- The loop of `multiWriteSyncer.Write(p)` from index `i` with `nWritten` and `writeErr`: the
`i`-th syncer's `Write(p)` answers `answer i ws`. -/
def multiWriteSyncerWriteFrom (answer : Nat → WriteSyncer → Int × Option GoError) :
    Nat → List WriteSyncer → Int → Option GoError → List (Nat × WriteSyncer) × Int × Option GoError
  | _, [], nWritten, writeErr => ([], nWritten, writeErr)
  | i, w :: ws, nWritten, writeErr =>
      let rest := multiWriteSyncerWriteFrom answer (i + 1) ws
        (updateWritten nWritten (answer i w).1) (append writeErr (answer i w).2)
      ((i, w) :: rest.1, rest.2)

/-- `multiWriteSyncer.Write(p)`: the calls, the count and the error. -/
def multiWriteSyncerWrite (answer : Nat → WriteSyncer → Int × Option GoError)
    (ws : List WriteSyncer) : List (Nat × WriteSyncer) × Int × Option GoError :=
  multiWriteSyncerWriteFrom answer 0 ws 0 none

/-- Apart from the count, `multiWriteSyncer.Write` is the aggregating loop over the writers'
errors. -/
theorem multiWriteSyncerWriteFrom_errors (answer : Nat → WriteSyncer → Int × Option GoError)
    (ws : List WriteSyncer) : ∀ i nWritten writeErr,
      (multiWriteSyncerWriteFrom answer i ws nWritten writeErr).1 =
          (appendEach (fun j w => (answer j w).2) i ws writeErr).1 ∧
        (multiWriteSyncerWriteFrom answer i ws nWritten writeErr).2.2 =
          (appendEach (fun j w => (answer j w).2) i ws writeErr).2 := by
  induction ws with
  | nil => intro _ _ _; exact ⟨rfl, rfl⟩
  | cons w ws ih =>
      intro i nWritten writeErr
      obtain ⟨h₁, h₂⟩ := ih (i + 1) (updateWritten nWritten (answer i w).1)
        (append writeErr (answer i w).2)
      simp only [multiWriteSyncerWriteFrom, appendEach, h₁, h₂, and_self]

/-! ## The list model of errors -/

section ListModel

variable (w : World) (ent : Entry) (fields : List Field)

/-- `multiCore.Write` returns the errors of every child, in order. -/
theorem writeList_errors (cs : List Core) :
    (Core.writeList w cs ent fields).2 = (cs.map fun c => (c.write w ent fields).2).flatten := by
  induction cs with
  | nil => rfl
  | cons c cs ih => simp [Core.writeList, ih]

/-- `multiCore.Sync` returns the errors of every child, in order. -/
theorem syncList_errors (cs : List Core) :
    (Core.syncList w cs).2 = (cs.map fun c => (c.sync w).2).flatten := by
  induction cs with
  | nil => rfl
  | cons c cs ih => simp [Core.syncList, ih]

/-- `CheckedEntry.Write` collects the errors of every core, in order. -/
theorem writeCores_errors (cs : List Core) :
    (writeCores w ent fields cs).2 = (cs.map fun c => (c.write w ent fields).2).flatten := by
  induction cs with
  | nil => rfl
  | cons c cs ih => simp [writeCores, ih]

/-- The combined error of a loop whose every answer lists what `model` says. -/
theorem errors_appendEach_of {α : Type} (answer : Nat → α → Option GoError)
    (model : α → Errors) (h : ∀ i x, errors (answer i x) = model x) (xs : List α) :
    errors (appendEach answer 0 xs none).2 = (xs.map model).flatten := by
  have hmap : ((xs.enumFrom 0).map fun p => errors (answer p.1 p.2)) = xs.map model := by
    simp only [h]
    rw [show (fun p : Nat × α => model p.2) = model ∘ Prod.snd from rfl, ← List.map_map,
      List.enumFrom_map_snd]
  rw [errors_appendEach, errors_none, List.nil_append, hmap]

/-- The errors `Core.write` lists for a `multiCore` are those of its Go error, when each
child's Go error lists what the model says of that child. -/
theorem errors_multiCoreWrite (cs : List Core) (answer : Nat → Core → Option GoError)
    (h : ∀ i c, errors (answer i c) = (c.write w ent fields).2) :
    errors (multiCoreWrite answer cs).2 = (Core.write w (.multi cs) ent fields).2 := by
  rw [multiCoreWrite, errors_appendEach_of answer _ h, Core.write, writeList_errors]

/-- `multiCore.Sync` built with `multierr.Append` returns the errors of the model's `Sync`. -/
theorem errors_multiCoreSync (cs : List Core) (answer : Nat → Core → Option GoError)
    (h : ∀ i c, errors (answer i c) = (c.sync w).2) :
    errors (multiCoreSync answer cs).2 = (Core.sync w (.multi cs)).2 := by
  rw [multiCoreSync, errors_appendEach_of answer _ h, Core.sync, syncList_errors]

/-- `hooked.Write` built with `multierr.Append` returns the errors of the model's `Write`. -/
theorem errors_hookedWrite (core : Core) (funcs : List HookFunc) :
    errors (hookedWrite (fun _ f ent => (w.hookError f ent).map .plain) funcs ent).2 =
      (Core.write w (.hooked core funcs) ent fields).2 := by
  rw [hookedWrite, errors_appendEach_of _ (fun f => (w.hookError f ent).toList)
    (by intro _ f; dsimp only; cases w.hookError f ent <;> rfl), Core.write]
  induction funcs with
  | nil => rfl
  | cons f funcs ih => cases h : w.hookError f ent <;> simp [h, ih]

/-- The error `CheckedEntry.Write` reports lists what `writeCores` collects. -/
theorem errors_writeErr (ce : CheckedEntry) (answer : Nat → Core → Option GoError)
    (h : ∀ i c, errors (answer i c) = (c.write w ent fields).2) :
    errors (CheckedEntry.writeErr answer ce).2 = (writeCores w ent fields ce.cores).2 := by
  rw [CheckedEntry.writeErr, errors_appendEach_of answer _ h, writeCores_errors]

end ListModel

/-! ## Every answer -/

/-- `multiCore.Write` and `Sync`, `hooked.Write`, `multiWriteSyncer.Sync` and the error
`CheckedEntry.Write` reports call every element once, in order, whatever each call answers,
and return nil exactly when every call returned nil, and otherwise an error whose
`multierr.Errors` lists the errors of every non-nil answer, in order. -/
theorem aggregates_every_error :
    (∀ (answer : Nat → Core → Option GoError) (cs : List Core),
      Aggregates cs answer (multiCoreWrite answer cs)) ∧
    (∀ (answer : Nat → Core → Option GoError) (cs : List Core),
      Aggregates cs answer (multiCoreSync answer cs)) ∧
    (∀ (answer : Nat → HookFunc → Entry → Option GoError) (funcs : List HookFunc) (ent : Entry),
      Aggregates funcs (fun i f => answer i f ent) (hookedWrite answer funcs ent)) ∧
    (∀ (answer : Nat → WriteSyncer → Option GoError) (ws : List WriteSyncer),
      Aggregates ws answer (multiWriteSyncerSync answer ws)) ∧
    (∀ (answer : Nat → Core → Option GoError) (ce : CheckedEntry),
      Aggregates ce.cores answer (CheckedEntry.writeErr answer ce)) :=
  ⟨fun answer cs => appendEach_aggregates answer cs,
    fun answer cs => appendEach_aggregates answer cs,
    fun _ funcs _ => appendEach_aggregates _ funcs,
    fun answer ws => appendEach_aggregates answer ws,
    fun answer ce => appendEach_aggregates answer ce.cores⟩

/-- A writer that fails having written nothing, then one that writes all five bytes: the loop
takes the `0` for "not set" and returns `5`; in the other order it returns `0`. The smallest
count is `0` both times. -/
theorem multiWriteSyncerWrite_forgets_zero :
    (multiWriteSyncerWrite (fun i _ => if i = 0 then (0, some (.plain "EIO")) else (5, none))
        [⟨0⟩, ⟨1⟩]).2.1 = 5 ∧
      (multiWriteSyncerWrite (fun i _ => if i = 0 then (5, none) else (0, some (.plain "EIO")))
        [⟨0⟩, ⟨1⟩]).2.1 = 0 :=
  ⟨rfl, rfl⟩

end ReadGoCode.Zapcore
