import ReadGoCode.Zapcore.Check

/-!
# Writing entries

`Core.Write`, `Core.Sync` and `(*CheckedEntry).Write`. Encoders, sinks, the callbacks of
`RegisterHooks` and the user's `CheckWriteHook`s lie outside the core: a `World` says how
each of them answers, and every call the core makes on them is an `Event`. An error value
is the list `multierr.Errors` would return, nil being the empty list, so
`multierr.Append(err, e)` is `err ++ e`.

A `CheckedEntry.Write` that finds the instance clean marks it dirty, calls `Write` on every
core in the order they were added, reports a combined error to the `ErrorOutput`, runs the
hook, and hands the instance back to the pool if the hook returned. An instance already
marked dirty only gets a line on the `ErrorOutput`.
-/

namespace ReadGoCode.Zapcore

/-- An error as `multierr.Errors` lists it; nil is `[]`. -/
abbrev Errors := List String

/-- How the collaborators of the core answer. -/
structure World where
  /-- The error `enc.EncodeEntry(ent, fields)` returns, if any. -/
  encodeError : Encoder → Entry → List Field → Option String
  /-- The error the sink returns when written the bytes of `enc`, `ent` and `fields`. -/
  writeError : WriteSyncer → Encoder → Entry → List Field → Option String
  /-- The error `ws.Sync()` returns. -/
  syncError : WriteSyncer → Option String
  /-- The error a `RegisterHooks` callback returns for an entry. -/
  hookError : HookFunc → Entry → Option String
  /-- Whether the `OnWrite` of the user's hook `ref` returns to its caller. -/
  customReturns : Nat → Bool

/-- A line `CheckedEntry.Write` prints to its `ErrorOutput`. -/
inductive ErrorLine where
  /-- `"%v Unsafe CheckedEntry re-use near Entry %+v.\n"`. -/
  | unsafeReuse (time : Nat) (ent : Entry)
  /-- `"%v write error: %v\n"`. -/
  | writeError (time : Nat) (errs : Errors)
  /-- `"%v Logger.check error: failed to get caller\n"`, which `Logger.check` prints. -/
  | callerError (time : Nat)

/-- A call the core makes outside itself. -/
inductive Event where
  /-- `CheckedEntry.Write` calls `core.Write(ent, fields)`. -/
  | coreWrite (core : Core) (ent : Entry) (fields : List Field)
  /-- `ws.Write` of the bytes `enc.EncodeEntry(ent, fields)` made. -/
  | sinkWrite (ws : WriteSyncer) (enc : Encoder) (ent : Entry) (fields : List Field)
  /-- `ws.Sync()`. -/
  | sinkSync (ws : WriteSyncer)
  /-- `ObservedLogs.add(LoggedEntry{ent, context})` on the logs `logs`. -/
  | observed (logs : Nat) (ent : Entry) (context : List Field)
  /-- A `RegisterHooks` callback called with `ent`. -/
  | hookFunc (f : HookFunc) (ent : Entry)
  /-- A line printed to the `ErrorOutput` `ws`. -/
  | errorLine (ws : WriteSyncer) (line : ErrorLine)
  /-- `hook.OnWrite(ce, fields)`, on the entry `ent`. -/
  | onWrite (hook : CheckWriteHook) (ent : Entry)

/-- Whether `OnWrite` returns: `WriteThenNoop` does; `Goexit`, `panic` and `exit.With(1)` do
not. -/
def CheckWriteHook.returns (w : World) : CheckWriteHook → Bool
  | .action .writeThenNoop => true
  | .action _ => false
  | .custom ref => w.customReturns ref

namespace Core

mutual
/-- `Write(ent, fields)`: the events, in order, and the error returned. `ioCore` encodes,
writes, and syncs when `ent.Level > ErrorLevel`, ignoring the sync's error; `multiCore`
writes every child and combines all errors; `hooked` runs every callback and combines their
errors; `contextObserver` records its context followed by the fields. -/
def write (w : World) : Core → Entry → List Field → List Event × Errors
  | nop, _, _ => ([], [])
  | io _ enc out, ent, fields =>
      match w.encodeError enc ent fields with
      | some err => ([], [err])
      | none =>
          match w.writeError out enc ent fields with
          | some err => ([.sinkWrite out enc ent fields], [err])
          | none =>
              if errorLevel < ent.level then
                ([.sinkWrite out enc ent fields, .sinkSync out], [])
              else ([.sinkWrite out enc ent fields], [])
  | multi cs, ent, fields => writeList w cs ent fields
  | levelFilter core _, ent, fields => core.write w ent fields
  | hooked _ funcs, ent, _ =>
      (funcs.map (fun f => Event.hookFunc f ent), funcs.filterMap (fun f => w.hookError f ent))
  | lazyWith core _ _, ent, fields => core.write w ent fields
  | observer _ logs context, ent, fields => ([.observed logs ent (context ++ fields)], [])

/-- The loop of `multiCore.Write`. -/
def writeList (w : World) : List Core → Entry → List Field → List Event × Errors
  | [], _, _ => ([], [])
  | c :: cs, ent, fields =>
      ((c.write w ent fields).1 ++ (writeList w cs ent fields).1,
        (c.write w ent fields).2 ++ (writeList w cs ent fields).2)
end

mutual
/-- `Sync()`. -/
def sync (w : World) : Core → List Event × Errors
  | nop => ([], [])
  | io _ _ out => ([.sinkSync out], (w.syncError out).toList)
  | multi cs => syncList w cs
  | levelFilter core _ => core.sync w
  | hooked core _ => core.sync w
  | lazyWith core _ _ => core.sync w
  | observer _ _ _ => ([], [])

/-- The loop of `multiCore.Sync`. -/
def syncList (w : World) : List Core → List Event × Errors
  | [] => ([], [])
  | c :: cs => ((c.sync w).1 ++ (syncList w cs).1, (c.sync w).2 ++ (syncList w cs).2)
end

/-- An `ioCore` whose encoding and sink write succeed syncs its sink when the entry is
above `ErrorLevel`. -/
theorem io_write_syncs (w : World) (enab : LevelEnabler) (enc : Encoder) (out : WriteSyncer)
    (ent : Entry) (fields : List Field) (hlevel : errorLevel < ent.level)
    (henc : w.encodeError enc ent fields = none) (hw : w.writeError out enc ent fields = none) :
    (io enab enc out).write w ent fields =
      ([.sinkWrite out enc ent fields, .sinkSync out], []) := by
  simp [write, henc, hw, hlevel]

end Core

/-- The loop of `(*CheckedEntry).Write` over the cores: each is called in order, and the
errors are combined. -/
def writeCores (w : World) (ent : Entry) (fields : List Field) : List Core → List Event × Errors
  | [] => ([], [])
  | c :: cs =>
      (.coreWrite c ent fields :: (c.write w ent fields).1 ++ (writeCores w ent fields cs).1,
        (c.write w ent fields).2 ++ (writeCores w ent fields cs).2)

/-- The report of a failed write: a line and a `Sync` on the `ErrorOutput`, if both the
error and the output are non-nil. -/
def errorReport (out : Option WriteSyncer) (time : Nat) (errs : Errors) : List Event :=
  match out with
  | some ws => if errs.isEmpty then [] else [.errorLine ws (.writeError time errs), .sinkSync ws]
  | none => []

namespace CheckedEntry

/-- `(*CheckedEntry).Write(fields...)` on one instance: the events in order, the instance
afterwards, and whether it reached `putCheckedEntry`, which it does when it was clean and
its hook returned. -/
def write (w : World) (ce : CheckedEntry) (fields : List Field) :
    List Event × CheckedEntry × Bool :=
  if ce.dirty then
    match ce.errorOutput with
    | some ws => ([.errorLine ws (.unsafeReuse ce.entry.time ce.entry), .sinkSync ws], ce, false)
    | none => ([], ce, false)
  else
    let ce := { ce with dirty := true }
    let written := writeCores w ce.entry fields ce.cores
    let events := written.1 ++ errorReport ce.errorOutput ce.entry.time written.2
    match ce.after with
    | some hook => (events ++ [.onWrite hook ce.entry], ce, hook.returns w)
    | none => (events, ce, true)

/-- `Write` on a clean instance. -/
theorem write_clean (w : World) (ce : CheckedEntry) (fields : List Field)
    (h : ce.dirty = false) :
    ce.write w fields =
      ((writeCores w ce.entry fields ce.cores).1 ++
          errorReport ce.errorOutput ce.entry.time (writeCores w ce.entry fields ce.cores).2 ++
          (ce.after.map (fun hook => Event.onWrite hook ce.entry)).toList,
        { ce with dirty := true }, (ce.after.map (·.returns w)).getD true) := by
  cases hafter : ce.after <;> simp [write, h, hafter]

/-- `Write` on a dirty instance calls no core and no hook. -/
theorem write_dirty (w : World) (ce : CheckedEntry) (fields : List Field)
    (h : ce.dirty = true) :
    ce.write w fields =
      ((ce.errorOutput.map fun ws =>
          [Event.errorLine ws (.unsafeReuse ce.entry.time ce.entry), .sinkSync ws]).getD [],
        ce, false) := by
  cases hout : ce.errorOutput <;> simp [write, h, hout]

end CheckedEntry

/-! ## Calls a checked entry makes -/

/-- The events that are calls of `(*CheckedEntry).Write` on a core or on its hook. -/
def Event.isCall : Event → Bool
  | .coreWrite .. => true
  | .onWrite .. => true
  | _ => false

namespace Core

mutual
/-- A core's own `Write` makes no such call. -/
theorem write_calls (w : World) :
    ∀ (c : Core) (ent : Entry) (fields : List Field),
      (c.write w ent fields).1.filter Event.isCall = []
  | nop, _, _ => rfl
  | io enab enc out, ent, fields => by
      simp only [write]
      split
      · rfl
      · split
        · rfl
        · split <;> rfl
  | multi cs, ent, fields => writeList_calls w cs ent fields
  | levelFilter core _, ent, fields => write_calls w core ent fields
  | hooked _ funcs, ent, _ => by simp [write, List.filter_map, Function.comp_def, Event.isCall]
  | lazyWith core _ _, ent, fields => write_calls w core ent fields
  | observer _ _ _, _, _ => rfl

/-- The children of a `multiCore` make no such call. -/
theorem writeList_calls (w : World) :
    ∀ (cs : List Core) (ent : Entry) (fields : List Field),
      (writeList w cs ent fields).1.filter Event.isCall = []
  | [], _, _ => rfl
  | c :: cs, ent, fields => by
      simp only [writeList, List.filter_append, write_calls w c, writeList_calls w cs,
        List.append_nil]
end

end Core

/-- The error report calls no core and no hook. -/
theorem errorReport_calls (out : Option WriteSyncer) (time : Nat) (errs : Errors) :
    (errorReport out time errs).filter Event.isCall = [] := by
  unfold errorReport
  split
  · split <;> rfl
  · rfl

/-- The loop over the cores calls `Write` on each, in order, and nothing else. -/
theorem writeCores_calls (w : World) (ent : Entry) (fields : List Field) :
    ∀ cs : List Core,
      (writeCores w ent fields cs).1.filter Event.isCall = cs.map (.coreWrite · ent fields)
  | [] => rfl
  | c :: cs => by
      simp [writeCores, List.filter_append, Core.write_calls, writeCores_calls w ent fields cs,
        Event.isCall]

namespace CheckedEntry

/-- `Write` on a clean instance calls `Write` on each of its cores in order, then its hook. -/
theorem write_clean_calls (w : World) (ce : CheckedEntry) (fields : List Field)
    (h : ce.dirty = false) :
    (ce.write w fields).1.filter Event.isCall =
      ce.cores.map (.coreWrite · ce.entry fields) ++
        (ce.after.map (.onWrite · ce.entry)).toList := by
  rw [write_clean w ce fields h]
  cases ce.after <;> simp [List.filter_append, writeCores_calls, errorReport_calls, Event.isCall]

/-- `Write` on a dirty instance calls nothing and leaves the instance as it is. -/
theorem write_dirty_calls (w : World) (ce : CheckedEntry) (fields : List Field)
    (h : ce.dirty = true) :
    (ce.write w fields).1.filter Event.isCall = [] ∧ (ce.write w fields).2 = (ce, false) := by
  rw [write_dirty w ce fields h]
  cases ce.errorOutput <;> exact ⟨rfl, rfl⟩

end CheckedEntry

end ReadGoCode.Zapcore
