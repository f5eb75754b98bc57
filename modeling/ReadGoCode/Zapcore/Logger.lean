import ReadGoCode.Zapcore.Write
import ReadGoCode.Zapcore.Annotate
import Mathlib.Data.List.Basic

/-!
# The logger's decision: `Logger.check` and the log methods

`Logger.check` skips disabled levels below `DPanicLevel` before asking the core, builds the
entry, asks `core.Check(ent, nil)`, and for `PanicLevel`, `FatalLevel` and (in development)
`DPanicLevel` attaches the terminal hook with `After`, creating a checked entry even when no
core accepted. When a core accepted, it threads the `ErrorOutput` through and annotates the
entry with the caller and the stack, printing the caller error when it finds no frame. Every
log method is `check` followed by `Write` on a non-nil result.

`log_events` gives the whole trace of a log call: the caller error, every accepted core written
in order with the annotated entry, the error report, then exactly the terminal action the level
asks for, the user's override unless it is nil or `WriteThenNoop`.

`named_run` gives the logger after any run of `Named` calls: only its name changes, to the
first name and the non-empty segments joined by periods.
-/

namespace ReadGoCode.Zapcore

open Stacktrace (Depth Frame)

/-- The fields of `zap.Logger` that `check` and the log methods read. The clock is read as
`now`. `callerSkip` only says which frames `stacktrace.Capture` returns, which `check` takes as
`captured`. -/
structure Logger where
  core : Core
  development : Bool
  onPanic : Option CheckWriteHook
  onFatal : Option CheckWriteHook
  name : String
  errorOutput : WriteSyncer
  addCaller : Bool
  addStack : LevelEnabler

/-- `terminalHookOverride(defaultHook, override)`: a nil or `WriteThenNoop` override falls
back to the default. -/
def terminalHookOverride (defaultHook : CheckWriteHook) (override : Option CheckWriteHook) :
    CheckWriteHook :=
  match override with
  | none => defaultHook
  | some hook => if hook = .action .writeThenNoop then defaultHook else hook

/-- The override, unless it is nil or `WriteThenNoop`. -/
theorem terminalHookOverride_eq (defaultHook : CheckWriteHook) (override : Option CheckWriteHook) :
    terminalHookOverride defaultHook override =
      (override.filter (· != .action .writeThenNoop)).getD defaultHook := by
  cases override with
  | none => rfl
  | some hook =>
      by_cases h : hook = .action .writeThenNoop <;> simp [terminalHookOverride, Option.filter, h]

namespace Logger

/-- The `switch ent.Level` of `Logger.check`: the hook it attaches with `After`. -/
def terminalHook (log : Logger) (lvl : Level) : Option CheckWriteHook :=
  if lvl = panicLevel then some (terminalHookOverride (.action .writeThenPanic) log.onPanic)
  else if lvl = fatalLevel then some (terminalHookOverride (.action .writeThenFatal) log.onFatal)
  else if lvl = dPanicLevel ∧ log.development = true then
    some (terminalHookOverride (.action .writeThenPanic) log.onPanic)
  else none

/-- The entry `Logger.check` builds, with the clock reading `now`. -/
def entry (log : Logger) (now : Nat) (lvl : Level) (msg : String) : Entry :=
  { Entry.zero with level := lvl, time := now, loggerName := log.name, message := msg }

/-- The entry has the level of the call. -/
@[simp] theorem entry_level (log : Logger) (now : Nat) (lvl : Level) (msg : String) :
    (log.entry now lvl msg).level = lvl := rfl

/-- The entry has the clock's reading. -/
@[simp] theorem entry_time (log : Logger) (now : Nat) (lvl : Level) (msg : String) :
    (log.entry now lvl msg).time = now := rfl

/-- The annotation at the end of `check`, `captured depth` being the frames
`stacktrace.Capture(log.callerSkip+callerSkipOffset, depth)` yields. -/
def annotation (σ : Atomics) (log : Logger) (captured : Depth → List (Nat × Frame)) (lvl : Level) :
    Annotation :=
  annotate σ ⟨log.addCaller, log.addStack⟩ lvl captured

/-- What `check` prints when it wanted the caller and found no frame: the line, then
`log.errorOutput.Sync()`. -/
def callerReport (log : Logger) (now : Nat) (a : Annotation) : List Event :=
  if a.callerError then [.errorLine log.errorOutput (.callerError now), .sinkSync log.errorOutput]
  else []

/-- `Logger.check(lvl, msg)`, with the clock reading `now`: the events of the caller error and
the checked entry. -/
def check (σ : Atomics) (log : Logger) (now : Nat) (captured : Depth → List (Nat × Frame))
    (lvl : Level) (msg : String) : List Event × Option CheckedEntry :=
  if lvl < dPanicLevel ∧ log.core.enabled σ lvl = false then ([], none)
  else
    let ent := log.entry now lvl msg
    let ce := log.core.check σ ent none
    let willWrite := ce.isSome
    let ce := match log.terminalHook lvl with
      | some hook => some (CheckedEntry.after? ce ent hook)
      | none => ce
    if !willWrite then ([], ce)
    else
      let ce := ce.map fun ce => { ce with errorOutput := some log.errorOutput }
      let a := log.annotation σ captured lvl
      (log.callerReport now a, ce.map fun ce => { ce with entry := a.apply ce.entry })

/-- `Logger.Log(lvl, msg, fields...)`: `check`, then `Write` on a non-nil result. `Debug`,
`Info`, `Warn`, `Error`, `DPanic`, `Panic` and `Fatal` are this at their level. -/
def log (w : World) (σ : Atomics) (log : Logger) (now : Nat)
    (captured : Depth → List (Nat × Frame)) (lvl : Level) (msg : String) (fields : List Field) :
    List Event :=
  let checked := log.check σ now captured lvl msg
  checked.1 ++ match checked.2 with
    | some ce => (ce.write w fields).1
    | none => []

/-- `Logger.Debug(msg, fields...)`. -/
def debug (w : World) (σ : Atomics) (log : Logger) (now : Nat)
    (captured : Depth → List (Nat × Frame)) (msg : String) (fields : List Field) : List Event :=
  Logger.log w σ log now captured debugLevel msg fields
/-- `Logger.Info`. -/
def info (w : World) (σ : Atomics) (log : Logger) (now : Nat)
    (captured : Depth → List (Nat × Frame)) (msg : String) (fields : List Field) : List Event :=
  Logger.log w σ log now captured infoLevel msg fields
/-- `Logger.Warn`. -/
def warn (w : World) (σ : Atomics) (log : Logger) (now : Nat)
    (captured : Depth → List (Nat × Frame)) (msg : String) (fields : List Field) : List Event :=
  Logger.log w σ log now captured warnLevel msg fields
/-- `Logger.Error`. -/
def error (w : World) (σ : Atomics) (log : Logger) (now : Nat)
    (captured : Depth → List (Nat × Frame)) (msg : String) (fields : List Field) : List Event :=
  Logger.log w σ log now captured errorLevel msg fields
/-- `Logger.DPanic`. -/
def dPanic (w : World) (σ : Atomics) (log : Logger) (now : Nat)
    (captured : Depth → List (Nat × Frame)) (msg : String) (fields : List Field) : List Event :=
  Logger.log w σ log now captured dPanicLevel msg fields
/-- `Logger.Panic`. -/
def panic (w : World) (σ : Atomics) (log : Logger) (now : Nat)
    (captured : Depth → List (Nat × Frame)) (msg : String) (fields : List Field) : List Event :=
  Logger.log w σ log now captured panicLevel msg fields
/-- `Logger.Fatal`. -/
def fatal (w : World) (σ : Atomics) (log : Logger) (now : Nat)
    (captured : Depth → List (Nat × Frame)) (msg : String) (fields : List Field) : List Event :=
  Logger.log w σ log now captured fatalLevel msg fields

/-- `Logger.Level()`. -/
def level (σ : Atomics) (log : Logger) : Level := log.core.levelOf σ

/-- `Logger.Sync()`. -/
def sync (w : World) (log : Logger) : List Event × Errors := log.core.sync w

/-- The entry the cores that accept a log call write: the logger's entry, annotated with the
caller and the stack. -/
def annotatedEntry (σ : Atomics) (log : Logger) (now : Nat)
    (captured : Depth → List (Nat × Frame)) (lvl : Level) (msg : String) : Entry :=
  (log.annotation σ captured lvl).apply (log.entry now lvl msg)

/-- The annotation keeps the entry's time. -/
@[simp] theorem annotatedEntry_time (σ : Atomics) (log : Logger) (now : Nat)
    (captured : Depth → List (Nat × Frame)) (lvl : Level) (msg : String) :
    (log.annotatedEntry σ now captured lvl msg).time = now := rfl

end Logger

namespace Core

/-- A core that disables a level accepts no entry at it on a nil handle. -/
theorem accepted_eq_nil_of_disabled {σ : Atomics} {c : Core} {ent : Entry}
    (h : c.enabled σ ent.level = false) : c.accepted σ ent false = [] := by
  cases hacc : c.accepted σ ent false with
  | nil => rfl
  | cons x xs =>
      have := enabled_of_acceptedChain σ c [] ent
        (show c.accepted σ ent false ≠ [] by rw [hacc]; exact List.cons_ne_nil x xs)
      rw [h] at this
      cases this

end Core

namespace Logger

/-- Below `DPanicLevel` no terminal hook is attached. -/
theorem terminalHook_eq_none_of_lt {log : Logger} {lvl : Level} (h : lvl < dPanicLevel) :
    log.terminalHook lvl = none := by
  have hp : lvl ≠ panicLevel := fun he => absurd (he ▸ h) (by decide)
  have hf : lvl ≠ fatalLevel := fun he => absurd (he ▸ h) (by decide)
  have hd : lvl ≠ dPanicLevel := fun he => absurd (he ▸ h) (by decide)
  simp [terminalHook, hp, hf, hd]

/-- What `check` returns. Without an accepting core: no event, and the checked entry of the
terminal hook, if any. With one: the caller error, and the accepted cores with the annotated
entry, the error output and the terminal hook. -/
theorem check_eq (σ : Atomics) (log : Logger) (now : Nat) (captured : Depth → List (Nat × Frame))
    (lvl : Level) (msg : String) :
    log.check σ now captured lvl msg =
      if (log.core.accepted σ (log.entry now lvl msg) false).isEmpty then
        ([], (log.terminalHook lvl).map fun hook =>
          { CheckedEntry.empty with entry := log.entry now lvl msg, after := some hook })
      else (log.callerReport now (log.annotation σ captured lvl), some { CheckedEntry.empty with
        entry := log.annotatedEntry σ now captured lvl msg,
        cores := log.core.accepted σ (log.entry now lvl msg) false,
        after := log.terminalHook lvl, errorOutput := some log.errorOutput }) := by
  unfold check
  split
  · rename_i hearly
    have hacc := @Core.accepted_eq_nil_of_disabled σ log.core (log.entry now lvl msg) hearly.2
    simp [hacc, terminalHook_eq_none_of_lt hearly.1]
  · simp only [Core.check_eq_addCores, Option.isSome_none]
    generalize log.core.accepted σ (log.entry now lvl msg) false = acc
    cases acc <;> cases log.terminalHook lvl <;>
      simp [CheckedEntry.addCores_none_cons, CheckedEntry.after?, CheckedEntry.empty,
        annotatedEntry]

/-- No error, no report. -/
theorem errorReport_nil (out : Option WriteSyncer) (time : Nat) : errorReport out time [] = [] := by
  cases out <;> rfl

/-- The trace of a log call at any level: the caller error, `Write` on every accepted core in
order with the annotated entry, the report of their errors, then the terminal hook of the
level, if any. Without an accepting core the hook gets the entry as built. -/
theorem log_events (w : World) (σ : Atomics) (log : Logger) (now : Nat)
    (captured : Depth → List (Nat × Frame)) (lvl : Level) (msg : String) (fields : List Field) :
    let accepted := log.core.accepted σ (log.entry now lvl msg) false
    let ent := if accepted.isEmpty then log.entry now lvl msg
      else log.annotatedEntry σ now captured lvl msg
    let written := writeCores w ent fields accepted
    log.log w σ now captured lvl msg fields =
      (if accepted.isEmpty then [] else log.callerReport now (log.annotation σ captured lvl)) ++
        written.1 ++ errorReport (some log.errorOutput) now written.2 ++
        ((log.terminalHook lvl).map (Event.onWrite · ent)).toList := by
  intro accepted ent written
  unfold Logger.log
  rw [check_eq]
  cases hacc : accepted.isEmpty
  · simp only [accepted] at hacc
    simp only [hacc, if_false, Bool.false_eq_true]
    rw [CheckedEntry.write_clean _ _ _ rfl]
    simp [written, ent, hacc, accepted]
  · have hnil : accepted = [] := List.isEmpty_iff.mp hacc
    simp only [accepted] at hacc hnil
    simp only [hacc, if_true]
    cases hhook : log.terminalHook lvl <;>
      simp [written, ent, accepted, hnil, writeCores, errorReport_nil, CheckedEntry.write_clean,
        CheckedEntry.empty, Entry.zero, Logger.entry]

end Logger

/-- Joining a list with one more segment appends the separator and the segment. -/
theorem intercalate_go_append (sep x : String) :
    ∀ (l : List String) (acc : String),
      String.intercalate.go acc sep (l ++ [x]) = String.intercalate.go acc sep l ++ sep ++ x
  | [], _ => rfl
  | a :: l, acc => intercalate_go_append sep x l (acc ++ sep ++ a)

/-- Joining with one more segment: the segment alone, or the join, the separator and the segment. -/
theorem intercalate_append_singleton (sep x : String) (l : List String) :
    sep.intercalate (l ++ [x]) = if l = [] then x else sep.intercalate l ++ sep ++ x := by
  cases l with
  | nil => rfl
  | cons a l => exact intercalate_go_append sep x l a

/-- Joining from an accumulator extends it. -/
theorem intercalate_go_eq_append (sep : String) :
    ∀ (l : List String) (acc : String), ∃ t, String.intercalate.go acc sep l = acc ++ t
  | [], acc => ⟨"", (String.append_empty acc).symm⟩
  | a :: l, acc => by
      obtain ⟨t, ht⟩ := intercalate_go_eq_append sep l (acc ++ sep ++ a)
      exact ⟨sep ++ a ++ t, by rw [String.intercalate.go, ht, String.append_assoc,
        String.append_assoc, String.append_assoc]⟩

/-- Segments none of which is empty join to the empty name only when there are none. -/
theorem intercalate_eq_empty {sep : String} {l : List String} (hl : ∀ a ∈ l, a ≠ "") :
    sep.intercalate l = "" ↔ l = [] := by
  cases l with
  | nil => exact ⟨fun _ => rfl, fun _ => rfl⟩
  | cons a l =>
      obtain ⟨t, ht⟩ := intercalate_go_eq_append sep l a
      refine ⟨fun h => absurd ?_ (hl a (List.mem_cons_self a l)), fun h => nomatch h⟩
      have hdata := congrArg String.data (ht.symm.trans h)
      rw [String.data_append] at hdata
      exact String.ext (List.append_eq_nil.mp hdata).1

namespace Logger

/-- `log.Named(s)`: an empty segment leaves the logger as it is, and segments are joined by
periods. -/
def named (log : Logger) (s : String) : Logger :=
  if s = "" then log
  else if log.name = "" then { log with name := s }
  else { log with name := ".".intercalate [log.name, s] }

/-- One `Named` call on a logger whose name joins the non-empty segments `segs`: the name joins
`segs` and the new segment, if it is not empty. -/
theorem named_intercalate (log : Logger) {segs : List String} (hsegs : ∀ a ∈ segs, a ≠ "")
    (s : String) :
    named { log with name := ".".intercalate segs } s =
      { log with name := ".".intercalate (segs ++ [s].filter (· != "")) } := by
  by_cases hs : s = ""
  · simp [named, hs]
  · have hfs : [s].filter (· != "") = [s] := by simp [hs]
    rw [hfs, intercalate_append_singleton]
    by_cases hnil : segs = []
    · simp [named, hs, hnil, String.intercalate]
    · have hname : ".".intercalate segs ≠ "" := fun h => hnil ((intercalate_eq_empty hsegs).mp h)
      simp only [named, hs, hname, hnil, if_false]
      rfl

/-- After a run of `Named` calls the logger has every other field as before, and its name is
its first name and the non-empty segments, joined by periods. -/
theorem named_run (log : Logger) (segs : List String) :
    segs.foldl named log =
      { log with name := ".".intercalate ((log.name :: segs).filter (· != "")) } := by
  induction segs using List.reverseRecOn with
  | nil =>
      by_cases h : log.name = ""
      · cases log
        simp_all [String.intercalate]
      · simp [h, String.intercalate, String.intercalate.go]
  | append_singleton segs s ih =>
      have hsegs : ∀ a ∈ (log.name :: segs).filter (· != ""), a ≠ "" := fun a ha => by
        simpa using (List.mem_filter.mp ha).2
      rw [List.foldl_append, ih, List.foldl_cons, List.foldl_nil, named_intercalate log hsegs,
        ← List.cons_append, List.filter_append]

end Logger

end ReadGoCode.Zapcore
