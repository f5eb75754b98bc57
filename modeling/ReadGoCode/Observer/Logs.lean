import ReadGoCode.Zapcore.Logger
import Mathlib.Data.List.Infix

/-!
# The `ObservedLogs` store

`New(enab)` returns an observer core and the `ObservedLogs` it writes into. Each `Write` on the
core, or on a core derived from it with `With`, calls `add` with the entry and its context. The
test reads the store with `Len`, `All`, `AllUntimed`, `TakeAll` and the filters. Every method
holds the store's mutex, so however goroutines log and read at once, the calls take effect one
at a time: a run is a sequence of them.

`run_taken` says what every run gives: the entries `TakeAll` handed out, in the order it handed
them out, followed by those the store still holds, are the entries the cores' writes added, in
the order they added them. No entry is lost, none is handed out twice, and none is reordered.

`observed_log_run` applies it to the use the package is made for: a test logs through a
`zap.Logger` whose core is an observer. The store then receives exactly one entry per log call
at a level the observer enables, with the logger's name, the message, and the observer's
context followed by the call's fields. The entries arrive in the order of the calls.
-/

namespace ReadGoCode.Observer

open Zapcore

/-- `LoggedEntry`: an entry and its context. -/
structure LoggedEntry where
  entry : Entry
  context : List Field
deriving DecidableEq

/-- `ObservedLogs`: the entries `add` has taken since the last `TakeAll`, in order. -/
structure ObservedLogs where
  logs : List LoggedEntry

namespace ObservedLogs

/-- `o.Len()`. -/
def len (o : ObservedLogs) : Nat := o.logs.length

/-- `o.All()`: a copy of the entries. -/
def all (o : ObservedLogs) : List LoggedEntry := o.logs

/-- `o.TakeAll()`: the entries, and the store left empty. -/
def takeAll (o : ObservedLogs) : List LoggedEntry × ObservedLogs := (o.logs, ⟨[]⟩)

/-- `o.AllUntimed()`: `All` with every `Time` set to the zero time. -/
def allUntimed (o : ObservedLogs) : List LoggedEntry :=
  o.all.map fun e => { e with entry := { e.entry with time := 0 } }

/-- `o.add(log)`. -/
def add (o : ObservedLogs) (log : LoggedEntry) : ObservedLogs := ⟨o.logs ++ [log]⟩

/-- `o.Filter(keep)`: a new store of the entries `keep` accepts, in order. -/
def filter (o : ObservedLogs) (keep : LoggedEntry → Bool) : ObservedLogs :=
  ⟨o.logs.filter keep⟩

/-- `o.FilterLevelExact(level)`. -/
def filterLevelExact (o : ObservedLogs) (level : Level) : ObservedLogs :=
  o.filter fun e => e.entry.level = level

/-- `o.FilterMessage(msg)`. -/
def filterMessage (o : ObservedLogs) (msg : String) : ObservedLogs :=
  o.filter fun e => e.entry.message = msg

/-- `o.FilterLoggerName(name)`. -/
def filterLoggerName (o : ObservedLogs) (name : String) : ObservedLogs :=
  o.filter fun e => e.entry.loggerName = name

/-- `o.FilterMessageSnippet(snippet)`: `strings.Contains(e.Message, snippet)`. -/
def filterMessageSnippet (o : ObservedLogs) (snippet : String) : ObservedLogs :=
  o.filter fun e => decide (snippet.data <:+: e.entry.message.data)

/-- `o.FilterField(field)`: a context field `Equals` to `field`. -/
def filterField (o : ObservedLogs) (field : Field) : ObservedLogs :=
  o.filter fun e => e.context.any (· = field)

/-- `o.FilterFieldKey(key)`: a context field with the key `key`. -/
def filterFieldKey (o : ObservedLogs) (key : String) : ObservedLogs :=
  o.filter fun e => e.context.any (·.key = key)

/-- Adding entries one by one appends them. -/
theorem foldl_add (es : List LoggedEntry) (o : ObservedLogs) :
    (es.foldl add o).logs = o.logs ++ es := by
  induction es generalizing o with
  | nil => simp
  | cons e es ih => simp [ih, add]

end ObservedLogs

/-- A call on the store: a core's `Write`, given the events it made, or a read by the test. -/
inductive LogsCall where
  | write (events : List Event)
  | len
  | all
  | allUntimed
  | takeAll

/-- What a read returns: `Len`'s count, the entries `All` or `AllUntimed` returned, or the
entries `TakeAll` handed out. -/
inductive LogsReply where
  | count (n : Nat)
  | entries (es : List LoggedEntry)
  | taken (es : List LoggedEntry)

/-- The entries the events `add` to the store at `addr`, in order. -/
def addedBy (addr : Nat) (events : List Event) : List LoggedEntry :=
  events.filterMap fun
    | .observed logs ent context => if logs = addr then some ⟨ent, context⟩ else none
    | _ => none

/-- The entries a call adds to the store at `addr`. -/
def LogsCall.added (addr : Nat) : LogsCall → List LoggedEntry
  | .write events => addedBy addr events
  | _ => []

/-- The entries `TakeAll` handed out in a reply. -/
def LogsReply.takenOut : LogsReply → List LoggedEntry
  | .taken es => es
  | _ => []

/-- One call on the store at `addr`: the store after it, and the reply of a read. -/
def step (addr : Nat) (o : ObservedLogs) : LogsCall → ObservedLogs × Option LogsReply
  | .write events => ((addedBy addr events).foldl ObservedLogs.add o, none)
  | .len => (o, some (.count o.len))
  | .all => (o, some (.entries o.all))
  | .allUntimed => (o, some (.entries o.allUntimed))
  | .takeAll => (o.takeAll.2, some (.taken o.takeAll.1))

/-- A run of calls on the store at `addr`: the store after it, and the replies in order. -/
def run (addr : Nat) : ObservedLogs → List LogsCall → ObservedLogs × List LogsReply
  | o, [] => (o, [])
  | o, c :: cs =>
      let r := step addr o c
      let rest := run addr r.1 cs
      (rest.1, r.2.toList ++ rest.2)

/-- One call hands out, then holds, what the store held and the call added. -/
theorem step_taken (addr : Nat) (o : ObservedLogs) (c : LogsCall) :
    (step addr o c).2.toList.flatMap LogsReply.takenOut ++ (step addr o c).1.logs =
      o.logs ++ c.added addr := by
  cases c <;> simp [step, LogsCall.added, LogsReply.takenOut, ObservedLogs.foldl_add,
    ObservedLogs.takeAll]

/-- From every store, a run hands out, then holds, what the store held and the run added. -/
theorem run_taken_from (addr : Nat) : ∀ (cs : List LogsCall) (o : ObservedLogs),
    (run addr o cs).2.flatMap LogsReply.takenOut ++ (run addr o cs).1.logs =
      o.logs ++ cs.flatMap (LogsCall.added addr)
  | [], o => by simp [run]
  | c :: cs, o => by
      have hstep := step_taken addr o c
      have hrun := run_taken_from addr cs (step addr o c).1
      simp only [run, List.flatMap_append, List.flatMap_cons, List.append_assoc, hrun]
      rw [← List.append_assoc, hstep, List.append_assoc]

/-- Every run of writes and reads on the store `New` made: the entries `TakeAll` handed out, in
the order it handed them out, followed by the entries the store still holds, are the entries the
writes added, in the order they added them. -/
theorem run_taken (addr : Nat) (cs : List LogsCall) :
    (run addr ⟨[]⟩ cs).2.flatMap LogsReply.takenOut ++ (run addr ⟨[]⟩ cs).1.logs =
      cs.flatMap (LogsCall.added addr) :=
  run_taken_from addr cs ⟨[]⟩

/-! ## A logger on an observer core -/

/-- A call of a test on a `zap.Logger` whose core is an observer: a log call, with the clock's
reading and the frames the runtime gives for the stack, or any other call on the store, such as
a read or the `Write` of another core. -/
inductive TestCall where
  | log (now : Nat) (captured : Stacktrace.Depth → List (Nat × Stacktrace.Frame)) (lvl : Level)
      (msg : String) (fields : List Field)
  | other (c : LogsCall)

/-- The call on the store that a test call makes: a log call is the `Write` of its events. -/
def TestCall.toLogsCall (w : World) (σ : Atomics) (log : Logger) : TestCall → LogsCall
  | .log now captured lvl msg fields => .write (log.log w σ now captured lvl msg fields)
  | .other c => c

/-- The entries a test call should add to the store of the observer `enab`, `context`: a log
call at an enabled level adds its entry, with the caller and stack of `check`, with the context
and its fields. -/
def TestCall.expected (σ : Atomics) (log : Logger) (enab : LevelEnabler) (addr : Nat)
    (context : List Field) : TestCall → List LoggedEntry
  | .log now captured lvl msg fields =>
      if enab.enabled σ lvl then [⟨log.annotatedEntry σ now captured lvl msg, context ++ fields⟩]
      else []
  | .other c => c.added addr

/-- No events add no entries. -/
@[simp] theorem addedBy_nil (addr : Nat) : addedBy addr [] = [] := rfl

/-- The entries added by two runs of events are those of each, in order. -/
@[simp] theorem addedBy_append (addr : Nat) (l₁ l₂ : List Event) :
    addedBy addr (l₁ ++ l₂) = addedBy addr l₁ ++ addedBy addr l₂ :=
  List.filterMap_append _ _ _

/-- What one log call on a logger whose core is the observer adds to its store. -/
theorem addedBy_log (w : World) (σ : Atomics) {log : Logger} {enab : LevelEnabler} {addr : Nat}
    {context : List Field} (hcore : log.core = .observer enab addr context) (now : Nat)
    (captured : Stacktrace.Depth → List (Nat × Stacktrace.Frame)) (lvl : Level) (msg : String)
    (fields : List Field) :
    addedBy addr (log.log w σ now captured lvl msg fields) =
      if enab.enabled σ lvl then [⟨log.annotatedEntry σ now captured lvl msg, context ++ fields⟩]
      else [] := by
  -- the caller error, the error report and the terminal hook add nothing to the store
  have hcaller : addedBy addr (log.callerReport now (log.annotation σ captured lvl)) = [] := by
    unfold Logger.callerReport
    split_ifs <;> rfl
  have hreport : errorReport (some log.errorOutput) now [] = [] := rfl
  have hterminal (ent : Entry) :
      addedBy addr ((log.terminalHook lvl).map (Event.onWrite · ent)).toList = [] := by
    cases log.terminalHook lvl <;> rfl
  rw [Logger.log_events, addedBy_append, addedBy_append, addedBy_append, hterminal]
  by_cases hen : enab.enabled σ lvl
  · simp [hcore, hen, Core.accepted, Core.acceptedChain, Core.withChain, writeCores, Core.write,
      hreport, hcaller]
    simp [addedBy]
  · simp [hcore, hen, Core.accepted, Core.acceptedChain, writeCores, hreport]

/-- Every run of a test that logs through a `zap.Logger` on an observer core and calls the
store: the entries `TakeAll` handed out, followed by those the store still holds, are one entry
per log call at a level the observer enables, with the logger's name, the message, the caller
and stack `check` annotated it with, the observer's context and the call's fields, with the
entries other cores added, in order. -/
theorem observed_log_run (w : World) (σ : Atomics) (log : Logger) (enab : LevelEnabler)
    (addr : Nat) (context : List Field) (hcore : log.core = .observer enab addr context)
    (calls : List TestCall) :
    (run addr ⟨[]⟩ (calls.map (TestCall.toLogsCall w σ log))).2.flatMap LogsReply.takenOut ++
        (run addr ⟨[]⟩ (calls.map (TestCall.toLogsCall w σ log))).1.logs =
      calls.flatMap (TestCall.expected σ log enab addr context) := by
  rw [run_taken_from, List.nil_append, List.flatMap_map]
  congr 1
  funext c
  cases c with
  | log now captured lvl msg fields => exact addedBy_log w σ hcore now captured lvl msg fields
  | other c => rfl

/-- A logger named `test` on `observer.New(InfoLevel)`, adding callers, logs at `Info`, `Debug`
and `Warn`, with a `TakeAll` between the last two. -/
theorem observed_log_run_info :
    (⟨.observer (.level infoLevel) 0 [], false, none, none, "test", ⟨1⟩, true,
        .level invalidLevel⟩ : Logger).core =
      .observer (.level infoLevel) 0 [] ∧
    (run 0 ⟨[]⟩ ([.log 0 (fun _ => [(1, ⟨"main.run", "main.go", 7⟩)]) infoLevel "a" [],
        .log 1 (fun _ => []) debugLevel "b" [], .other .takeAll,
        .log 2 (fun _ => []) warnLevel "c" []].map (TestCall.toLogsCall
          ⟨fun _ _ _ => none, fun _ _ _ _ => none, fun _ => none, fun _ _ => none, fun _ => true⟩
          (fun _ => infoLevel)
          ⟨.observer (.level infoLevel) 0 [], false, none, none, "test", ⟨1⟩, true,
            .level invalidLevel⟩))).2.flatMap LogsReply.takenOut ++
      (run 0 ⟨[]⟩ ([.log 0 (fun _ => [(1, ⟨"main.run", "main.go", 7⟩)]) infoLevel "a" [],
        .log 1 (fun _ => []) debugLevel "b" [], .other .takeAll,
        .log 2 (fun _ => []) warnLevel "c" []].map (TestCall.toLogsCall
          ⟨fun _ _ _ => none, fun _ _ _ _ => none, fun _ => none, fun _ _ => none, fun _ => true⟩
          (fun _ => infoLevel)
          ⟨.observer (.level infoLevel) 0 [], false, none, none, "test", ⟨1⟩, true,
            .level invalidLevel⟩))).1.logs =
      [TestCall.log 0 (fun _ => [(1, ⟨"main.run", "main.go", 7⟩)]) infoLevel "a" [],
        .log 1 (fun _ => []) debugLevel "b" [], .other .takeAll,
        .log 2 (fun _ => []) warnLevel "c" []].flatMap (TestCall.expected (fun _ => infoLevel)
          ⟨.observer (.level infoLevel) 0 [], false, none, none, "test", ⟨1⟩, true,
            .level invalidLevel⟩
          (.level infoLevel) 0 []) :=
  ⟨rfl, observed_log_run _ _ _ _ 0 [] rfl _⟩

/-- The `Info` entry of `observed_log_run_info` carries the caller `main.go:7`. -/
example : (TestCall.expected (fun _ => infoLevel)
    ⟨.observer (.level infoLevel) 0 [], false, none, none, "test", ⟨1⟩, true, .level invalidLevel⟩
    (.level infoLevel) 0 [] (.log 0 (fun _ => [(1, ⟨"main.run", "main.go", 7⟩)]) infoLevel "a" [])
    ).map (·.entry.caller) = [⟨true, "main.go", 7⟩] := by
  decide

end ReadGoCode.Observer
