import ReadGoCode.Multierr

/-!
# Building a logger from a `Config`

`Config.Build` builds the encoder, opens the output and error sinks with `Open`, then checks
the `Level`. `open(paths)` opens one sink per path and, when any path fails, closes every sink
it opened and returns the combined error of the failing paths.

The sinks are tracked by the `newSink` call that opened them: `Sinks` lists every sink ever
opened and every `Close` call. What `newSink` answers is a parameter, one answer per call.
`openPaths_error` is the cleanup of `open`; `Build` has no cleanup after `openSinks`
succeeds, so a zero `Level` leaves both sinks open (`build_missing_level_leaks`).
-/

namespace ReadGoCode.Zap

open Multierr

/-- The sinks opened so far, by the index of the `newSink` call that opened them, and those
closed since. -/
structure Sinks where
  calls : Nat
  opened : List Nat
  closed : List Nat
deriving DecidableEq

/-- No sink opened yet. -/
def Sinks.empty : Sinks := ⟨0, [], []⟩

/-- Every sink opened after `s`, up to `s'`, is closed in `s'`. -/
def Sinks.AllClosed (s s' : Sinks) : Prop := ∀ k ∈ s'.opened, k ∉ s.opened → k ∈ s'.closed

instance (s s' : Sinks) : Decidable (s.AllClosed s') := by
  unfold Sinks.AllClosed; infer_instance

/-- What the `i`-th `_sinkRegistry.newSink(path)` returns: the error, or nil for a new sink. -/
abbrev SinkWorld := Nat → String → Option String

/-- `_sinkRegistry.newSink(path)`. -/
def newSink (world : SinkWorld) (s : Sinks) (path : String) : Sinks × Except String Nat :=
  match world s.calls path with
  | some err => ({ s with calls := s.calls + 1 }, .error err)
  | none => ({ s with calls := s.calls + 1, opened := s.opened ++ [s.calls] }, .ok s.calls)

/-- The `closeAll` of `open`: `Close` on every closer, its error ignored. -/
def closeAll (s : Sinks) (closers : List Nat) : Sinks := { s with closed := s.closed ++ closers }

/-- `fmt.Errorf("open sink %q: %w", path, err)`. -/
def openSinkError (path err : String) : String := "open sink " ++ path.quote ++ ": " ++ err

/-- The loop of `open(paths)` from the closers and the error gathered so far. -/
def openLoop (world : SinkWorld) :
    Sinks → List String → List Nat → Option GoError → Sinks × List Nat × Option GoError
  | s, [], closers, openErr => (s, closers, openErr)
  | s, path :: paths, closers, openErr =>
      match newSink world s path with
      | (s', .error err) =>
          openLoop world s' paths closers (append openErr (some (.plain (openSinkError path err))))
      | (s', .ok sink) => openLoop world s' paths (closers ++ [sink]) openErr

/-- `open(paths)`: the writers, which its `closeAll` closes, or, when a path failed, every
sink closed again and the combined error. -/
def openPaths (world : SinkWorld) (s : Sinks) (paths : List String) :
    Sinks × Except GoError (List Nat) :=
  match openLoop world s paths [] none with
  | (s', closers, some err) => (closeAll s' closers, .error err)
  | (s', closers, none) => (s', .ok closers)

/-- `Open(paths...)`: `open(paths)`, its writers combined by `CombineWriteSyncers`. -/
def Open (world : SinkWorld) (s : Sinks) (paths : List String) :
    Sinks × Except GoError (List Nat) :=
  openPaths world s paths

/-! ## `open` closes what it opened -/

/-- The sinks the paths open, the `i`-th path being the `i`-th `newSink` call. -/
def openedBy (world : SinkWorld) (i : Nat) (paths : List String) : List Nat :=
  (paths.enumFrom i).filterMap fun p => if world p.1 p.2 = none then some p.1 else none

/-- The wrapped errors of the paths that fail. -/
def failuresOf (world : SinkWorld) (i : Nat) (paths : List String) : List String :=
  (paths.enumFrom i).filterMap fun p => (world p.1 p.2).map (openSinkError p.2)

section Open

variable (world : SinkWorld)

/-- The loop of `open` makes one `newSink` call per path, keeps every sink it opens as a closer,
closes none, and combines the wrapped error of every failing path. -/
theorem openLoop_spec (paths : List String) : ∀ (s : Sinks) closers openErr,
    let r := openLoop world s paths closers openErr
    r.1.calls = s.calls + paths.length ∧ r.1.opened = s.opened ++ openedBy world s.calls paths ∧
      r.1.closed = s.closed ∧ r.2.1 = closers ++ openedBy world s.calls paths ∧
      errors r.2.2 = errors openErr ++ failuresOf world s.calls paths ∧
      (r.2.2 = none ↔ openErr = none ∧ failuresOf world s.calls paths = []) := by
  induction paths with
  | nil => intro s closers openErr; simp [openLoop, openedBy, failuresOf]
  | cons path paths ih =>
      intro s closers openErr
      cases h : world s.calls path with
      | some err =>
          have := ih { s with calls := s.calls + 1 } closers
            (append openErr (some (.plain (openSinkError path err))))
          simp only [openLoop, newSink, h] at this ⊢
          simp [this, openedBy, failuresOf, List.enumFrom_cons, h, Nat.add_assoc, Nat.add_comm 1]
      | none =>
          have := ih { s with calls := s.calls + 1, opened := s.opened ++ [s.calls] }
            (closers ++ [s.calls]) openErr
          simp only [openLoop, newSink, h] at this ⊢
          simp [this, openedBy, failuresOf, List.enumFrom_cons, h, Nat.add_assoc, Nat.add_comm 1]

/-- When a path fails, `open(paths)` has closed every sink it opened, and its error lists one
wrapped error per failing path, in order. -/
theorem openPaths_error {s s' : Sinks} {paths : List String} {e : GoError}
    (h : openPaths world s paths = (s', .error e)) :
    s.AllClosed s' ∧ errors (some e) = failuresOf world s.calls paths ∧
      failuresOf world s.calls paths ≠ [] := by
  unfold openPaths at h
  split at h
  · next s₁ closers err hloop =>
      simp only [Prod.mk.injEq, Except.error.injEq] at h
      obtain ⟨rfl, rfl⟩ := h
      have hspec := openLoop_spec world paths s [] none
      simp only [hloop] at hspec
      obtain ⟨-, hopened, -, hclosers, herrors, hnone⟩ := hspec
      refine ⟨fun k hk hnew => ?_, by simpa using herrors, fun hf => by simp [hf] at hnone⟩
      simp only [closeAll, hopened, List.mem_append] at hk ⊢
      exact .inr (by simpa [hclosers] using hk.resolve_left hnew)
  · simp at h

/-- When every path opens, `open(paths)` returns the sinks it opened, closing none. -/
theorem openPaths_ok {s s' : Sinks} {paths : List String} {sinks : List Nat}
    (h : openPaths world s paths = (s', .ok sinks)) :
    s'.opened = s.opened ++ sinks ∧ s'.closed = s.closed := by
  unfold openPaths at h
  split at h
  · simp at h
  · next s₁ closers hloop =>
      simp only [Prod.mk.injEq, Except.ok.injEq] at h
      obtain ⟨rfl, rfl⟩ := h
      have hspec := openLoop_spec world paths s [] none
      simp only [hloop] at hspec
      obtain ⟨-, hopened, hclosed, hclosers, -⟩ := hspec
      exact ⟨by rw [hopened, hclosers, List.nil_append], hclosed⟩

end Open

/-- The `EncoderConfig` fields `newEncoder` checks. -/
structure EncoderConfig where
  timeKey : String
  /-- Whether `EncodeTime` is non-nil. -/
  encodeTime : Bool

/-- `newEncoder(name, encoderConfig)`: its error, if any. `constructors` are the registered
encoder names, each with the error its constructor returns. -/
def newEncoder (constructors : List (String × Option String)) (name : String)
    (encoderConfig : EncoderConfig) : Option String :=
  if encoderConfig.timeKey ≠ "" ∧ encoderConfig.encodeTime = false then
    some "missing EncodeTime in EncoderConfig"
  else if name = "" then some "no encoder name specified"
  else
    match constructors.lookup name with
    | none => some ("no encoder registered for name " ++ name.quote)
    | some err => err

/-- The encoders registered by default, `"console"` and `"json"`, which never fail. -/
def defaultEncoders : List (String × Option String) := [("console", none), ("json", none)]

/-- The fields of `Config` that `Build` reads before it builds the logger. `level` is the
`AtomicLevel` by reference, `none` being the zero `AtomicLevel{}`. -/
structure Config where
  level : Option Nat
  encoding : String
  encoderConfig : EncoderConfig
  outputPaths : List String
  errorOutputPaths : List String

namespace Config

variable (constructors : List (String × Option String)) (world : SinkWorld)

/-- `openSinks()`: the output and error sinks; when the error sinks fail, `closeOut()` closes
the output sinks. -/
def openSinks (cfg : Config) (s : Sinks) : Sinks × Except GoError (List Nat × List Nat) :=
  match Open world s cfg.outputPaths with
  | (s, .error err) => (s, .error err)
  | (s, .ok sink) =>
      match Open world s cfg.errorOutputPaths with
      | (s', .error err) => (closeAll s' sink, .error err)
      | (s', .ok errSink) => (s', .ok (sink, errSink))

/-- `Build(opts...)` up to the logger it builds, here its output and error sinks. -/
def build (cfg : Config) (s : Sinks) : Sinks × Except GoError (List Nat × List Nat) :=
  match newEncoder constructors cfg.encoding cfg.encoderConfig with
  | some err => (s, .error (.plain err))
  | none =>
      match cfg.openSinks world s with
      | (s', .error err) => (s', .error err)
      | (s', .ok sinks) =>
          if cfg.level = none then (s', .error (.plain "missing Level")) else (s', .ok sinks)

/-- When `openSinks` fails, every sink it opened is closed again: those of the failing `Open`
by `open`, the output sinks by `closeOut`. -/
theorem openSinks_error_closes {cfg : Config} {s s' : Sinks} {e : GoError}
    (h : cfg.openSinks world s = (s', .error e)) : s.AllClosed s' := by
  unfold openSinks Open at h
  split at h
  · next s₁ err hout =>
      simp only [Prod.mk.injEq] at h
      exact h.1 ▸ (openPaths_error world hout).1
  · next s₁ sink hout =>
      obtain ⟨hopened₁, -⟩ := openPaths_ok world hout
      split at h
      · next s₂ err herr =>
          obtain ⟨rfl, -⟩ := Prod.mk.inj h
          intro k hk hnew
          simp only [closeAll, List.mem_append] at hk ⊢
          by_cases hk₁ : k ∈ s₁.opened
          · rw [hopened₁, List.mem_append] at hk₁
            exact .inr (hk₁.resolve_left hnew)
          · exact .inl ((openPaths_error world herr).1 k hk hk₁)
      · simp at h

/-- Every error `Build` returns before its `Level` check leaves no sink open, and so does the
`Level` check when the `Level` is set. -/
theorem build_error_closes {cfg : Config} (hlevel : cfg.level ≠ none) {s s' : Sinks}
    {e : GoError} (h : cfg.build constructors world s = (s', .error e)) : s.AllClosed s' := by
  unfold build at h
  split at h
  · simp only [Prod.mk.injEq] at h
    exact h.1 ▸ fun k hk hnew => absurd hk hnew
  · split at h
    · next s₁ err hsinks =>
        simp only [Prod.mk.injEq] at h
        exact h.1 ▸ openSinks_error_closes world hsinks
    · simp [hlevel] at h

end Config

/-- A `Config` with the zero `Level`, one output path and one error path, both of which open:
`Build` opens both sinks, returns "missing Level", and closes neither. -/
theorem build_missing_level_leaks :
    Config.build defaultEncoders (fun _ _ => none)
        ⟨none, "json", ⟨"ts", true⟩, ["/var/log/app.log"], ["/var/log/app.err"]⟩ Sinks.empty =
      (⟨2, [0, 1], []⟩, .error (.plain "missing Level")) ∧
    ¬ Sinks.empty.AllClosed ⟨2, [0, 1], []⟩ :=
  ⟨rfl, by decide⟩

end ReadGoCode.Zap
