import ReadGoCode.Zap.Encoders
import ReadGoCode.Zap.Sink

/-!
# The default configurations

`NewProductionConfig` and `NewDevelopmentConfig` write JSON or console logs to `"stderr"`, both
for the log and for internal errors, at a new `AtomicLevel`. `Build` opens each path with
`_sinkRegistry.newSink`, so the answers `Config.build` takes as its `SinkWorld` come from the
registry: `registryWorld` is that world, for the registry a program has built with its
`RegisterSink` calls.

`build_defaults` connects these models. Whatever encoders and sink factories the program
registered, and whatever the file system answers, both default configurations pass
`newEncoder`'s checks, since `"console"` and `"json"` keep their constructors. They open
`"stderr"` twice without error, since `"file"` keeps its factory and `"stderr"` never reaches
the file system. So `Build` succeeds.
-/

namespace ReadGoCode.Zap

/-- `NewProductionEncoderConfig()`: `TimeKey` `"ts"`, with `EpochTimeEncoder`. -/
def newProductionEncoderConfig : EncoderConfig := ⟨"ts", true⟩

/-- `NewDevelopmentEncoderConfig()`: `TimeKey` `"T"`, with `ISO8601TimeEncoder`. -/
def newDevelopmentEncoderConfig : EncoderConfig := ⟨"T", true⟩

/-- `NewProductionConfig()`, where `level` is the `AtomicLevel` that `NewAtomicLevelAt(InfoLevel)`
allocates. -/
def newProductionConfig (level : Nat) : Config :=
  ⟨some level, "json", newProductionEncoderConfig, ["stderr"], ["stderr"]⟩

/-- `NewDevelopmentConfig()`, where `level` is the `AtomicLevel` that
`NewAtomicLevelAt(DebugLevel)` allocates. -/
def newDevelopmentConfig (level : Nat) : Config :=
  ⟨some level, "console", newDevelopmentEncoderConfig, ["stderr"], ["stderr"]⟩

/-- Both default encoder configurations pass `newEncoder`'s checks, whatever encoders were
registered. -/
theorem newEncoder_defaults (calls : List (String × Option String)) :
    newEncoder (registerEncoders defaultEncoders calls) "json" newProductionEncoderConfig = none ∧
      newEncoder (registerEncoders defaultEncoders calls) "console"
        newDevelopmentEncoderConfig = none :=
  ⟨(newEncoder_registerEncoders calls "json" rfl _).trans rfl,
    (newEncoder_registerEncoders calls "console" rfl _).trans rfl⟩

/-- The answers of `_sinkRegistry.newSink` when the registry is `sr`: `parse` is `url.Parse`, the
`i`-th call's `os.OpenFile` answers as `openFile i`, and `userSink` is what the user factories
return. -/
def registryWorld (parse : String → Except String URL) (openFile : Nat → String → Option String)
    (userSink : Nat → URL → Except String Sink) (sr : SinkRegistry) : SinkWorld :=
  fun i path =>
    match sr.newSink parse (openFile i) userSink path with
    | .error err => some err
    | .ok _ => none

/-- What `url.Parse("stderr")` returns: the relative path `stderr`. -/
def stderrURL : URL := ⟨"", false, "", "", "", "", "stderr", "stderr"⟩

/-- On a registry that keeps `"file"`'s factory, `newSink("stderr")` opens standard error, whatever
the file system answers. -/
theorem newSink_stderr (parse : String → Except String URL)
    (hparse : parse "stderr" = .ok stderrURL) (openFile : String → Option String)
    (userSink : Nat → URL → Except String Sink) {sr : SinkRegistry} (hsr : sr.Inv) :
    sr.newSink parse openFile userSink "stderr" = .ok .stderr := by
  have habs : isAbs "stderr" = false := by decide
  simp only [SinkRegistry.newSink, habs, hparse, stderrURL, hsr.file, if_true, Bool.false_eq_true,
    if_false]
  rfl

/-- `Open("stderr")` when every `newSink("stderr")` succeeds: one new sink. -/
theorem open_stderr {world : SinkWorld} (h : ∀ i, world i "stderr" = none) (s : Sinks) :
    Open world s ["stderr"] = (⟨s.calls + 1, s.opened ++ [s.calls], s.closed⟩, .ok [s.calls]) := by
  simp [Open, openPaths, openLoop, newSink, h]

/-- Both default configurations build, whatever encoders and sink factories the program
registered, whatever `unicode.ToLower` does outside ASCII and whatever the file system answers,
as long as `url.Parse` reads `"stderr"` as a relative path: `Build` opens standard error once
for the log and once for its errors, and closes nothing. -/
theorem build_defaults (lower : Strings.UnicodeLower) (parse : String → Except String URL)
    (hparse : parse "stderr" = .ok stderrURL)
    (openFile : Nat → String → Option String) (userSink : Nat → URL → Except String Sink)
    (encoderCalls : List (String × Option String)) (sinkCalls : List (String × Factory))
    (level : Nat) (s : Sinks) :
    ∀ cfg ∈ [newProductionConfig level, newDevelopmentConfig level],
      cfg.build (registerEncoders defaultEncoders encoderCalls)
          (registryWorld parse openFile userSink
            ((newSinkRegistry lower).registerAll lower sinkCalls)) s =
        (⟨s.calls + 2, s.opened ++ [s.calls, s.calls + 1], s.closed⟩,
          .ok ([s.calls], [s.calls + 1])) := by
  have hsr := (SinkRegistry.registerAll_inv lower sinkCalls _
    (SinkRegistry.inv_newSinkRegistry lower)).1
  have hworld : ∀ i, registryWorld parse openFile userSink
      ((newSinkRegistry lower).registerAll lower sinkCalls) i "stderr" = none := fun i => by
    simp only [registryWorld, newSink_stderr parse hparse (openFile i) userSink hsr]
  intro cfg hcfg
  simp only [List.mem_cons, List.mem_singleton, List.not_mem_nil, or_false] at hcfg
  rcases hcfg with rfl | rfl <;>
    simp [Config.build, Config.openSinks, newProductionConfig, newDevelopmentConfig,
      newEncoder_defaults encoderCalls, open_stderr hworld, Nat.add_assoc]

/-- Both default configurations build after a `yaml` encoder, a failing `json` encoder and a
`kafka` factory are registered, with a `url.Parse` that reads every text as the relative path
`stderr`. -/
theorem build_defaults_kafka :
    (fun _ => .ok stderrURL : String → Except String URL) "stderr" = .ok stderrURL ∧
    ∀ cfg ∈ [newProductionConfig 0, newDevelopmentConfig 0],
      cfg.build (registerEncoders defaultEncoders [("yaml", none), ("json", some "broken")])
          (registryWorld (fun _ => .ok stderrURL) (fun _ _ => none)
          (fun _ _ => .error "unreachable")
          ((newSinkRegistry .asciiOnly).registerAll .asciiOnly [("kafka", .user 0)]))
          Sinks.empty =
        (⟨Sinks.empty.calls + 2, Sinks.empty.opened ++ [Sinks.empty.calls, Sinks.empty.calls + 1],
          Sinks.empty.closed⟩, .ok ([Sinks.empty.calls], [Sinks.empty.calls + 1])) :=
  ⟨rfl, build_defaults .asciiOnly _ rfl _ _ _ _ 0 Sinks.empty⟩

end ReadGoCode.Zap
