import ReadGoCode.Zapcore.Core
import ReadGoCode.Stacktrace.Format

/-!
# The caller and stack of `Logger.check`

When a core accepts the entry, the end of `Logger.check` annotates the checked entry. If the
logger adds callers or its `addStack` enabler enables the level, it captures the stack, one
frame deep for the caller alone and in full for a stack trace. Without a frame it prints
`Logger.check error: failed to get caller` when it wanted the caller. Otherwise the first frame
`Next` returns is the caller. The stack trace is that frame formatted with `FormatFrame`,
followed by `FormatStack` of the frames after it when `Next` said more follow.

The frames are what `runtime.CallersFrames` yields for the captured program counters, each with
its `PC`: a parameter `captured`, by the depth asked for.

`annotate_spec` gives the annotation for every level and every captured stack. The caller is the
first frame. The stack trace is the text of every frame but the last. A stack of one frame
keeps it, because `FormatStack`, which drops the last frame, is only called when more frames
follow. `Annotation.apply` writes the annotation into the entry of the checked entry, which every
core's `Write` then receives.
-/

namespace ReadGoCode.Zapcore

open Stacktrace (Frame Depth newFormatter stackText)

/-- The fields of `zap.Logger` that the annotation of `check` reads besides `errorOutput`:
`addCaller` and `addStack`. -/
structure Annotating where
  addCaller : Bool
  addStack : LevelEnabler

/-- What the annotation leaves: `ce.Caller` if it set it, `ce.Stack` (empty unless it set it),
and whether it printed the caller error to the `ErrorOutput`. -/
structure Annotation where
  caller : Option EntryCaller
  stack : String
  callerError : Bool

/-- The end of `log.check(lvl, msg)` for a checked entry a core accepted. `captured depth` is
what `stack.Next()` returns, frame after frame, for `Capture(skip, depth)`. -/
def annotate (σ : Atomics) (log : Annotating) (lvl : Level)
    (captured : Depth → List (Nat × Frame)) : Annotation :=
  let addStack := log.addStack.enabled σ lvl
  if !log.addCaller && !addStack then ⟨none, "", false⟩
  else
    match captured (if addStack then .full else .first) with
    | [] => ⟨none, "", log.addCaller⟩
    | (pc, frame) :: rest =>
        let sf := (newFormatter []).formatFrame frame
        let sf := if !rest.isEmpty then sf.formatStack (rest.map Prod.snd) else sf
        ⟨if log.addCaller then some ⟨pc != 0, frame.file, frame.line⟩ else none,
          if addStack then ⟨sf.b⟩ else "", false⟩

/-- `ce.Caller` and `ce.Stack` after the annotation: the caller when it set one, and the stack when
it formatted one. A formatted stack is never empty (`annotate_stack_ne_empty`), so an empty
`stack` is one it did not set. -/
def Annotation.apply (a : Annotation) (ent : Entry) : Entry :=
  { ent with caller := a.caller.getD ent.caller,
             stack := if a.stack = "" then ent.stack else a.stack }

/-- The text `FormatFrame` of the first frame then `FormatStack` of the others leave: the text
of every frame but the last, or of the one frame. -/
theorem formatFrame_formatStack (frame : Frame) (rest : List (Nat × Frame)) :
    (if !rest.isEmpty then ((newFormatter []).formatFrame frame).formatStack (rest.map Prod.snd)
      else (newFormatter []).formatFrame frame).b =
      stackText (if rest = [] then [frame] else (frame :: rest.map Prod.snd).dropLast) := by
  cases rest with
  | nil => simp [newFormatter, Stacktrace.Formatter.formatFrame, Stacktrace.stackText_cons]
  | cons g gs =>
      rw [List.map_cons, List.dropLast_cons₂, Stacktrace.formatStack_eq]
      by_cases hd : (g.2 :: gs.map Prod.snd).dropLast = [] <;>
        simp [hd, newFormatter, Stacktrace.Formatter.formatFrame, Stacktrace.stackText_cons]

/-- The annotation of `Logger.check` for every level and every captured stack. Without a frame
it sets nothing and reports the caller error exactly when it wanted the caller. Otherwise the
caller is the first frame, defined when its `PC` is not zero. The stack, when the level asks for
one, is the text of every frame of the full capture but the last, or of the frame when it is the
only one. -/
theorem annotate_spec (σ : Atomics) (log : Annotating) (lvl : Level)
    (captured : Depth → List (Nat × Frame)) :
    let addStack := log.addStack.enabled σ lvl
    let depth : Depth := if addStack then .full else .first
    (captured depth = [] ∨ (!log.addCaller && !addStack) = true →
      annotate σ log lvl captured =
        ⟨none, "", log.addCaller && captured depth = []⟩) ∧
    ∀ pc frame rest, captured depth = (pc, frame) :: rest →
      (annotate σ log lvl captured).caller =
          (if log.addCaller then some ⟨pc != 0, frame.file, frame.line⟩ else none) ∧
        (annotate σ log lvl captured).stack =
          if addStack then
            ⟨stackText (if rest = [] then [frame] else (frame :: rest.map Prod.snd).dropLast)⟩
          else "" := by
  obtain ⟨addCaller, enab⟩ := log
  dsimp only
  unfold annotate
  refine ⟨fun h => ?_, fun pc frame rest hcap => ?_⟩
  · generalize enab.enabled σ lvl = addStack at h ⊢
    cases addStack <;> cases addCaller <;> simp_all
  · rw [← formatFrame_formatStack frame rest]
    generalize enab.enabled σ lvl = addStack at hcap ⊢
    cases addStack <;> cases addCaller <;> simp_all

/-- A stack the annotation formats starts with the first frame's function, file and line, so it
is never empty. -/
theorem annotate_stack_ne_empty (σ : Atomics) (log : Annotating) (lvl : Level)
    (captured : Depth → List (Nat × Frame)) (hstack : log.addStack.enabled σ lvl = true)
    (hcap : captured .full ≠ []) : (annotate σ log lvl captured).stack ≠ "" := by
  obtain ⟨⟨pc, frame⟩, rest, hfull⟩ := List.exists_cons_of_ne_nil hcap
  have htext : stackText (if rest = [] then [frame] else (frame :: rest.map Prod.snd).dropLast) ≠
      [] := by
    have hcons : ∃ fs, (if rest = [] then [frame] else (frame :: rest.map Prod.snd).dropLast) =
        frame :: fs := by
      cases rest with
      | nil => exact ⟨[], rfl⟩
      | cons g gs => exact ⟨_, List.dropLast_cons₂⟩
    obtain ⟨fs, hfs⟩ := hcons
    rw [hfs, Stacktrace.stackText_cons]
    simp
  simp only [annotate, hstack, hfull, Bool.not_true, Bool.and_false, if_true]
  rw [formatFrame_formatStack]
  exact fun h => htext (congrArg String.data h)

/-- The runtime's last frame is dropped from a longer stack. -/
example : (annotate (fun _ => infoLevel) ⟨true, .level debugLevel⟩ infoLevel
    (fun _ => [(1, ⟨"main.run", "main.go", 7⟩), (2, ⟨"runtime.main", "proc.go", 250⟩)])).stack =
      "main.run\n\tmain.go:7" := by
  decide

end ReadGoCode.Zapcore
