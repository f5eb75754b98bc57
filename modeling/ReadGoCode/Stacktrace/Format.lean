import ReadGoCode.Stacktrace.Stack
import Mathlib

/-!
# Formatting a stack trace

`Take(skip)` captures the `Full` stack above its caller and has a `Formatter` write it into an
empty buffer. For each frame that `Next` returns with `more` set, `FormatFrame` writes the
frame's function, a newline, a tab, its file, a colon and its line number in decimal. Every frame
but the first is preceded by a newline. The frame `Next` returns last, with `more` false, is not
written: it is the runtime's own `runtime.main` or `runtime.goexit`.

`formatStack_eq` says what `FormatStack` appends to whatever the buffer held. From it and
`capture_full`, `take_text` says what `Take` does from every pool that keeps `StackPool.Inv`: it
returns the text of every frame of the whole stack but the last, however deep the stack, and
leaves a pool that keeps the invariant. `parseStack` reads that text back. Its lines alternate
between a function and a tab-indented `file:line`, and as long as no function or file name holds
a newline, `parseStack` gives back the frames (`parseStack_stackText`).
-/

namespace ReadGoCode.Stacktrace

/-- `runtime.Frame`, with the fields `FormatFrame` reads. -/
structure Frame where
  function : String
  file : String
  line : Int
deriving DecidableEq

/-- The two lines of a frame's text: its function, then a tab and its `file:line`. -/
def frameLines (frame : Frame) : List (List Char) :=
  [frame.function.data, '\t' :: frame.file.data ++ ':' :: (toString frame.line).data]

/-- The text of a list of frames: their lines, joined by newlines. -/
def stackText (frames : List Frame) : List Char :=
  ['\n'].intercalate (frames.flatMap frameLines)

/-- A `Formatter`: the bytes of its `buffer.Buffer`, and `nonEmpty`, whether it has written a
frame. -/
structure Formatter where
  b : List Char
  nonEmpty : Bool

/-- `NewFormatter(b)`. -/
def newFormatter (b : List Char) : Formatter := ⟨b, false⟩

namespace Formatter

/-- `sf.FormatFrame(frame)`. `AppendInt` writes the line number in decimal. -/
def formatFrame (sf : Formatter) (frame : Frame) : Formatter :=
  let b := if sf.nonEmpty then sf.b ++ ['\n'] else sf.b
  ⟨b ++ frame.function.data ++ ['\n'] ++ ['\t'] ++ frame.file.data ++ [':'] ++
    (toString frame.line).data, true⟩

/-- `sf.FormatStack(stack)`, where `frames` are the frames that `stack.Next()` has left. `Next`
returns the first of them, with `more` true exactly when others follow it. The loop formats each
frame returned with `more` and stops at the first one returned without. -/
def formatStack (sf : Formatter) : List Frame → Formatter
  | [] => sf
  | frame :: rest => if rest.isEmpty then sf else (sf.formatFrame frame).formatStack rest

end Formatter

namespace StackPool

/-- `Take(skip)` on `_stackPool`. Here `frames` are the program counters above `skip + 3`, the
pool hands out its `pick`-th stack, and `symbolize` is what `runtime.CallersFrames` makes of a
list of program counters. `bufferpool.Get()` hands out an empty buffer. The result is the string
and the pool after the deferred `stack.Free()`, or `none` when `Capture` does not return. -/
def take (symbolize : List Nat → List Frame) (fuel : Nat) (s : StackPool) (frames : List Nat)
    (pick : Option Nat) : Option (List Char × StackPool) :=
  let g := s.get pick
  (capture frames .full g.1 fuel).map fun stack =>
    (((newFormatter []).formatStack (symbolize (stack.storage.take stack.count))).b,
      { s with pool := g.2 ++ [stack.free] })

end StackPool

/-- Joining a list with more after its head puts the separator after the head. -/
theorem intercalate_cons_of_ne_nil {α : Type} (sep l : List α) {ls : List (List α)}
    (h : ls ≠ []) : sep.intercalate (l :: ls) = l ++ sep ++ sep.intercalate ls := by
  cases ls with
  | nil => contradiction
  | cons l' ls => simp [List.intercalate, List.intersperse_cons_cons]

/-- The text of a stack is the first frame's lines, then a newline and the rest. -/
theorem stackText_cons (frame : Frame) (frames : List Frame) :
    stackText (frame :: frames) = frame.function.data ++ '\n' :: '\t' :: frame.file.data ++
      ':' :: (toString frame.line).data ++
        if frames = [] then [] else '\n' :: stackText frames := by
  by_cases h : frames = []
  · subst h; simp [stackText, frameLines, List.intercalate]
  · have hl : frames.flatMap frameLines ≠ [] := by
      obtain ⟨f, fs, rfl⟩ := List.exists_cons_of_ne_nil h
      simp [frameLines]
    simp [stackText, frameLines, h, intercalate_cons_of_ne_nil _ _ hl,
      intercalate_cons_of_ne_nil _ _ (List.cons_ne_nil _ _)]

/-- `FormatStack` appends the text of every frame but the last, after a newline when the
formatter has already written a frame; with one frame or none, it writes nothing. -/
theorem formatStack_eq (sf : Formatter) : ∀ frames, sf.formatStack frames =
    if frames.dropLast = [] then sf
    else ⟨sf.b ++ (if sf.nonEmpty then ['\n'] else []) ++ stackText frames.dropLast, true⟩
  | [] => rfl
  | [_] => by simp [Formatter.formatStack]
  | f :: g :: gs => by
      rw [Formatter.formatStack, formatStack_eq _ (g :: gs), List.dropLast_cons₂]
      cases hne : sf.nonEmpty <;> by_cases hd : (g :: gs).dropLast = [] <;>
        simp [hne, hd, Formatter.formatFrame, stackText_cons]

example : ((newFormatter []).formatStack
    [⟨"main.run", "main.go", 7⟩, ⟨"runtime.main", "proc.go", 250⟩]).b =
      "main.run\n\tmain.go:7".data := by
  decide

/-- `Take` from every pool that keeps the invariant, with fuel for the frames, returns the text
of every frame of the whole stack but the last, however deep the stack is. It gives its stack
back to the pool, which keeps the invariant, and holds no stack. -/
theorem take_text (symbolize : List Nat → List Frame) {fuel : Nat} {s : StackPool}
    (hs : s.Inv) (frames : List Nat) (pick : Option Nat) (hfuel : frames.length + 2 ≤ fuel) :
    ∃ s', s.take symbolize fuel frames pick = some (stackText (symbolize frames).dropLast, s') ∧
      s'.Inv ∧ s'.held = s.held := by
  obtain ⟨hget, hpool⟩ := StackPool.get_spec hs pick
  obtain ⟨st', h, hcount, -, htake, hge⟩ :=
    capture_full frames (show 0 < (s.get pick).1.storage.length by omega) hfuel
  refine ⟨{ s with pool := (s.get pick).2 ++ [st'.free] }, ?_, ?_, rfl⟩
  · have hpcs : st'.pcs = frames.length := hcount
    simp only [StackPool.take, h, Option.map_some', Stack.count, hpcs, htake, formatStack_eq]
    split <;> simp_all [newFormatter, stackText, List.intercalate]
  · intro st hst
    simp only [List.mem_append, List.mem_singleton] at hst
    rcases hst with (hst | rfl) | hst
    · exact hs st (List.mem_append_left _ (hpool st hst))
    · exact le_trans hget hge
    · exact hs st (List.mem_append_right _ hst)

/-- `Take` from the empty pool, of a stack of three frames. -/
theorem take_text_three :
    StackPool.init.Inv ∧ [4, 5, 6].length + 2 ≤ 5 ∧
    ∃ s', StackPool.init.take (List.map fun pc => ⟨"f", "f.go", pc⟩) 5 [4, 5, 6] none =
      some (stackText (([4, 5, 6] : List Nat).map fun pc => (⟨"f", "f.go", pc⟩ : Frame)).dropLast,
        s') ∧ s'.Inv ∧ s'.held = StackPool.init.held :=
  have hinit : StackPool.init.Inv := fun _ h => by simp [StackPool.init] at h
  ⟨hinit, by decide, take_text _ hinit [4, 5, 6] none (by decide)⟩

/-! ## Reading the text back -/

/-- Reads decimal digits, after the value `acc` of those before them. -/
def parseDigits (acc : Nat) : List Char → Option Nat
  | [] => some acc
  | c :: cs => if c.isDigit then parseDigits (10 * acc + (c.toNat - '0'.toNat)) cs else none

/-- Reads a line number: decimal digits, after a minus sign when it is negative. -/
def parseLine (digits : List Char) : Option Int :=
  if digits.head? = some '-' then (parseDigits 0 digits.tail).map fun n => -(n : Int)
  else (parseDigits 0 digits).map Int.ofNat

/-- Splits at the last colon: what stands before it, and what after. -/
def splitLastColon : List Char → Option (List Char × List Char)
  | [] => none
  | c :: cs =>
      match splitLastColon cs with
      | some (a, b) => some (c :: a, b)
      | none => if c = ':' then some ([], cs) else none

/-- Reads a tab-indented `file:line`. -/
def parseLocation : List Char → Option (String × Int)
  | [] => none
  | c :: location =>
      if c = '\t' then
        (splitLastColon location).bind fun (file, line) =>
          (parseLine line).map fun line => (⟨file⟩, line)
      else none

/-- Reads frames back from their lines: a function, then its location. -/
def parseFrames : List (List Char) → Option (List Frame)
  | [] => some []
  | [_] => none
  | function :: location :: rest =>
      (parseLocation location).bind fun (file, line) =>
        (parseFrames rest).map fun frames => ⟨⟨function⟩, file, line⟩ :: frames

/-- Reads the frames back from the text of a stack trace. -/
def parseStack (text : List Char) : Option (List Frame) :=
  if text = [] then some [] else parseFrames (text.splitOn '\n')

/-- A decimal digit prints as a digit character of its value. -/
theorem digitChar_spec : ∀ d, d < 10 →
    (Nat.digitChar d).isDigit ∧ (Nat.digitChar d).toNat - '0'.toNat = d := by
  decide

/-- `toDigitsCore` with enough fuel writes only digits before `ds`, and reading them adds the
number after what was read before. -/
theorem toDigitsCore_spec : ∀ fuel n ds, n < fuel →
    (∀ c ∈ Nat.toDigitsCore 10 fuel n ds, c ∈ ds ∨ c.isDigit) ∧
    ∀ acc, ∃ k, parseDigits acc (Nat.toDigitsCore 10 fuel n ds) =
      parseDigits (acc * 10 ^ k + n) ds
  | 0, _, _, h => absurd h (Nat.not_lt_zero _)
  | fuel + 1, n, ds, h => by
      obtain ⟨hdigit, hval⟩ := digitChar_spec (n % 10) (Nat.mod_lt _ (by omega))
      rw [Nat.toDigitsCore]
      split
      · next hn =>
          refine ⟨by simp only [List.mem_cons]; rintro c (rfl | hc) <;> simp_all,
            fun acc => ⟨1, ?_⟩⟩
          simp only [parseDigits, hdigit, if_true, hval]
          congr 1; omega
      · obtain ⟨hmem, hval'⟩ := toDigitsCore_spec fuel (n / 10) _ (by omega)
        refine ⟨fun c hc => ?_, fun acc => ?_⟩
        · rcases hmem c hc with hc | hc
          · rcases List.mem_cons.mp hc with rfl | hc
            exacts [.inr hdigit, .inl hc]
          · exact .inr hc
        · obtain ⟨k, hk⟩ := hval' acc
          refine ⟨k + 1, ?_⟩
          rw [hk, parseDigits, if_pos hdigit, hval, Nat.pow_succ, ← Nat.mul_assoc]
          congr 1; omega

/-- `Nat.repr` prints digits that read back as the number. -/
theorem repr_spec (n : Nat) :
    (∀ c ∈ (Nat.repr n).data, c.isDigit) ∧ parseDigits 0 (Nat.repr n).data = some n := by
  obtain ⟨hmem, hval⟩ := toDigitsCore_spec (n + 1) n [] (by omega)
  obtain ⟨k, hk⟩ := hval 0
  refine ⟨fun c hc => (hmem c hc).resolve_left (List.not_mem_nil c), ?_⟩
  simpa [Nat.repr, Nat.toDigits, List.asString, parseDigits] using hk

/-- A line number's decimal text has no newline and no colon, and reads back as the number. -/
theorem toString_line (line : Int) :
    (∀ c ∈ (toString line).data, c ≠ '\n' ∧ c ≠ ':') ∧
      parseLine (toString line).data = some line := by
  have hsep : ∀ n : Nat, ∀ c ∈ (Nat.repr n).data, c ≠ '\n' ∧ c ≠ ':' ∧ c ≠ '-' := by
    intro n c hc
    have := (repr_spec n).1 c hc
    refine ⟨?_, ?_, ?_⟩ <;> rintro rfl <;> exact absurd this (by decide)
  cases line with
  | ofNat n =>
      have hhead : (Nat.repr n).data.head? ≠ some '-' := fun h =>
        (hsep n '-' (List.mem_of_mem_head? h)).2.2 rfl
      refine ⟨fun c hc => ⟨(hsep n c hc).1, (hsep n c hc).2.1⟩, ?_⟩
      show parseLine (Nat.repr n).data = _
      simp [parseLine, hhead, (repr_spec n).2]
  | negSucc n =>
      refine ⟨fun c hc => ?_, ?_⟩
      · change c ∈ '-' :: (Nat.repr (n + 1)).data at hc
        rcases List.mem_cons.mp hc with rfl | hc
        · decide
        · exact ⟨(hsep _ c hc).1, (hsep _ c hc).2.1⟩
      · change parseLine ('-' :: (Nat.repr (n + 1)).data) = _
        simp [parseLine, (repr_spec (n + 1)).2, Int.negSucc_eq]

/-- A text with no colon does not split. -/
theorem splitLastColon_eq_none : ∀ {b : List Char}, ':' ∉ b → splitLastColon b = none
  | [], _ => rfl
  | c :: b, h => by
      rw [List.mem_cons, not_or] at h
      simp [splitLastColon, splitLastColon_eq_none h.2, Ne.symm h.1]

/-- A text splits at its last colon. -/
theorem splitLastColon_append (b : List Char) (hb : ':' ∉ b) :
    ∀ a, splitLastColon (a ++ ':' :: b) = some (a, b)
  | [] => by simp [splitLastColon, splitLastColon_eq_none hb]
  | c :: a => by simp [splitLastColon, splitLastColon_append b hb a]

/-- The lines of frames read back as the frames. -/
theorem parseFrames_flatMap : ∀ frames : List Frame,
    parseFrames (frames.flatMap frameLines) = some frames
  | [] => rfl
  | ⟨function, file, line⟩ :: frames => by
      obtain ⟨hsep, hline⟩ := toString_line line
      have hcolon : ':' ∉ (toString line).data := fun h => (hsep ':' h).2 rfl
      have hloc : parseLocation ('\t' :: (file.data ++ ':' :: (toString line).data)) =
          some (file, line) := by
        simp [parseLocation, splitLastColon_append _ hcolon, hline]
      show parseFrames (function.data :: ('\t' :: file.data ++ ':' :: (toString line).data) ::
        frames.flatMap frameLines) = _
      rw [parseFrames, List.cons_append, hloc]
      simp [parseFrames_flatMap frames]

/-- A frame whose names hold no newline has lines without one. -/
theorem newline_not_mem_frameLines {f : Frame} (hf : '\n' ∉ f.function.data ∧ '\n' ∉ f.file.data) :
    ∀ l ∈ frameLines f, '\n' ∉ l := by
  simp only [frameLines, List.mem_cons, List.mem_singleton, List.not_mem_nil, or_false]
  rintro l (rfl | rfl)
  · exact hf.1
  · simp only [List.mem_cons, List.mem_append, not_or]
    exact ⟨⟨by decide, hf.2⟩, by decide, fun hc => ((toString_line f.line).1 _ hc).1 rfl⟩

/-- The text of a stack trace reads back as its frames, as long as no function or file name
holds a newline: the lines alternate between a function and a tab-indented `file:line`, and the
line number is read after the file name's last colon. -/
theorem parseStack_stackText (frames : List Frame)
    (h : ∀ f ∈ frames, '\n' ∉ f.function.data ∧ '\n' ∉ f.file.data) :
    parseStack (stackText frames) = some frames := by
  cases frames with
  | nil => rfl
  | cons f fs =>
      have hne : stackText (f :: fs) ≠ [] := by simp [stackText_cons]
      have hlines : ∀ l ∈ (f :: fs).flatMap frameLines, '\n' ∉ l := fun l hl => by
        obtain ⟨g, hg, hl⟩ := List.mem_flatMap.mp hl
        exact newline_not_mem_frameLines (h g hg) l hl
      have hnil : (f :: fs).flatMap frameLines ≠ [] := by simp [List.flatMap_cons, frameLines]
      rw [parseStack, if_neg hne, stackText, List.splitOn_intercalate _ '\n' hlines hnil,
        parseFrames_flatMap]

/-- The text of a frame in `main` and the runtime frame under it reads back as the two. -/
theorem parseStack_stackText_two :
    (∀ f ∈ [Frame.mk "main.run" "/app/main.go" 12, ⟨"runtime.main", "/go/proc.go", 250⟩],
      '\n' ∉ f.function.data ∧ '\n' ∉ f.file.data) ∧
    parseStack
        (stackText [⟨"main.run", "/app/main.go", 12⟩, ⟨"runtime.main", "/go/proc.go", 250⟩]) =
      some [⟨"main.run", "/app/main.go", 12⟩, ⟨"runtime.main", "/go/proc.go", 250⟩] :=
  ⟨by decide, parseStack_stackText _ (by decide)⟩

end ReadGoCode.Stacktrace
