import ReadGoCode.Zapcore.Caller
import ReadGoCode.Zapcore.Level
import ReadGoCode.Stacktrace.Format

/-!
# The console encoder's line

`consoleEncoder.EncodeEntry` writes the elements that the time, level, name and caller encoders
append, and the caller's function, joined by `ConsoleSeparator`. It then writes the message, then
the JSON of the context between braces, each after a separator when the line is not empty yet.
Then come a newline and the stack, and `LineEnding`.

The JSON encoder and the time and level encoders are not in the repository. They are parameters
here: each encoder is the list of elements it appends, as `fmt.Fprint` prints them, and the JSON
of the context is the text the cloned JSON encoder holds after `addFields`. Of zap's
`newJSONEncoder`, which `NewConsoleEncoder` calls, only its rule for `LineEnding` matters to the
line: none with `SkipLineEnding`, and `DefaultLineEnding` in place of an empty one.

`encodeEntry_splitOn` reads a line back. Take a separator of one character, and pieces (the
elements, the message and the braced context) that are not empty and hold neither the separator
nor a newline. Then the line up to its first newline, split at the separator, gives the pieces
back in order, and the rest of the line is the stack after a newline, then `LineEnding`.
-/

namespace ReadGoCode.Zapcore

/-- The `EncoderConfig` fields `EncodeEntry` reads. An encoder is the elements it appends. -/
structure ConsoleConfig where
  timeKey : String
  levelKey : String
  nameKey : String
  callerKey : String
  functionKey : String
  messageKey : String
  stacktraceKey : String
  consoleSeparator : String
  skipLineEnding : Bool
  lineEnding : String
  encodeTime : Option (Nat → List String)
  encodeLevel : Option (Level → List String)
  encodeName : Option (String → List String)
  encodeCaller : Option CallerEncoder

/-- The fields of `Entry` that `EncodeEntry` reads; a `time` of `0` is the zero time. -/
structure ConsoleEntry where
  level : Level
  time : Nat
  loggerName : String
  message : String
  caller : EntryCaller
  function : String
  stack : String

/-- `DefaultLineEnding`. -/
def defaultLineEnding : String := "\n"

/-- The `EncoderConfig` `newJSONEncoder(cfg, spaced)` keeps: no line ending with
`SkipLineEnding`, and `DefaultLineEnding` in place of an empty one. -/
def newJSONEncoder (cfg : ConsoleConfig) : ConsoleConfig :=
  if cfg.skipLineEnding then { cfg with lineEnding := "" }
  else if cfg.lineEnding = "" then { cfg with lineEnding := defaultLineEnding } else cfg

/-- `NewConsoleEncoder(cfg)`: an empty separator becomes a tab, and the JSON encoder it wraps
sets the line ending. -/
def newConsoleEncoder (cfg : ConsoleConfig) : ConsoleConfig :=
  newJSONEncoder (if cfg.consoleSeparator = "" then { cfg with consoleSeparator := "\t" } else cfg)

/-- The elements `EncodeEntry` collects in its slice encoder, in order. `FullNameEncoder`
appends the name. -/
def ConsoleConfig.elements (c : ConsoleConfig) (ent : ConsoleEntry) : List String :=
  (match c.encodeTime with
    | some encodeTime => if c.timeKey ≠ "" ∧ ent.time ≠ 0 then encodeTime ent.time else []
    | none => []) ++
  (match c.encodeLevel with
    | some encodeLevel => if c.levelKey ≠ "" then encodeLevel ent.level else []
    | none => []) ++
  (if ent.loggerName ≠ "" ∧ c.nameKey ≠ "" then
    (c.encodeName.getD fun name => [name]) ent.loggerName else []) ++
  (if ent.caller.defined then
    (match c.encodeCaller with
      | some encodeCaller => if c.callerKey ≠ "" then [encodeCaller.encode ent.caller] else []
      | none => []) ++
    (if c.functionKey ≠ "" then [ent.function] else [])
  else [])

/-- `c.addSeparatorIfNecessary(line)`. -/
def ConsoleConfig.addSeparatorIfNecessary (c : ConsoleConfig) (line : List Char) : List Char :=
  if line ≠ [] then line ++ c.consoleSeparator.data else line

/-- `c.writeContext(line, fields)`, where `context` is the JSON the cloned encoder holds. -/
def ConsoleConfig.writeContext (c : ConsoleConfig) (line context : List Char) : List Char :=
  if context = [] then line else c.addSeparatorIfNecessary line ++ ('{' :: (context ++ ['}']))

/-- `c.EncodeEntry(ent, fields)`: the bytes of the line, `context` being the JSON of the
encoder's context and the fields. The loop over the elements writes a separator before every
element but the first. -/
def ConsoleConfig.encodeEntry (c : ConsoleConfig) (ent : ConsoleEntry) (context : List Char) :
    List Char :=
  let line := c.consoleSeparator.data.intercalate ((c.elements ent).map String.data)
  let line := if c.messageKey ≠ "" then c.addSeparatorIfNecessary line ++ ent.message.data else line
  let line := c.writeContext line context
  let line := if ent.stack ≠ "" ∧ c.stacktraceKey ≠ "" then line ++ '\n' :: ent.stack.data
    else line
  line ++ c.lineEnding.data

/-- The pieces of a line between separators: the elements, the message, and the braced
context when there is one. -/
def ConsoleConfig.pieces (c : ConsoleConfig) (ent : ConsoleEntry) (context : List Char) :
    List (List Char) :=
  (c.elements ent).map String.data ++ [ent.message.data] ++
    if context = [] then [] else ['{' :: (context ++ ['}'])]

/-! ## Reading a line back -/

section

variable {α : Type} {sep : List α}

/-- A character of a join is in the separator or in one of the pieces. -/
theorem mem_of_mem_intercalate {a : α} : ∀ {ls : List (List α)}, a ∈ sep.intercalate ls →
    a ∈ sep ∨ ∃ l ∈ ls, a ∈ l
  | [], h => by simp [List.intercalate] at h
  | [l], h => .inr ⟨l, List.mem_singleton_self l, by simpa [List.intercalate] using h⟩
  | l :: l' :: ls, h => by
      rw [Stacktrace.intercalate_cons_of_ne_nil _ _ (List.cons_ne_nil _ _)] at h
      simp only [List.mem_append] at h
      rcases h with (h | h) | h
      · exact .inr ⟨l, List.mem_cons_self _ _, h⟩
      · exact .inl h
      · rcases mem_of_mem_intercalate h with h | ⟨m, hm, h⟩
        · exact .inl h
        · exact .inr ⟨m, List.mem_cons_of_mem _ hm, h⟩

/-- Non-empty pieces join to a non-empty text. -/
theorem intercalate_ne_nil {ls : List (List α)} (hne : ∀ l ∈ ls, l ≠ []) (hls : ls ≠ []) :
    sep.intercalate ls ≠ [] := by
  obtain ⟨l, ls, rfl⟩ := List.exists_cons_of_ne_nil hls
  have hl := hne l (List.mem_cons_self l ls)
  cases ls with
  | nil => simpa [List.intercalate] using hl
  | cons l' ls =>
      rw [Stacktrace.intercalate_cons_of_ne_nil _ _ (List.cons_ne_nil _ _)]
      simp [hl]

/-- Joining one more piece appends the separator and the piece. -/
theorem intercalate_snoc (l : List α) :
    ∀ (m : List α) (ls : List (List α)),
      sep.intercalate (m :: ls ++ [l]) = sep.intercalate (m :: ls) ++ sep ++ l
  | m, [] => by simp [List.intercalate]
  | m, m' :: ls => by
      have ih := intercalate_snoc l m' ls
      simp only [List.cons_append] at ih ⊢
      rw [Stacktrace.intercalate_cons_of_ne_nil sep m (List.cons_ne_nil m' (ls ++ [l])), ih,
        Stacktrace.intercalate_cons_of_ne_nil sep m (List.cons_ne_nil m' ls)]
      simp only [List.append_assoc]

end

/-- A piece written after a separator when the line is not empty: the line of non-empty pieces
gains one. -/
theorem addSeparatorIfNecessary_append (c : ConsoleConfig) {ls : List (List Char)}
    (hne : ∀ l ∈ ls, l ≠ []) (l : List Char) :
    c.addSeparatorIfNecessary (c.consoleSeparator.data.intercalate ls) ++ l =
      c.consoleSeparator.data.intercalate (ls ++ [l]) := by
  by_cases hls : ls = []
  · subst hls
    simp [ConsoleConfig.addSeparatorIfNecessary, List.intercalate]
  · obtain ⟨m, ms, rfl⟩ := List.exists_cons_of_ne_nil hls
    rw [ConsoleConfig.addSeparatorIfNecessary, if_pos (intercalate_ne_nil hne hls),
      intercalate_snoc l m ms]

/-- With a message key, the line up to the stack joins the pieces with the separator, when none
of them is empty. -/
theorem encodeEntry_eq (c : ConsoleConfig) (ent : ConsoleEntry) (context : List Char)
    (hmsg : c.messageKey ≠ "") (hne : ∀ p ∈ c.pieces ent context, p ≠ []) :
    c.encodeEntry ent context =
      c.consoleSeparator.data.intercalate (c.pieces ent context) ++
        (if ent.stack ≠ "" ∧ c.stacktraceKey ≠ "" then '\n' :: ent.stack.data else []) ++
        c.lineEnding.data := by
  have hmem : ∀ l ∈ (c.elements ent).map String.data ++ [ent.message.data], l ≠ [] :=
    fun l hl => hne l (List.mem_append_left _ hl)
  have hline := addSeparatorIfNecessary_append c
    (fun l hl => hmem l (List.mem_append_left _ hl)) ent.message.data
  have hcontext : c.writeContext (c.consoleSeparator.data.intercalate
      ((c.elements ent).map String.data ++ [ent.message.data])) context =
      c.consoleSeparator.data.intercalate (c.pieces ent context) := by
    by_cases hc : context = []
    · simp [ConsoleConfig.writeContext, ConsoleConfig.pieces, hc]
    · rw [ConsoleConfig.writeContext, if_neg hc, addSeparatorIfNecessary_append c hmem]
      simp [ConsoleConfig.pieces, hc]
  simp only [ConsoleConfig.encodeEntry, ne_eq, hmsg, not_false_eq_true, if_true, hline, hcontext]
  split <;> simp

/-- A console line reads back. Take a separator of one character and a message key. Suppose the
line ending is empty or starts with a newline, and every piece (each element, the message, the
braced context) is not empty and holds neither the separator nor a newline. Then the line up to
its first newline, split at the separator, gives back the pieces in order, and from its first
newline on the line is the stack after a newline, if there is one and a stack key, then the line
ending. -/
theorem encodeEntry_splitOn (c : ConsoleConfig) (ent : ConsoleEntry) (context : List Char)
    {s : Char} (hsep : c.consoleSeparator.data = [s]) (hs : s ≠ '\n') (hmsg : c.messageKey ≠ "")
    (hend : ∀ x ∈ c.lineEnding.data.head?, x = '\n')
    (hpieces : ∀ p ∈ c.pieces ent context, p ≠ [] ∧ s ∉ p ∧ '\n' ∉ p) :
    ((c.encodeEntry ent context).takeWhile (· != '\n')).splitOn s = c.pieces ent context ∧
      (c.encodeEntry ent context).dropWhile (· != '\n') =
        (if ent.stack ≠ "" ∧ c.stacktraceKey ≠ "" then '\n' :: ent.stack.data else []) ++
          c.lineEnding.data := by
  have hnl : ∀ x ∈ [s].intercalate (c.pieces ent context), (x != '\n') = true := by
    intro x hx
    rcases mem_of_mem_intercalate hx with hx | ⟨p, hp, hx⟩
    · rw [List.mem_singleton.mp hx]
      simpa using hs
    · have : x ≠ '\n' := fun h => (hpieces p hp).2.2 (h ▸ hx)
      simpa using this
  -- the rest of the line is empty or starts with its newline
  have hstart : ∀ x ∈ ((if ent.stack ≠ "" ∧ c.stacktraceKey ≠ "" then '\n' :: ent.stack.data
      else []) ++ c.lineEnding.data).head?, x = '\n' := by
    split
    · simp
    · simpa using hend
  have hrest : ∀ rest : List Char, (∀ x ∈ rest.head?, x = '\n') →
      rest.takeWhile (· != '\n') = [] ∧ rest.dropWhile (· != '\n') = rest := by
    intro rest hr
    cases rest with
    | nil => exact ⟨rfl, rfl⟩
    | cons x xs => simp [hr x rfl]
  have hnonempty : c.pieces ent context ≠ [] := by simp [ConsoleConfig.pieces]
  rw [encodeEntry_eq c ent context hmsg (fun p hp => (hpieces p hp).1), hsep, List.append_assoc,
    List.takeWhile_append_of_pos hnl, List.dropWhile_append_of_pos hnl, (hrest _ hstart).1,
    (hrest _ hstart).2, List.append_nil,
    List.splitOn_intercalate _ s (fun p hp => (hpieces p hp).2.1) hnonempty]
  exact ⟨rfl, rfl⟩

/-- A development line from `NewConsoleEncoder` with no separator and no line ending: the time,
the level, the logger's name, the short caller, the message and the context, separated by tabs,
then `DefaultLineEnding`. -/
theorem encodeEntry_splitOn_development :
    let c : ConsoleConfig := newConsoleEncoder ⟨"T", "L", "N", "C", "", "M", "S", "", false, "",
      some fun t => [toString t], some fun l => [l.toString], none, some .short⟩
    let ent : ConsoleEntry :=
      ⟨infoLevel, 5, "app", "hello", ⟨true, "/go/zap/logger.go", 42⟩, "", ""⟩
    c.consoleSeparator.data = ['\t'] ∧ '\t' ≠ '\n' ∧ c.messageKey ≠ "" ∧
    (∀ x ∈ c.lineEnding.data.head?, x = '\n') ∧
    (∀ p ∈ c.pieces ent "k: v".data, p ≠ [] ∧ '\t' ∉ p ∧ '\n' ∉ p) ∧
    (((c.encodeEntry ent "k: v".data).takeWhile (· != '\n')).splitOn '\t' =
        c.pieces ent "k: v".data ∧
      (c.encodeEntry ent "k: v".data).dropWhile (· != '\n') =
        (if ent.stack ≠ "" ∧ c.stacktraceKey ≠ "" then '\n' :: ent.stack.data else []) ++
          c.lineEnding.data) :=
  ⟨by decide, by decide, by decide, by decide, by decide,
    encodeEntry_splitOn _ _ _ (by decide) (by decide) (by decide) (by decide) (by decide)⟩

/-- The line of `encodeEntry_splitOn_development` ends with `DefaultLineEnding`. -/
example : (newConsoleEncoder ⟨"T", "L", "N", "C", "", "M", "S", "", false, "",
      some fun t => [toString t], some fun l => [l.toString], none, some .short⟩).encodeEntry
      ⟨infoLevel, 5, "app", "hello", ⟨true, "/go/zap/logger.go", 42⟩, "", ""⟩ "k: v".data =
    "5\tinfo\tapp\tzap/logger.go:42\thello\t{k: v}\n".data := by
  decide

end ReadGoCode.Zapcore
