import Mathlib.Logic.Basic

/-!
# The caller annotation: `FullPath` and `TrimmedPath`

`EntryCaller.FullPath` writes `file:line`. `TrimmedPath`, which `ShortCallerEncoder` writes,
finds the last `/` of the file with `strings.LastIndexByte`, then the last `/` before it, and
keeps what follows, so `package/file:line`. With fewer than two separators it falls back to
`FullPath`. A file is read as its characters: `/` is ASCII, so the slices at its indices are the
same as at the byte indices of the source.

`trimmedPath_spec` gives `TrimmedPath` for every defined caller: the leaf directory and the file
name when the path has two separators or more, and `FullPath` otherwise.
-/

namespace ReadGoCode.Zapcore

/-- The fields of `EntryCaller` that `FullPath` and `TrimmedPath` read. -/
structure EntryCaller where
  defined : Bool
  file : String
  line : Int
deriving DecidableEq

/-- The loop `for i := len(s) - 1; i >= 0; i--` of `strings.LastIndexByte(s, c)`, from `i`
down: the last index below `i` holding `c`, or `-1`. -/
def lastIndexLoop (s : List Char) (c : Char) : Nat → Int
  | 0 => -1
  | i + 1 => if s[i]? = some c then i else lastIndexLoop s c i

/-- `strings.LastIndexByte(s, c)`. -/
def lastIndexByte (s : List Char) (c : Char) : Int := lastIndexLoop s c s.length

/-- `ec.FullPath()`: `AppendInt` writes the line in base 10. -/
def EntryCaller.fullPath (ec : EntryCaller) : String :=
  if !ec.defined then "undefined" else ec.file ++ ":" ++ toString ec.line

/-- `ec.TrimmedPath()`. -/
def EntryCaller.trimmedPath (ec : EntryCaller) : String :=
  if !ec.defined then "undefined"
  else
    let idx := lastIndexByte ec.file.data '/'
    if idx = -1 then ec.fullPath
    else
      let idx := lastIndexByte (ec.file.data.take idx.toNat) '/'
      if idx = -1 then ec.fullPath
      else ⟨ec.file.data.drop (idx.toNat + 1)⟩ ++ ":" ++ toString ec.line

/-- A `CallerEncoder` of the repository. -/
inductive CallerEncoder where
  | full
  | short
deriving DecidableEq

/-- `(*CallerEncoder).UnmarshalText`: `"full"` is `FullCallerEncoder`, anything else
`ShortCallerEncoder`. -/
def CallerEncoder.unmarshalText (text : String) : CallerEncoder :=
  if text = "full" then .full else .short

/-- The text a `CallerEncoder` appends for a caller: `caller.String()`, which is `FullPath`, or
`TrimmedPath`. -/
def CallerEncoder.encode : CallerEncoder → EntryCaller → String
  | .full, caller => caller.fullPath
  | .short, caller => caller.trimmedPath

/-! ## `LastIndexByte` -/

/-- The loop finds nothing below `i` when no index below holds `c`. -/
theorem lastIndexLoop_of_forall (s : List Char) (c : Char) :
    ∀ i, (∀ j < i, s[j]? ≠ some c) → lastIndexLoop s c i = -1
  | 0, _ => rfl
  | i + 1, h => by
      rw [lastIndexLoop, if_neg (h i (by omega))]
      exact lastIndexLoop_of_forall s c i fun j hj => h j (by omega)

/-- The loop finds the last index below `i` holding `c`. -/
theorem lastIndexLoop_of_last (s : List Char) (c : Char) {k : Nat} (hk : s[k]? = some c) :
    ∀ i, k < i → (∀ j, k < j → j < i → s[j]? ≠ some c) → lastIndexLoop s c i = k
  | 0, hlt, _ => absurd hlt (Nat.not_lt_zero k)
  | i + 1, hlt, h => by
      rw [lastIndexLoop]
      by_cases hik : i = k
      · subst hik
        rw [if_pos hk]
      · rw [if_neg (h i (by omega) (by omega))]
        exact lastIndexLoop_of_last s c hk i (by omega) fun j h₁ h₂ => h j h₁ (by omega)

/-- `LastIndexByte` of a byte the text lacks is `-1`. -/
theorem lastIndexByte_of_not_mem {s : List Char} {c : Char} (h : c ∉ s) : lastIndexByte s c = -1 :=
  lastIndexLoop_of_forall s c _ fun _ _ hj => h (List.getElem?_mem hj)

/-- The last `c` of `xs ++ c :: ys`, where `ys` has none, is at `xs.length`. -/
theorem lastIndexByte_append (xs : List Char) {c : Char} {ys : List Char} (h : c ∉ ys) :
    lastIndexByte (xs ++ c :: ys) c = xs.length := by
  have hat : (xs ++ c :: ys)[xs.length]? = some c := by
    rw [List.getElem?_append_right (Nat.le_refl _), Nat.sub_self, List.getElem?_cons_zero]
  refine lastIndexLoop_of_last _ c hat _ (by simp) fun j h₁ _ hj => h ?_
  rw [List.getElem?_append_right (by omega)] at hj
  obtain ⟨m, hm⟩ : ∃ m, j - xs.length = m + 1 := ⟨j - xs.length - 1, by omega⟩
  rw [hm, List.getElem?_cons_succ] at hj
  exact List.getElem?_mem hj

/-! ## `TrimmedPath` -/

section

variable {ec : EntryCaller}

/-- A path with two separators or more keeps its leaf directory and file name. -/
theorem trimmedPath_of_two (hdef : ec.defined = true) {pre dir base : List Char}
    (hfile : ec.file.data = pre ++ '/' :: (dir ++ '/' :: base)) (hdir : '/' ∉ dir)
    (hbase : '/' ∉ base) :
    ec.trimmedPath = ⟨dir ++ '/' :: base⟩ ++ ":" ++ toString ec.line := by
  have hsplit : ec.file.data = (pre ++ '/' :: dir) ++ '/' :: base := by
    rw [hfile, List.append_assoc, List.cons_append]
  have hlen : (pre ++ '/' :: dir).length = pre.length + 1 + dir.length := by
    rw [List.length_append, List.length_cons]
    omega
  have hlast : lastIndexByte ec.file.data '/' = (pre.length + 1 + dir.length : Nat) := by
    rw [hsplit, lastIndexByte_append _ hbase, hlen]
  have htake : ec.file.data.take (pre.length + 1 + dir.length) = pre ++ '/' :: dir := by
    rw [hsplit, List.take_left' hlen]
  have hdrop : ec.file.data.drop (pre.length + 1) = dir ++ '/' :: base := by
    rw [hfile, ← List.singleton_append, ← List.append_assoc,
      List.drop_left' (by rw [List.length_append, List.length_singleton])]
  simp only [EntryCaller.trimmedPath, hdef, Bool.not_true, Bool.false_eq_true, if_false, hlast,
    Int.toNat_ofNat, htake, lastIndexByte_append _ hdir, hdrop]
  rw [if_neg (by omega), if_neg (by omega)]

example : (EntryCaller.mk true "/go/zap/logger.go" 42).trimmedPath = "zap/logger.go:42" := by
  decide

/-- A path with one separator or none is written in full. -/
theorem trimmedPath_of_count_le_one (hdef : ec.defined = true)
    (hcount : ec.file.data.count '/' ≤ 1) : ec.trimmedPath = ec.fullPath := by
  by_cases hmem : '/' ∈ ec.file.data
  · obtain ⟨dir, base, hfile⟩ := List.append_of_mem hmem
    have hcounts : dir.count '/' = 0 ∧ base.count '/' = 0 := by
      rw [hfile, List.count_append, List.count_cons_self] at hcount
      omega
    have hdir : '/' ∉ dir := List.count_eq_zero.mp hcounts.1
    have hbase : '/' ∉ base := List.count_eq_zero.mp hcounts.2
    have htake : ec.file.data.take dir.length = dir := by
      rw [hfile, List.take_left]
    simp only [EntryCaller.trimmedPath, hdef, Bool.not_true, Bool.false_eq_true, if_false, hfile,
      lastIndexByte_append _ hbase, Int.toNat_ofNat, List.take_left, lastIndexByte_of_not_mem hdir]
    simp
  · simp [EntryCaller.trimmedPath, hdef, lastIndexByte_of_not_mem hmem]

end

/-- `TrimmedPath` of every defined caller: with two separators or more in the path, the leaf
directory and the file name followed by the line; with fewer, `FullPath`. -/
theorem trimmedPath_spec (ec : EntryCaller) (hdef : ec.defined = true) :
    (∀ pre dir base, ec.file.data = pre ++ '/' :: (dir ++ '/' :: base) → '/' ∉ dir →
      '/' ∉ base → ec.trimmedPath = ⟨dir ++ '/' :: base⟩ ++ ":" ++ toString ec.line) ∧
    (ec.file.data.count '/' ≤ 1 → ec.trimmedPath = ec.fullPath) :=
  ⟨fun _ _ _ hfile hdir hbase => trimmedPath_of_two hdef hfile hdir hbase,
    trimmedPath_of_count_le_one hdef⟩

/-- The caller `/go/zap/logger.go:42`. -/
theorem trimmedPath_spec_logger :
    (EntryCaller.mk true "/go/zap/logger.go" 42).defined = true ∧
    (∀ pre dir base, "/go/zap/logger.go".data = pre ++ '/' :: (dir ++ '/' :: base) →
      '/' ∉ dir → '/' ∉ base → (EntryCaller.mk true "/go/zap/logger.go" 42).trimmedPath =
        ⟨dir ++ '/' :: base⟩ ++ ":" ++ toString (42 : Int)) ∧
    ("/go/zap/logger.go".data.count '/' ≤ 1 →
      (EntryCaller.mk true "/go/zap/logger.go" 42).trimmedPath =
        (EntryCaller.mk true "/go/zap/logger.go" 42).fullPath) :=
  ⟨rfl, trimmedPath_spec ⟨true, "/go/zap/logger.go", 42⟩ rfl⟩

end ReadGoCode.Zapcore
