import Mathlib.Logic.Basic
import ReadGoCode.Strings

/-!
# Logging levels and level enablers

`zapcore.Level` (an `int8`) with its constants and `Level.Enabled`, the level names that
`Level.UnmarshalText` accepts, the three `LevelEnabler`s of the repository (a static `Level`,
an `AtomicLevel` and a `LevelEnablerFunc`), and `LevelOf` on an enabler.

An `AtomicLevel` is a pointer to a shared `atomic.Int32`. Here it is an index into `Atomics`,
the value of every `AtomicLevel` of the program, so a `SetLevel` through one reference is
seen by every core holding another. `SetLevel` stores `int32(l)` and `Level()` loads
`Level(int8(…))`; the round trip is the identity, so the store holds the `Level` itself.
-/

namespace ReadGoCode.Zapcore

/-- A `Level` is a logging priority, an `int8`: higher levels are more important. -/
structure Level where
  val : Int
  ge_min : -128 ≤ val
  le_max : val ≤ 127
deriving DecidableEq

namespace Level

instance : LE Level := ⟨fun a b => a.val ≤ b.val⟩
instance : LT Level := ⟨fun a b => a.val < b.val⟩
instance (a b : Level) : Decidable (a ≤ b) := inferInstanceAs (Decidable (a.val ≤ b.val))
instance (a b : Level) : Decidable (a < b) := inferInstanceAs (Decidable (a.val < b.val))

/-- Levels compare as their integers. -/
@[simp] theorem le_def {a b : Level} : a ≤ b ↔ a.val ≤ b.val := Iff.rfl
/-- Levels compare strictly as their integers. -/
@[simp] theorem lt_def {a b : Level} : a < b ↔ a.val < b.val := Iff.rfl

/-- A level is its integer. -/
theorem ext_val {a b : Level} (h : a.val = b.val) : a = b := by
  cases a; cases b; cases h; rfl

/-- `Level.Enabled`: `l` enables `lvl` when `lvl >= l`. -/
def enabled (l lvl : Level) : Bool := decide (l ≤ lvl)

/-- A static level enables exactly the levels at or above it. -/
@[simp] theorem enabled_iff {l lvl : Level} : l.enabled lvl = true ↔ l.val ≤ lvl.val := by
  simp [enabled]

end Level

/-- `DebugLevel`. -/
def debugLevel : Level := ⟨-1, by decide, by decide⟩
/-- `InfoLevel`, the zero value. -/
def infoLevel : Level := ⟨0, by decide, by decide⟩
/-- `WarnLevel`. -/
def warnLevel : Level := ⟨1, by decide, by decide⟩
/-- `ErrorLevel`. -/
def errorLevel : Level := ⟨2, by decide, by decide⟩
/-- `DPanicLevel`. -/
def dPanicLevel : Level := ⟨3, by decide, by decide⟩
/-- `PanicLevel`. -/
def panicLevel : Level := ⟨4, by decide, by decide⟩
/-- `FatalLevel`, also `_maxLevel`. -/
def fatalLevel : Level := ⟨5, by decide, by decide⟩
/-- `InvalidLevel = _maxLevel + 1`. -/
def invalidLevel : Level := ⟨6, by decide, by decide⟩

/-- `DebugLevel` is `-1`. -/
@[simp] theorem debugLevel_val : debugLevel.val = -1 := rfl
/-- `InfoLevel` is `0`. -/
@[simp] theorem infoLevel_val : infoLevel.val = 0 := rfl
/-- `WarnLevel` is `1`. -/
@[simp] theorem warnLevel_val : warnLevel.val = 1 := rfl
/-- `ErrorLevel` is `2`. -/
@[simp] theorem errorLevel_val : errorLevel.val = 2 := rfl
/-- `DPanicLevel` is `3`. -/
@[simp] theorem dPanicLevel_val : dPanicLevel.val = 3 := rfl
/-- `PanicLevel` is `4`. -/
@[simp] theorem panicLevel_val : panicLevel.val = 4 := rfl
/-- `FatalLevel` is `5`. -/
@[simp] theorem fatalLevel_val : fatalLevel.val = 5 := rfl
/-- `InvalidLevel` is `6`. -/
@[simp] theorem invalidLevel_val : invalidLevel.val = 6 := rfl

/-- `Level.String`: the lower-case name, or `Level(n)` outside Zap's levels. -/
def Level.toString (l : Level) : String :=
  if l.val = -1 then "debug" else if l.val = 0 then "info" else if l.val = 1 then "warn"
  else if l.val = 2 then "error" else if l.val = 3 then "dpanic" else if l.val = 4 then "panic"
  else if l.val = 5 then "fatal" else "Level(" ++ ToString.toString l.val ++ ")"

/-- The levels `_minLevel`, …, `_maxLevel` in the order the loops of `LevelOf` visit them. -/
def supportedLevels : List Level :=
  [debugLevel, infoLevel, warnLevel, errorLevel, dPanicLevel, panicLevel, fatalLevel]

/-- Zap's levels are those from `DebugLevel` to `FatalLevel`. -/
theorem mem_supportedLevels {l : Level} :
    l ∈ supportedLevels ↔ debugLevel ≤ l ∧ l ≤ fatalLevel := by
  have hval : l ∈ supportedLevels ↔ l.val ∈ supportedLevels.map Level.val :=
    ⟨List.mem_map_of_mem _, fun h => by
      obtain ⟨x, hx, he⟩ := List.mem_map.1 h
      exact Level.ext_val he ▸ hx⟩
  rw [hval]
  simp only [supportedLevels, List.map_cons, List.map_nil, List.mem_cons, List.mem_singleton,
    List.not_mem_nil, or_false, debugLevel_val, infoLevel_val, warnLevel_val, errorLevel_val,
    dPanicLevel_val, panicLevel_val, fatalLevel_val, Level.le_def]
  omega

/-! ## The probe of `LevelOf` -/

/-- The loop `for lvl := _minLevel; lvl <= _maxLevel; lvl++` of `LevelOf`, over the
candidate levels `ls`: the first one `enabled` accepts, or `InvalidLevel`. -/
def probeIn (ls : List Level) (enabled : Level → Bool) : Level :=
  (ls.find? enabled).getD invalidLevel

/-- `LevelOf` for an enabler without a `Level` method. -/
def probe (enabled : Level → Bool) : Level := probeIn supportedLevels enabled

/-- The probe tries the levels in order. -/
theorem probeIn_cons (l : Level) (ls : List Level) (enabled : Level → Bool) :
    probeIn (l :: ls) enabled = if enabled l then l else probeIn ls enabled := by
  by_cases h : enabled l <;> simp [probeIn, List.find?_cons, h]

/-- The probe never answers below the first candidate. -/
theorem le_probeIn {l : Level} {ls : List Level} (hs : (l :: ls).Pairwise (· < ·))
    (hb : ∀ x ∈ l :: ls, x < invalidLevel) (enabled : Level → Bool) :
    l ≤ probeIn (l :: ls) enabled := by
  rw [probeIn_cons]
  split
  · exact Level.le_def.2 (Int.le_refl _)
  · unfold probeIn
    cases hf : ls.find? enabled with
    | none => exact Level.le_def.2 (Int.le_of_lt (hb l (List.mem_cons_self _ _)))
    | some x =>
        exact Level.le_def.2 (Int.le_of_lt
          ((List.pairwise_cons.1 hs).1 x (List.mem_of_find?_eq_some hf)))

/-- Probing a disjunction of two enablers gives the smaller of the two probes: the
`minLvl` update `if lvl < minLvl { minLvl = lvl }` of `multiCore.Level`. -/
theorem probeIn_or {ls : List Level} (hs : ls.Pairwise (· < ·))
    (hb : ∀ x ∈ ls, x < invalidLevel) (f g : Level → Bool) :
    probeIn ls (fun l => f l || g l) =
      if probeIn ls g < probeIn ls f then probeIn ls g else probeIn ls f := by
  induction ls with
  | nil => simp [probeIn]
  | cons l ls ih =>
      have hrest := ih (List.pairwise_cons.1 hs).2 (fun x hx => hb x (List.mem_cons_of_mem _ hx))
      have hf := le_probeIn hs hb f
      have hg := le_probeIn hs hb g
      simp only [probeIn_cons] at hf hg ⊢
      cases hfl : f l <;> cases hgl : g l <;>
        simp only [hfl, hgl, Bool.or_self, Bool.or_true, Bool.true_or, Bool.or_false,
          Bool.false_or, if_true, if_false, Bool.false_eq_true, ite_self] at hf hg ⊢
      · exact hrest
      all_goals
        split
        all_goals first
          | rfl
          | (apply Level.ext_val; simp only [Level.lt_def, Level.le_def] at *; omega)

/-- Zap's levels are listed in increasing order. -/
theorem supportedLevels_pairwise : supportedLevels.Pairwise (· < ·) := by decide

/-- Every level of Zap is below `InvalidLevel`. -/
theorem lt_invalidLevel_of_supported : ∀ l ∈ supportedLevels, l < invalidLevel := by decide

/-- The probe of a disjunction is the lower of the two probes. -/
theorem probe_or (f g : Level → Bool) :
    probe (fun l => f l || g l) = if probe g < probe f then probe g else probe f :=
  probeIn_or supportedLevels_pairwise lt_invalidLevel_of_supported f g

/-- A supported static level probes to itself. -/
theorem probe_enabled_of_supported {l : Level} (h : l ∈ supportedLevels) :
    probe l.enabled = l := by
  simp only [supportedLevels, List.mem_cons, List.mem_singleton, List.not_mem_nil,
    or_false] at h
  rcases h with rfl | rfl | rfl | rfl | rfl | rfl | rfl <;> decide

/-- The probe finds one of Zap's levels or `InvalidLevel`. -/
theorem probe_mem (f : Level → Bool) : probe f ∈ supportedLevels ∨ probe f = invalidLevel := by
  unfold probe probeIn
  cases hf : supportedLevels.find? f with
  | none => exact Or.inr rfl
  | some x => exact Or.inl (List.mem_of_find?_eq_some hf)

/-! ## Level enablers -/

/-- The value of every `AtomicLevel` of the program, by reference. -/
abbrev Atomics := Nat → Level

/-- The `LevelEnabler`s of the repository. -/
inductive LevelEnabler where
  /-- A static `Level`. -/
  | level (l : Level)
  /-- An `AtomicLevel`, by the reference of its `atomic.Int32`. -/
  | atomic (ref : Nat)
  /-- A `LevelEnablerFunc`. -/
  | func (f : Level → Bool)

namespace LevelEnabler

/-- `Enabled`; an `AtomicLevel` answers `lvl.Level().Enabled(l)`. -/
def enabled (σ : Atomics) : LevelEnabler → Level → Bool
  | level l => l.enabled
  | atomic ref => (σ ref).enabled
  | func f => f

/-- `LevelOf(enab)`: an `AtomicLevel` reports its own `Level()`, while `Level` and
`LevelEnablerFunc` have no `Level` method and are probed. -/
def levelOf (σ : Atomics) : LevelEnabler → Level
  | level l => probe l.enabled
  | atomic ref => σ ref
  | func f => probe f

/-- Every `AtomicLevel` the enabler reads holds one of Zap's levels. -/
def Supported (σ : Atomics) : LevelEnabler → Prop
  | atomic ref => σ ref ∈ supportedLevels
  | _ => True

/-- With its atomic level in range, `LevelOf` agrees with the probe. -/
theorem levelOf_eq_probe {σ : Atomics} {e : LevelEnabler} (h : e.Supported σ) :
    e.levelOf σ = probe (e.enabled σ) := by
  cases e with
  | level l => rfl
  | atomic ref => exact (probe_enabled_of_supported h).symm
  | func f => rfl

end LevelEnabler

/-- `AtomicLevel.SetLevel`: the new value is seen through every reference. -/
def setLevel (σ : Atomics) (ref : Nat) (l : Level) : Atomics :=
  fun r => if r = ref then l else σ r

/-- `(*Level).unmarshalText`: the level a name denotes; `""` is `InfoLevel`, to make the
zero value useful. -/
def unmarshalName : String → Option Level
  | "debug" => some debugLevel
  | "info" | "" => some infoLevel
  | "warn" | "warning" => some warnLevel
  | "error" => some errorLevel
  | "dpanic" => some dPanicLevel
  | "panic" => some panicLevel
  | "fatal" => some fatalLevel
  | _ => none

/-- `(*Level).UnmarshalText`: the text as given, then lowered by `bytes.ToLower`, rune by rune
with `unicode.ToLower`. -/
def unmarshalText (lower : Strings.UnicodeLower) (text : String) : Except String Level :=
  match unmarshalName text <|> unmarshalName (Strings.toLower lower text) with
  | some l => .ok l
  | none => .error ("unrecognized level: " ++ text.quote)

/-- Every name `unmarshalText` knows denotes one of Zap's levels. -/
theorem unmarshalName_supported {text : String} {l : Level} (h : unmarshalName text = some l) :
    l ∈ supportedLevels := by
  unfold unmarshalName at h
  split at h <;> first | cases h; decide | cases h

/-- `UnmarshalText` only ever yields one of Zap's levels. -/
theorem unmarshalText_supported {lower : Strings.UnicodeLower} {text : String} {l : Level}
    (h : unmarshalText lower text = .ok l) :
    l ∈ supportedLevels := by
  unfold unmarshalText at h
  split at h
  · rename_i l' hl
    cases h
    cases h1 : unmarshalName text with
    | some x => simp [h1] at hl; exact hl ▸ unmarshalName_supported h1
    | none => simp [h1] at hl; exact unmarshalName_supported hl
  · cases h

/-- `(*AtomicLevel).UnmarshalText` on an allocated `AtomicLevel`: `SetLevel` with the
parsed level, or the parse error with the store unchanged. -/
def AtomicLevel.unmarshalText (lower : Strings.UnicodeLower) (σ : Atomics) (ref : Nat)
    (text : String) : Except String Atomics :=
  match Zapcore.unmarshalText lower text with
  | .ok l => .ok (setLevel σ ref l)
  | .error err => .error err

end ReadGoCode.Zapcore
