import ReadGoCode.Zapcore.Logger

/-!
# `LevelOf` against the probe

`LevelOf` takes the `Level()` shortcut wherever a core or enabler has one, and probes
`Enabled` from `_minLevel` to `_maxLevel` otherwise. The shortcut and the probe differ in
two places. `multiCore.Level` starts its minimum at `_maxLevel`, so a tee whose children
enable none of Zap's levels reports `FatalLevel` where the probe gives `InvalidLevel`; and an
`AtomicLevel` reports its stored value even outside `DebugLevel`…`FatalLevel`, which
`SetLevel` accepts (`levelOf_ne_probe`).

The first never reaches a tree that enables a level: a tee below that reports `FatalLevel`,
which loses the minimum to the child that enables it. When every `AtomicLevel` holds one of
Zap's levels, as it does after any run of `UnmarshalText` calls (`unmarshalTexts_supported`),
`LevelOf` of every core tree is its probe, or `FatalLevel` where the probe is `InvalidLevel`
(`levelOf_eq_probe_or_fatal`), and so is the probe whenever the tree enables one of Zap's
levels (`levelOf_agrees_probe`).
-/

namespace ReadGoCode.Zapcore

/-- The lower of two levels, as `multiCore.Level` keeps it: `if lvl < minLvl { minLvl = lvl }`. -/
def Level.lower (lvl minLvl : Level) : Level := if lvl < minLvl then lvl else minLvl

/-- The lower of two levels is their minimum. -/
theorem Level.lower_val (lvl minLvl : Level) :
    (lvl.lower minLvl).val = min lvl.val minLvl.val := by
  unfold Level.lower
  split <;> rename_i h <;> simp only [Level.lt_def] at h <;> omega

/-- Keeping the lower of three levels does not depend on the grouping. -/
theorem Level.lower_assoc (a b m : Level) : b.lower (a.lower m) = (b.lower a).lower m :=
  Level.ext_val (by simp only [Level.lower_val]; omega)

/-- The lower of two levels is at most the second. -/
theorem Level.lower_le {a m : Level} : a.lower m ≤ m :=
  Level.le_def.2 (by rw [Level.lower_val]; omega)

/-- A level at most the minimum so far is the new minimum. -/
theorem Level.lower_of_le {a m : Level} (h : a ≤ m) : a.lower m = a :=
  Level.ext_val (by rw [Level.lower_val]; rw [Level.le_def] at h; omega)

/-- A level at least the minimum so far leaves it. -/
theorem Level.lower_of_ge {a m : Level} (h : m ≤ a) : a.lower m = m :=
  Level.ext_val (by rw [Level.lower_val]; rw [Level.le_def] at h; omega)

/-- Nothing up to `FatalLevel` loses a minimum to `InvalidLevel`. -/
theorem Level.invalid_lower_of_le_fatal {m : Level} (h : m ≤ fatalLevel) :
    invalidLevel.lower m = m :=
  Level.lower_of_ge (Level.le_def.2 (Int.le_trans h (by decide)))

/-- An `Atomics` state in which every `AtomicLevel` holds one of Zap's levels. -/
def AtomicsSupported (σ : Atomics) : Prop := ∀ ref, σ ref ∈ supportedLevels

/-- When every `AtomicLevel` holds one of Zap's levels, every enabler reports its probe. -/
theorem LevelEnabler.supported_of_atomics {σ : Atomics} (hσ : AtomicsSupported σ)
    (e : LevelEnabler) : e.Supported σ := by
  cases e <;> first | trivial | exact hσ _

/-- `UnmarshalText` keeps every `AtomicLevel` among Zap's levels. -/
theorem AtomicLevel.unmarshalText_keeps_supported {lower : Strings.UnicodeLower} {σ σ' : Atomics}
    {ref : Nat} {text : String} (hσ : AtomicsSupported σ)
    (h : AtomicLevel.unmarshalText lower σ ref text = .ok σ') :
    AtomicsSupported σ' := by
  unfold AtomicLevel.unmarshalText at h
  split at h
  · rename_i l hl
    cases h
    intro r
    unfold setLevel
    split
    · exact unmarshalText_supported hl
    · exact hσ r
  · cases h

/-- A run of `UnmarshalText` calls `(ref, text)`: each parsed level is stored, a text that
does not parse leaves the state as it is. -/
def unmarshalTexts (lower : Strings.UnicodeLower) (σ : Atomics) : List (Nat × String) → Atomics
  | [] => σ
  | (ref, text) :: calls =>
      match AtomicLevel.unmarshalText lower σ ref text with
      | .ok σ' => unmarshalTexts lower σ' calls
      | .error _ => unmarshalTexts lower σ calls

/-- From `NewAtomicLevel()` or `NewAtomicLevelAt` of one of Zap's levels, every run of
`UnmarshalText` keeps every `AtomicLevel` among Zap's levels. -/
theorem unmarshalTexts_supported {lower : Strings.UnicodeLower} {σ : Atomics}
    (hσ : AtomicsSupported σ) : ∀ calls, AtomicsSupported (unmarshalTexts lower σ calls)
  | [] => hσ
  | (ref, text) :: calls => by
      unfold unmarshalTexts
      split
      · rename_i σ' h
        exact unmarshalTexts_supported (AtomicLevel.unmarshalText_keeps_supported hσ h) calls
      · exact unmarshalTexts_supported hσ calls

namespace Core

section Agreement

variable {σ : Atomics}

/-- A level that is the probe, or `FatalLevel` where the probe finds nothing, loses a minimum
from below `FatalLevel` exactly as the probe does. -/
theorem lower_of_probe_or_fatal {l p m : Level}
    (h : l = p ∨ (p = invalidLevel ∧ l = fatalLevel)) (hm : m ≤ fatalLevel) :
    l.lower m = p.lower m := by
  rcases h with rfl | ⟨rfl, rfl⟩
  · rfl
  · rw [Level.lower_of_ge hm, Level.invalid_lower_of_le_fatal hm]

mutual
/-- `LevelOf` of every tree is the probe of its `Enabled`, or `FatalLevel` where the probe finds
none of Zap's levels. -/
theorem levelOf_eq_probe_or_fatal (hσ : AtomicsSupported σ) :
    ∀ c : Core, c.levelOf σ = probe (c.enabled σ) ∨
      (probe (c.enabled σ) = invalidLevel ∧ c.levelOf σ = fatalLevel)
  | nop => .inl rfl
  | io enab _ _ => .inl (LevelEnabler.levelOf_eq_probe (enab.supported_of_atomics hσ))
  | multi cs => by
      have hmulti : multiLevel σ cs fatalLevel = (probe (enabledAny σ cs)).lower fatalLevel :=
        multiLevel_eq_probe hσ cs fatalLevel (by decide)
      rcases probe_mem (enabledAny σ cs) with hmem | hinv
      · exact .inl (hmulti.trans (Level.lower_of_le (mem_supportedLevels.1 hmem).2))
      · exact .inr ⟨hinv, hmulti.trans (by rw [hinv]; rfl)⟩
  | levelFilter _ level => .inl (LevelEnabler.levelOf_eq_probe (level.supported_of_atomics hσ))
  | hooked core _ => levelOf_eq_probe_or_fatal hσ core
  | lazyWith _ _ _ => .inl rfl
  | observer enab _ _ => .inl (LevelEnabler.levelOf_eq_probe (enab.supported_of_atomics hσ))

/-- `multiCore.Level`'s loop from `minLvl` at most `FatalLevel` is the lower of `minLvl` and the
probe of the children's disjunction. -/
theorem multiLevel_eq_probe (hσ : AtomicsSupported σ) :
    ∀ (cs : List Core) (minLvl : Level), minLvl ≤ fatalLevel →
      multiLevel σ cs minLvl = (probe (enabledAny σ cs)).lower minLvl
  | [], _, hm => (Level.invalid_lower_of_le_fatal hm).symm
  | c :: cs, minLvl, hm => by
      have hor : probe (enabledAny σ (c :: cs)) =
          (probe (enabledAny σ cs)).lower (probe (c.enabled σ)) :=
        probe_or (c.enabled σ) (enabledAny σ cs)
      calc multiLevel σ (c :: cs) minLvl
          = multiLevel σ cs ((c.levelOf σ).lower minLvl) := rfl
        _ = (probe (enabledAny σ cs)).lower ((c.levelOf σ).lower minLvl) :=
            multiLevel_eq_probe hσ cs _ (Level.le_def.2 (Int.le_trans Level.lower_le hm))
        _ = (probe (enabledAny σ cs)).lower ((probe (c.enabled σ)).lower minLvl) := by
            rw [lower_of_probe_or_fatal (levelOf_eq_probe_or_fatal hσ c) hm]
        _ = (probe (enabledAny σ (c :: cs))).lower minLvl := by rw [hor, Level.lower_assoc]
end

end Agreement

end Core

/-- Where `LevelOf` and the probe part. `NewTee(NewNopCore(), NewNopCore())` reports
`FatalLevel` although it enables nothing, and an `ioCore` on an `AtomicLevel` set to
`Level(-5)` reports `Level(-5)` where the probe finds `DebugLevel`. -/
theorem levelOf_ne_probe :
    let σ : Atomics := fun _ => ⟨-5, by decide, by decide⟩
    let tee := newTee [newNopCore, newNopCore]
    let atomicCore := newCore ⟨0, []⟩ ⟨0⟩ (.atomic 0)
    tee.levelOf σ = fatalLevel ∧ probe (tee.enabled σ) = invalidLevel ∧
      (atomicCore.levelOf σ).val = -5 ∧ probe (atomicCore.enabled σ) = debugLevel :=
  ⟨rfl, rfl, rfl, rfl⟩

/-- When every `AtomicLevel` holds one of Zap's levels and the tree enables one of them,
`LevelOf` of every core tree, shortcuts included, is the least level of `DebugLevel`…`FatalLevel`
the tree enables; and so is `Logger.Level` of a logger on that tree. -/
theorem levelOf_agrees_probe (σ : Atomics) (c : Core) (hσ : AtomicsSupported σ)
    (hprobe : probe (c.enabled σ) ≠ invalidLevel) :
    c.levelOf σ = probe (c.enabled σ) ∧
      ∀ log : Logger, log.core = c → log.level σ = probe (c.enabled σ) :=
  have h := (Core.levelOf_eq_probe_or_fatal hσ c).resolve_right fun h' => hprobe h'.1
  ⟨h, fun _ hcore => hcore ▸ h⟩

/-- `levelOf_agrees_probe` for a tee of a tee of two `nopCore`s, which reports `FatalLevel`,
and an `ioCore` at `InfoLevel`. -/
theorem levelOf_agrees_probe_tee :
    let σ : Atomics := fun _ => infoLevel
    let tee := newTee [newTee [newNopCore, newNopCore], newCore ⟨0, []⟩ ⟨0⟩ (.level infoLevel)]
    AtomicsSupported σ ∧ probe (tee.enabled σ) ≠ invalidLevel ∧
      (tee.levelOf σ = probe (tee.enabled σ) ∧
        ∀ log : Logger, log.core = tee → log.level σ = probe (tee.enabled σ)) :=
  have hσ : AtomicsSupported (fun _ => infoLevel) := fun _ => show infoLevel ∈ _ by decide
  ⟨hσ, by decide, levelOf_agrees_probe _ _ hσ (by decide)⟩

/-- The inner tee of `levelOf_agrees_probe_tee` reports `FatalLevel`, and the outer one the
probe, `InfoLevel`. -/
example : (newTee [newTee [newNopCore, newNopCore], newCore ⟨0, []⟩ ⟨0⟩ (.level infoLevel)]).levelOf
      (fun _ => infoLevel) = infoLevel ∧
    (newTee [newNopCore, newNopCore]).levelOf (fun _ => infoLevel) = fatalLevel := by
  decide

end ReadGoCode.Zapcore
