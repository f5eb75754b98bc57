import ReadGoCode.Zapcore.Derive

/-!
# `NewIncreaseLevelCore`

`NewIncreaseLevelCore(core, level)` checks the levels `_maxLevel` down to `_minLevel` once,
against the `AtomicLevel` values of that moment, and wraps `core` in a `levelFilterCore`
whose `Enabled` asks `level` alone. So the filter narrows what `core` enables at the levels
and in the state construction looked at (`newIncreaseLevelCore_narrows`), and its `Check`
only ever hands an entry on to `core.Check` or drops it. Below `DebugLevel`, above
`FatalLevel`, and after a `SetLevel` that raises `core`'s level, `Enabled` reports `level`'s
answer although `core` disables the level (`newIncreaseLevelCore_widens`).
-/

namespace ReadGoCode.Zapcore

/-- The loop of `NewIncreaseLevelCore` finds no level to complain about exactly when `level`
enables no level of `_minLevel`…`_maxLevel` that `core` disables. -/
theorem newIncreaseLevelCore_ok {σ : Atomics} {c r : Core} {level : LevelEnabler}
    (h : newIncreaseLevelCore σ c level = .ok r) :
    r = .levelFilter c level ∧
      ∀ l ∈ supportedLevels, level.enabled σ l = true → c.enabled σ l = true := by
  unfold newIncreaseLevelCore at h
  split at h
  · cases h
  · rename_i hfind
    cases h
    refine ⟨rfl, fun l hl hlevel => ?_⟩
    have := List.find?_eq_none.1 hfind l (List.mem_reverse.2 hl)
    simpa [hlevel] using this

/-- When `NewIncreaseLevelCore(c, level)` succeeds, the result enables only levels `c`
enables, among the levels `_minLevel`…`_maxLevel` and in the state it was built in; and in
every later state its `Check` either drops the entry or is `c.Check`. -/
theorem newIncreaseLevelCore_narrows (σ : Atomics) (c r : Core) (level : LevelEnabler)
    (h : newIncreaseLevelCore σ c level = .ok r) :
    (∀ l ∈ supportedLevels, r.enabled σ l = true → c.enabled σ l = true) ∧
      ∀ (σ' : Atomics) (ent : Entry) (ce : Option CheckedEntry),
        r.check σ' ent ce = ce ∨ r.check σ' ent ce = c.check σ' ent ce := by
  obtain ⟨rfl, hnarrow⟩ := newIncreaseLevelCore_ok h
  refine ⟨hnarrow, fun σ' ent ce => ?_⟩
  by_cases hl : level.enabled σ' ent.level
  · exact Or.inr (by simp [Core.check, Core.checkChain, hl])
  · exact Or.inl (by simp [Core.check, Core.checkChain, hl])

/-- `newIncreaseLevelCore_narrows` at an `ioCore` at `InfoLevel` raised to `WarnLevel`. -/
theorem newIncreaseLevelCore_narrows_info_warn :
    let σ : Atomics := fun _ => infoLevel
    let c := newCore ⟨0, []⟩ ⟨0⟩ (.level infoLevel)
    let r := Core.levelFilter c (.level warnLevel)
    newIncreaseLevelCore σ c (.level warnLevel) = .ok r ∧
      (∀ l ∈ supportedLevels, r.enabled σ l = true → c.enabled σ l = true) ∧
      ∀ (σ' : Atomics) (ent : Entry) (ce : Option CheckedEntry),
        r.check σ' ent ce = ce ∨ r.check σ' ent ce = c.check σ' ent ce :=
  ⟨rfl, newIncreaseLevelCore_narrows _ _ _ (.level warnLevel) rfl⟩

/-- Two runs where the filter enables a level its core disables. A core at `DebugLevel`
filtered by `Level(-5)` passes construction, which never looks below `DebugLevel`, and
enables `Level(-3)`. A core on an `AtomicLevel` at `InfoLevel` filtered by `WarnLevel`
passes construction, and after `SetLevel(ErrorLevel)` the filter still enables
`WarnLevel`. -/
theorem newIncreaseLevelCore_widens :
    let σ : Atomics := fun _ => infoLevel
    let debugCore := newCore ⟨0, []⟩ ⟨0⟩ (.level debugLevel)
    let below : LevelEnabler := .level ⟨-5, by decide, by decide⟩
    let atomicCore := newCore ⟨0, []⟩ ⟨0⟩ (.atomic 0)
    newIncreaseLevelCore σ debugCore below = .ok (.levelFilter debugCore below) ∧
      (Core.levelFilter debugCore below).enabled σ ⟨-3, by decide, by decide⟩ = true ∧
      debugCore.enabled σ ⟨-3, by decide, by decide⟩ = false ∧
    newIncreaseLevelCore σ atomicCore (.level warnLevel) =
        .ok (.levelFilter atomicCore (.level warnLevel)) ∧
      (Core.levelFilter atomicCore (.level warnLevel)).enabled
        (setLevel σ 0 errorLevel) warnLevel = true ∧
      atomicCore.enabled (setLevel σ 0 errorLevel) warnLevel = false :=
  ⟨rfl, rfl, rfl, rfl, rfl, rfl⟩

end ReadGoCode.Zapcore
