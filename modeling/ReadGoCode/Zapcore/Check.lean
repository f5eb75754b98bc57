import ReadGoCode.Zapcore.Core

/-!
# What `Check` adds to a checked entry

`Core.acceptedChain` lists the cores a `Check` call appends, in order, for every core tree
and every incoming handle. `check_eq_addCores` is the law relating it to `Core.checkChain`:
the handle that comes back is the incoming one with exactly those cores appended, and it is
nil only when the incoming handle was nil and nothing was appended.

`hooked.Check` asks whether the handle its core returns is non-nil, not whether its core
added anything. Inside a tee behind a sibling that accepted the entry the handle is already
non-nil, so the `hooked` core registers itself although its own core rejected the entry
(`check_tee_hooked_rejecting_core`).

`check_some_enabled`: whenever `Check(e, nil)` is non-nil the root enables `e.Level`, on
every tree and in every state of its `AtomicLevel`s.
-/

namespace ReadGoCode.Zapcore

namespace CheckedEntry

/-- `AddCore` for each core of a list, in order. -/
def addCores : Option CheckedEntry → Entry → List Core → Option CheckedEntry
  | ce, _, [] => ce
  | ce, ent, c :: cs => addCores (some (addCore ce ent c)) ent cs

/-- Adding no core leaves the handle. -/
@[simp] theorem addCores_nil (ce : Option CheckedEntry) (ent : Entry) :
    addCores ce ent [] = ce := rfl

/-- Adding two lists of cores adds the first, then the second. -/
theorem addCores_append (ce : Option CheckedEntry) (ent : Entry) (xs ys : List Core) :
    addCores ce ent (xs ++ ys) = addCores (addCores ce ent xs) ent ys := by
  induction xs generalizing ce with
  | nil => rfl
  | cons x xs ih => exact ih _

/-- Adding cores to an instance appends them. -/
theorem addCores_some (ce : CheckedEntry) (ent : Entry) (xs : List Core) :
    addCores (some ce) ent xs = some { ce with cores := ce.cores ++ xs } := by
  induction xs generalizing ce with
  | nil => simp
  | cons x xs ih => simp [addCores, ih, List.append_assoc]

/-- Adding cores to a nil handle takes an empty instance with the entry and the cores. -/
theorem addCores_none_cons (ent : Entry) (x : Core) (xs : List Core) :
    addCores none ent (x :: xs) = some { empty with entry := ent, cores := x :: xs } := by
  simp [addCores, addCores_some]

/-- The handle is non-nil when it was, or when some core was added. -/
theorem isSome_addCores (ce : Option CheckedEntry) (ent : Entry) (xs : List Core) :
    (addCores ce ent xs).isSome = (ce.isSome || !xs.isEmpty) := by
  cases xs with
  | nil => simp
  | cons x xs => cases ce <;> simp [addCores_none_cons, addCores_some, addCores]

end CheckedEntry

namespace Core

mutual
/-- The cores `c.checkChain σ fss ent ce` appends, in order, when `incoming` says whether
`ce` is non-nil. -/
def acceptedChain (σ : Atomics) : Core → List (List Field) → Entry → Bool → List Core
  | nop, _, _, _ => []
  | io enab enc out, fss, ent, _ =>
      if enab.enabled σ ent.level then [(io enab enc out).withChain fss] else []
  | multi cs, fss, ent, incoming => acceptedChainList σ cs fss ent incoming
  | levelFilter core level, fss, ent, incoming =>
      if !level.enabled σ ent.level then [] else core.acceptedChain σ fss ent incoming
  | hooked core funcs, fss, ent, incoming =>
      let downstream := core.acceptedChain σ fss ent incoming
      if incoming || !downstream.isEmpty then
        downstream ++ [(hooked core funcs).withChain fss]
      else []
  | lazyWith core fields done, fss, ent, incoming =>
      core.acceptedChain σ (if done then fss else fields :: fss) ent incoming
  | observer enab logs context, fss, ent, _ =>
      if enab.enabled σ ent.level then [(observer enab logs context).withChain fss] else []

/-- `acceptedChain` through the children of a `multiCore`, threading the handle. -/
def acceptedChainList (σ : Atomics) : List Core → List (List Field) → Entry → Bool →
    List Core
  | [], _, _, _ => []
  | c :: cs, fss, ent, incoming =>
      let accepted := c.acceptedChain σ fss ent incoming
      accepted ++ acceptedChainList σ cs fss ent (incoming || !accepted.isEmpty)
end

/-- The cores `Check(ent, ce)` appends. -/
def accepted (σ : Atomics) (c : Core) (ent : Entry) (incoming : Bool) : List Core :=
  c.acceptedChain σ [] ent incoming

open CheckedEntry in
mutual
/-- The law of `Check`: the incoming handle with the accepted cores appended. -/
theorem checkChain_eq_addCores (σ : Atomics) :
    ∀ (c : Core) (fss : List (List Field)) (ent : Entry) (ce : Option CheckedEntry),
      c.checkChain σ fss ent ce = addCores ce ent (c.acceptedChain σ fss ent ce.isSome)
  | nop, _, _, _ => rfl
  | io enab enc out, fss, ent, ce => by
      by_cases h : enab.enabled σ ent.level <;> simp [checkChain, acceptedChain, h, addCores]
  | multi cs, fss, ent, ce => checkChainList_eq_addCores σ cs fss ent ce
  | levelFilter core level, fss, ent, ce => by
      by_cases h : level.enabled σ ent.level <;>
        simp [checkChain, acceptedChain, h, checkChain_eq_addCores σ core]
  | hooked core funcs, fss, ent, ce => by
      have hsome := isSome_addCores ce ent (core.acceptedChain σ fss ent ce.isSome)
      simp only [checkChain, acceptedChain, checkChain_eq_addCores σ core fss ent ce]
      cases hd : addCores ce ent (core.acceptedChain σ fss ent ce.isSome) with
      | none =>
          rw [hd, Option.isSome_none] at hsome
          rw [← hsome]
          rfl
      | some downstream =>
          rw [hd, Option.isSome_some] at hsome
          rw [← hsome, if_pos rfl, addCores_append, hd]
          rfl
  | lazyWith core fields done, fss, ent, ce => checkChain_eq_addCores σ core _ ent ce
  | observer enab logs context, fss, ent, ce => by
      by_cases h : enab.enabled σ ent.level <;> simp [checkChain, acceptedChain, h, addCores]

/-- The law of `Check` through the children of a `multiCore`. -/
theorem checkChainList_eq_addCores (σ : Atomics) :
    ∀ (cs : List Core) (fss : List (List Field)) (ent : Entry) (ce : Option CheckedEntry),
      checkChainList σ cs fss ent ce = addCores ce ent (acceptedChainList σ cs fss ent ce.isSome)
  | [], _, _, _ => rfl
  | c :: cs, fss, ent, ce => by
      simp only [checkChainList, acceptedChainList, addCores_append,
        checkChain_eq_addCores σ c fss ent ce, checkChainList_eq_addCores σ cs, isSome_addCores]
end

/-- `Check(ent, ce)` returns `ce` with `accepted` appended: the same handle when `ce` is
non-nil, and nil exactly when `ce` is nil and no core accepted. -/
theorem check_eq_addCores (σ : Atomics) (c : Core) (ent : Entry) (ce : Option CheckedEntry) :
    c.check σ ent ce = CheckedEntry.addCores ce ent (c.accepted σ ent ce.isSome) :=
  checkChain_eq_addCores σ c [] ent ce

/-! ## A `hooked` core behind an accepting sibling -/

/-- In `NewTee(accepting, RegisterHooks(rejecting, hook))` at `InfoLevel`, the `hooked` core
is registered on the entry although its own core rejects it: `hooked.Check` sees the
sibling's non-nil handle. -/
theorem check_tee_hooked_rejecting_core :
    let σ : Atomics := fun _ => infoLevel
    let accepting := newCore ⟨0, []⟩ ⟨0⟩ (.level infoLevel)
    let rejecting := newCore ⟨0, []⟩ ⟨1⟩ (.level errorLevel)
    let withHooks := registerHooks rejecting [⟨0⟩]
    let ent : Entry := ⟨infoLevel, 0, "", "", ⟨false, "", 0⟩, ""⟩
    rejecting.check σ ent none = none ∧
      ((newTee [accepting, withHooks]).check σ ent none).map CheckedEntry.cores =
        some [accepting, withHooks] :=
  ⟨rfl, rfl⟩

/-! ## `Check` implies `Enabled` -/

mutual
/-- A core that accepts an entry on a nil handle enables the entry's level. -/
theorem enabled_of_acceptedChain (σ : Atomics) :
    ∀ (c : Core) (fss : List (List Field)) (ent : Entry),
      c.acceptedChain σ fss ent false ≠ [] → c.enabled σ ent.level = true
  | nop, _, _, h => absurd rfl h
  | io enab enc out, fss, ent, h => by
      simp only [acceptedChain] at h
      split at h
      · assumption
      · exact absurd rfl h
  | multi cs, fss, ent, h => enabledAny_of_acceptedChainList σ cs fss ent h
  | levelFilter core level, fss, ent, h => by
      simp only [acceptedChain] at h
      split at h
      · exact absurd rfl h
      · rename_i hl
        simpa [enabled] using hl
  | hooked core funcs, fss, ent, h => by
      simp only [acceptedChain, Bool.false_or] at h
      split at h
      · rename_i hd
        exact enabled_of_acceptedChain σ core fss ent (by simpa using hd)
      · exact absurd rfl h
  | lazyWith core fields done, fss, ent, h => enabled_of_acceptedChain σ core _ ent h
  | observer enab logs context, fss, ent, h => by
      simp only [acceptedChain] at h
      split at h
      · assumption
      · exact absurd rfl h

/-- Some child of a `multiCore` that accepts on a nil handle enables the level. -/
theorem enabledAny_of_acceptedChainList (σ : Atomics) :
    ∀ (cs : List Core) (fss : List (List Field)) (ent : Entry),
      acceptedChainList σ cs fss ent false ≠ [] → enabledAny σ cs ent.level = true
  | [], _, _, h => absurd rfl h
  | c :: cs, fss, ent, h => by
      simp only [acceptedChainList, Bool.false_or] at h
      simp only [enabledAny, Bool.or_eq_true]
      by_cases ha : c.acceptedChain σ fss ent false = []
      · rw [ha] at h
        exact Or.inr (enabledAny_of_acceptedChainList σ cs fss ent (by simpa using h))
      · exact Or.inl (enabled_of_acceptedChain σ c fss ent ha)
end

/-- Whenever `Check(e, nil)` is non-nil, the core enables `e.Level`, on every core tree and
in every state of its `AtomicLevel`s. -/
theorem check_some_enabled (σ : Atomics) (c : Core) (ent : Entry)
    (h : (c.check σ ent none).isSome) : c.enabled σ ent.level = true := by
  rw [check_eq_addCores, CheckedEntry.isSome_addCores] at h
  exact enabled_of_acceptedChain σ c [] ent (by simpa using h)

/-- `check_some_enabled` at an `ioCore` at `InfoLevel` and an `InfoLevel` entry. -/
theorem check_some_enabled_info :
    ((newCore ⟨0, []⟩ ⟨0⟩ (.level infoLevel)).check (fun _ => infoLevel)
        ⟨infoLevel, 0, "", "", ⟨false, "", 0⟩, ""⟩ none).isSome ∧
      (newCore ⟨0, []⟩ ⟨0⟩ (.level infoLevel)).enabled (fun _ => infoLevel) infoLevel = true :=
  ⟨rfl, check_some_enabled _ _ ⟨infoLevel, 0, "", "", ⟨false, "", 0⟩, ""⟩ rfl⟩

end Core

end ReadGoCode.Zapcore
