import ReadGoCode.Zapcore.Check

/-!
# Deriving cores with `With`

`With` keeps every core's enabler by reference and rebuilds the wrappers around the wrapped
core's `With`; `NewLazyWith` answers `Enabled` from the core it wraps and checks through that
core's `With`. So a derived core enables the same levels as the core it came from and
accepts an entry on a nil handle exactly when that core does, whatever the `AtomicLevel`s
hold at the time. `derive_run_agrees` carries this over every run that interleaves `With`,
`NewLazyWith` and `SetLevel`, with the `initOnce` each `With` leaves behind.
-/

namespace ReadGoCode.Zapcore

namespace Core

/-! ## Chains of `With` calls -/

mutual
/-- `With` keeps the levels a core enables. -/
theorem enabled_withChain (σ : Atomics) :
    ∀ (c : Core) (fss : List (List Field)) (l : Level),
      (c.withChain fss).enabled σ l = c.enabled σ l
  | nop, _, _ => rfl
  | io _ _ _, _, _ => rfl
  | multi cs, fss, l => enabledAny_withChainList σ cs fss l
  | levelFilter _ _, _, _ => rfl
  | hooked core _, fss, l => enabled_withChain σ core fss l
  | lazyWith _ _ _, [], _ => rfl
  | lazyWith core _ _, _ :: _, l => enabled_withChain σ core _ l
  | observer _ _ _, _, _ => rfl

/-- `With` keeps the levels the children enable. -/
theorem enabledAny_withChainList (σ : Atomics) :
    ∀ (cs : List Core) (fss : List (List Field)) (l : Level),
      enabledAny σ (withChainList cs fss) l = enabledAny σ cs l
  | [], _, _ => rfl
  | c :: cs, fss, l => by
      simp only [withChainList, enabledAny, enabled_withChain σ c,
        enabledAny_withChainList σ cs]
end

mutual
/-- Two chains of `With` calls in a row are one chain. -/
theorem withChain_withChain :
    ∀ (c : Core) (fss gss : List (List Field)),
      (c.withChain fss).withChain gss = c.withChain (fss ++ gss)
  | nop, _, _ => rfl
  | io _ _ _, _, _ => by simp [withChain, List.foldl_append]
  | multi cs, fss, gss => by simp [withChain, withChainList_withChainList cs]
  | levelFilter core _, fss, gss => by simp [withChain, withChain_withChain core]
  | hooked core _, fss, gss => by simp [withChain, withChain_withChain core]
  | lazyWith _ _ _, [], _ => rfl
  | lazyWith core _ done, _ :: _, gss => by
      cases done <;> simp [withChain, withChain_withChain core]
  | observer _ _ _, _, _ => by simp [withChain, List.foldl_append]

/-- Two rounds of `With` on the children are one round with both field lists. -/
theorem withChainList_withChainList :
    ∀ (cs : List Core) (fss gss : List (List Field)),
      withChainList (withChainList cs fss) gss = withChainList cs (fss ++ gss)
  | [], _, _ => rfl
  | c :: cs, fss, gss => by
      simp [withChainList, withChain_withChain c, withChainList_withChainList cs]
end

mutual
/-- `Check` on a core derived by a chain of `With` calls is `Check` along the longer
chain. -/
theorem checkChain_withChain (σ : Atomics) :
    ∀ (c : Core) (fss gss : List (List Field)) (ent : Entry) (ce : Option CheckedEntry),
      (c.withChain fss).checkChain σ gss ent ce = c.checkChain σ (fss ++ gss) ent ce
  | nop, _, _, _, _ => rfl
  | io _ _ _, _, _, _, _ => by simp [withChain, checkChain, List.foldl_append]
  | multi cs, fss, gss, ent, ce => checkChainList_withChainList σ cs fss gss ent ce
  | levelFilter core _, fss, gss, ent, ce => by
      simp [withChain, checkChain, checkChain_withChain σ core]
  | hooked core _, fss, gss, ent, ce => by
      simp [withChain, checkChain, checkChain_withChain σ core, withChain_withChain core]
  | lazyWith _ _ _, [], _, _, _ => rfl
  | lazyWith core _ done, _ :: _, gss, ent, ce => by
      cases done <;> simp [withChain, checkChain, checkChain_withChain σ core]
  | observer _ _ _, _, _, _, _ => by simp [withChain, checkChain, List.foldl_append]

/-- Checking the children after `With` is checking them with the fields pending. -/
theorem checkChainList_withChainList (σ : Atomics) :
    ∀ (cs : List Core) (fss gss : List (List Field)) (ent : Entry) (ce : Option CheckedEntry),
      checkChainList σ (withChainList cs fss) gss ent ce = checkChainList σ cs (fss ++ gss) ent ce
  | [], _, _, _, _ => rfl
  | c :: cs, fss, gss, ent, ce => by
      simp only [withChainList, checkChainList, checkChain_withChain σ c,
        checkChainList_withChainList σ cs]
end

/-- `Check` on `c.With(fields)`. -/
theorem check_withFields (σ : Atomics) (c : Core) (fields : List Field) (ent : Entry)
    (ce : Option CheckedEntry) :
    (c.withFields fields).check σ ent ce = c.checkChain σ [fields] ent ce :=
  checkChain_withChain σ c [fields] [] ent ce

mutual
/-- The cores `Check` appends on a derived core are those along the longer chain. -/
theorem acceptedChain_withChain (σ : Atomics) :
    ∀ (c : Core) (fss gss : List (List Field)) (ent : Entry) (b : Bool),
      (c.withChain fss).acceptedChain σ gss ent b = c.acceptedChain σ (fss ++ gss) ent b
  | nop, _, _, _, _ => rfl
  | io _ _ _, _, _, _, _ => by simp [withChain, acceptedChain, List.foldl_append]
  | multi cs, fss, gss, ent, b => acceptedChainList_withChainList σ cs fss gss ent b
  | levelFilter core _, fss, gss, ent, b => by
      simp [withChain, acceptedChain, acceptedChain_withChain σ core]
  | hooked core _, fss, gss, ent, b => by
      simp only [withChain, acceptedChain]
      rw [acceptedChain_withChain σ core fss gss ent b, withChain_withChain core]
  | lazyWith _ _ _, [], _, _, _ => rfl
  | lazyWith core _ done, _ :: _, gss, ent, b => by
      cases done <;> simp [withChain, acceptedChain, acceptedChain_withChain σ core]
  | observer _ _ _, _, _, _, _ => by simp [withChain, acceptedChain, List.foldl_append]

/-- The children accept after `With` as they accept with the fields pending. -/
theorem acceptedChainList_withChainList (σ : Atomics) :
    ∀ (cs : List Core) (fss gss : List (List Field)) (ent : Entry) (b : Bool),
      acceptedChainList σ (withChainList cs fss) gss ent b =
        acceptedChainList σ cs (fss ++ gss) ent b
  | [], _, _, _, _ => rfl
  | c :: cs, fss, gss, ent, b => by
      simp only [withChainList, acceptedChainList, acceptedChain_withChain σ c,
        acceptedChainList_withChainList σ cs]
end

/-- A concatenation is empty exactly when both parts are. -/
theorem isEmpty_append {α : Type} (l₁ l₂ : List α) :
    (l₁ ++ l₂).isEmpty = (l₁.isEmpty && l₂.isEmpty) := by
  cases l₁ <;> rfl

/-- Mapping keeps a list empty or not. -/
theorem isEmpty_map {α β : Type} (f : α → β) (l : List α) : (l.map f).isEmpty = l.isEmpty := by
  cases l <;> rfl

/-- The `hooked` step of `acceptedChain` appends something exactly when its core did or the
handle was non-nil. -/
theorem isEmpty_hookedStep {a a' : List Core} (h : a.isEmpty = a'.isEmpty) (b : Bool)
    (x x' : Core) :
    (if b || !a.isEmpty then a ++ [x] else []).isEmpty =
      (if b || !a'.isEmpty then a' ++ [x'] else []).isEmpty := by
  rw [h]
  split <;> simp [isEmpty_append]

mutual
/-- A longer chain of `With` calls derives every appended core further: the cores appended
along `fss ++ gss` are those along `fss`, each derived by `gss`. -/
theorem acceptedChain_append (σ : Atomics) :
    ∀ (c : Core) (fss gss : List (List Field)) (ent : Entry) (b : Bool),
      c.acceptedChain σ (fss ++ gss) ent b =
        (c.acceptedChain σ fss ent b).map (·.withChain gss)
  | nop, _, _, _, _ => rfl
  | io enab _ _, _, _, ent, _ => by
      by_cases h : enab.enabled σ ent.level <;> simp [acceptedChain, h, withChain_withChain]
  | multi cs, fss, gss, ent, b => acceptedChainList_append σ cs fss gss ent b
  | levelFilter core level, fss, gss, ent, b => by
      by_cases h : level.enabled σ ent.level <;>
        simp [acceptedChain, h, acceptedChain_append σ core]
  | hooked core _, fss, gss, ent, b => by
      simp only [acceptedChain, acceptedChain_append σ core fss gss ent b]
      cases core.acceptedChain σ fss ent b <;> cases b <;> simp [withChain_withChain]
  | lazyWith core _ done, fss, gss, ent, b => by
      cases done
      · exact acceptedChain_append σ core (_ :: fss) gss ent b
      · exact acceptedChain_append σ core fss gss ent b
  | observer enab _ _, _, _, ent, _ => by
      by_cases h : enab.enabled σ ent.level <;> simp [acceptedChain, h, withChain_withChain]

/-- The children accepted with more pending fields are those accepted before, each with the new
fields. -/
theorem acceptedChainList_append (σ : Atomics) :
    ∀ (cs : List Core) (fss gss : List (List Field)) (ent : Entry) (b : Bool),
      acceptedChainList σ cs (fss ++ gss) ent b =
        (acceptedChainList σ cs fss ent b).map (·.withChain gss)
  | [], _, _, _, _ => rfl
  | c :: cs, fss, gss, ent, b => by
      simp only [acceptedChainList, acceptedChain_append σ c fss gss ent b, isEmpty_map,
        List.map_append, acceptedChainList_append σ cs]
end

/-- Whether `Check(e, ce)` appends anything does not depend on the `With` calls before it. -/
theorem isEmpty_acceptedChain (σ : Atomics) (c : Core) (fss : List (List Field)) (ent : Entry)
    (b : Bool) : (c.acceptedChain σ fss ent b).isEmpty = (c.accepted σ ent b).isEmpty := by
  have := acceptedChain_append σ c [] fss ent b
  simp only [List.nil_append] at this
  rw [this, accepted, isEmpty_map]

/-- Whether `Check(e, nil)` is non-nil does not depend on the `With` calls before it. -/
theorem isSome_checkChain_none (σ : Atomics) (c : Core) (fss : List (List Field))
    (ent : Entry) : (c.checkChain σ fss ent none).isSome = (c.check σ ent none).isSome := by
  simp only [check_eq_addCores, checkChain_eq_addCores, CheckedEntry.isSome_addCores,
    isEmpty_acceptedChain]

/-! ## What `initOnce` leaves behind -/

mutual
/-- A core enables the same levels after `With` is called on it. -/
theorem enabled_afterWith (σ : Atomics) :
    ∀ (c : Core) (l : Level), c.afterWith.enabled σ l = c.enabled σ l
  | nop, _ => rfl
  | io _ _ _, _ => rfl
  | multi cs, l => enabledAny_afterWithList σ cs l
  | levelFilter _ _, _ => rfl
  | hooked core _, l => enabled_afterWith σ core l
  | lazyWith core fields done, l => by
      cases done
      · exact enabled_withChain σ core [fields] l
      · exact enabled_afterWith σ core l
  | observer _ _ _, _ => rfl

/-- Children enable the same levels after `With` is called on them. -/
theorem enabledAny_afterWithList (σ : Atomics) :
    ∀ (cs : List Core) (l : Level), enabledAny σ (afterWithList cs) l = enabledAny σ cs l
  | [], _ => rfl
  | c :: cs, l => by
      simp only [afterWithList, enabledAny, enabled_afterWith σ c, enabledAny_afterWithList σ cs]
end

mutual
/-- The `initOnce` a `With` call runs does not change whether a later `Check` appends
anything. -/
theorem isEmpty_acceptedChain_afterWith (σ : Atomics) :
    ∀ (c : Core) (fss : List (List Field)) (ent : Entry) (b : Bool),
      (c.afterWith.acceptedChain σ fss ent b).isEmpty = (c.acceptedChain σ fss ent b).isEmpty
  | nop, _, _, _ => rfl
  | io _ _ _, _, _, _ => rfl
  | multi cs, fss, ent, b => isEmpty_acceptedChainList_afterWithList σ cs fss ent b
  | levelFilter core level, fss, ent, b => by
      by_cases h : level.enabled σ ent.level <;>
        simp [afterWith, acceptedChain, h, isEmpty_acceptedChain_afterWith σ core]
  | hooked core _, fss, ent, b =>
      isEmpty_hookedStep (isEmpty_acceptedChain_afterWith σ core fss ent b) b _ _
  | lazyWith core fields done, fss, ent, b => by
      cases done
      · simp only [afterWith, acceptedChain, withFields, acceptedChain_withChain σ core,
          if_true, Bool.false_eq_true, if_false, List.singleton_append]
      · exact isEmpty_acceptedChain_afterWith σ core fss ent b
  | observer _ _ _, _, _, _ => rfl

/-- Children accept an entry after `With` exactly when they did before. -/
theorem isEmpty_acceptedChainList_afterWithList (σ : Atomics) :
    ∀ (cs : List Core) (fss : List (List Field)) (ent : Entry) (b : Bool),
      (acceptedChainList σ (afterWithList cs) fss ent b).isEmpty =
        (acceptedChainList σ cs fss ent b).isEmpty
  | [], _, _, _ => rfl
  | c :: cs, fss, ent, b => by
      have hc := isEmpty_acceptedChain_afterWith σ c fss ent b
      simp only [afterWithList, acceptedChainList, isEmpty_append, hc,
        isEmpty_acceptedChainList_afterWithList σ cs]
end

/-! ## Agreement of derived cores -/

/-- `d` agrees with `c` in every state of the `AtomicLevel`s: both enable the same levels,
and `Check(e, nil)` is nil on `d` exactly when it is on `c`. -/
def Agrees (c d : Core) : Prop :=
  ∀ σ : Atomics, (∀ l, d.enabled σ l = c.enabled σ l) ∧
    ∀ ent, (d.check σ ent none).isSome = (c.check σ ent none).isSome

/-- Every core agrees with itself. -/
theorem Agrees.refl (c : Core) : Agrees c c := fun _ => ⟨fun _ => rfl, fun _ => rfl⟩

/-- Agreement composes. -/
theorem Agrees.trans {c d e : Core} (hcd : Agrees c d) (hde : Agrees d e) : Agrees c e :=
  fun σ => ⟨fun l => ((hde σ).1 l).trans ((hcd σ).1 l),
    fun ent => ((hde σ).2 ent).trans ((hcd σ).2 ent)⟩

/-- A core agrees with every core `With` derives from it. -/
theorem agrees_withFields (c : Core) (fields : List Field) : Agrees c (c.withFields fields) :=
  fun σ => ⟨enabled_withChain σ c [fields], fun ent => by
    rw [check_withFields, isSome_checkChain_none]⟩

/-- A core agrees with `NewLazyWith` of it. -/
theorem agrees_newLazyWith (c : Core) (fields : List Field) :
    Agrees c (newLazyWith c fields) :=
  fun σ => ⟨fun _ => rfl, fun ent => isSome_checkChain_none σ c [fields] ent⟩

/-- A core agrees with itself as `With` leaves it. -/
theorem agrees_afterWith (c : Core) : Agrees c c.afterWith :=
  fun σ => ⟨enabled_afterWith σ c, fun ent => by
    simp only [check_eq_addCores, CheckedEntry.isSome_addCores, accepted,
      isEmpty_acceptedChain_afterWith]⟩

end Core

/-! ## Runs of `With`, `NewLazyWith` and `SetLevel` -/

/-- A step of a program that derives loggers from a root core and moves levels. -/
inductive DeriveOp where
  /-- `cores[i].With(fields)`. -/
  | withFields (i : Nat) (fields : List Field)
  /-- `NewLazyWith(cores[i], fields)`, as `Logger.WithLazy` does. -/
  | lazyWith (i : Nat) (fields : List Field)
  /-- `SetLevel(l)` on the `AtomicLevel` `ref`. -/
  | setLevel (ref : Nat) (l : Level)

/-- The `AtomicLevel`s and every core derived so far, the root first. -/
structure DeriveState where
  atomics : Atomics
  cores : List Core

namespace DeriveState

/-- One step. A `With` call also leaves its receiver after `initOnce`. -/
def step (s : DeriveState) : DeriveOp → DeriveState
  | .withFields i fields =>
      match s.cores[i]? with
      | some d => ⟨s.atomics, s.cores.set i d.afterWith ++ [d.withFields fields]⟩
      | none => s
  | .lazyWith i fields =>
      match s.cores[i]? with
      | some d => ⟨s.atomics, s.cores ++ [newLazyWith d fields]⟩
      | none => s
  | .setLevel ref l => ⟨setLevel s.atomics ref l, s.cores⟩

/-- A run of steps. -/
def run (s : DeriveState) (ops : List DeriveOp) : DeriveState := ops.foldl step s

/-- Every core of the state agrees with `c`. -/
def AllAgree (c : Core) (s : DeriveState) : Prop := ∀ d ∈ s.cores, Core.Agrees c d

/-- One derivation keeps every core in agreement with `c`. -/
theorem step_allAgree {c : Core} {s : DeriveState} (h : AllAgree c s) (op : DeriveOp) :
    AllAgree c (s.step op) := by
  cases op with
  | withFields i fields =>
      simp only [step]
      cases hi : s.cores[i]? with
      | none => exact h
      | some d =>
          have hd := h d (List.getElem?_mem hi)
          intro x hx
          rcases List.mem_append.1 hx with hx | hx
          · rcases List.mem_or_eq_of_mem_set hx with hx | rfl
            · exact h x hx
            · exact hd.trans (Core.agrees_afterWith d)
          · rw [List.mem_singleton.1 hx]
            exact hd.trans (Core.agrees_withFields d fields)
  | lazyWith i fields =>
      simp only [step]
      cases hi : s.cores[i]? with
      | none => exact h
      | some d =>
          intro x hx
          rcases List.mem_append.1 hx with hx | hx
          · exact h x hx
          · rw [List.mem_singleton.1 hx]
            exact (h d (List.getElem?_mem hi)).trans (Core.agrees_newLazyWith d fields)
  | setLevel ref l => exact h

/-- Every run of derivations keeps every core in agreement with `c`. -/
theorem run_allAgree {c : Core} {s : DeriveState} (h : AllAgree c s) (ops : List DeriveOp) :
    AllAgree c (s.run ops) := by
  induction ops generalizing s with
  | nil => exact h
  | cons op ops ih => exact ih (step_allAgree h op)

end DeriveState

/-- Start from a root core `c` and any `AtomicLevel` values, and run any interleaving of
`With` and `NewLazyWith` (on the root or any derived core) with `SetLevel`. In the final
state every derived core enables the same levels as `c` and accepts an entry on a nil
handle exactly when `c` does. -/
theorem derive_run_agrees (c : Core) (σ : Atomics) (ops : List DeriveOp) :
    let s := (DeriveState.mk σ [c]).run ops
    ∀ d ∈ s.cores, (∀ l, d.enabled s.atomics l = c.enabled s.atomics l) ∧
      ∀ ent, (d.check s.atomics ent none = none ↔ c.check s.atomics ent none = none) := by
  intro s d hd
  have hroot : DeriveState.AllAgree c ⟨σ, [c]⟩ := by
    intro d hd
    rw [List.mem_singleton.1 hd]
    exact Core.Agrees.refl c
  have hagree := DeriveState.run_allAgree hroot ops d hd s.atomics
  refine ⟨hagree.1, fun ent => ?_⟩
  rw [← Option.not_isSome_iff_eq_none, ← Option.not_isSome_iff_eq_none, hagree.2 ent]

end ReadGoCode.Zapcore
