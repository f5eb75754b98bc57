import ReadGoCode.Zapcore.Level
import ReadGoCode.Zapcore.Caller

/-!
# Cores and checked entries

The `Core` implementations of the repository as one syntax tree: `nopCore`, `ioCore`,
`multiCore` (`NewTee`), `levelFilterCore` (`NewIncreaseLevelCore`), `hooked`
(`RegisterHooks`), `lazyWithCore` (`NewLazyWith`) and the observer's `contextObserver`.
A core value is read in a state `σ : Atomics` of the `AtomicLevel`s it references.

`Enabled`, `With`, `Check` and `LevelOf` follow the methods of each implementation. A
`lazyWithCore` holds its current `Core`, its pending `fields` and whether its `sync.Once` has
run: its `Check` is `d.Core.With(d.fields).Check` until then. So that this stays structural,
`With` and `Check` are defined on a chain of pending `With` calls, `withChain` and
`checkChain`; `Core.withFields` and `Core.check` are the chains of length one and zero.

A `CheckedEntry` here is the value of one pooled instance; `AddCore` and `After` on a nil
handle start from `CheckedEntry.empty`, which is what `getCheckedEntry` returns whatever
instance the pool hands out (`reset_eq_empty`). Identities of instances are the subject of
`CheckedEntryPool`.
-/

namespace ReadGoCode.Zapcore

/-- A structured datum (`zapcore.Field`). The core only carries fields to encoders and
observers, so a field is its key and its rendered value. -/
structure Field where
  key : String
  value : String
deriving DecidableEq, Inhabited

/-- `zapcore.Entry`. The annotation of `Logger.check` sets `Caller` and `Stack` before the cores
write the entry. -/
structure Entry where
  level : Level
  time : Nat
  loggerName : String
  message : String
  caller : EntryCaller
  stack : String
deriving DecidableEq

/-- `Entry{}`. -/
def Entry.zero : Entry := ⟨infoLevel, 0, "", "", ⟨false, "", 0⟩, ""⟩

/-- An `Encoder` as a core sees it: the encoder it was built from and the context fields
`addFields` has written into it. `Clone` copies this value, independent of the original as
the `Encoder` contract asks. -/
structure Encoder where
  config : Nat
  context : List Field
deriving DecidableEq

/-- `addFields(enc, fields)`: every field is added to the encoder's context in order. -/
def Encoder.addFields (enc : Encoder) (fields : List Field) : Encoder :=
  { enc with context := enc.context ++ fields }

/-- A `WriteSyncer`, by the sink it writes to. -/
structure WriteSyncer where
  ref : Nat
deriving DecidableEq

/-- One of the `func(Entry) error` callbacks given to `RegisterHooks`. -/
structure HookFunc where
  ref : Nat
deriving DecidableEq

/-- `CheckWriteAction`, in increasing severity. -/
inductive CheckWriteAction where
  | writeThenNoop
  | writeThenGoexit
  | writeThenPanic
  | writeThenFatal
deriving DecidableEq

/-- A `CheckWriteHook`: one of the four actions, or a hook of the user. -/
inductive CheckWriteHook where
  | action (a : CheckWriteAction)
  | custom (ref : Nat)
deriving DecidableEq

/-- The `Core` implementations. -/
inductive Core where
  /-- `nopCore`. -/
  | nop
  /-- `ioCore{LevelEnabler, enc, out}`. -/
  | io (enab : LevelEnabler) (enc : Encoder) (out : WriteSyncer)
  /-- `multiCore`, the tee. -/
  | multi (cores : List Core)
  /-- `levelFilterCore{core, level}`. -/
  | levelFilter (core : Core) (level : LevelEnabler)
  /-- `hooked{Core, funcs}`. -/
  | hooked (core : Core) (funcs : List HookFunc)
  /-- `lazyWithCore{Core, Once, fields}`: `core` is the current `d.Core`, `done` the state of
  the `sync.Once`. -/
  | lazyWith (core : Core) (fields : List Field) (done : Bool)
  /-- `contextObserver{LevelEnabler, logs, context}`, `logs` naming its `ObservedLogs`. -/
  | observer (enab : LevelEnabler) (logs : Nat) (context : List Field)

/-- One pooled `CheckedEntry` instance. -/
structure CheckedEntry where
  entry : Entry
  errorOutput : Option WriteSyncer
  dirty : Bool
  after : Option CheckWriteHook
  cores : List Core

namespace CheckedEntry

/-- What `reset` leaves in an instance. -/
def empty : CheckedEntry := ⟨Entry.zero, none, false, none, []⟩

/-- `(*CheckedEntry).reset`, which `getCheckedEntry` applies to the pooled instance. -/
def reset (ce : CheckedEntry) : CheckedEntry :=
  { ce with entry := Entry.zero, errorOutput := none, dirty := false, after := none, cores := [] }

/-- Whatever instance the pool hands out, `getCheckedEntry` returns the same value. -/
theorem reset_eq_empty (ce : CheckedEntry) : ce.reset = empty := rfl

/-- `(*CheckedEntry).AddCore`: a nil handle first gets an entry from the pool and stores
`ent` in it. -/
def addCore (ce : Option CheckedEntry) (ent : Entry) (core : Core) : CheckedEntry :=
  let ce := ce.getD { empty with entry := ent }
  { ce with cores := ce.cores ++ [core] }

/-- `(*CheckedEntry).After`, nil-tolerant like `AddCore`; the hook replaces any earlier one. -/
def after? (ce : Option CheckedEntry) (ent : Entry) (hook : CheckWriteHook) : CheckedEntry :=
  let ce := ce.getD { empty with entry := ent }
  { ce with after := some hook }

/-- `AddCore` on a nil handle takes an empty instance with the entry and the core. -/
@[simp] theorem addCore_none (ent : Entry) (core : Core) :
    addCore none ent core = { empty with entry := ent, cores := [core] } := rfl

/-- `AddCore` on an instance appends the core. -/
@[simp] theorem addCore_some (ce : CheckedEntry) (ent : Entry) (core : Core) :
    addCore (some ce) ent core = { ce with cores := ce.cores ++ [core] } := rfl

end CheckedEntry

namespace Core

/-! ## `Enabled` -/

mutual
/-- `Enabled`. -/
def enabled (σ : Atomics) : Core → Level → Bool
  | nop, _ => false
  | io enab _ _, l => enab.enabled σ l
  | multi cs, l => enabledAny σ cs l
  | levelFilter _ level, l => level.enabled σ l
  | hooked core _, l => core.enabled σ l
  | lazyWith core _ _, l => core.enabled σ l
  | observer enab _ _, l => enab.enabled σ l

/-- The loop of `multiCore.Enabled`: true at the first child that enables `l`. -/
def enabledAny (σ : Atomics) : List Core → Level → Bool
  | [], _ => false
  | c :: cs, l => c.enabled σ l || enabledAny σ cs l
end

/-! ## `With` -/

mutual
/-- `c.withChain [fs₁, …, fsₙ]` is `c.With(fs₁).With(fs₂)…With(fsₙ)`. `ioCore.With` clones
the encoder and adds the fields to the clone; `contextObserver.With` appends them to its
context; the wrappers rebuild themselves around the wrapped core's `With`. A
`lazyWithCore` first runs `initOnce`, `d.Core = d.Core.With(d.fields)`, then calls
`d.Core.With`. -/
def withChain : Core → List (List Field) → Core
  | nop, _ => nop
  | io enab enc out, fss => io enab (fss.foldl Encoder.addFields enc) out
  | multi cs, fss => multi (withChainList cs fss)
  | levelFilter core level, fss => levelFilter (core.withChain fss) level
  | hooked core funcs, fss => hooked (core.withChain fss) funcs
  | lazyWith core fields done, [] => lazyWith core fields done
  | lazyWith core fields done, fs :: fss =>
      core.withChain (if done then fs :: fss else fields :: fs :: fss)
  | observer enab logs context, fss => observer enab logs (fss.foldl (· ++ ·) context)

/-- `multiCore.With`: `clone[i] = mc[i].With(fields)` for every child. -/
def withChainList : List Core → List (List Field) → List Core
  | [], _ => []
  | c :: cs, fss => c.withChain fss :: withChainList cs fss
end

/-- `With(fields)`. -/
def withFields (c : Core) (fields : List Field) : Core := c.withChain [fields]

/-! ## `Check` -/

mutual
/-- `c.checkChain σ fss ent ce` is the `Check(ent, ce)` of `c.withChain fss`. A leaf that
enables the entry's level adds itself with `AddCore`; `multiCore` threads the handle through
its children; `levelFilterCore` asks its own enabler first; `hooked` adds itself whenever the
handle its core returns is non-nil; `lazyWithCore` checks through `d.Core.With(d.fields)`. -/
def checkChain (σ : Atomics) : Core → List (List Field) → Entry → Option CheckedEntry →
    Option CheckedEntry
  | nop, _, _, ce => ce
  | io enab enc out, fss, ent, ce =>
      if enab.enabled σ ent.level then
        some (CheckedEntry.addCore ce ent ((io enab enc out).withChain fss))
      else ce
  | multi cs, fss, ent, ce => checkChainList σ cs fss ent ce
  | levelFilter core level, fss, ent, ce =>
      if !level.enabled σ ent.level then ce else core.checkChain σ fss ent ce
  | hooked core funcs, fss, ent, ce =>
      match core.checkChain σ fss ent ce with
      | some downstream =>
          some (CheckedEntry.addCore (some downstream) ent ((hooked core funcs).withChain fss))
      | none => ce
  | lazyWith core fields done, fss, ent, ce =>
      core.checkChain σ (if done then fss else fields :: fss) ent ce
  | observer enab logs context, fss, ent, ce =>
      if enab.enabled σ ent.level then
        some (CheckedEntry.addCore ce ent ((observer enab logs context).withChain fss))
      else ce

/-- The loop of `multiCore.Check`: `ce = mc[i].Check(ent, ce)` for every child. -/
def checkChainList (σ : Atomics) : List Core → List (List Field) → Entry →
    Option CheckedEntry → Option CheckedEntry
  | [], _, _, ce => ce
  | c :: cs, fss, ent, ce => checkChainList σ cs fss ent (c.checkChain σ fss ent ce)
end

/-- `Check(ent, ce)`. -/
def check (σ : Atomics) (c : Core) (ent : Entry) (ce : Option CheckedEntry) :
    Option CheckedEntry :=
  c.checkChain σ [] ent ce

/-! ## `LevelOf` -/

mutual
/-- `LevelOf(c)`. `ioCore`, `levelFilterCore` and `contextObserver` report `LevelOf` of their
enabler, `hooked` that of its core and `multiCore` the least over its children; `nopCore`
and `lazyWithCore` have no `Level` method and are probed. -/
def levelOf (σ : Atomics) : Core → Level
  | nop => probe (nop.enabled σ)
  | io enab _ _ => enab.levelOf σ
  | multi cs => multiLevel σ cs fatalLevel
  | levelFilter _ level => level.levelOf σ
  | hooked core _ => core.levelOf σ
  | lazyWith core fields done => probe ((lazyWith core fields done).enabled σ)
  | observer enab _ _ => enab.levelOf σ

/-- `multiCore.Level`: `minLvl := _maxLevel`, lowered to each child's `LevelOf` below it. -/
def multiLevel (σ : Atomics) : List Core → Level → Level
  | [], minLvl => minLvl
  | c :: cs, minLvl => multiLevel σ cs (if c.levelOf σ < minLvl then c.levelOf σ else minLvl)
end

/-! ## What `With` and `Check` leave behind

A `lazyWithCore` is a pointer: the `initOnce` a call runs is seen by every later call. -/

mutual
/-- The state a `With` call leaves `c` in: every `lazyWithCore` it reaches has run
`initOnce`. A fresh `d.Core.With(d.fields)` holds no lazy core, so nothing below it
changes. -/
def afterWith : Core → Core
  | multi cs => multi (afterWithList cs)
  | levelFilter core level => levelFilter core.afterWith level
  | hooked core funcs => hooked core.afterWith funcs
  | lazyWith core fields done =>
      if done then lazyWith core.afterWith fields true
      else lazyWith (core.withFields fields) fields true
  | c => c

/-- `afterWith` on every child of a `multiCore`. -/
def afterWithList : List Core → List Core
  | [] => []
  | c :: cs => c.afterWith :: afterWithList cs
end

mutual
/-- The state a `Check(ent, _)` call leaves `c` in. `levelFilterCore` reaches its core only
when its enabler agrees. -/
def afterCheck (σ : Atomics) (ent : Entry) : Core → Core
  | multi cs => multi (afterCheckList σ ent cs)
  | levelFilter core level =>
      if !level.enabled σ ent.level then levelFilter core level
      else levelFilter (core.afterCheck σ ent) level
  | hooked core funcs => hooked (core.afterCheck σ ent) funcs
  | lazyWith core fields done =>
      if done then lazyWith (core.afterCheck σ ent) fields true
      else lazyWith (core.withFields fields) fields true
  | c => c

/-- `afterCheck` on every child of a `multiCore`. -/
def afterCheckList (σ : Atomics) (ent : Entry) : List Core → List Core
  | [] => []
  | c :: cs => c.afterCheck σ ent :: afterCheckList σ ent cs
end

end Core

/-! ## Constructors -/

/-- `NewNopCore()`. -/
def newNopCore : Core := .nop

/-- `NewCore(enc, ws, enab)`. -/
def newCore (enc : Encoder) (ws : WriteSyncer) (enab : LevelEnabler) : Core := .io enab enc ws

/-- `NewTee(cores...)`: no core is the no-op core, one core is returned unchanged. -/
def newTee : List Core → Core
  | [] => newNopCore
  | [c] => c
  | cs => .multi cs

/-- `NewIncreaseLevelCore(core, level)`: from `_maxLevel` down to `_minLevel`, the first level
that `level` enables and `core` does not is reported. -/
def newIncreaseLevelCore (σ : Atomics) (core : Core) (level : LevelEnabler) :
    Except String Core :=
  match supportedLevels.reverse.find? (fun l => !core.enabled σ l && level.enabled σ l) with
  | some l => .error ("invalid increase level, as level " ++ l.toString.quote ++
      " is allowed by increased level, but not by existing core")
  | none => .ok (.levelFilter core level)

/-- `RegisterHooks(core, hooks...)`. -/
def registerHooks (core : Core) (hooks : List HookFunc) : Core := .hooked core hooks

/-- `NewLazyWith(core, fields)`. -/
def newLazyWith (core : Core) (fields : List Field) : Core := .lazyWith core fields false

/-- `observer.New(enab)`, with `logs` the fresh `ObservedLogs` it returns beside the core. -/
def observerNew (enab : LevelEnabler) (logs : Nat) : Core := .observer enab logs []

end ReadGoCode.Zapcore
