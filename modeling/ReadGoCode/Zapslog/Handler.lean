import ReadGoCode.Zapcore.Core

/-!
# The `slog.Handler` of zapslog

`Handler` turns the attributes of `slog` into zap fields: `WithAttrs` hands them to its core's
`With`, `Handle` to the `CheckedEntry`'s `Write`, and `WithGroup` only records a group name,
which the next attribute that is not `Skip` turns into one `Namespace` per pending group.

What a list of fields means is read back with zap's nesting (`encode`): a `Namespace` holds
every later field, an `Object` its marshaler's members, an `Inline` marshaler writes its
members in place, `Skip` writes nothing. What the attributes should mean is given by the rules
of `slog.Handler` (`slogTree`). `handle_matches_slog` says the two agree for every sequence
of `WithAttrs` and `WithGroup` calls that names no empty group and whose attributes hold no
group slog omits; the two kinds of input it leaves out are where they differ.
-/

namespace ReadGoCode.Zapslog

open Zapcore (Entry Level)

/-- A `slog.Value`, by its kind. -/
inductive Value where
  /-- `Value{}`: `KindAny` holding nil. -/
  | nil
  /-- A value of kind `Bool`, `Duration`, `Float64`, `Int64`, `String`, `Time`, `Uint64`, or
  `Any` holding non-nil, as the encoder writes it. -/
  | scalar (v : String)
  /-- `KindGroup`, with the group's attributes. -/
  | group (attrs : List (String × Value))
  /-- `KindLogValuer`; `resolved` is what `Value.Resolve` returns for it. -/
  | logValuer (resolved : Value)

/-- A `slog.Attr`, its key and its value. -/
abbrev Attr := String × Value

/-- A member of the object a log line writes, as read back: a key with a value (`none` for
null), or a key with a nested object. -/
inductive Node where
  | leaf (key : String) (v : Option String)
  | obj (key : String) (members : List Node)

/-- The `zapcore.Field`s the handler makes. The marshaler of an `Object` or an `Inline` field
(a `groupObject`) is given by the members it writes. -/
inductive Field where
  /-- `zap.Skip()`. -/
  | skip
  /-- `zap.Namespace(key)`. -/
  | namespace (key : String)
  /-- `zap.Bool`, `zap.Duration`, `zap.Float64`, `zap.Int64`, `zap.String`, `zap.Time`,
  `zap.Uint64` or `zap.Any`: a key and a value (`none` for nil). -/
  | leaf (key : String) (v : Option String)
  /-- `zap.Object(key, marshaler)`. -/
  | object (key : String) (members : List Node)
  /-- `zap.Inline(marshaler)`. -/
  | inline (members : List Node)

/-- `f == zap.Skip()`. -/
def Field.isSkip : Field → Bool
  | .skip => true
  | _ => false

/-- Modelled from the spec: `f.AddTo(enc)`, followed by the members `rest` written after it.
`OpenNamespace` "opens an isolated namespace where all subsequent fields will be added", so a
`Namespace` holds `rest`; `AddObject` nests the marshaler's members under the key; an
`Inline` marshaler writes its members into `enc` itself. -/
def Field.addTo : Field → List Node → List Node
  | .skip, rest => rest
  | .namespace key, rest => [.obj key rest]
  | .leaf key v, rest => .leaf key v :: rest
  | .object key members, rest => .obj key members :: rest
  | .inline members, rest => members ++ rest

/-- The members a list of fields writes, read with zap's nesting. -/
def encode (fields : List Field) : List Node := fields.foldr Field.addTo []

mutual
/-- `convertAttrToField(attr)`: `slog.Attr{}` is skipped, a group becomes an `Object`, or an
`Inline` when its key is empty, a `LogValuer` is converted as the value it resolves to. -/
def convertAttrToField : String → Value → Field
  | key, .nil => if key = "" then .skip else .leaf key none
  | key, .scalar v => .leaf key (some v)
  | key, .group attrs =>
      if key = "" then .inline (groupObject attrs) else .object key (groupObject attrs)
  | key, .logValuer resolved => convertAttrToField key resolved

/-- `groupObject(attrs).MarshalLogObject(enc)`: the members it writes, each attribute's
field added to `enc` in turn. -/
def groupObject : List Attr → List Node
  | [] => []
  | (key, v) :: attrs => (convertAttrToField key v).addTo (groupObject attrs)
end

/-- `convertSlogLevel(l)`: `slog.LevelError` (8) and above is `ErrorLevel`, then
`slog.LevelWarn` (4), `slog.LevelInfo` (0), and `DebugLevel` below. -/
def convertSlogLevel (l : Int) : Level :=
  if l ≥ 8 then Zapcore.errorLevel
  else if l ≥ 4 then Zapcore.warnLevel
  else if l ≥ 0 then Zapcore.infoLevel
  else Zapcore.debugLevel

/-- A `Handler`. Its `core` is given by the fields its `With` calls have added since
`NewHandler`; `groups` are the groups not yet applied. -/
structure Handler where
  core : List Field
  name : String
  addCaller : Bool
  addStackAt : Int
  callerSkip : Int
  groups : List String

/-- The `HandlerOption`s of zapslog. -/
inductive HandlerOption where
  | withName (name : String)
  | withCaller (enabled : Bool)
  | withCallerSkip (skip : Int)
  | addStacktraceAt (lvl : Int)

/-- `opt.apply(h)`. -/
def HandlerOption.apply : HandlerOption → Handler → Handler
  | .withName name, h => { h with name := name }
  | .withCaller enabled, h => { h with addCaller := enabled }
  | .withCallerSkip skip, h => { h with callerSkip := h.callerSkip + skip }
  | .addStacktraceAt lvl, h => { h with addStackAt := lvl }

/-- `NewHandler(core, opts...)`: `addStackAt` is `slog.LevelError`, then each option in turn. -/
def newHandler (opts : List HandlerOption) : Handler :=
  opts.foldl (fun h opt => opt.apply h) ⟨[], "", false, 8, 0, []⟩

namespace Handler

/-- `h.appendGroups(fields)`: one `Namespace` per pending group. -/
def appendGroups (h : Handler) (fields : List Field) : List Field :=
  fields ++ h.groups.map .namespace

/-- The loop over the attributes in `Handle` and `WithAttrs`, from `fields` and
`addedNamespace`: the pending groups go in before the first field that is not `Skip`. -/
def addAttrs (h : Handler) : List Field → Bool → List Attr → List Field × Bool
  | fields, addedNamespace, [] => (fields, addedNamespace)
  | fields, addedNamespace, (key, v) :: attrs =>
      let f := convertAttrToField key v
      if !addedNamespace && !h.groups.isEmpty && !f.isSkip then
        h.addAttrs (h.appendGroups fields ++ [f]) true attrs
      else h.addAttrs (fields ++ [f]) addedNamespace attrs

/-- `h.WithAttrs(attrs)`: the fields go to `core.With`; the groups are cleared once applied. -/
def withAttrs (h : Handler) (attrs : List Attr) : Handler :=
  let r := h.addAttrs [] false attrs
  { h with core := h.core ++ r.1, groups := if r.2 then [] else h.groups }

/-- `h.WithGroup(group)`. -/
def withGroup (h : Handler) (group : String) : Handler :=
  { h with groups := h.groups ++ [group] }

/-- The fields `Handle` writes for a record's attributes. -/
def recordFields (h : Handler) (attrs : List Attr) : List Field :=
  (h.addAttrs [] false attrs).1

/-- A `slog.Record`, with the program counter of its call site. -/
structure Record where
  time : Nat
  message : String
  level : Int
  pc : Nat
  attrs : List Attr

/-- What `Handle` writes: the entry, the caller's program counter when it sets `Caller`, the
skip it gives `stacktrace.Take` when it takes the stack, and the fields. -/
structure Written where
  ent : Entry
  caller : Option Nat
  stack : Option Int
  fields : List Field

/-- `h.Handle(ctx, record)`: nothing when `check` says `core.Check` returns nil. `frame pc` is
the `PC` of the frame `runtime.CallersFrames` gives for `pc`. -/
def handle (check : Entry → Bool) (frame : Nat → Nat) (h : Handler) (record : Record) :
    Option Written :=
  let ent : Entry := { Entry.zero with
    level := convertSlogLevel record.level, time := record.time, loggerName := h.name,
    message := record.message }
  if check ent then
    some ⟨ent,
      if h.addCaller && record.pc != 0 && frame record.pc != 0 then some (frame record.pc)
      else none,
      if record.level ≥ h.addStackAt then some (3 + h.callerSkip) else none,
      h.recordFields record.attrs⟩
  else none

/-- A call that derives a handler. -/
inductive Call where
  | withAttrs (attrs : List Attr)
  | withGroup (name : String)

/-- The handler after `calls`, made in order. -/
def run (h : Handler) : List Call → Handler
  | [] => h
  | .withAttrs attrs :: calls => (h.withAttrs attrs).run calls
  | .withGroup name :: calls => (h.withGroup name).run calls

end Handler

/-! ## The rules of `slog.Handler` -/

/-- A group named `key` with `members`: omitted when it has none, inlined when `key` is
empty. -/
def slogGroup (key : String) (members : List Node) : List Node :=
  if members.isEmpty then [] else if key = "" then members else [.obj key members]

mutual
/-- What an attribute means to slog: `Attr{}` is dropped, a group is `slogGroup`, a
`LogValuer` means what it resolves to. -/
def attrTree : String → Value → List Node
  | key, .nil => if key = "" then [] else [.leaf key none]
  | key, .scalar v => [.leaf key (some v)]
  | key, .group attrs => slogGroup key (attrsTree attrs)
  | key, .logValuer resolved => attrTree key resolved

/-- What a list of attributes means to slog, each in turn. -/
def attrsTree : List Attr → List Node
  | [] => []
  | (key, v) :: attrs => attrTree key v ++ attrsTree attrs
end

/-- What a record's attributes mean to slog after `calls`: the attributes of `WithAttrs` and of
the record in order, each under the groups of the `WithGroup` calls before it, a group with an
empty name being the identity. -/
def slogTree : List Handler.Call → List Attr → List Node
  | [], attrs => attrsTree attrs
  | .withAttrs as :: calls, attrs => attrsTree as ++ slogTree calls attrs
  | .withGroup name :: calls, attrs => slogGroup name (slogTree calls attrs)

/-- What the pending `groups` make of the members `t` written after them: nothing when there
are none, otherwise `t` under one `Namespace` per group. -/
def underGroups (groups : List String) (t : List Node) : List Node :=
  if t.isEmpty then [] else (groups.map Field.namespace).foldr Field.addTo t

/-! ## Where zapslog follows the rules -/

mutual
/-- Every group in the value, at any depth, has a member slog keeps. -/
def Value.noEmptyGroup : Value → Bool
  | .nil | .scalar _ => true
  | .group attrs => !(attrsTree attrs).isEmpty && attrsNoEmptyGroup attrs
  | .logValuer resolved => resolved.noEmptyGroup

/-- `Value.noEmptyGroup` of every attribute. -/
def attrsNoEmptyGroup : List Attr → Bool
  | [] => true
  | (_, v) :: attrs => v.noEmptyGroup && attrsNoEmptyGroup attrs
end

/-- A call that names no empty group and whose attributes hold no group slog omits. -/
def Handler.Call.noEmptyGroup : Handler.Call → Bool
  | .withAttrs attrs => attrsNoEmptyGroup attrs
  | .withGroup name => name != ""

mutual
/-- Without empty groups, the field of an attribute writes what the attribute means. -/
theorem addTo_convertAttrToField : ∀ (key : String) (v : Value), v.noEmptyGroup →
    ∀ rest, (convertAttrToField key v).addTo rest = attrTree key v ++ rest
  | key, .nil, _, rest => by
      by_cases hk : key = "" <;> simp [convertAttrToField, attrTree, hk, Field.addTo]
  | _, .scalar _, _, _ => rfl
  | key, .group attrs, h, rest => by
      simp only [Value.noEmptyGroup, Bool.and_eq_true, Bool.not_eq_true', List.isEmpty_eq_false]
        at h
      by_cases hk : key = "" <;>
        simp [convertAttrToField, attrTree, slogGroup, hk, h.1, Field.addTo,
          groupObject_eq attrs h.2]
  | key, .logValuer resolved, h, rest => addTo_convertAttrToField key resolved h rest

/-- Without empty groups, a `groupObject` writes what its attributes mean. -/
theorem groupObject_eq : ∀ attrs, attrsNoEmptyGroup attrs → groupObject attrs = attrsTree attrs
  | [], _ => rfl
  | (key, v) :: attrs, h => by
      simp only [attrsNoEmptyGroup, Bool.and_eq_true] at h
      rw [groupObject, addTo_convertAttrToField key v h.1, groupObject_eq attrs h.2, attrsTree]
end

/-- Without empty groups, an attribute's field is `Skip` exactly when slog drops it. -/
theorem isSkip_convertAttrToField : ∀ (key : String) (v : Value), v.noEmptyGroup →
    (convertAttrToField key v).isSkip = (attrTree key v).isEmpty
  | key, .nil, _ => by
      by_cases hk : key = "" <;> simp [convertAttrToField, attrTree, hk, Field.isSkip]
  | _, .scalar _, _ => rfl
  | key, .group attrs, h => by
      simp only [Value.noEmptyGroup, Bool.and_eq_true, Bool.not_eq_true', List.isEmpty_eq_false]
        at h
      by_cases hk : key = "" <;>
        simp [convertAttrToField, attrTree, slogGroup, hk, h.1, Field.isSkip]
  | key, .logValuer resolved, h => isSkip_convertAttrToField key resolved h

namespace Handler

/-- The attribute loop, from `fields`, read with the members `rest` after it: the pending
groups enclose the attributes and `rest` when the loop applies them, which it does exactly when
none were applied yet, there are some, and one attribute means something. -/
theorem addAttrs_spec (h : Handler) (attrs : List Attr) (hattrs : attrsNoEmptyGroup attrs) :
    ∀ fields addedNamespace rest,
      (h.addAttrs fields addedNamespace attrs).2 =
          (addedNamespace || !h.groups.isEmpty && !(attrsTree attrs).isEmpty) ∧
        (h.addAttrs fields addedNamespace attrs).1.foldr Field.addTo rest =
          fields.foldr Field.addTo
            (if !addedNamespace && !h.groups.isEmpty && !(attrsTree attrs).isEmpty then
              (h.groups.map Field.namespace).foldr Field.addTo (attrsTree attrs ++ rest)
            else attrsTree attrs ++ rest) := by
  induction attrs with
  | nil => intro fields addedNamespace rest; simp [addAttrs, attrsTree]
  | cons a attrs ih =>
      obtain ⟨key, v⟩ := a
      simp only [attrsNoEmptyGroup, Bool.and_eq_true] at hattrs
      have hskip := isSkip_convertAttrToField key v hattrs.1
      have hconv := addTo_convertAttrToField key v hattrs.1
      intro fields addedNamespace rest
      simp only [addAttrs, hskip]
      split
      · next hc =>
          obtain ⟨h₁, h₂⟩ :=
            ih hattrs.2 (h.appendGroups fields ++ [convertAttrToField key v]) true rest
          simp only [Bool.and_eq_true, Bool.not_eq_true', List.isEmpty_eq_false] at hc
          rw [h₁, h₂]
          simp [appendGroups, hconv, attrsTree, hc]
      · next hc =>
          obtain ⟨h₁, h₂⟩ := ih hattrs.2 (fields ++ [convertAttrToField key v]) addedNamespace rest
          rw [h₁, h₂, List.foldr_append]
          by_cases he : attrTree key v = []
          · simp only [attrsTree, he, hconv, List.nil_append, List.foldr_cons, List.foldr_nil,
              and_self]
          · have hg : addedNamespace = true ∨ h.groups = [] := by
              cases addedNamespace <;> simp_all
            rcases hg with rfl | hg
            · simp [attrsTree, hconv]
            · simp [attrsTree, hconv, hg]

/-- Without pending groups the members stand as written. -/
@[simp] theorem underGroups_no_groups (t : List Node) : underGroups [] t = t := by
  cases t <;> rfl

/-- No members under groups write nothing. -/
@[simp] theorem underGroups_nil (groups : List String) : underGroups groups [] = [] := rfl

/-- A pending group with a name is the group of slog around what follows it. -/
theorem underGroups_concat (groups : List String) {name : String} (hname : name ≠ "")
    (t : List Node) : underGroups (groups ++ [name]) t = underGroups groups (slogGroup name t) := by
  cases t <;> simp [underGroups, slogGroup, hname, Field.addTo]

/-- The attribute loop from nothing, read with the members `rest` of what follows: the pending
groups around what the attributes mean and `rest`, when they have a meaning. -/
theorem addAttrs_reads (h : Handler) (attrs : List Attr) (hattrs : attrsNoEmptyGroup attrs)
    (rest : List Node) :
    (h.addAttrs [] false attrs).1.foldr Field.addTo
        (underGroups (if (h.addAttrs [] false attrs).2 then [] else h.groups) rest) =
      underGroups h.groups (attrsTree attrs ++ rest) := by
  obtain ⟨h₁, h₂⟩ := addAttrs_spec h attrs hattrs [] false
    (underGroups (if (h.addAttrs [] false attrs).2 then [] else h.groups) rest)
  rw [h₂, h₁]
  by_cases hg : h.groups = []
  · simp [hg]
  by_cases ha : attrsTree attrs = []
  · simp [hg, ha]
  · simp [hg, ha]
    rw [underGroups, if_neg (by simp [ha])]

/-- Every run of calls and a record's attributes, without empty groups: all the fields given
to the core read as what slog says, within the pending groups and after the core's fields. -/
theorem run_reads (calls : List Call) (hcalls : calls.all Call.noEmptyGroup) (attrs : List Attr)
    (hattrs : attrsNoEmptyGroup attrs) : ∀ h : Handler,
    ((h.run calls).core ++ (h.run calls).recordFields attrs).foldr Field.addTo [] =
      h.core.foldr Field.addTo (underGroups h.groups (slogTree calls attrs)) := by
  induction calls with
  | nil =>
      intro h
      have := addAttrs_reads h attrs hattrs []
      rw [underGroups_nil, List.append_nil] at this
      rw [run, List.foldr_append, recordFields, this, slogTree]
  | cons call calls ih =>
      simp only [List.all_cons, Bool.and_eq_true] at hcalls
      intro h
      cases call with
      | withAttrs as =>
          simp only [Call.noEmptyGroup] at hcalls
          rw [run, ih hcalls.2, withAttrs, List.foldr_append, addAttrs_reads h as hcalls.1,
            slogTree]
      | withGroup name =>
          simp only [Call.noEmptyGroup, bne_iff_ne, ne_eq] at hcalls
          rw [run, ih hcalls.2, withGroup, underGroups_concat _ hcalls.1, slogTree]

end Handler

/-- No option sets the core or the groups. -/
theorem foldl_apply_core_groups (opts : List HandlerOption) : ∀ h : Handler,
    (opts.foldl (fun h opt => opt.apply h) h).core = h.core ∧
      (opts.foldl (fun h opt => opt.apply h) h).groups = h.groups := by
  induction opts with
  | nil => intro h; exact ⟨rfl, rfl⟩
  | cons opt opts ih =>
      intro h
      obtain ⟨h₁, h₂⟩ := ih (opt.apply h)
      cases opt <;> exact ⟨h₁, h₂⟩

/-- Every handler `NewHandler` builds, after every run of `WithAttrs` and `WithGroup` calls that
names no empty group and whose attributes hold no group slog omits: the fields given to its
core and written for a record with such attributes read as slog's rules say. -/
theorem handle_matches_slog (opts : List HandlerOption) (calls : List Handler.Call)
    (hcalls : calls.all Handler.Call.noEmptyGroup) (check : Entry → Bool) (frame : Nat → Nat)
    (record : Handler.Record) (hattrs : attrsNoEmptyGroup record.attrs) {w : Handler.Written}
    (hw : ((newHandler opts).run calls).handle check frame record = some w) :
    encode (((newHandler opts).run calls).core ++ w.fields) = slogTree calls record.attrs := by
  obtain ⟨hcore, hgroups⟩ := foldl_apply_core_groups opts ⟨[], "", false, 8, 0, []⟩
  simp only [Handler.handle] at hw
  split at hw
  · obtain rfl := (Option.some.inj hw).symm
    rw [encode, Handler.run_reads calls hcalls record.attrs hattrs, newHandler, hcore, hgroups]
    simp
  · simp at hw

/-- Two records a fresh handler writes. After `WithGroup("")`, an attribute is read under an
object with the empty key, where slog reads it at the top. Under `WithGroup("h")`, a group `g`
with no members is read as `g`, an empty object, inside `h`, where slog reads nothing. -/
theorem handle_keeps_empty_groups :
    (∃ w, ((newHandler []).run [.withGroup ""]).handle (fun _ => true) id
        ⟨0, "msg", 0, 0, [("a", .scalar "1")]⟩ = some w ∧
      encode (((newHandler []).run [.withGroup ""]).core ++ w.fields) =
        [.obj "" [.leaf "a" (some "1")]]) ∧
    slogTree [.withGroup ""] [("a", .scalar "1")] = [.leaf "a" (some "1")] ∧
    (∃ w, ((newHandler []).run [.withGroup "h"]).handle (fun _ => true) id
        ⟨0, "msg", 0, 0, [("g", .group [])]⟩ = some w ∧
      encode (((newHandler []).run [.withGroup "h"]).core ++ w.fields) = [.obj "h" [.obj "g" []]]) ∧
    slogTree [.withGroup "h"] [("g", .group [])] = [] :=
  ⟨⟨_, rfl, rfl⟩, rfl, ⟨_, rfl, rfl⟩, rfl⟩

end ReadGoCode.Zapslog
