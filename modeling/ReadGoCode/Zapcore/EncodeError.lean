import Mathlib.Logic.Basic

/-!
# Encoding an error field

`encodeError(key, err, enc)` adds `err.Error()` under `key`. For an `errorGroup` it also adds
the group's `Errors()` under `key + "Causes"`, as an array of objects. `errArray` appends one
object per non-nil cause and encodes each with `encodeError("error", …)`, so nested groups nest.
For a `fmt.Formatter` whose `%+v` differs from `Error()`, it adds that text under
`key + "Verbose"`. A panic in `Error()` is recovered. A nil pointer is then written as
`"<nil>"`; any other panic becomes the error `PANIC=…`, which stops the array it occurs in and is
returned by every enclosing call.

An encoder is given by the calls made on it: each `AddString` and `AddArray` becomes a field,
and each `AppendObject` an object holding the calls made inside it. `decodeObj` reads an
encoding back as the tree of messages. `decode_encodeError` says that, for every error in which
no `Error()` panics except through a nil pointer, the encoding gives back the message of the
error and of every non-nil cause, at every depth and in order, and `encodeError` returns nil.
-/

namespace ReadGoCode.Zapcore

/-- A Go `error` value as `encodeError` sees it. -/
inductive ErrValue where
  /-- A nil `error`, as a cause of a group. -/
  | nil
  /-- A nil pointer whose `Error` method panics on its receiver. -/
  | nilPtr
  /-- A value whose `Error` method panics with a value printed as `v`. -/
  | panics (v : String)
  /-- An error that is neither an `errorGroup` nor a `fmt.Formatter`. -/
  | basic (msg : String)
  /-- A `fmt.Formatter`, `%+v` printing `verbose`. -/
  | formatter (msg verbose : String)
  /-- An `errorGroup`, `Errors()` returning `causes`. -/
  | group (msg : String) (causes : List ErrValue)

/-- The calls made on an encoder: `AddString(key, s)` is `(key, str s)`, and `AddArray(key, arr)`
is `(key, arr objs)` with the objects `arr` appended, each the calls made inside its
`AppendObject`. -/
inductive EncValue where
  | str (s : String)
  | arr (objs : List (List (String × EncValue)))

mutual

/-- `encodeError(key, err, enc)`: the fields it adds to `enc`, in order, and the error it
returns. Calling `Error()` on a nil interface panics with a runtime error. -/
def encodeError (key : String) : ErrValue → List (String × EncValue) × Option String
  | .nil => ([], some "PANIC=runtime error: invalid memory address or nil pointer dereference")
  | .nilPtr => ([(key, .str "<nil>")], none)
  | .panics v => ([], some ("PANIC=" ++ v))
  | .basic msg => ([(key, .str msg)], none)
  | .formatter msg verbose =>
      ((key, .str msg) :: if verbose ≠ msg then [(key ++ "Verbose", .str verbose)] else [], none)
  | .group msg causes =>
      let r := marshalErrArray causes
      ([(key, .str msg), (key ++ "Causes", .arr r.1)], r.2)

/-- `errArray(errs).MarshalLogArray(arr)`: the objects it appends, in order, and its error. Each
`AppendObject` records the calls made inside it, also when it fails; the loop stops at the first
failure. -/
def marshalErrArray : List ErrValue → List (List (String × EncValue)) × Option String
  | [] => ([], none)
  | e :: errs =>
      match e with
      | .nil => marshalErrArray errs
      | e =>
          let o := encodeError "error" e
          match o.2 with
          | some err => ([o.1], some err)
          | none =>
              let r := marshalErrArray errs
              (o.1 :: r.1, r.2)

end

/-! ## Reading an encoding back -/

/-- The messages of an error and of its non-nil causes. -/
inductive ErrTree where
  | node (msg : String) (causes : List ErrTree)

mutual

/-- The tree of messages `Error()` gives, where no `Error()` panics. -/
def ErrValue.tree : ErrValue → Option ErrTree
  | .nil => none
  | .nilPtr => some (.node "<nil>" [])
  | .panics _ => none
  | .basic msg => some (.node msg [])
  | .formatter msg _ => some (.node msg [])
  | .group msg causes => some (.node msg (treeList causes))

/-- The trees of the non-nil causes. -/
def treeList : List ErrValue → List ErrTree
  | [] => []
  | e :: es =>
      match e.tree with
      | some t => t :: treeList es
      | none => treeList es

end

mutual

/-- No `Error()` in the error panics, except through a nil pointer. -/
def ErrValue.noPanic : ErrValue → Bool
  | .nil => false
  | .panics _ => false
  | .group _ causes => noPanicCauses causes
  | _ => true

/-- No non-nil cause panics. -/
def noPanicCauses : List ErrValue → Bool
  | [] => true
  | e :: es =>
      match e with
      | .nil => noPanicCauses es
      | e => e.noPanic && noPanicCauses es

end

mutual

/-- The causes an `AddArray` field holds. -/
def causesOf : EncValue → Option (List ErrTree)
  | .str _ => none
  | .arr objs => decodeObjs objs

/-- Reads back the fields of an error encoded under `key`: its message, then its causes or its
verbose text, if any. -/
def decodeObj (key : String) : List (String × EncValue) → Option ErrTree
  | (k, .str msg) :: rest =>
      if k = key then
        match rest with
        | [] => some (.node msg [])
        | [(k', v)] =>
            if k' = key ++ "Causes" then (causesOf v).map (.node msg)
            else if k' = key ++ "Verbose" then some (.node msg []) else none
        | _ => none
      else none
  | _ => none

/-- Reads back the objects of a causes array. -/
def decodeObjs : List (List (String × EncValue)) → Option (List ErrTree)
  | [] => some []
  | obj :: objs => (decodeObj "error" obj).bind fun t => (decodeObjs objs).map (t :: ·)

end

/-- The verbose and causes keys differ. -/
theorem verbose_ne_causes (key : String) : key ++ "Verbose" ≠ key ++ "Causes" := fun h =>
  absurd (List.append_cancel_left (congrArg String.data h)) (by decide)

/-- A formatter's verbose text, when written, is read past. -/
theorem decode_encodeError_formatter (key msg verbose : String) :
    decodeObj key (encodeError key (.formatter msg verbose)).1 = some (.node msg []) := by
  by_cases hv : verbose = msg
  · have henc : encodeError key (.formatter msg verbose) = ([(key, .str msg)], none) := by
      simp [encodeError, hv]
    rw [henc, decodeObj.eq_1, if_pos rfl]
  · have henc : encodeError key (.formatter msg verbose) =
        ([(key, .str msg), (key ++ "Verbose", .str verbose)], none) := by
      simp [encodeError, hv]
    rw [henc, decodeObj.eq_2, if_pos rfl, if_neg (verbose_ne_causes key), if_pos rfl]

/-- No panicking cause in a list means none in its tail and none at its head. -/
theorem noPanicCauses_cons {e : ErrValue} {cs : List ErrValue}
    (h : noPanicCauses (e :: cs) = true) :
    noPanicCauses cs = true ∧ (e = .nil ∨ e.noPanic = true) := by
  cases e <;> simp_all [noPanicCauses]

/-- An error in which nothing panics has a tree of messages. -/
theorem ErrValue.tree_of_noPanic {e : ErrValue} (h : e.noPanic = true) : ∃ t, e.tree = some t := by
  cases e <;> simp_all [ErrValue.noPanic, ErrValue.tree]

/-- A non-nil cause is encoded as one object; the array goes on only when it returned nil. -/
theorem marshalErrArray_cons {e : ErrValue} (he : e ≠ .nil) (cs : List ErrValue) :
    marshalErrArray (e :: cs) =
      match (encodeError "error" e).2 with
      | some err => ([(encodeError "error" e).1], some err)
      | none => ((encodeError "error" e).1 :: (marshalErrArray cs).1, (marshalErrArray cs).2) := by
  cases e <;> first | exact absurd rfl he | rfl

mutual

/-- An error in which no `Error()` panics, except through a nil pointer, encodes without an
error. -/
theorem encodeError_snd (key : String) : ∀ e : ErrValue, e.noPanic = true →
    (encodeError key e).2 = none
  | .nil, h => nomatch h
  | .panics _, h => nomatch h
  | .nilPtr, _ | .basic _, _ | .formatter _ _, _ => rfl
  | .group _ causes, h => marshalErrArray_snd causes (by simpa [ErrValue.noPanic] using h)

/-- Causes of which none panics encode without an error. -/
theorem marshalErrArray_snd : ∀ cs : List ErrValue, noPanicCauses cs = true →
    (marshalErrArray cs).2 = none
  | [], _ => rfl
  | e :: cs, h => by
      obtain ⟨hcs, he⟩ := noPanicCauses_cons h
      rcases he with rfl | he
      · exact marshalErrArray_snd cs hcs
      · have hnil : e ≠ .nil := by rintro rfl; simp [ErrValue.noPanic] at he
        rw [marshalErrArray_cons hnil, encodeError_snd "error" e he]
        exact marshalErrArray_snd cs hcs

end

mutual

/-- An error in which nothing panics reads back as its tree. -/
theorem decodeObj_encodeError (key : String) : ∀ e : ErrValue, e.noPanic = true →
    decodeObj key (encodeError key e).1 = e.tree
  | .nil, h => nomatch h
  | .panics _, h => nomatch h
  | .nilPtr, _ => by rw [encodeError, decodeObj.eq_1, if_pos rfl]; rfl
  | .basic _, _ => by rw [encodeError, decodeObj.eq_1, if_pos rfl]; rfl
  | .formatter msg verbose, _ => decode_encodeError_formatter key msg verbose
  | .group msg causes, h => by
      rw [encodeError, decodeObj.eq_2, if_pos rfl, if_pos rfl, causesOf,
        decodeObjs_marshalErrArray causes (by simpa [ErrValue.noPanic] using h)]
      rfl

/-- The causes are appended one object per non-nil cause, each reading back as that cause's
tree. -/
theorem decodeObjs_marshalErrArray : ∀ cs : List ErrValue, noPanicCauses cs = true →
    decodeObjs (marshalErrArray cs).1 = some (treeList cs)
  | [], _ => rfl
  | e :: cs, h => by
      obtain ⟨hcs, he⟩ := noPanicCauses_cons h
      have hobjs := decodeObjs_marshalErrArray cs hcs
      rcases he with rfl | he
      · -- a nil cause is skipped
        simpa [marshalErrArray, treeList, ErrValue.tree] using hobjs
      · obtain ⟨t, ht⟩ := ErrValue.tree_of_noPanic he
        have hnil : e ≠ .nil := by rintro rfl; simp [ErrValue.noPanic] at he
        rw [marshalErrArray_cons hnil, encodeError_snd "error" e he]
        simp [decodeObjs, decodeObj_encodeError "error" e he, ht, hobjs, treeList]

end

/-- Every error in which no `Error()` panics, except through a nil pointer, is encoded so that
its message and the message of every non-nil cause, at every depth and in order, read back, and
`encodeError` returns nil. -/
theorem decode_encodeError (key : String) (e : ErrValue) (h : e.noPanic = true) :
    decodeObj key (encodeError key e).1 = e.tree ∧ (encodeError key e).2 = none :=
  ⟨decodeObj_encodeError key e h, encodeError_snd key e h⟩

example : encodeError "error" (.group "a; b" [.basic "a", .nil, .formatter "b" "b: detail"]) =
    ([("error", .str "a; b"), ("errorCauses", .arr [[("error", .str "a")],
      [("error", .str "b"), ("errorVerbose", .str "b: detail")]])], none) := rfl

/-- A group of a plain error, a nil cause and a formatter reads back as its two messages. -/
theorem decode_encodeError_group :
    (ErrValue.group "a; b" [.basic "a", .nil, .formatter "b" "b: detail"]).noPanic = true ∧
    decodeObj "error" (encodeError "error"
        (.group "a; b" [.basic "a", .nil, .formatter "b" "b: detail"])).1 =
      (ErrValue.group "a; b" [.basic "a", .nil, .formatter "b" "b: detail"]).tree ∧
    (encodeError "error" (.group "a; b" [.basic "a", .nil, .formatter "b" "b: detail"])).2 = none :=
  ⟨rfl, decode_encodeError "error" _ rfl⟩

/-- The error an encoding returns does not depend on the key. -/
theorem encodeError_snd_key (k k' : String) (e : ErrValue) :
    (encodeError k e).2 = (encodeError k' e).2 := by
  cases e <;> rfl

/-- A non-nil cause whose encoding returns an error, after causes that do not, ends the array:
its object is the last, and the array returns its error. -/
theorem marshalErrArray_of_error {e : ErrValue} (he : e ≠ .nil) {err : String}
    (herr : (encodeError "error" e).2 = some err) (post : List ErrValue) :
    ∀ pre : List ErrValue, noPanicCauses pre = true →
      marshalErrArray (pre ++ e :: post) =
        ((marshalErrArray pre).1 ++ [(encodeError "error" e).1], some err)
  | [], _ => by rw [List.nil_append, marshalErrArray_cons he, herr]; rfl
  | c :: pre, h => by
      obtain ⟨hcs, hc⟩ := noPanicCauses_cons h
      have ih := marshalErrArray_of_error he herr post pre hcs
      rcases hc with rfl | hc
      · simpa [marshalErrArray] using ih
      · have hnil : c ≠ .nil := by rintro rfl; simp [ErrValue.noPanic] at hc
        rw [List.cons_append, marshalErrArray_cons hnil, marshalErrArray_cons hnil,
          encodeError_snd "error" c hc, ih]
        rfl

/-- The error at a position in nested groups: each level, outermost first, is a group's message
and its causes before and after the position. -/
def ErrValue.plug : List (String × List ErrValue × List ErrValue) → ErrValue → ErrValue
  | [], e => e
  | (msg, pre, post) :: ctx, e => .group msg (pre ++ plug ctx e :: post)

/-- A non-nil error stays non-nil inside groups. -/
theorem ErrValue.plug_ne_nil {e : ErrValue} (he : e ≠ .nil) :
    ∀ ctx, ErrValue.plug ctx e ≠ .nil
  | [], h => he h
  | _ :: _, h => nomatch h

/-- An error an encoding returns is returned by every enclosing group whose causes before it do
not panic. -/
theorem encodeError_plug (key : String) {e : ErrValue} (he : e ≠ .nil) {err : String}
    (herr : (encodeError key e).2 = some err) :
    ∀ ctx : List (String × List ErrValue × List ErrValue), (∀ f ∈ ctx, noPanicCauses f.2.1 = true) →
      (encodeError key (ErrValue.plug ctx e)).2 = some err
  | [], _ => herr
  | (msg, pre, post) :: ctx, hctx => by
      have hin : (encodeError "error" (ErrValue.plug ctx e)).2 = some err := by
        rw [encodeError_snd_key "error" key]
        exact encodeError_plug key he herr ctx fun f hf => hctx f (List.mem_cons_of_mem _ hf)
      show (marshalErrArray (pre ++ ErrValue.plug ctx e :: post)).2 = some err
      rw [marshalErrArray_of_error (ErrValue.plug_ne_nil he ctx) hin post pre
        (hctx _ (List.mem_cons_self _ _))]

/-- A cause whose `Error()` panics, after causes that do not, ends the array: it leaves an
empty object, the causes after it are not encoded, and the array returns its `PANIC` error. The
group holding it returns that error too, its causes array ending with the empty object, and so
does every group enclosing that group, at any depth, whose causes before it do not panic. -/
theorem marshalErrArray_panics (v : String) (post : List ErrValue) :
    ∀ pre : List ErrValue, noPanicCauses pre = true →
      marshalErrArray (pre ++ .panics v :: post) =
          ((marshalErrArray pre).1 ++ [[]], some ("PANIC=" ++ v)) ∧
        (∀ key msg, encodeError key (.group msg (pre ++ .panics v :: post)) =
          ([(key, .str msg), (key ++ "Causes", .arr ((marshalErrArray pre).1 ++ [[]]))],
            some ("PANIC=" ++ v))) ∧
        ∀ (key msg : String) (ctx : List (String × List ErrValue × List ErrValue)),
          (∀ f ∈ ctx, noPanicCauses f.2.1 = true) →
          (encodeError key (ErrValue.plug ctx (.group msg (pre ++ .panics v :: post)))).2 =
            some ("PANIC=" ++ v) := by
  intro pre hpre
  have harr := marshalErrArray_of_error (e := .panics v) (fun h => nomatch h) rfl post pre hpre
  have hgroup : ∀ key msg, encodeError key (.group msg (pre ++ .panics v :: post)) =
      ([(key, .str msg), (key ++ "Causes", .arr ((marshalErrArray pre).1 ++ [[]]))],
        some ("PANIC=" ++ v)) := fun key msg => by
    simp only [encodeError, harr]
  exact ⟨harr, hgroup, fun key msg ctx hctx =>
    @encodeError_plug key (.group msg (pre ++ .panics v :: post)) (fun h => nomatch h) _
      (by rw [hgroup]) ctx hctx⟩

/-- After a plain error, a panicking cause hides the cause after it. -/
theorem marshalErrArray_panics_hides :
    noPanicCauses [.basic "a"] = true ∧
    (marshalErrArray ([.basic "a"] ++ .panics "boom" :: [.basic "c"]) =
        ((marshalErrArray [.basic "a"]).1 ++ [[]], some ("PANIC=" ++ "boom")) ∧
      (∀ key msg, encodeError key (.group msg ([.basic "a"] ++ .panics "boom" :: [.basic "c"])) =
        ([(key, .str msg), (key ++ "Causes", .arr ((marshalErrArray [.basic "a"]).1 ++ [[]]))],
          some ("PANIC=" ++ "boom"))) ∧
      ∀ (key msg : String) (ctx : List (String × List ErrValue × List ErrValue)),
        (∀ f ∈ ctx, noPanicCauses f.2.1 = true) →
        (encodeError key (ErrValue.plug ctx
          (.group msg ([.basic "a"] ++ .panics "boom" :: [.basic "c"])))).2 =
          some ("PANIC=" ++ "boom")) :=
  ⟨rfl, marshalErrArray_panics "boom" [.basic "c"] [.basic "a"] rfl⟩

/-- The panic two groups down is returned at the top. -/
example : (encodeError "error" (ErrValue.plug [("top", [.basic "x"], [.basic "y"])]
    (.group "mid" [.basic "a", .panics "boom", .basic "c"]))).2 = some "PANIC=boom" := rfl

end ReadGoCode.Zapcore
