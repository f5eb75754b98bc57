import Mathlib.Data.List.Basic

/-!
# Combined errors

Zap combines the errors of a loop with `multierr.Append` and lists a combined error with
`multierr.Errors`. A combined error is a `*multiError` holding the plain errors it combines,
in order; `Append` flattens a `*multiError` on either side, so combined errors never nest.
`multierr` is a dependency of zap whose sources are not part of the repository.

`appendEach` is the loop zap writes around it, `err = multierr.Append(err, call(x))` over a
list. `errors_appendEach` says what it returns whatever each call answers: the errors of
every call in order, and nil exactly when every call returned nil.
-/

namespace ReadGoCode.Multierr

/-- A non-nil Go `error` as `multierr` sees it. -/
inductive GoError where
  /-- An error that is not a `*multiError`. -/
  | plain (msg : String)
  /-- A `*multiError` and the errors it holds. -/
  | multi (errs : List String)
deriving DecidableEq

/-- Modelled from the spec: `multierr.Errors(err)`, the errors an error combines. Nil combines
none, and an error that is not a `*multiError` is its own list. -/
def errors : Option GoError → List String
  | none => []
  | some (.plain e) => [e]
  | some (.multi es) => es

/-- Modelled from the spec: `multierr.Append(left, right)`, "a combined multi-error" of both.
Nil on either side returns the other side; a plain error appended to a `*multiError` extends
its list; two plain errors make a `*multiError` of both; a `*multiError` on the right is
flattened into the result, as `fromSlice` does. -/
def append (left right : Option GoError) : Option GoError :=
  match left, right with
  | none, _ => right
  | some _, none => left
  | some (.multi ls), some (.plain r) => some (.multi (ls ++ [r]))
  | some (.plain l), some (.plain r) => some (.multi [l, r])
  | some l, some (.multi rs) => some (.multi (errors (some l) ++ rs))

/-- A nil error lists nothing. -/
@[simp] theorem errors_none : errors none = [] := rfl

/-- A plain error lists itself. -/
@[simp] theorem errors_plain (e : String) : errors (some (.plain e)) = [e] := rfl

/-- A combined error lists its errors. -/
@[simp] theorem errors_multi (es : List String) : errors (some (.multi es)) = es := rfl

/-- Appending to nil gives the other error. -/
@[simp] theorem append_none_left (e : Option GoError) : append none e = e := rfl

/-- Appending nil gives the error itself. -/
@[simp] theorem append_none_right (e : Option GoError) : append e none = e := by
  rcases e with _ | (_ | _) <;> rfl

/-- `Append` lists the errors of both, in order. -/
@[simp] theorem errors_append (a b : Option GoError) :
    errors (append a b) = errors a ++ errors b := by
  rcases a with _ | a
  · simp [errors]
  rcases b with _ | b
  · simp [errors]
  cases a <;> cases b <;> rfl

/-- `Append` is nil exactly when both are. -/
@[simp] theorem append_eq_none (a b : Option GoError) :
    append a b = none ↔ a = none ∧ b = none := by
  rcases a with _ | a
  · simp
  rcases b with _ | b
  · simp
  cases a <;> cases b <;> simp [append]

/-- `for i := range xs { err = multierr.Append(err, call(i, xs[i])) }`, counting from `i` and
starting from `err`: the calls it makes, each with its index, and the error it ends with. The
`i`-th call answers `call i xs[i]`. -/
def appendEach {α : Type} (call : Nat → α → Option GoError) :
    Nat → List α → Option GoError → List (Nat × α) × Option GoError
  | _, [], err => ([], err)
  | i, x :: xs, err =>
      let rest := appendEach call (i + 1) xs (append err (call i x))
      ((i, x) :: rest.1, rest.2)

section Loop

variable {α : Type} (call : Nat → α → Option GoError)

/-- The loop calls every element once, in order, whatever the calls answer. -/
theorem appendEach_calls (xs : List α) :
    ∀ i err, (appendEach call i xs err).1 = xs.enumFrom i := by
  induction xs with
  | nil => intro _ _; rfl
  | cons x xs ih => intro i err; simp [appendEach, ih]

/-- The loop's error combines the errors it started with and those of every call, in order. -/
theorem errors_appendEach (xs : List α) :
    ∀ i err, errors (appendEach call i xs err).2 =
      errors err ++ ((xs.enumFrom i).map fun p => errors (call p.1 p.2)).flatten := by
  induction xs with
  | nil => intro _ _; simp [appendEach]
  | cons x xs ih => intro i err; simp [appendEach, ih]

/-- The loop ends with nil exactly when it started with nil and every call answered nil. -/
theorem appendEach_eq_none (xs : List α) :
    ∀ i err, (appendEach call i xs err).2 = none ↔
      err = none ∧ ∀ p ∈ xs.enumFrom i, call p.1 p.2 = none := by
  induction xs with
  | nil => intro _ _; simp [appendEach]
  | cons x xs ih =>
      intro i err
      simp only [appendEach, ih, append_eq_none, List.enumFrom_cons, List.mem_cons,
        forall_eq_or_imp]
      tauto

end Loop

end ReadGoCode.Multierr
