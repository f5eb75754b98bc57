import Mathlib.Logic.Basic

/-!
# `exit.With` and its test stub

zap ends a `Fatal` entry with `exit.With(1)`, which calls the package variable `_exit`, at first
`os.Exit`. `Stub()` allocates a `StubbedExit` that keeps the current `_exit` in `prev` and installs
its own method `exit`, which records `Exited` and `Code` instead of ending the process;
`se.Unstub()` puts `prev` back. `WithStub(f)` stubs, defers `Unstub`, runs `f` and returns the
stub.

The state is `_exit`, the stubs allocated so far (a `*StubbedExit` is an index into that list),
and the code the process ended with once `os.Exit` ran: nothing runs after it, deferred calls
included. A function passed to `WithStub` is modelled by its calls into the package, in order:
`With` and nested `WithStub`.

`withStub_spec` gives `WithStub(f)` for every body from every running state. The process does
not end, `_exit` is restored, the stubs allocated before are left as they were, and the returned
stub records exactly the `With` calls `f` makes outside nested `WithStub`s, with the code of the
last. `run_exits` gives every program from the start of the process: it ends with the code of
the first `With` outside every `WithStub`, if there is one, and `_exit` is `os.Exit` again.
-/

namespace ReadGoCode.Exit

/-- What `_exit` holds: `os.Exit`, or the method `exit` of the stub at a reference. -/
inductive ExitFn where
  | osExit
  | stub (ref : Nat)
deriving DecidableEq

/-- A `StubbedExit`. -/
structure StubbedExit where
  exited : Bool
  code : Int
  prev : ExitFn
deriving DecidableEq

/-- The package's state: `_exit`, the stubs by reference, and the code of `os.Exit` once it
ran. -/
structure State where
  exitFn : ExitFn
  stubs : List StubbedExit
  halted : Option Int
deriving DecidableEq

/-- The state at the start of the process: `var _exit = os.Exit`. -/
def State.init : State := ⟨.osExit, [], none⟩

/-- `(*StubbedExit).exit(code)`. -/
def StubbedExit.exit (code : Int) (se : StubbedExit) : StubbedExit :=
  { se with exited := true, code := code }

/-- `With(code)`: `_exit(code)`. -/
def exitWith (code : Int) (s : State) : State :=
  match s.exitFn with
  | .osExit => { s with halted := some code }
  | .stub ref => { s with stubs := s.stubs.modify (StubbedExit.exit code) ref }

/-- `Stub()`: the new state and the reference returned. -/
def stub (s : State) : State × Nat :=
  (⟨.stub s.stubs.length, s.stubs ++ [⟨false, 0, s.exitFn⟩], s.halted⟩, s.stubs.length)

/-- `se.Unstub()`. -/
def unstub (se : StubbedExit) (s : State) : State := { s with exitFn := se.prev }

/-- A call into the package made by a function run under `WithStub`. -/
inductive Prog where
  /-- `With(code)`. -/
  | exitWith (code : Int)
  /-- `WithStub(f)`, with `f`'s calls. -/
  | withStub (f : List Prog)

mutual
/-- One call. `WithStub` reads the stub through its reference when the deferred `Unstub` runs,
which it does not once the process has ended. -/
def exec : Prog → State → State
  | .exitWith code, s => exitWith code s
  | .withStub f, s =>
      let s' := execList f (stub s).1
      if s'.halted.isSome then s'
      else unstub (s'.stubs.getD (stub s).2 ⟨false, 0, .osExit⟩) s'

/-- Calls in order, up to the end of the process. -/
def execList : List Prog → State → State
  | [], s => s
  | p :: ps, s =>
      let s' := exec p s
      if s'.halted.isSome then s' else execList ps s'
end

/-- The codes of the `With` calls of a body outside its nested `WithStub`s. -/
def topExits : List Prog → List Int
  | [] => []
  | .exitWith code :: ps => code :: topExits ps
  | .withStub _ :: ps => topExits ps

/-- What one call leaves in a running state, `rest` being the stubs that a `WithStub` allocates
inside its own. -/
def effect : Prog → State → List StubbedExit → State
  | .exitWith code, s, _ => exitWith code s
  | .withStub f, s, rest =>
      { s with stubs :=
          s.stubs ++ ⟨!(topExits f).isEmpty, (topExits f).getLast?.getD 0, s.exitFn⟩ :: rest }

/-! ## Lemmas -/

/-- Modifying an index of the first part leaves the second. -/
theorem modify_append_of_lt {α : Type} (g : α → α) :
    ∀ (l rest : List α) (n : Nat), n < l.length → (l ++ rest).modify g n = l.modify g n ++ rest
  | _ :: _, _, 0, _ => rfl
  | a :: l, rest, n + 1, h => by
      simp only [List.cons_append, List.modify_succ_cons,
        modify_append_of_lt g l rest n (Nat.lt_of_succ_lt_succ h)]

/-- Modifying the index just past the first part modifies the head of the second. -/
theorem modify_length_append {α : Type} (g : α → α) (x : α) :
    ∀ (l rest : List α), (l ++ x :: rest).modify g l.length = l ++ g x :: rest
  | [], _ => rfl
  | a :: l, rest => by
      simp only [List.cons_append, List.length_cons, List.modify_succ_cons,
        modify_length_append g x l rest]

/-- The stub's record after the `exit` calls with `codes`. -/
theorem exit_foldl (codes : List Int) (se : StubbedExit) :
    codes.foldl (fun se c => se.exit c) se =
      ⟨se.exited || !codes.isEmpty, codes.getLast?.getD se.code, se.prev⟩ := by
  induction codes generalizing se with
  | nil => simp
  | cons c cs ih =>
      rw [List.foldl_cons, ih, List.getLast?_cons]
      simp [StubbedExit.exit]

/-- A top-level `With` counts. -/
@[simp] theorem topExits_exitWith (code : Int) (ps : List Prog) :
    topExits (.exitWith code :: ps) = code :: topExits ps := rfl

/-- A nested `WithStub` hides its `With` calls. -/
@[simp] theorem topExits_withStub (f ps : List Prog) :
    topExits (.withStub f :: ps) = topExits ps := rfl

/-- A call after which the process runs is followed by the rest. -/
theorem execList_cons_of_running {p : Prog} {ps : List Prog} {s : State}
    (h : (exec p s).halted = none) : execList (p :: ps) s = execList ps (exec p s) := by
  rw [execList, h]
  rfl

mutual
/-- Every call from a running state has its `effect`. -/
theorem exec_effect (p : Prog) (s : State) (h : s.halted = none) :
    ∃ rest, exec p s = effect p s rest := by
  cases p with
  | exitWith code => exact ⟨[], rfl⟩
  | withStub f =>
      obtain ⟨rest, hrun⟩ := execList_stubbed f (stub s).1 (by simp [stub]) rfl h
      refine ⟨rest, ?_⟩
      rw [exec, hrun]
      simp [stub, unstub, effect, h, modify_length_append, exit_foldl,
        List.getElem_append_right (Nat.le_refl s.stubs.length)]

/-- A run of calls while `_exit` is the stub `ref`: the process does not end, and the stub
records the `With` calls outside nested `WithStub`s, whose stubs come after. -/
theorem execList_stubbed (ps : List Prog) (s : State) {ref : Nat} (href : ref < s.stubs.length)
    (he : s.exitFn = .stub ref) (h : s.halted = none) :
    ∃ rest, execList ps s = { s with
      stubs := s.stubs.modify (fun se => (topExits ps).foldl (·.exit ·) se) ref ++ rest } := by
  cases ps with
  | nil => exact ⟨[], by simp [execList, topExits, show (fun se : StubbedExit => se) = id from rfl]⟩
  | cons p ps =>
      obtain ⟨rest₁, hp⟩ := exec_effect p s h
      cases p with
      | exitWith code =>
          have hstep : exec (.exitWith code) s =
              { s with stubs := s.stubs.modify (StubbedExit.exit code) ref } := by
            rw [hp, effect, exitWith, he]
          obtain ⟨rest, hrun⟩ := execList_stubbed ps
            { s with stubs := s.stubs.modify (StubbedExit.exit code) ref }
            (by simpa using href) he h
          refine ⟨rest, ?_⟩
          rw [execList_cons_of_running (by rw [hstep]; exact h), hstep, hrun,
            List.modify_modify_eq]
          rfl
      | withStub f =>
          obtain ⟨rest, hrun⟩ := execList_stubbed ps (effect (.withStub f) s rest₁)
            (by simp [effect]; omega) he h
          refine ⟨⟨!(topExits f).isEmpty, (topExits f).getLast?.getD 0, s.exitFn⟩ :: rest₁ ++ rest,
            ?_⟩
          rw [execList_cons_of_running (by rw [hp]; exact h), hp, hrun]
          simp [effect, modify_append_of_lt _ _ _ _ href]
end

/-- A run of calls while `_exit` is `os.Exit`: the process ends at the first `With` outside
nested `WithStub`s. -/
theorem execList_osExit (ps : List Prog) (s : State) (he : s.exitFn = .osExit)
    (h : s.halted = none) :
    ∃ rest, execList ps s = { s with stubs := s.stubs ++ rest, halted := (topExits ps).head? } := by
  induction ps generalizing s with
  | nil => exact ⟨[], by cases s; simp_all [execList, topExits]⟩
  | cons p ps ih =>
      obtain ⟨rest₁, hp⟩ := exec_effect p s h
      cases p with
      | exitWith code =>
          refine ⟨[], ?_⟩
          rw [execList, hp, effect, exitWith, he]
          simp
      | withStub f =>
          obtain ⟨rest, hrun⟩ := ih (effect (.withStub f) s rest₁) he h
          refine ⟨⟨!(topExits f).isEmpty, (topExits f).getLast?.getD 0, s.exitFn⟩ :: rest₁ ++ rest,
            ?_⟩
          rw [execList_cons_of_running (by rw [hp]; exact h), hp, hrun]
          simp [effect]

/-- `WithStub(f)` for every body from every running state: the process does not end, `_exit`
is restored, the earlier stubs are kept, and the returned stub has `Exited` set exactly when `f`
called `With` outside its nested `WithStub`s, with `Code` that of the last such call. -/
theorem withStub_spec (f : List Prog) (s : State) (h : s.halted = none) :
    ∃ rest, exec (.withStub f) s = { s with stubs :=
      s.stubs ++ ⟨!(topExits f).isEmpty, (topExits f).getLast?.getD 0, s.exitFn⟩ :: rest } :=
  exec_effect (.withStub f) s h

/-- Two calls under a stub, one more inside a nested `WithStub`. -/
theorem withStub_spec_nested :
    State.init.halted = none ∧
    ∃ rest, exec (.withStub [.exitWith 2, .withStub [.exitWith 5], .exitWith 3]) State.init =
      { State.init with stubs := State.init.stubs ++ ⟨true, 3, .osExit⟩ :: rest } :=
  ⟨rfl, withStub_spec [.exitWith 2, .withStub [.exitWith 5], .exitWith 3] State.init rfl⟩

/-- Every program from the start of the process ends it with the code of its first `With`
outside every `WithStub`, or not at all, and leaves `_exit` as `os.Exit`. -/
theorem run_exits (ps : List Prog) :
    ∃ rest, execList ps State.init = ⟨.osExit, rest, (topExits ps).head?⟩ :=
  execList_osExit ps State.init rfl rfl

/-- A `With` inside a `WithStub` is recorded; the first one outside ends the process. -/
example : execList [.withStub [.exitWith 1], .exitWith 2, .exitWith 3] State.init =
    ⟨.osExit, [⟨true, 1, .osExit⟩], some 2⟩ := by
  decide

end ReadGoCode.Exit
