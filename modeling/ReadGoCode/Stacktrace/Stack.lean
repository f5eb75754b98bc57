import Mathlib.Data.List.Basic

/-!
# Captured stack traces and their pool

`Capture(skip, depth)` takes a `Stack` from `_stackPool` and fills its program counters with
`runtime.Callers`, which fills `min(len(buf), D)` entries of `buf` with the `D` frames above
`skip`. `First` uses one entry of `storage`. `Full` uses all of it and, while `Callers` fills
every entry, retries with twice the room; the last buffer becomes the stack's `storage`.
`Free` puts the stack back.

That loop ends only when `storage` is not empty (`grow_empty`): `_stackPool` makes stacks with
64 entries and no call shrinks `storage`, so in every run of `Capture` and `Free` calls every
stack has at least 64 entries, and every `Full` capture holds all `D` frames
(`stackPool_captures`).
-/

namespace ReadGoCode.Stacktrace

/-- `runtime.Callers(skip, buf)`, `frames` being the program counters above `skip`: the number
of entries it fills, and `buf` after it. -/
def callers (frames buf : List Nat) : Nat × List Nat :=
  let n := (frames.take buf.length).length
  (n, frames.take buf.length ++ buf.drop n)

/-- `runtime.Callers` reports as many counters as fit in the buffer. -/
theorem callers_fst (frames buf : List Nat) :
    (callers frames buf).1 = min buf.length frames.length := by
  simp [callers]

/-- `runtime.Callers` keeps the buffer's length. -/
theorem length_callers (frames buf : List Nat) : (callers frames buf).2.length = buf.length := by
  simp only [callers, List.length_append, List.length_take, List.length_drop]; omega

/-- The reported counters are the first frames, as many as fit. -/
theorem take_callers (frames buf : List Nat) :
    (callers frames buf).2.take (callers frames buf).1 = frames.take buf.length := by
  simp [callers, List.take_left']

/-- A `Stack`: its `storage` and the length of `pcs`, which is a prefix of `storage`. -/
structure Stack where
  storage : List Nat
  pcs : Nat
deriving DecidableEq

/-- `Depth`. -/
inductive Depth where
  | first
  | full
deriving DecidableEq

/-- `st.Count()`. -/
def Stack.count (st : Stack) : Nat := st.pcs

/-- The loop of `Capture(skip, Full)` from `pcs` and `numFrames`, with `fuel` iterations at
most: while `Callers` fills every entry, retry with a buffer of twice the length. -/
def grow (frames : List Nat) : Nat → List Nat → Nat → Option (List Nat × Nat)
  | 0, _, _ => none
  | fuel + 1, pcs, numFrames =>
      if numFrames = pcs.length then
        let r := callers frames (List.replicate (pcs.length * 2) 0)
        grow frames fuel r.2 r.1
      else some (pcs, numFrames)

/-- With an empty `storage` the loop never ends: `Callers` fills all of an empty buffer, and
twice its length is still empty. -/
theorem grow_empty (frames : List Nat) : ∀ fuel, grow frames fuel [] 0 = none
  | 0 => rfl
  | fuel + 1 => by simpa [grow, callers] using grow_empty frames fuel

/-- From a non-empty buffer that `Callers` has filled, the loop with fuel for every doubling
ends with a buffer longer than the stack that holds all of it. -/
theorem grow_spec (frames : List Nat) : ∀ fuel (pcs : List Nat) n, 0 < pcs.length →
    n = min pcs.length frames.length → pcs.take n = frames.take pcs.length →
    frames.length + 2 ≤ fuel + pcs.length → 0 < fuel →
    ∃ pcs', grow frames fuel pcs n = some (pcs', frames.length) ∧
      frames.length < pcs'.length ∧ pcs'.take frames.length = frames ∧
      pcs.length ≤ pcs'.length
  | 0, _, _, _, _, _, _, hfuel => by omega
  | fuel + 1, pcs, n, hpos, hn, htake, hlen, _ => by
      unfold grow
      split
      · next hfull =>
          have hle : pcs.length ≤ frames.length := by omega
          have hfuel : 0 < fuel := by omega
          let buf := List.replicate (pcs.length * 2) 0
          have hlen' := length_callers frames buf
          rw [List.length_replicate] at hlen'
          obtain ⟨pcs', h, hlt, htake', hge⟩ := grow_spec frames fuel (callers frames buf).2
            (callers frames buf).1 (by omega) (by rw [callers_fst, length_callers])
            (by rw [take_callers, length_callers]) (by omega) hfuel
          exact ⟨pcs', h, hlt, htake', by omega⟩
      · next hpart =>
          have hD : n = frames.length := by omega
          refine ⟨pcs, by rw [hD], by omega, ?_, le_refl _⟩
          rw [← hD, htake, List.take_of_length_le (by omega)]

/-- `Capture(skip, depth)` on the `stack` the pool handed out, `frames` being the program
counters above `skip + 2`: the stack it returns, or `none` when it does not return, because
`storage[:1]` of an empty `storage` panics or the loop of `Full` runs out of `fuel`. -/
def capture (frames : List Nat) (depth : Depth) (stack : Stack) (fuel : Nat) : Option Stack :=
  match depth with
  | .first =>
      if stack.storage = [] then none
      else
        let r := callers frames (stack.storage.take 1)
        some ⟨r.2 ++ stack.storage.drop 1, r.1⟩
  | .full =>
      let r := callers frames stack.storage
      (grow frames fuel r.2 r.1).map fun g => ⟨g.1, g.2⟩

/-- `Capture(skip, First)` on a stack with a non-empty `storage` returns it with one frame
at most and its `storage` as long as before. -/
theorem capture_first (frames : List Nat) {st : Stack} (hst : st.storage ≠ []) (fuel : Nat) :
    ∃ st', capture frames .first st fuel = some st' ∧ st'.count ≤ 1 ∧
      st'.storage.length = st.storage.length := by
  have hpos : 0 < st.storage.length := List.length_pos.mpr hst
  refine ⟨_, by simp only [capture, if_neg hst]; rfl, ?_, ?_⟩
  · simp only [Stack.count, callers_fst, List.length_take]; omega
  · simp only [List.length_append, length_callers, List.length_take, List.length_drop]; omega

/-- `Capture(skip, Full)` on a stack with a non-empty `storage`, with fuel for every doubling,
returns a stack whose `pcs` holds all the frames and is shorter than its `storage`, which is at
least as long as before. -/
theorem capture_full (frames : List Nat) {st : Stack} (hst : 0 < st.storage.length) {fuel : Nat}
    (hfuel : frames.length + 2 ≤ fuel) :
    ∃ st', capture frames .full st fuel = some st' ∧ st'.count = frames.length ∧
      frames.length < st'.storage.length ∧ st'.storage.take frames.length = frames ∧
      st.storage.length ≤ st'.storage.length := by
  have hlen := length_callers frames st.storage
  obtain ⟨pcs', h, hlt, htake, hge⟩ := grow_spec frames fuel (callers frames st.storage).2
    (callers frames st.storage).1 (by omega) (by rw [callers_fst, hlen])
    (by rw [take_callers, hlen]) (by omega) (by omega)
  exact ⟨⟨pcs', frames.length⟩, by simp only [capture, h]; rfl, rfl, hlt, htake,
    by dsimp only; omega⟩

/-- What a capture returned: one frame at most for `First`; for `Full`, a `pcs` that holds all
the frames and is shorter than `storage`. -/
def Captured : Depth × List Nat × Stack → Prop
  | (.first, _, st) => st.count ≤ 1
  | (.full, frames, st) =>
      st.count = frames.length ∧ frames.length < st.storage.length ∧
        st.storage.take frames.length = frames

/-- A capture from a stack with at least 64 entries of `storage`, with fuel for every doubling,
returns what `Captured` says, and a stack with at least 64 entries of `storage`. -/
theorem capture_spec (frames : List Nat) (depth : Depth) {st : Stack}
    (hst : 64 ≤ st.storage.length) {fuel : Nat} (hfuel : frames.length + 2 ≤ fuel) :
    ∃ st', capture frames depth st fuel = some st' ∧ Captured (depth, frames, st') ∧
      64 ≤ st'.storage.length := by
  cases depth with
  | first =>
      obtain ⟨st', h, hcount, hlen⟩ :=
        capture_first frames (List.ne_nil_of_length_pos (show 0 < st.storage.length by omega)) fuel
      exact ⟨st', h, hcount, by omega⟩
  | full =>
      obtain ⟨st', h, hcount, hlt, htake, hge⟩ :=
        capture_full frames (show 0 < st.storage.length by omega) hfuel
      exact ⟨st', h, ⟨hcount, hlt, htake⟩, by omega⟩

/-- `st.Free()`: `pcs` is nil and the stack goes back to the pool. -/
def Stack.free (st : Stack) : Stack := { st with pcs := 0 }

/-- The `Stack` `_stackPool`'s constructor makes. -/
def Stack.new : Stack := ⟨List.replicate 64 0, 0⟩

/-- `_stackPool` with the stacks the program holds, and, as a ghost, every capture made: its
depth, its frames and the stack it returned. -/
structure StackPool where
  pool : List Stack
  held : List Stack
  captured : List (Depth × List Nat × Stack)

/-- The empty pool, before any call. -/
def StackPool.init : StackPool := ⟨[], [], []⟩

/-- A call on the stack pool: `Capture` with the frames above its `skip` and its depth, the
pool handing out its `i`-th stack or, for `none` or an index out of range, a new one; or
`Free` of the `h`-th stack the program holds. -/
inductive StackOp where
  | capture (frames : List Nat) (depth : Depth) (pick : Option Nat)
  | free (h : Nat)

namespace StackPool

/-- `_stackPool.Get()`: the stack handed out and the pool after it. -/
def get (s : StackPool) (pick : Option Nat) : Stack × List Stack :=
  match pick with
  | some i => if h : i < s.pool.length then (s.pool[i], s.pool.eraseIdx i) else (Stack.new, s.pool)
  | none => (Stack.new, s.pool)

/-- One call, with `fuel` for the loop of `Full`. -/
def step (fuel : Nat) (s : StackPool) : StackOp → Option StackPool
  | .capture frames depth pick =>
      let g := s.get pick
      (capture frames depth g.1 fuel).map fun st =>
        ⟨g.2, s.held ++ [st], s.captured ++ [(depth, frames, st)]⟩
  | .free h =>
      if hh : h < s.held.length then
        some ⟨s.pool ++ [s.held[h].free], s.held.eraseIdx h, s.captured⟩
      else some s

/-- A run of calls. -/
def run (fuel : Nat) : StackPool → List StackOp → Option StackPool
  | s, [] => some s
  | s, op :: ops => (s.step fuel op).bind fun s' => run fuel s' ops

/-! ## Every run of `Capture` and `Free` -/

/-- Every stack, pooled or held, has at least 64 entries of `storage`. -/
def Inv (s : StackPool) : Prop := ∀ st ∈ s.pool ++ s.held, 64 ≤ st.storage.length

end StackPool

/-- The frames a call captures. -/
def StackOp.frameCount : StackOp → Nat
  | .capture frames _ _ => frames.length
  | .free _ => 0

namespace StackPool

/-- `_stackPool.Get` hands out storage of at least 64 counters and pools nothing new. -/
theorem get_spec {s : StackPool} (hs : s.Inv) (pick : Option Nat) :
    64 ≤ (s.get pick).1.storage.length ∧ ∀ st ∈ (s.get pick).2, st ∈ s.pool := by
  unfold get
  split
  · split
    · next i hi =>
        exact ⟨hs _ (List.mem_append_left _ (List.getElem_mem hi)),
          fun _ h => List.mem_of_mem_eraseIdx h⟩
    · exact ⟨by simp [Stack.new], fun _ h => h⟩
  · exact ⟨by simp [Stack.new], fun _ h => h⟩

/-- One call keeps the invariant and adds only good captures; with fuel for its frames, it
returns. -/
theorem step_spec {fuel : Nat} {s : StackPool} (hs : s.Inv) (hc : ∀ c ∈ s.captured, Captured c)
    (op : StackOp) (hfuel : op.frameCount + 2 ≤ fuel) :
    ∃ s', s.step fuel op = some s' ∧ s'.Inv ∧ ∀ c ∈ s'.captured, Captured c := by
  cases op with
  | capture frames depth pick =>
      obtain ⟨hget, hpool⟩ := get_spec hs pick
      obtain ⟨st', h, hcap, hlen⟩ := capture_spec frames depth hget hfuel
      refine ⟨⟨(s.get pick).2, s.held ++ [st'], s.captured ++ [(depth, frames, st')]⟩,
        by simp only [step, h]; rfl, ?_, ?_⟩
      · intro st hst
        simp only [List.mem_append, List.mem_singleton] at hst
        rcases hst with hst | hst | rfl
        · exact hs st (List.mem_append_left _ (hpool st hst))
        · exact hs st (List.mem_append_right _ hst)
        · exact hlen
      · simp only [List.mem_append, List.mem_singleton]
        rintro c (hc' | rfl)
        · exact hc c hc'
        · exact hcap
  | free h =>
      by_cases hh : h < s.held.length
      · refine ⟨⟨s.pool ++ [s.held[h].free], s.held.eraseIdx h, s.captured⟩,
          by rw [step, dif_pos hh], ?_, hc⟩
        intro st hst
        simp only [List.mem_append, List.mem_singleton] at hst
        rcases hst with (hst | hst) | hst
        · exact hs st (List.mem_append_left _ hst)
        · rw [hst]; exact hs s.held[h] (List.mem_append_right _ (List.getElem_mem hh))
        · exact hs st (List.mem_append_right _ (List.mem_of_mem_eraseIdx hst))
      · exact ⟨s, by rw [step, dif_neg hh], hs, hc⟩

/-- Every run of calls with fuel for the frames of each keeps the invariant, adds only good
captures, and returns. -/
theorem run_spec {fuel : Nat} : ∀ (ops : List StackOp) (s : StackPool), s.Inv →
    (∀ c ∈ s.captured, Captured c) → (∀ op ∈ ops, op.frameCount + 2 ≤ fuel) →
    ∃ s', s.run fuel ops = some s' ∧ s'.Inv ∧ ∀ c ∈ s'.captured, Captured c
  | [], s, hs, hc, _ => ⟨s, rfl, hs, hc⟩
  | op :: ops, s, hs, hc, hfuel => by
      obtain ⟨s₁, h₁, hs₁, hc₁⟩ := step_spec hs hc op (hfuel op (List.mem_cons_self _ _))
      obtain ⟨s', h', hs', hc'⟩ :=
        run_spec ops s₁ hs₁ hc₁ fun op' hop => hfuel op' (List.mem_cons_of_mem _ hop)
      exact ⟨s', by simp only [run, h₁, Option.some_bind, h'], hs', hc'⟩

end StackPool

/-- Every sequence of `Capture` and `Free` calls on `_stackPool`, with fuel for the frames of
each capture, returns. In its end every stack, pooled or held, has at least 64 entries of
`storage`. Every `First` capture gave one frame at most, and every `Full` capture gave a `pcs`
that holds all `D` frames, with `Count() = D < len(storage)`. -/
theorem stackPool_captures (fuel : Nat) (ops : List StackOp)
    (hfuel : ∀ op ∈ ops, op.frameCount + 2 ≤ fuel) :
    ∃ s, StackPool.init.run fuel ops = some s ∧
      (∀ st ∈ s.pool ++ s.held, 64 ≤ st.storage.length) ∧ ∀ c ∈ s.captured, Captured c :=
  StackPool.run_spec ops _ (fun _ h => by simp [StackPool.init] at h) (fun _ h => nomatch h) hfuel

/-- A `Full` capture of three frames, its `Free`, and a `First` capture of one frame from the
pool. -/
theorem stackPool_captures_three :
    (∀ op ∈ [StackOp.capture [7, 8, 9] .full none, .free 0, .capture [7] .first (some 0)],
      op.frameCount + 2 ≤ 5) ∧
    ∃ s, StackPool.init.run 5
        [StackOp.capture [7, 8, 9] .full none, .free 0, .capture [7] .first (some 0)] = some s ∧
      (∀ st ∈ s.pool ++ s.held, 64 ≤ st.storage.length) ∧ ∀ c ∈ s.captured, Captured c :=
  ⟨by decide, stackPool_captures 5 _ (by decide)⟩

end ReadGoCode.Stacktrace
