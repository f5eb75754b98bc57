import Mathlib.Data.List.Sort

/-!
# The mock clock of ztest

`MockClock` keeps the current time and a slice of waiters, each with the time it waits for
and a function. `Add(d)` sorts the waiters once, then resolves them from the front while the
first one is in range: it sets `now` to the waiter's time and runs its function, which may
schedule more waiters with `runAt`, appended at the back. Times are nanoseconds.

What a waiter's function schedules when it runs is a parameter, `run`: the only callers of
`runAt` in the repository are the ticks of `NewTicker`, whose function schedules the next tick.
A waiter scheduled during `Add` is never sorted in, so the loop can run waiters out of order and
stop before waiters that are in range (`add_ticks_out_of_order`). When no function schedules a
waiter in range, `Add` does resolve exactly the waiters in range, in order
(`resolve_of_scheduled_later`).
-/

namespace ReadGoCode.Ztest

/-- A `waiter`: the time it waits for (`until`, a keyword of Lean) and its function. -/
structure Waiter (Fn : Type) where
  untilTime : Int
  fn : Fn
deriving DecidableEq

/-- The order `sort.Slice` sorts waiters by: their times. -/
def Waiter.le {Fn : Type} (a b : Waiter Fn) : Prop := a.untilTime ≤ b.untilTime

instance {Fn : Type} : DecidableRel (@Waiter.le Fn) := fun a b =>
  inferInstanceAs (Decidable (a.untilTime ≤ b.untilTime))

instance {Fn : Type} : IsTotal (Waiter Fn) Waiter.le :=
  ⟨fun a b => Int.le_total a.untilTime b.untilTime⟩

instance {Fn : Type} : IsTrans (Waiter Fn) Waiter.le := ⟨fun _ _ _ h₁ h₂ => Int.le_trans h₁ h₂⟩

/-- A `MockClock`: the current time and the waiters, in the order of the slice. -/
structure MockClock (Fn : Type) where
  now : Int
  waiters : List (Waiter Fn)
deriving DecidableEq

namespace MockClock

variable {Fn : Type}

/-- `c.runAt(t, fn)`. -/
def runAt (c : MockClock Fn) (t : Int) (fn : Fn) : MockClock Fn :=
  { c with waiters := c.waiters ++ [⟨t, fn⟩] }

section Add

-- `run fn t`: the waiters a waiter's function schedules with `runAt`, in order, when it runs
-- with `now` at its time `t`.
variable (run : Fn → Int → List (Waiter Fn))

/-- The loop of `Add` up to `newTime`, with `fuel` iterations at most (`none` when it runs
out): the clock it ends with and the waiters it resolves, in order. -/
def resolve (newTime : Int) : Nat → MockClock Fn → Option (MockClock Fn × List (Waiter Fn))
  | 0, _ => none
  | fuel + 1, c =>
      match c.waiters with
      | [] => some (c, [])
      | w :: ws =>
          if newTime < w.untilTime then some (c, [])
          else (resolve newTime fuel ⟨w.untilTime, ws ++ run w.fn w.untilTime⟩).map
            fun r => (r.1, w :: r.2)

/-- `c.Add(d)`: a panic for a negative `d`; otherwise the clock, with `now` advanced by `d`,
and the waiters resolved, or `none` when `fuel` runs out. -/
def add (fuel : Nat) (c : MockClock Fn) (d : Int) :
    Except String (Option (MockClock Fn × List (Waiter Fn))) :=
  if d < 0 then .error "cannot add negative duration"
  else
    .ok ((resolve run (c.now + d) fuel { c with waiters := c.waiters.insertionSort Waiter.le }).map
      fun r => ({ r.1 with now := c.now + d }, r.2))

/-- Whether a waiter is in range of `newTime`: `!w.until.After(newTime)`. -/
def inRange (newTime : Int) (w : Waiter Fn) : Bool := decide (w.untilTime ≤ newTime)

/-- Every run of the loop of `Add`, whatever the functions schedule: it resolves only waiters
in range, loses and duplicates none (those resolved and those pending are those pending
before and those scheduled), and stops only at an empty slice or at a waiter out of range. -/
theorem resolve_spec (newTime : Int) : ∀ fuel (c : MockClock Fn) r,
    resolve run newTime fuel c = some r →
      (∀ w ∈ r.2, w.untilTime ≤ newTime) ∧
      (r.2 ++ r.1.waiters).Perm (c.waiters ++ r.2.flatMap fun w => run w.fn w.untilTime) ∧
      ∀ w ∈ r.1.waiters.head?, newTime < w.untilTime
  | 0, _, _, h => nomatch h
  | fuel + 1, c, r, h => by
      unfold resolve at h
      split at h
      · next hc => cases h; simp [hc]
      · next w ws hc =>
          split at h
          · next hlt => cases h; simp [hc, hlt]
          · next hge =>
              obtain ⟨r', hr', rfl⟩ := Option.map_eq_some'.mp h
              obtain ⟨hin, hperm, hstop⟩ := resolve_spec newTime fuel _ r' hr'
              refine ⟨?_, ?_, hstop⟩
              · simpa [not_lt.mp hge] using hin
              · simpa [hc] using hperm

/-- When every waiter a function schedules is out of range, the loop resolves the waiters
before it in order while they are in range, and the first one out of range stops it. -/
theorem resolve_of_scheduled_later (newTime : Int)
    (hlater : ∀ f t, ∀ w ∈ run f t, newTime < w.untilTime) (ws : List (Waiter Fn)) :
    ∀ fuel now (later : List (Waiter Fn)), ws.length < fuel →
      (∀ w ∈ later, newTime < w.untilTime) →
      ∃ now', resolve run newTime fuel ⟨now, ws ++ later⟩ =
        some (⟨now', ws.dropWhile (inRange newTime) ++ later ++
          (ws.takeWhile (inRange newTime)).flatMap (fun w => run w.fn w.untilTime)⟩,
          ws.takeWhile (inRange newTime)) := by
  induction ws with
  | nil =>
      intro fuel now later hfuel hlate
      obtain ⟨fuel, rfl⟩ : ∃ f, fuel = f + 1 := ⟨fuel - 1, by simp at hfuel; omega⟩
      refine ⟨now, ?_⟩
      cases later with
      | nil => rfl
      | cons w later => simp [resolve, hlate w (by simp)]
  | cons w ws ih =>
      intro fuel now later hfuel hlate
      obtain ⟨fuel, rfl⟩ : ∃ f, fuel = f + 1 := ⟨fuel - 1, by simp at hfuel; omega⟩
      by_cases hw : newTime < w.untilTime
      · exact ⟨now, by simp [resolve, hw, inRange, not_le.mpr hw]⟩
      · obtain ⟨now', h⟩ := ih fuel w.untilTime (later ++ run w.fn w.untilTime)
          (by simp at hfuel; omega)
          (fun u hu => (List.mem_append.mp hu).elim (hlate u) (hlater w.fn w.untilTime u))
        refine ⟨now', ?_⟩
        simp only [resolve, List.cons_append, if_neg hw, List.append_assoc] at h ⊢
        simp [h, inRange, not_lt.mp hw]

/-- In a slice sorted by time, the waiters in range come first. -/
theorem sorted_inRange {ws : List (Waiter Fn)} (hs : ws.Sorted Waiter.le) (newTime : Int) :
    ws.takeWhile (inRange newTime) = ws.filter (inRange newTime) ∧
      ∀ w ∈ ws.dropWhile (inRange newTime), newTime < w.untilTime := by
  induction ws with
  | nil => simp
  | cons a ws ih =>
      obtain ⟨ha, hs⟩ := List.sorted_cons.mp hs
      by_cases hin : inRange newTime a
      · simpa [hin] using ih hs
      · have hout : ∀ w ∈ a :: ws, newTime < w.untilTime := by
          simp only [inRange, decide_eq_true_eq, not_le] at hin
          simpa [hin] using fun w hw => lt_of_lt_of_le hin (ha w hw)
        refine ⟨?_, by simpa [hin] using hout⟩
        rw [List.takeWhile_cons_of_neg hin, List.filter_cons_of_neg hin, eq_comm,
          List.filter_eq_nil_iff]
        simpa [inRange] using fun w hw => hout w (List.mem_cons_of_mem a hw)

/-- When no function schedules a waiter in range, `Add(d)` with `d ≥ 0` and fuel for every
waiter resolves exactly the waiters in range, each once and in order of time, leaves only
waiters out of range pending, and ends at `now + d`. -/
theorem add_of_scheduled_later (c : MockClock Fn) {d : Int} (hd : 0 ≤ d)
    (hlater : ∀ f t, ∀ w ∈ run f t, c.now + d < w.untilTime) (fuel : Nat)
    (hfuel : c.waiters.length < fuel) :
    ∃ c' trace, c.add run fuel d = .ok (some (c', trace)) ∧ c'.now = c.now + d ∧
      trace.Perm (c.waiters.filter (inRange (c.now + d))) ∧ trace.Sorted Waiter.le ∧
      ∀ w ∈ c'.waiters, c.now + d < w.untilTime := by
  have hs := List.sorted_insertionSort Waiter.le c.waiters
  obtain ⟨htake, hdrop⟩ := sorted_inRange hs (c.now + d)
  obtain ⟨now', h⟩ := resolve_of_scheduled_later run (c.now + d) hlater
    (c.waiters.insertionSort Waiter.le) fuel c.now [] (by simpa using hfuel) (by simp)
  simp only [List.append_nil] at h
  refine ⟨_, _, (by rw [add, if_neg (not_lt.mpr hd), h]; rfl :
    c.add run fuel d = .ok (some (⟨c.now + d, _⟩, _))), rfl, ?_,
    hs.sublist (List.takeWhile_sublist _), ?_⟩
  · rw [htake]
    exact (List.perm_insertionSort Waiter.le c.waiters).filter _
  · simp only [List.mem_append, List.mem_flatMap]
    rintro w (hw | ⟨u, -, hw⟩)
    · exact hdrop w hw
    · exact hlater u.fn u.untilTime w hw

end Add

/-- The function of a tick of `NewTicker(d)`: when it runs at `t`, it schedules the next tick
at `t + d`. A ticker's function is its period. -/
def tick (d t : Int) : List (Waiter Int) := [⟨t + d, d⟩]

/-- `c.NewTicker(d)`: the first tick at `now + d`. -/
def newTicker (c : MockClock Int) (d : Int) : MockClock Int := c.runAt (c.now + d) d

/-- Tickers of periods 1 and 5 made at time 0, then `Add(10)`: the ticks run at 1, 5, 2, 10
and 3, so `now` goes back from 5 to 2 and from 10 to 3, and the loop stops at the tick at 15
with the tick at 4 pending, although 4 is in range. -/
theorem add_ticks_out_of_order :
    (((⟨0, []⟩ : MockClock Int).newTicker 1).newTicker 5).add tick 6 10 =
      .ok (some (⟨10, [⟨15, 5⟩, ⟨4, 1⟩]⟩, [⟨1, 1⟩, ⟨5, 5⟩, ⟨2, 1⟩, ⟨10, 5⟩, ⟨3, 1⟩])) :=
  rfl

end MockClock

end ReadGoCode.Ztest
