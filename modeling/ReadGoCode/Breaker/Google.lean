import Mathlib

/-!
# The window history of `googleBreaker`

`googleBreaker` keeps a rolling window of buckets, each counting the requests of its slice of
time, their successes and their failures. `accept` reads `history()`: the successes and requests
of the window, and two streaks. `failingBuckets` counts the buckets with failures since the last
bucket with a success; it lowers the weight given to successes. `workingBuckets` counts the
buckets with successes since the last bucket with a failure; it scales the drop ratio down.
Buckets with neither leave both streaks as they were.

`history_spec` gives each count in closed form over the buckets `Reduce` visits, and shows the
two streaks are never both positive. So a window never both lowers the weight of successes and
scales its drop ratio down for recent good behaviour.
-/

namespace ReadGoCode.Breaker

/-- A bucket of the rolling window, with the counts `history` reads. -/
structure Bucket where
  sum : Int
  success : Int
  failure : Int

/-- `windowResult`. -/
structure WindowResult where
  accepts : Int
  total : Int
  failingBuckets : Int
  workingBuckets : Int

/-- The function `history` passes to `b.stat.Reduce`, applied to one bucket. -/
def WindowResult.reduce (result : WindowResult) (b : Bucket) : WindowResult where
  accepts := result.accepts + b.success
  total := result.total + b.sum
  workingBuckets :=
    if b.failure > 0 then 0
    else if b.success > 0 then result.workingBuckets + 1 else result.workingBuckets
  failingBuckets :=
    if b.success > 0 then 0
    else if b.failure > 0 then result.failingBuckets + 1 else result.failingBuckets

/-- `b.history()`, where `buckets` are the buckets `Reduce` visits, oldest first. -/
def history (buckets : List Bucket) : WindowResult :=
  buckets.foldl WindowResult.reduce ⟨0, 0, 0, 0⟩

/-- `Reduce` over one more bucket folds it into the history. -/
theorem history_append (buckets : List Bucket) (b : Bucket) :
    history (buckets ++ [b]) = (history buckets).reduce b := by
  simp [history, List.foldl_append]

/-- `history` over every window: `accepts` and `total` are the sums of the buckets' successes and
requests. `failingBuckets` counts the buckets with a failure among those after the last bucket
with a success, and `workingBuckets` counts the buckets with a success among those after the last
bucket with a failure. The two are never both positive. -/
theorem history_spec (buckets : List Bucket) :
    (history buckets).accepts = (buckets.map Bucket.success).sum ∧
    (history buckets).total = (buckets.map Bucket.sum).sum ∧
    (history buckets).failingBuckets =
      ((buckets.reverse.takeWhile (·.success ≤ 0)).countP (0 < ·.failure) : Nat) ∧
    (history buckets).workingBuckets =
      ((buckets.reverse.takeWhile (·.failure ≤ 0)).countP (0 < ·.success) : Nat) ∧
    ((history buckets).failingBuckets = 0 ∨ (history buckets).workingBuckets = 0) := by
  induction buckets using List.reverseRecOn with
  | nil => simp [history]
  | append_singleton buckets b ih =>
      obtain ⟨ha, ht, hf, hw, hx⟩ := ih
      rw [hf, hw] at hx
      rw [history_append]
      simp only [WindowResult.reduce, List.map_append, List.sum_append, List.map_singleton,
        List.sum_singleton, ha, ht, List.reverse_append, List.reverse_singleton,
        List.singleton_append, List.takeWhile_cons]
      by_cases hs : 0 < b.success <;> by_cases hfl : 0 < b.failure <;>
        simp [hs, hfl, hf, hw, List.countP_cons, Int.not_le.mpr, Int.not_lt.mp]
      -- a bucket with neither a success nor a failure leaves both streaks as they were
      simpa using hx

end ReadGoCode.Breaker
