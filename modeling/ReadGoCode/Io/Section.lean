import ReadGoCode.Io.Read

/-!
# `io.SectionReader`

`NewSectionReader(r, off, n)` reads the section of `r` from `off` to `limit`, which is
`off + n`, or `2^63 - 1` when its guard `off <= maxint64 - n` fails. `Read`, `Seek` and
`ReadAt` work in `int64`, so every sum and difference here is wrapped (`wrap`).

Each operation reports the `ReadAt` it issues to `r`, its offset and length. `run_within` says
that for every section reader whose `base`, `off` and `limit` are ordered and in range, every
`ReadAt` of every run of operations lies in `[base, limit]`, and `off` never goes below
`base`. For `off, n >= 0` the limit is `min(off + n, 2^63 - 1)` (`newSectionReader_limit`).
For a negative `n` the guard's own subtraction overflows, and the section has no end
(`newSectionReader_negative_unbounded`).
-/

namespace ReadGoCode.Io

/-- `maxint64`. -/
def maxint64 : Int := 2 ^ 63 - 1

/-- An `int64` result: the two's complement wrap of the exact value. -/
def wrap (x : Int) : Int := Int.bmod x (2 ^ 64)

/-- An `int64` value wraps to itself. -/
theorem wrap_eq_self {x : Int} (h₁ : -2 ^ 63 ≤ x) (h₂ : x ≤ maxint64) : wrap x = x := by
  unfold wrap Int.bmod maxint64 at *
  simp only [Nat.reducePow, Nat.cast_ofNat, Int.reducePow, Int.reduceAdd, Int.reduceDiv,
    Int.reduceSub] at h₁ h₂ ⊢
  split <;> omega

/-- Every `int64` lies in `[-2^63, maxint64]`. -/
theorem wrap_bounds (x : Int) : -2 ^ 63 ≤ wrap x ∧ wrap x ≤ maxint64 := by
  have h₁ := Int.le_bmod (x := x) (m := 2 ^ 64) (by decide)
  have h₂ := Int.bmod_lt (x := x) (m := 2 ^ 64) (by decide)
  unfold wrap maxint64
  simp only [Nat.reducePow, Nat.cast_ofNat, Int.reducePow, Int.reduceAdd, Int.reduceDiv,
    Int.reduceSub, Int.reduceNeg] at h₁ h₂ ⊢
  omega

/-- A `ReaderAt`: what `ReadAt(p, off)` with `len(p) = len` answers, the count and the error. -/
abbrev ReaderAt := Int → Nat → Nat × Option IoError

/-- The `ReaderAt` contract: `0 <= n <= len(p)`. -/
def ReaderAt.Valid (r : ReaderAt) : Prop := ∀ off len, (r off len).1 ≤ len

/-- A `SectionReader`, without its `ReaderAt`. -/
structure SectionReader where
  base : Int
  off : Int
  limit : Int
deriving DecidableEq

/-- `NewSectionReader(r, off, n)`. -/
def newSectionReader (off n : Int) : SectionReader :=
  let remaining := if off ≤ wrap (maxint64 - n) then wrap (n + off) else maxint64
  ⟨off, off, remaining⟩

namespace SectionReader

/-- `s.Size()`. -/
def size (s : SectionReader) : Int := wrap (s.limit - s.base)

/-- `s.Read(p)` with `len(p) = len`: the answer, the reader after it, and the `ReadAt` it
issues, its offset and length. -/
def read (r : ReaderAt) (s : SectionReader) (len : Nat) :
    (Nat × Option IoError) × SectionReader × Option (Int × Nat) :=
  if s.off ≥ s.limit then ((0, some .eof), s, none)
  else
    let max := wrap (s.limit - s.off)
    let len := if len > max then max.toNat else len
    let a := r s.off len
    (a, { s with off := wrap (s.off + a.1) }, some (s.off, len))

/-- What `Seek` adds its offset to for `whence`: `base` for `SeekStart` (0), `off` for
`SeekCurrent` (1), `limit` for `SeekEnd` (2), and nothing for any other `whence`. -/
def seekOrigin (s : SectionReader) (whence : Int) : Option Int :=
  if whence = 0 then some s.base
  else if whence = 1 then some s.off
  else if whence = 2 then some s.limit
  else none

/-- `s.Seek(offset, whence)`. -/
def seek (s : SectionReader) (offset whence : Int) : (Int × Option IoError) × SectionReader :=
  match s.seekOrigin whence with
  | none => ((0, some (.other "Seek: invalid whence")), s)
  | some origin =>
      let offset := wrap (offset + origin)
      if offset < s.base then ((0, some (.other "Seek: invalid offset")), s)
      else ((wrap (offset - s.base), none), { s with off := offset })

/-- `s.ReadAt(p, off)` with `len(p) = len`: the answer and the `ReadAt` it issues. -/
def readAt (r : ReaderAt) (s : SectionReader) (len : Nat) (off : Int) :
    (Nat × Option IoError) × Option (Int × Nat) :=
  if off < 0 ∨ off ≥ wrap (s.limit - s.base) then ((0, some .eof), none)
  else
    let off := wrap (off + s.base)
    let max := wrap (s.limit - off)
    if len > max then
      let a := r off max.toNat
      ((a.1, if a.2 = none then some .eof else a.2), some (off, max.toNat))
    else (r off len, some (off, len))

/-- A call on a section reader. -/
inductive Op where
  | read (len : Nat)
  | seek (offset whence : Int)
  | readAt (len : Nat) (off : Int)

/-- One call: the section reader after it and the `ReadAt` it issues. -/
def step (r : ReaderAt) (s : SectionReader) : Op → SectionReader × Option (Int × Nat)
  | .read len => ((s.read r len).2.1, (s.read r len).2.2)
  | .seek offset whence => ((s.seek offset whence).2, none)
  | .readAt len off => (s, (s.readAt r len off).2)

/-- A run of calls: the section reader after them and the `ReadAt`s they issue, in order. -/
def run (r : ReaderAt) : SectionReader → List Op → SectionReader × List (Int × Nat)
  | s, [] => (s, [])
  | s, op :: ops =>
      let (s', call) := s.step r op
      let rest := run r s' ops
      (rest.1, call.toList ++ rest.2)

/-! ## Every `ReadAt` lies in the section -/

/-- A section reader's bounds are ordered and in range, and `off` is at or after `base`. -/
structure Inv (s : SectionReader) : Prop where
  base_nonneg : 0 ≤ s.base
  base_le_limit : s.base ≤ s.limit
  limit_le : s.limit ≤ maxint64
  base_le_off : s.base ≤ s.off
  off_le : s.off ≤ maxint64

/-- A `ReadAt` of `len` bytes at `off` lies within `[base, limit]`. -/
def Within (s : SectionReader) (call : Int × Nat) : Prop :=
  s.base ≤ call.1 ∧ call.1 + call.2 ≤ s.limit

section Step

variable {r : ReaderAt} {s : SectionReader} (hs : s.Inv)
include hs

/-- `Read` keeps the invariant and the base, and reads only inside the section. -/
theorem read_spec (hr : r.Valid) (len : Nat) :
    (s.read r len).2.1.Inv ∧ (s.read r len).2.1.base = s.base ∧
      (s.read r len).2.1.limit = s.limit ∧ ∀ c ∈ (s.read r len).2.2, s.Within c := by
  obtain ⟨h₀, h₁, h₂, h₃, h₄⟩ := hs
  unfold read
  split
  · exact ⟨⟨h₀, h₁, h₂, h₃, h₄⟩, rfl, rfl, by simp⟩
  · next hlt =>
      have hmax : wrap (s.limit - s.off) = s.limit - s.off :=
        wrap_eq_self (by unfold maxint64 at *; omega) (by unfold maxint64 at *; omega)
      simp only [hmax]
      generalize hn : (if len > s.limit - s.off then (s.limit - s.off).toNat else len) = n
      have hlen : (n : Int) ≤ s.limit - s.off := by subst hn; split <;> omega
      have ha := hr s.off n
      have hoff : wrap (s.off + ((r s.off n).1 : Int)) = s.off + (r s.off n).1 :=
        wrap_eq_self (by unfold maxint64 at *; omega) (by omega)
      refine ⟨⟨h₀, h₁, h₂, by simp only [hoff]; omega, by simp only [hoff]; omega⟩, trivial,
        trivial, ?_⟩
      simp only [Option.mem_def, Option.some.injEq]
      rintro c rfl
      exact ⟨h₃, by simp only; omega⟩

/-- `Seek` keeps the invariant and the base. -/
theorem seek_spec (offset whence : Int) :
    (s.seek offset whence).2.Inv ∧ (s.seek offset whence).2.base = s.base ∧
      (s.seek offset whence).2.limit = s.limit := by
  obtain ⟨h₀, h₁, h₂, h₃, h₄⟩ := hs
  rcases ho : s.seekOrigin whence with _ | origin
  · rw [seek, ho]; exact ⟨⟨h₀, h₁, h₂, h₃, h₄⟩, rfl, rfl⟩
  · rw [seek, ho]
    dsimp only
    split
    · exact ⟨⟨h₀, h₁, h₂, h₃, h₄⟩, rfl, rfl⟩
    · next hge => exact ⟨⟨h₀, h₁, h₂, by dsimp only; omega, (wrap_bounds _).2⟩, rfl, rfl⟩

/-- `ReadAt` reads only inside the section. -/
theorem readAt_spec (len : Nat) (off : Int) : ∀ c ∈ (s.readAt r len off).2, s.Within c := by
  obtain ⟨h₀, h₁, h₂, h₃, h₄⟩ := hs
  unfold readAt
  rw [wrap_eq_self (x := s.limit - s.base) (by unfold maxint64 at *; omega) (by omega)]
  split
  · simp
  · next hin =>
      have hoff : wrap (off + s.base) = off + s.base := wrap_eq_self (by omega) (by omega)
      have hmax : wrap (s.limit - (off + s.base)) = s.limit - (off + s.base) :=
        wrap_eq_self (by unfold maxint64 at *; omega) (by unfold maxint64 at *; omega)
      simp only [hoff, hmax]
      -- both branches issue one `ReadAt` at `off + base` of at most `limit - (off + base)` bytes
      split
      all_goals
        simp only [Option.mem_def, Option.some.injEq]
        rintro c rfl
        exact ⟨by omega, by simp only; omega⟩

/-- One call keeps the invariant and the bounds, and its `ReadAt` lies in the section. -/
theorem step_spec (hr : r.Valid) (op : Op) :
    (s.step r op).1.Inv ∧ (s.step r op).1.base = s.base ∧ (s.step r op).1.limit = s.limit ∧
      ∀ c ∈ (s.step r op).2, s.Within c := by
  cases op with
  | read len => exact read_spec hs hr len
  | seek offset whence =>
      obtain ⟨h₁, h₂, h₃⟩ := seek_spec hs offset whence
      exact ⟨h₁, h₂, h₃, by simp [step]⟩
  | readAt len off => exact ⟨hs, rfl, rfl, readAt_spec hs len off⟩

end Step

/-- Every run of calls on a section reader whose bounds are ordered and in range, whatever
`r` answers within its contract: every `ReadAt` it issues lies in `[base, limit]`, and the
reader keeps its bounds and `off ≥ base`. -/
theorem run_within {r : ReaderAt} (hr : r.Valid) (ops : List Op) :
    ∀ s : SectionReader, s.Inv →
      (run r s ops).1.Inv ∧ (run r s ops).1.base = s.base ∧ (run r s ops).1.limit = s.limit ∧
        ∀ c ∈ (run r s ops).2, s.Within c := by
  induction ops with
  | nil => intro s hs; exact ⟨hs, rfl, rfl, by simp [run]⟩
  | cons op ops ih =>
      intro s hs
      obtain ⟨hinv, hbase, hlimit, hcall⟩ := step_spec hs hr op
      obtain ⟨hinv', hbase', hlimit', hcalls⟩ := ih _ hinv
      refine ⟨hinv', hbase'.trans hbase, hlimit'.trans hlimit, ?_⟩
      simp only [run, List.mem_append, Option.mem_toList]
      rintro c (hc | hc)
      · exact hcall c hc
      · obtain ⟨h₁, h₂⟩ := hcalls c hc
        exact ⟨hbase ▸ h₁, hlimit ▸ h₂⟩

end SectionReader

/-! ## The section of `NewSectionReader` -/

/-- For `off` and `n` between `0` and `maxint64`, the section ends at `off + n`, clipped at
`maxint64`, and its `Size` is at most `n`. -/
theorem newSectionReader_limit {off n : Int} (hoff : 0 ≤ off) (hoff' : off ≤ maxint64)
    (hn : 0 ≤ n) (hn' : n ≤ maxint64) :
    (newSectionReader off n).limit = min (off + n) maxint64 ∧ (newSectionReader off n).Inv ∧
      (newSectionReader off n).size ≤ n := by
  have hguard : wrap (maxint64 - n) = maxint64 - n :=
    wrap_eq_self (by unfold maxint64 at *; omega) (by omega)
  have hlimit : (newSectionReader off n).limit = min (off + n) maxint64 := by
    simp only [newSectionReader, hguard]
    split
    · rw [wrap_eq_self (by omega) (by omega)]; omega
    · omega
  have hbase : (newSectionReader off n).base = off := rfl
  have hsize : (newSectionReader off n).size = min (off + n) maxint64 - off := by
    rw [SectionReader.size, hlimit, hbase]
    exact wrap_eq_self (by unfold maxint64 at *; omega) (by omega)
  refine ⟨hlimit, ⟨?_, ?_, ?_, ?_, ?_⟩, ?_⟩ <;>
    simp only [hlimit, hsize, hbase, show (newSectionReader off n).off = off from rfl] <;> omega

/-- For `off` and `n` between `0` and `maxint64`, every `ReadAt` of every run of calls on
`NewSectionReader(r, off, n)` lies in `[off, min(off + n, maxint64)]`. -/
theorem newSectionReader_run_within {r : ReaderAt} (hr : r.Valid) {off n : Int}
    (hoff : 0 ≤ off) (hoff' : off ≤ maxint64) (hn : 0 ≤ n) (hn' : n ≤ maxint64)
    (ops : List SectionReader.Op) :
    ∀ c ∈ ((newSectionReader off n).run r ops).2,
      off ≤ c.1 ∧ c.1 + c.2 ≤ min (off + n) maxint64 := by
  obtain ⟨hlimit, hinv, -⟩ := newSectionReader_limit hoff hoff' hn hn'
  intro c hc
  obtain ⟨h₁, h₂⟩ := (SectionReader.run_within hr ops _ hinv).2.2.2 c hc
  exact ⟨h₁, hlimit ▸ h₂⟩

/-- `NewSectionReader(r, 0, -1)`: `maxint64 - n` overflows, the guard fails, and the section
runs to `maxint64`. `Size()` is `2^63 - 1`, and a `Read` of 10 bytes issues `r.ReadAt` at
offset 0 for 10 bytes, where the section `[0, 0)` holds none. -/
theorem newSectionReader_negative_unbounded (r : ReaderAt) :
    (newSectionReader 0 (-1)).size = 2 ^ 63 - 1 ∧
      ((newSectionReader 0 (-1)).read r 10).2.2 = some (0, 10) :=
  ⟨rfl, rfl⟩

end ReadGoCode.Io
