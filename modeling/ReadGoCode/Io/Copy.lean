import ReadGoCode.Io.Read

/-!
# `io.CopyN` and the loop of `io.Copy`

`CopyN(dst, src, n)` copies through `LimitReader(src, n)` with `Copy`, whose `copyBuffer` reads
into a buffer, writes what it read, and stops at the first error or short write. A reader
through a `LimitedReader` is read with the state the limit keeps (`N`) and the number of calls
made to the reader beneath. A `Writer` is given by what its `j`-th `Write` answers for the
bytes it is given.

`copyLoop_spec` is what every run of the loop returns: the sum of the accepted write counts,
and nil only after `EOF` with every write complete. For `n >= 0`, `CopyN` returns `written == n`
exactly when its error is nil (`copyN_nonneg`). For a negative `n` the limit ends the copy at
once with nil, so `written != n` with a nil error (`copyN_negative_nil`).
-/

namespace ReadGoCode.Io

/-- A `Writer`: what its `j`-th `Write(p)` answers, the count and the error. -/
abbrev Writer := Nat → List UInt8 → Int × Option IoError

/-- What `copyBuffer` returns, with the answers of the `Read` calls it made and the `Write`
calls it made: the bytes of each and the count and error it answered. -/
structure CopyResult where
  written : Int
  err : Option IoError
  reads : List (List UInt8 × Option IoError)
  writes : List (List UInt8 × Int × Option IoError)

/-- `nw, ew` after `copyBuffer` checks a `Write` of `nr` bytes: an invalid count becomes `0`,
with `errInvalidWrite` when there is no error. -/
def checkWrite (nr : Nat) (nw : Int) (ew : Option IoError) : Int × Option IoError :=
  if nw < 0 ∨ nr < nw then (0, if ew = none then some .invalidWrite else ew) else (nw, ew)

/-- The error `copyBuffer` returns for the `Read` error `er` it stops at: `EOF` is no error. -/
def readErr (er : Option IoError) : Option IoError := if er = some .eof then none else er

/-- A read before others does not change which read was last. -/
theorem map_getLast?_cons {α β : Type} (f : α → β) (a : α) {l : List α} (hl : l ≠ []) :
    (a :: l).getLast?.map f = l.getLast?.map f := by
  cases l with
  | nil => exact absurd rfl hl
  | cons b l => rw [List.getLast?_cons_cons]

section Loop

variable {σ : Type} (read : σ → Nat → (List UInt8 × Option IoError) × σ) (w : Writer)
  (size : Nat)

/-- The loop of `copyBuffer` with a buffer of `size` bytes, from the source's state `s`, the
writer's call `j` and `written`; `read s len` is the source's answer and its next state. -/
def copyLoop : Nat → σ → Nat → Int → Option CopyResult
  | 0, _, _, _ => none
  | fuel + 1, s, j, written =>
      let (a, s') := read s size
      let nr := a.1.length
      if 0 < nr then
        let c := checkWrite nr (w j a.1).1 (w j a.1).2
        let call := (a.1, w j a.1)
        if c.2 ≠ none then some ⟨written + c.1, c.2, [a], [call]⟩
        else if (nr : Int) ≠ c.1 then some ⟨written + c.1, some .shortWrite, [a], [call]⟩
        else if a.2 ≠ none then some ⟨written + c.1, readErr a.2, [a], [call]⟩
        else (copyLoop fuel s' (j + 1) (written + c.1)).map fun res =>
          { res with reads := a :: res.reads, writes := call :: res.writes }
      else if a.2 ≠ none then some ⟨written, readErr a.2, [a], []⟩
      else (copyLoop fuel s' j written).map fun res => { res with reads := a :: res.reads }

/-- The count accepted from a write, and its bounds. -/
theorem checkWrite_bounds (nr : Nat) (nw : Int) (ew : Option IoError) :
    0 ≤ (checkWrite nr nw ew).1 ∧ (checkWrite nr nw ew).1 ≤ nr := by
  unfold checkWrite; split_ifs <;> (simp only; omega)

/-- A write of `nr > 0` bytes that passes the check with its count accepted in full answered
exactly `nr`, with no error. -/
theorem checkWrite_complete {nr : Nat} {nw : Int} {ew : Option IoError} (hnr : 0 < nr)
    (he : (checkWrite nr nw ew).2 = none) (hn : (nr : Int) = (checkWrite nr nw ew).1) :
    nw = nr ∧ ew = none := by
  unfold checkWrite at he hn
  split_ifs at he hn with h
  · simp at hn; omega
  · exact ⟨hn.symm, he⟩

/-- Every run of the loop that returns: `written` grows by the accepted count of each write,
and a nil error means every write was complete and the last read returned `EOF`. -/
theorem copyLoop_spec : ∀ fuel s j written res,
    copyLoop read w size fuel s j written = some res →
      res.written = written + (res.writes.map fun c => (checkWrite c.1.length c.2.1 c.2.2).1).sum ∧
      res.reads ≠ [] ∧
      (res.err = none → (∀ c ∈ res.writes, c.2.1 = c.1.length ∧ c.2.2 = none) ∧
        res.reads.getLast?.map Prod.snd = some (some .eof))
  | 0, _, _, _, _, h => nomatch h
  | fuel + 1, s, j, written, res, h => by
      rcases hrd : read s size with ⟨a, s'⟩
      simp only [copyLoop, hrd] at h
      split_ifs at h with hnr hew hshort her her
      · cases h; simp_all
      · cases h; simp
      · cases h
        refine ⟨by simp, by simp, fun herr => ⟨?_, ?_⟩⟩
        · simpa using checkWrite_complete hnr (not_not.mp hew) (not_not.mp hshort)
        · simp only [readErr] at herr
          split_ifs at herr with heof <;> simp_all
      · obtain ⟨res', h', rfl⟩ := Option.map_eq_some'.mp h
        obtain ⟨hw, hr, herr⟩ := copyLoop_spec fuel _ _ _ res' h'
        refine ⟨by simp [hw]; omega, by simp, fun he => ?_⟩
        obtain ⟨hc, hlast⟩ := herr he
        refine ⟨?_, by rw [map_getLast?_cons _ _ hr, hlast]⟩
        simpa [checkWrite_complete hnr (not_not.mp hew) (not_not.mp hshort)] using hc
      · cases h
        refine ⟨by simp, by simp, fun herr => ⟨by simp, ?_⟩⟩
        simp only [readErr] at herr
        split_ifs at herr with heof <;> simp_all
      · obtain ⟨res', h', rfl⟩ := Option.map_eq_some'.mp h
        obtain ⟨hw, hr, herr⟩ := copyLoop_spec fuel _ _ _ res' h'
        refine ⟨hw, by simp, fun he => ?_⟩
        obtain ⟨hc, hlast⟩ := herr he
        exact ⟨hc, by rw [map_getLast?_cons _ _ hr, hlast]⟩

end Loop

/-! ## `Copy` to `io.Discard` -/

/-- `discard.Write(p)`: all of `p`, no error. -/
def discardWrite : Writer := fun _ p => (p.length, none)

/-- A write that accepts all of `nr` bytes passes the check unchanged. -/
theorem checkWrite_self (nr : Nat) : checkWrite nr nr none = ((nr : Int), none) := by
  simp [checkWrite]

section Discard

variable {σ : Type} (read : σ → Nat → (List UInt8 × Option IoError) × σ)

/-- `discard.ReadFrom(r)` from the source's state `s` with `n` counted, with `fuel` iterations at
most: every `Read` is given one of `blackHolePool`'s 8192-byte buffers. -/
def discardReadFrom : Nat → σ → Int → Option (Int × Option IoError)
  | 0, _, _ => none
  | fuel + 1, s, n =>
      let (a, s') := read s 8192
      if a.2 ≠ none then some (n + a.1.length, readErr a.2)
      else discardReadFrom fuel s' (n + a.1.length)

/-- A destination of `copyBuffer`: `io.Discard`, which implements `ReaderFrom`, or a `Writer`
without `ReadFrom`. -/
inductive Dst where
  | discard
  | writer (w : Writer)

/-- `copyBuffer(dst, src, nil)` for a source without `WriteTo`, with a buffer of `size` bytes:
`Discard`'s `ReadFrom`, or the loop. -/
def copyBuffer (size fuel : Nat) (s : σ) : Dst → Option (Int × Option IoError)
  | .discard => discardReadFrom read fuel s 0
  | .writer w => (copyLoop read w size fuel s 0 0).map fun res => (res.written, res.err)

/-- `discard.ReadFrom` returns what the loop of `copyBuffer` returns writing every buffer to
`Discard`, from every state and count, with the same buffers. -/
theorem discardReadFrom_eq_copyLoop : ∀ fuel s j n,
    discardReadFrom read fuel s n =
      (copyLoop read discardWrite 8192 fuel s j n).map fun res => (res.written, res.err)
  | 0, _, _, _ => rfl
  | fuel + 1, s, j, n => by
      rcases hrd : read s 8192 with ⟨a, s'⟩
      simp only [discardReadFrom, copyLoop, hrd, discardWrite, checkWrite_self, ne_eq,
        not_true_eq_false, if_false]
      by_cases he : a.2 = none
      · by_cases hnr : 0 < a.1.length
        · simp [hnr, he, discardReadFrom_eq_copyLoop fuel s' (j + 1), Option.map_map,
            Function.comp_def]
        · have h0 : a.1.length = 0 := by omega
          simp [hnr, he, h0, discardReadFrom_eq_copyLoop fuel s' j, Option.map_map,
            Function.comp_def]
      · by_cases hnr : 0 < a.1.length
        · simp [hnr, he]
        · simp [hnr, he, show a.1.length = 0 by omega]

end Discard

/-- `l.Read(p)` for `l = &LimitedReader{R: r, N}`, with `len(p) = len`; the state is `N` and the
number of calls made to `r`. -/
def LimitedReader.read (r : Reader) : Int × Nat → Nat → (List UInt8 × Option IoError) × (Int × Nat)
  | (n, i), len =>
      if n ≤ 0 then (([], some .eof), (n, i))
      else
        let a := r i (if n < len then n.toNat else len)
        (a, (n - a.1.length, i + 1))

/-- The buffer `copyBuffer` allocates for a `*LimitedReader` with `N = n`. -/
def limitedSize (n : Int) : Nat :=
  if 32 * 1024 > n then (if n < 1 then 1 else n.toNat) else 32 * 1024

/-- `CopyN(dst, src, n)`, the copy running with `fuel` iterations at most. -/
def copyN (r : Reader) (w : Writer) (n : Int) (fuel : Nat) : Option (Int × Option IoError) :=
  (copyLoop (LimitedReader.read r) w (limitedSize n) fuel (n, 0) 0 0).map fun res =>
    if res.written = n then (n, none)
    else if res.written < n ∧ res.err = none then (res.written, some .eof)
    else (res.written, res.err)

/-- A `LimitedReader` over a reader that keeps the contract returns at most `N` bytes. -/
theorem length_limitedRead_le (r : Reader) (hr : r.Valid) (n : Int) (i len : Nat) (hn : 0 < n) :
    ((LimitedReader.read r (n, i) len).1.1.length : Int) ≤ n := by
  have := hr i (if n < len then n.toNat else len)
  simp only [LimitedReader.read, if_neg (Int.not_le.mpr hn)]
  split_ifs at this ⊢ with h <;> omega

/-- The copy through a `LimitedReader` with `N ≥ 0` left adds at most `N` to `written`. -/
theorem copyLoop_limited (r : Reader) (hr : r.Valid) (w : Writer) (size : Nat) :
    ∀ fuel (n : Int) i j written res, 0 ≤ n →
      copyLoop (LimitedReader.read r) w size fuel (n, i) j written = some res →
        written ≤ res.written ∧ res.written ≤ written + n
  | 0, _, _, _, _, _, _, h => nomatch h
  | fuel + 1, n, i, j, written, res, hn, h => by
      rcases hrd : LimitedReader.read r (n, i) size with ⟨a, s'⟩
      have hlen : (a.1.length : Int) ≤ n ∧ s'.1 = n - a.1.length := by
        by_cases hpos : 0 < n
        · have := length_limitedRead_le r hr n i size hpos
          simp only [LimitedReader.read, if_neg (Int.not_le.mpr hpos)] at hrd this ⊢
          cases hrd; exact ⟨this, rfl⟩
        · simp only [LimitedReader.read, if_pos (Int.not_lt.mp hpos)] at hrd
          cases hrd; simp; omega
      obtain ⟨n', i'⟩ := s'
      simp only at hlen
      simp only [copyLoop, hrd] at h
      have hc := checkWrite_bounds a.1.length (w j a.1).1 (w j a.1).2
      -- a branch that returns adds one accepted count at most; one that loops, the rest too
      split_ifs at h
      all_goals first
        | (cases h; dsimp only; omega)
        | (obtain ⟨res', h', rfl⟩ := Option.map_eq_some'.mp h
           have := copyLoop_limited r hr w size fuel n' i' _ _ res' (by omega) h'
           dsimp only; omega)

/-- For `n ≥ 0` and a reader that keeps the contract, every `CopyN` that returns gives
`0 ≤ written ≤ n`, and `written == n` exactly when the error is nil. -/
theorem copyN_nonneg (r : Reader) (hr : r.Valid) (w : Writer) {n : Int} (hn : 0 ≤ n)
    {fuel : Nat} {written : Int} {err : Option IoError}
    (h : copyN r w n fuel = some (written, err)) :
    0 ≤ written ∧ written ≤ n ∧ (written = n ↔ err = none) := by
  obtain ⟨res, hres, hout⟩ := Option.map_eq_some'.mp h
  have := copyLoop_limited r hr w _ fuel n 0 0 0 res hn hres
  split_ifs at hout with h₁ h₂
  · cases hout; exact ⟨hn, Int.le_refl _, by simp⟩
  · cases hout; exact ⟨by omega, by omega, by simp; omega⟩
  · cases hout
    refine ⟨by omega, by omega, iff_of_false h₁ fun he => h₂ ⟨by omega, he⟩⟩

/-- For every `n < 0`, whatever the reader and the writer, the limit ends the copy at once and
`CopyN` returns `0` with a nil error. -/
theorem copyN_of_neg (r : Reader) (w : Writer) {n : Int} (hn : n < 0) (fuel : Nat) :
    copyN r w n (fuel + 1) = some (0, none) := by
  simp [copyN, copyLoop, LimitedReader.read, Int.le_of_lt hn, readErr, Int.ne_of_gt hn,
    Int.not_lt.mpr (Int.le_of_lt hn)]

/-- `CopyN(dst, src, -1)`, whatever the reader and the writer, returns a nil error with
`written != n`. -/
theorem copyN_negative_nil (r : Reader) (w : Writer) (fuel : Nat) :
    ∃ written err, copyN r w (-1) (fuel + 1) = some (written, err) ∧ written ≠ -1 ∧ err = none :=
  ⟨0, none, copyN_of_neg r w (by decide) fuel, by decide, rfl⟩

end ReadGoCode.Io
