import Mathlib

/-!
# `io.ReadAtLeast` and `io.ReadFull`

A `Reader` is given by what each of its `Read` calls answers: the `i`-th call, made with a slice
of length `len`, writes some bytes at the slice's start and returns an error or nil. The reader
contract is that it never writes more than `len` bytes.

`ReadAtLeast(r, buf, min)` reads into `buf[n:]` until `n >= min` or an error. Its loop runs with
`fuel` iterations at most here. `readAtLeast_contract` shows that fuel for every call the reader
needs before it returns an error or has delivered `min` bytes is enough for the loop to return.
It also proves everything the documentation says of the result.
-/

namespace ReadGoCode.Io

/-- The errors the functions of `io` compare against, and any other error. -/
inductive IoError where
  | eof
  | unexpectedEOF
  | shortBuffer
  | shortWrite
  | invalidWrite
  | other (msg : String)
deriving DecidableEq

/-- A `Reader`: what its `i`-th `Read`, given a slice of length `len`, answers, the bytes it
writes at the slice's start and its error. -/
abbrev Reader := Nat → Nat → List UInt8 × Option IoError

/-- The `Reader` contract: `0 <= n <= len(p)`. -/
def Reader.Valid (r : Reader) : Prop := ∀ i len, (r i len).1.length ≤ len

/-- What a `Read` into `buf[off:]` leaves in `buf` when it writes `bytes`. -/
def writeAt (buf : List UInt8) (off : Nat) (bytes : List UInt8) : List UInt8 :=
  buf.take off ++ bytes ++ buf.drop (off + bytes.length)

/-- Writing into a buffer keeps its length. -/
theorem length_writeAt {buf bytes : List UInt8} {off : Nat} (h : off + bytes.length ≤ buf.length) :
    (writeAt buf off bytes).length = buf.length := by
  simp [writeAt]; omega

/-- Writing at `off` puts the bytes right after the first `off` bytes. -/
theorem take_writeAt {buf bytes : List UInt8} {off : Nat} (h : off + bytes.length ≤ buf.length) :
    (writeAt buf off bytes).take (off + bytes.length) = buf.take off ++ bytes := by
  have : (buf.take off ++ bytes).length = off + bytes.length := by simp; omega
  rw [writeAt, ← this, List.take_left]

/-- What `ReadAtLeast` returns, with the buffer it leaves and the answers of the `Read` calls it
made, in order. -/
structure ReadResult where
  n : Nat
  err : Option IoError
  buf : List UInt8
  calls : List (List UInt8 × Option IoError)

/-- The loop of `ReadAtLeast` from call `i` with `buf`, `n` and `err`. -/
def readLoop (r : Reader) (min : Int) :
    Nat → Nat → List UInt8 → Nat → Option IoError → Option ReadResult
  | 0, _, _, _, _ => none
  | fuel + 1, i, buf, n, err =>
      if (n : Int) < min ∧ err = none then
        let a := r i (buf.length - n)
        (readLoop r min fuel (i + 1) (writeAt buf n a.1) (n + a.1.length) a.2).map
          fun res => { res with calls := a :: res.calls }
      else some ⟨n, err, buf, []⟩

/-- `ReadAtLeast(r, buf, min)`. -/
def readAtLeast (r : Reader) (buf : List UInt8) (min : Int) (fuel : Nat) : Option ReadResult :=
  if (buf.length : Int) < min then some ⟨0, some .shortBuffer, buf, []⟩
  else
    (readLoop r min fuel 0 buf 0 none).map fun res =>
      { res with
        err := if min ≤ res.n then none
          else if 0 < res.n ∧ res.err = some .eof then some .unexpectedEOF
          else res.err }

/-- `ReadFull(r, buf)`. -/
def readFull (r : Reader) (buf : List UInt8) (fuel : Nat) : Option ReadResult :=
  readAtLeast r buf buf.length fuel

/-- The error of the last `Read` of `calls` made after the loop held `err`. -/
def lastError (err : Option IoError) (calls : List (List UInt8 × Option IoError)) :
    Option IoError :=
  calls.foldl (fun _ a => a.2) err

section Loop

variable (r : Reader) (hr : r.Valid) (min : Int)
include hr

/-- Every run of the loop of `ReadAtLeast`: the bytes of its calls are those before `n` in the
buffer, whose length it keeps; `err` is the error of its last call, and it stops with `n >= min`
or an error. -/
theorem readLoop_spec : ∀ fuel i buf n err res, n ≤ buf.length →
    readLoop r min fuel i buf n err = some res →
      res.buf.length = buf.length ∧ res.n ≤ buf.length ∧
      res.n = n + (res.calls.map fun a => a.1.length).sum ∧
      res.buf.take res.n = buf.take n ++ (res.calls.map Prod.fst).flatten ∧
      res.err = lastError err res.calls ∧ (min ≤ res.n ∨ res.err ≠ none)
  | 0, _, _, _, _, _, _, h => nomatch h
  | fuel + 1, i, buf, n, err, res, hn, h => by
      unfold readLoop at h
      split at h
      · have hlen : n + (r i (buf.length - n)).1.length ≤ buf.length := by
          have := hr i (buf.length - n); omega
        obtain ⟨res', h', rfl⟩ := Option.map_eq_some'.mp h
        obtain ⟨hbuf, hle, hsum, htake, herr, hstop⟩ :=
          readLoop_spec fuel _ _ _ _ res' (by rw [length_writeAt hlen]; exact hlen) h'
        rw [length_writeAt hlen] at hbuf hle
        refine ⟨hbuf, hle, by simp [hsum]; omega, ?_, herr, hstop⟩
        simp [htake, take_writeAt hlen]
      · next hc =>
          cases h
          refine ⟨rfl, hn, by simp, by simp, rfl, ?_⟩
          by_cases hm : min ≤ n
          · exact .inl hm
          · exact .inr fun herr => hc ⟨by omega, herr⟩

/-- The bytes the reader has delivered after `k` calls made as `ReadAtLeast` makes them into a
buffer of length `len`, when none of them returned an error. -/
def delivered (r : Reader) (len : Nat) : Nat → Nat
  | 0 => 0
  | k + 1 => delivered r len k + (r k (len - delivered r len k)).1.length

/-- The reader never delivers more than the buffer holds. -/
theorem delivered_le (len : Nat) : ∀ k, delivered r len k ≤ len
  | 0 => Nat.zero_le _
  | k + 1 => by
      have := hr k (len - delivered r len k)
      have := delivered_le len k
      simp only [delivered]; omega

/-- Asked as `ReadAtLeast` asks, the reader returns an error at call `k`, or has delivered `min`
bytes once it returns. -/
def StopsAt (r : Reader) (len : Nat) (min : Int) (k : Nat) : Prop :=
  (r k (len - delivered r len k)).2 ≠ none ∨ min ≤ delivered r len (k + 1)

/-- Fuel for every call up to one at which the reader stops is enough for the loop. -/
theorem readLoop_isSome {len k : Nat} (hk : StopsAt r len min k) : ∀ fuel j buf,
    buf.length = len → j ≤ k → k + 2 ≤ fuel + j →
      (readLoop r min fuel j buf (delivered r len j) none).isSome
  | 0, _, _, _, hj, hfuel => by omega
  | fuel + 1, j, buf, hbuf, hj, hfuel => by
      unfold readLoop
      split
      · next hc =>
          have hlen := hr j (buf.length - delivered r len j)
          have hle := delivered_le r hr len j
          rw [Option.isSome_map']
          cases ha : (r j (buf.length - delivered r len j)).2 with
          | some e =>
              obtain ⟨fuel, rfl⟩ : ∃ f, fuel = f + 1 := ⟨fuel - 1, by omega⟩
              simp [readLoop]
          | none =>
              subst hbuf
              rcases Nat.lt_or_ge j k with hjk | hjk
              · exact readLoop_isSome hk fuel (j + 1) _
                  (length_writeAt (by omega)) hjk (by omega)
              · obtain rfl : j = k := by omega
                obtain ⟨fuel, rfl⟩ : ∃ f, fuel = f + 1 := ⟨fuel - 1, by omega⟩
                have hmin : min ≤ delivered r buf.length (j + 1) := hk.resolve_left (by simp [ha])
                simp only [delivered] at hmin
                rw [readLoop, if_neg fun h => by have := h.1; push_cast at hmin this; omega]
                rfl
      · rfl

/-- `ReadAtLeast` with a buffer of at least `min` bytes and fuel for the reader's calls up to
one at which it stops: it returns, with the bytes of its calls at the start of the buffer and
an error by the rules of its documentation. -/
theorem readAtLeast_spec (buf : List UInt8) (hmin : min ≤ buf.length) {k : Nat}
    (hk : StopsAt r buf.length min k) (fuel : Nat) (hfuel : k + 2 ≤ fuel) :
    ∃ res, readAtLeast r buf min fuel = some res ∧
      res.buf.length = buf.length ∧ res.n ≤ buf.length ∧
      res.n = (res.calls.map fun a => a.1.length).sum ∧
      res.buf.take res.n = (res.calls.map Prod.fst).flatten ∧
      (min ≤ res.n ↔ res.err = none) ∧
      ((res.n : Int) < min →
        (res.err = some .eof → res.n = 0) ∧
        (0 < res.n → lastError none res.calls = some .eof → res.err = some .unexpectedEOF) ∧
        (¬(0 < res.n ∧ lastError none res.calls = some .eof) →
          res.err = lastError none res.calls)) := by
  obtain ⟨res, hres⟩ := Option.isSome_iff_exists.mp
    (readLoop_isSome r hr min hk fuel 0 buf rfl (Nat.zero_le k) (by omega))
  obtain ⟨hbuf, hle, hsum, htake, herr, hstop⟩ :=
    readLoop_spec r hr min fuel 0 buf 0 none res (Nat.zero_le _) hres
  have hread : readAtLeast r buf min fuel = some { res with
      err := if min ≤ res.n then none
        else if 0 < res.n ∧ res.err = some .eof then some .unexpectedEOF else res.err } := by
    rw [readAtLeast, if_neg (Int.not_lt.mpr hmin)]
    exact congrArg _ hres
  refine ⟨_, hread, hbuf, hle, by simpa using hsum, by simpa using htake, ?_, fun hlt => ?_⟩
  · dsimp only
    by_cases hm : min ≤ res.n
    · simp [hm]
    · have : res.err ≠ none := hstop.resolve_left hm
      rw [if_neg hm]
      split_ifs <;> simp [hm, this]
  · have hm : ¬min ≤ res.n := Int.not_le.mpr hlt
    dsimp only
    rw [← herr, if_neg hm]
    by_cases he : 0 < res.n ∧ res.err = some .eof
    · rw [if_pos he]
      exact ⟨(fun h => nomatch h), fun _ _ => rfl, fun h => absurd he h⟩
    · rw [if_neg he]
      exact ⟨fun h => by by_contra hn; exact he ⟨by omega, h⟩, fun hn h => absurd ⟨hn, h⟩ he,
        fun _ => rfl⟩

end Loop

/-- `ReadAtLeast` and `ReadFull` as their documentation says, for every reader that keeps the
`Reader` contract and every buffer and `min`: a buffer shorter than `min` gives
`ErrShortBuffer` with no `Read`. Otherwise, given fuel for the calls up to one at which the
reader returns an error or has delivered `min` bytes, `ReadAtLeast` returns. The `n` bytes it
counts are those its calls delivered into `buf[0:n]`, and `n >= min` exactly when the error is
nil. Below `min`, the error is `EOF` only for `n = 0`, it is `ErrUnexpectedEOF` when bytes came
before the reader's `EOF`, and it is the reader's last error otherwise. `ReadFull` is the case
`min = len(buf)`. -/
theorem readAtLeast_contract (r : Reader) (hr : r.Valid) (buf : List UInt8) (min : Int) :
    ((buf.length : Int) < min →
      ∀ fuel, readAtLeast r buf min fuel = some ⟨0, some .shortBuffer, buf, []⟩) ∧
    (min ≤ buf.length → ∀ k, StopsAt r buf.length min k → ∀ fuel, k + 2 ≤ fuel →
      ∃ res, readAtLeast r buf min fuel = some res ∧
        res.buf.length = buf.length ∧ res.n ≤ buf.length ∧
        res.n = (res.calls.map fun a => a.1.length).sum ∧
        res.buf.take res.n = (res.calls.map Prod.fst).flatten ∧
        (min ≤ res.n ↔ res.err = none) ∧
        ((res.n : Int) < min →
          (res.err = some .eof → res.n = 0) ∧
          (0 < res.n → lastError none res.calls = some .eof → res.err = some .unexpectedEOF) ∧
          (¬(0 < res.n ∧ lastError none res.calls = some .eof) →
            res.err = lastError none res.calls))) ∧
    (∀ k, StopsAt r buf.length buf.length k → ∀ fuel, k + 2 ≤ fuel →
      ∃ res, readFull r buf fuel = some res ∧ (res.n = buf.length ↔ res.err = none)) := by
  refine ⟨fun h fuel => by rw [readAtLeast, if_pos h], fun hmin k hk fuel hfuel =>
    readAtLeast_spec r hr min buf hmin hk fuel hfuel, fun k hk fuel hfuel => ?_⟩
  obtain ⟨res, hres, -, hle, -, -, hiff, -⟩ :=
    readAtLeast_spec r hr buf.length buf (Int.le_refl _) hk fuel hfuel
  exact ⟨res, hres, by rw [← hiff]; omega⟩

/-- A reader that delivers two bytes, then `EOF`. -/
def twoThenEOF : Reader := fun i len =>
  if i = 0 then (([1, 2] : List UInt8).take len, none) else ([], some .eof)

/-- `twoThenEOF` honours the `Reader` contract. -/
theorem twoThenEOF_valid : twoThenEOF.Valid := by
  intro i len
  unfold twoThenEOF
  split <;> simp [Nat.min_le_left]

/-- `ReadAtLeast` of `twoThenEOF` into three bytes with `min = 3`, which stops at its second
call. -/
theorem readAtLeast_twoThenEOF :
    twoThenEOF.Valid ∧ StopsAt twoThenEOF 3 3 1 ∧
    (((3 : Nat) : Int) < 3 → ∀ fuel, readAtLeast twoThenEOF [0, 0, 0] 3 fuel =
      some ⟨0, some .shortBuffer, [0, 0, 0], []⟩) ∧
    ((3 : Int) ≤ (3 : Nat) → ∀ k, StopsAt twoThenEOF 3 3 k → ∀ fuel, k + 2 ≤ fuel →
      ∃ res, readAtLeast twoThenEOF [0, 0, 0] 3 fuel = some res ∧
        res.buf.length = 3 ∧ res.n ≤ 3 ∧
        res.n = (res.calls.map fun a => a.1.length).sum ∧
        res.buf.take res.n = (res.calls.map Prod.fst).flatten ∧
        (3 ≤ (res.n : Int) ↔ res.err = none) ∧
        ((res.n : Int) < 3 →
          (res.err = some .eof → res.n = 0) ∧
          (0 < res.n → lastError none res.calls = some .eof → res.err = some .unexpectedEOF) ∧
          (¬(0 < res.n ∧ lastError none res.calls = some .eof) →
            res.err = lastError none res.calls))) ∧
    (∀ k, StopsAt twoThenEOF 3 3 k → ∀ fuel, k + 2 ≤ fuel →
      ∃ res, readFull twoThenEOF [0, 0, 0] fuel = some res ∧ (res.n = 3 ↔ res.err = none)) :=
  ⟨twoThenEOF_valid, .inl (by decide),
    readAtLeast_contract twoThenEOF twoThenEOF_valid [0, 0, 0] 3⟩

end ReadGoCode.Io
