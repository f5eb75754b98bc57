import ReadGoCode.Io.Read

/-!
# `io.ReadAll`

`ReadAll(r)` reads into the spare capacity of a slice `b`, 512 bytes to start with. When `b` is
full it grows it with `append(b, 0)[:len(b)]`, which leaves at least one more byte of capacity;
how much more `append` picks is a parameter, `spare`. It stops at the first error and reports
`EOF` as nil.

`readAll_spec` says what every run returns for a reader that keeps the contract: the bytes of
all its calls in order, and nil exactly when the last call returned `EOF`. Every `Read` is given
room for at least one byte, so `ReadAll` never makes a call that can deliver nothing. With fuel
for the calls up to one at which the reader returns an error, it returns.
-/

namespace ReadGoCode.Io

/-- What `ReadAll` returns, with the length of the slice each `Read` was given and its answer,
in order. -/
structure ReadAllResult where
  data : List UInt8
  err : Option IoError
  calls : List (Nat × (List UInt8 × Option IoError))

/-- The capacity of `b` before a `Read`: `append(b, 0)[:len(b)]` grows a full `b`. -/
def growCap (spare : Nat → Nat) (len cap : Nat) : Nat :=
  if len = cap then len + 1 + spare len else cap

/-- The loop of `ReadAll(r)` from call `i` with `b` of capacity `cap`, with `fuel` iterations
at most. -/
def readAllLoop (r : Reader) (spare : Nat → Nat) :
    Nat → Nat → List UInt8 → Nat → Option ReadAllResult
  | 0, _, _, _ => none
  | fuel + 1, i, b, cap =>
      let cap := growCap spare b.length cap
      let a := r i (cap - b.length)
      match a.2 with
      | some e => some ⟨b ++ a.1, if e = .eof then none else some e, [(cap - b.length, a)]⟩
      | none => (readAllLoop r spare fuel (i + 1) (b ++ a.1) cap).map fun res =>
          { res with calls := (cap - b.length, a) :: res.calls }

/-- `ReadAll(r)`, from `b := make([]byte, 0, 512)`. -/
def readAll (r : Reader) (spare : Nat → Nat) (fuel : Nat) : Option ReadAllResult :=
  readAllLoop r spare fuel 0 [] 512

/-- Before every `Read`, `b` has room for one more byte. -/
theorem lt_growCap (spare : Nat → Nat) {len cap : Nat} (h : len ≤ cap) :
    len < growCap spare len cap := by
  unfold growCap; split <;> omega

/-- The run stops at the first call that returns an error. -/
theorem readAllLoop_isSome (r : Reader) (spare : Nat → Nat) {k : Nat}
    (hk : ∀ len, (r k len).2 ≠ none) :
    ∀ fuel i b cap, i ≤ k → k < fuel + i → (readAllLoop r spare fuel i b cap).isSome
  | 0, _, _, _, hi, hfuel => by omega
  | fuel + 1, i, b, cap, hi, hfuel => by
      simp only [readAllLoop]
      split
      · rfl
      · next hnone =>
          have hik : i ≠ k := fun h => hk _ (h ▸ hnone)
          rw [Option.isSome_map']
          exact readAllLoop_isSome r spare hk fuel (i + 1) _ _ (by omega) (by omega)

/-- Every run of the loop that returns, for a reader that keeps the contract: `b` followed by
the bytes of its calls, each call the reader's answer for its index and given room for a byte,
no error before the last call, and nil exactly when the last call returned `EOF`. -/
theorem readAllLoop_spec (r : Reader) (hr : r.Valid) (spare : Nat → Nat) :
    ∀ fuel i b cap res, b.length ≤ cap → readAllLoop r spare fuel i b cap = some res →
      res.data = b ++ (res.calls.map fun c => c.2.1).flatten ∧
      (∀ p ∈ res.calls.enumFrom i, p.2.2 = r p.1 p.2.1) ∧ (∀ c ∈ res.calls, 0 < c.1) ∧
      ∃ pre c e, res.calls = pre ++ [c] ∧ (∀ d ∈ pre, d.2.2 = none) ∧ c.2.2 = some e ∧
        res.err = if e = .eof then none else some e
  | 0, _, _, _, _, _, h => nomatch h
  | fuel + 1, i, b, cap, res, hcap, h => by
      have hroom := lt_growCap spare hcap
      simp only [readAllLoop] at h
      split at h
      · next e he =>
          cases h
          refine ⟨by simp, by simp [List.enumFrom], by simp; omega, [], _, e, rfl, by simp, he, rfl⟩
      · next he =>
          obtain ⟨res', h', rfl⟩ := Option.map_eq_some'.mp h
          have hlen := hr i (growCap spare b.length cap - b.length)
          obtain ⟨hdata, hcalls, hpos, pre, c, e, hsplit, hpre, hc, herr⟩ :=
            readAllLoop_spec r hr spare fuel (i + 1) _ _ res' (by simp; omega) h'
          refine ⟨by simp [hdata], ?_, ?_, _ :: pre, c, e, by rw [hsplit]; rfl, ?_, hc, herr⟩
          · rw [List.enumFrom_cons]
            exact List.forall_mem_cons.mpr ⟨rfl, hcalls⟩
          · exact List.forall_mem_cons.mpr ⟨by simp only; omega, hpos⟩
          · exact List.forall_mem_cons.mpr ⟨he, hpre⟩

/-- `ReadAll` for every reader that keeps the contract. Every run that returns gives the bytes
of its `Read` calls in order, each call the reader's answer for its index. Each call is given
room for at least one byte. No call before the last returned an error, and the error is nil
exactly when the last call returned `EOF`, else that error. When the reader returns an error at
call `k` whatever it is given, fuel for `k + 1` calls is enough for `ReadAll` to return. -/
theorem readAll_spec (r : Reader) (hr : r.Valid) (spare : Nat → Nat) :
    (∀ fuel res, readAll r spare fuel = some res →
      res.data = (res.calls.map fun c => c.2.1).flatten ∧
      (∀ p ∈ res.calls.enum, p.2.2 = r p.1 p.2.1) ∧ (∀ c ∈ res.calls, 0 < c.1) ∧
      ∃ pre c e, res.calls = pre ++ [c] ∧ (∀ d ∈ pre, d.2.2 = none) ∧ c.2.2 = some e ∧
        res.err = if e = .eof then none else some e) ∧
    (∀ k, (∀ len, (r k len).2 ≠ none) → ∀ fuel, k < fuel → (readAll r spare fuel).isSome) :=
  ⟨fun fuel res h => readAllLoop_spec r hr spare fuel 0 [] 512 res (Nat.zero_le _) h,
   fun k hk fuel hfuel => readAllLoop_isSome r spare hk fuel 0 [] 512 (by omega) (by omega)⟩

/-- `ReadAll` of `twoThenEOF`, with `append` doubling. -/
theorem readAll_twoThenEOF :
    twoThenEOF.Valid ∧
    (∀ fuel res, readAll twoThenEOF (fun n => n) fuel = some res →
      res.data = (res.calls.map fun c => c.2.1).flatten ∧
      (∀ p ∈ res.calls.enum, p.2.2 = twoThenEOF p.1 p.2.1) ∧ (∀ c ∈ res.calls, 0 < c.1) ∧
      ∃ pre c e, res.calls = pre ++ [c] ∧ (∀ d ∈ pre, d.2.2 = none) ∧ c.2.2 = some e ∧
        res.err = if e = .eof then none else some e) ∧
    (∀ k, (∀ len, (twoThenEOF k len).2 ≠ none) → ∀ fuel, k < fuel →
      (readAll twoThenEOF (fun n => n) fuel).isSome) :=
  ⟨twoThenEOF_valid, readAll_spec twoThenEOF twoThenEOF_valid (fun n => n)⟩

end ReadGoCode.Io
