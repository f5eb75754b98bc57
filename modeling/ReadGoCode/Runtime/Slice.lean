import Mathlib.Logic.Function.Basic

/-!
# Go slices over a heap of backing arrays

A slice is a backing array, a length and a capacity; it reads the first `len` elements of its
array. `append(s, xs...)` writes `xs` into the array in place when they fit in the capacity,
so every slice sharing that array sees the write; otherwise `growslice` allocates a new array
at the next free address, copies `s`, writes `xs`, and leaves spare capacity for later
appends. Array `0` stands for the absent array of the nil slice.

`append_detached` is the property `contextObserver.With` relies on: appending to
`s[:len:len]` never writes into an existing array, so the heap only grows.
-/

namespace ReadGoCode.Runtime

/-- Every backing array by address, and the next free address. -/
structure Heap (α : Type) where
  arrays : Nat → List α
  next : Nat

/-- A slice header. -/
structure Slice where
  arr : Nat
  len : Nat
  cap : Nat

namespace Slice

/-- The nil slice. -/
def nil : Slice := ⟨0, 0, 0⟩

variable {α : Type}

/-- `s[0:len]`. -/
def read (h : Heap α) (s : Slice) : List α := (h.arrays s.arr).take s.len

/-- `s[:high:max]`. -/
def reslice (s : Slice) (high max : Nat) : Slice := ⟨s.arr, high, max⟩

/-- The slice's array is allocated and holds its `len` elements. -/
def Valid (h : Heap α) (s : Slice) : Prop := s.arr < h.next ∧ s.len ≤ (h.arrays s.arr).length

end Slice

namespace Heap

variable {α : Type}

/-- The heap with only the nil slice's empty array. -/
def init : Heap α := ⟨fun _ => [], 1⟩

/-- Write `xs` into array `a` from index `i` on. -/
def write (h : Heap α) (a i : Nat) (xs : List α) : Heap α :=
  let old := h.arrays a
  { h with arrays := Function.update h.arrays a (old.take i ++ xs ++ old.drop (i + xs.length)) }

/-- `h'` only adds arrays to `h`: every array of `h` is unchanged. -/
def Extends (h h' : Heap α) : Prop := h.next ≤ h'.next ∧ ∀ a < h.next, h'.arrays a = h.arrays a

/-- Every heap extends itself. -/
theorem Extends.refl (h : Heap α) : h.Extends h := ⟨Nat.le_refl _, fun _ _ => rfl⟩

/-- Extension composes. -/
theorem Extends.trans {h₁ h₂ h₃ : Heap α} (h₁₂ : h₁.Extends h₂) (h₂₃ : h₂.Extends h₃) :
    h₁.Extends h₃ :=
  ⟨Nat.le_trans h₁₂.1 h₂₃.1, fun a ha => (h₂₃.2 a (Nat.lt_of_lt_of_le ha h₁₂.1)).trans (h₁₂.2 a ha)⟩

/-- Writing nothing changes nothing. -/
theorem write_nil (h : Heap α) (a i : Nat) : h.write a i [] = h := by
  cases h
  simp [write, List.take_append_drop]

end Heap

namespace Slice

variable {α : Type}

/-- A valid slice stays valid, and reads the same, in a heap that only adds arrays. -/
theorem Valid.extend {h h' : Heap α} {s : Slice} (hs : s.Valid h) (hh : h.Extends h') :
    s.Valid h' ∧ s.read h' = s.read h := by
  have harr := hh.2 s.arr hs.1
  exact ⟨⟨Nat.lt_of_lt_of_le hs.1 hh.1, harr ▸ hs.2⟩, by rw [read, read, harr]⟩

end Slice

/-- `append(s, xs...)`. When `s.len + len(xs) ≤ s.cap`, `xs` is written into the backing array
in place. Otherwise `growslice` allocates a new array at `h.next` with capacity
`s.len + len(xs) + spare s.cap (s.len + len(xs))`, `spare` being the room its growth policy
adds for the old capacity and the needed length. -/
def append {α : Type} [Inhabited α] (spare : Nat → Nat → Nat) (h : Heap α) (s : Slice)
    (xs : List α) : Heap α × Slice :=
  if s.len + xs.length ≤ s.cap then
    (h.write s.arr s.len xs, { s with len := s.len + xs.length })
  else
    let extra := spare s.cap (s.len + xs.length)
    (⟨Function.update h.arrays h.next (s.read h ++ xs ++ List.replicate extra default),
        h.next + 1⟩,
      ⟨h.next, s.len + xs.length, s.len + xs.length + extra⟩)

/-- Appending to `s[:len:len]` writes into no existing array: with no elements the heap is
unchanged and the result shares `s`'s array, and otherwise the elements go to a new array.
Either way the result reads `s` followed by `xs`. -/
theorem append_detached {α : Type} [Inhabited α] (spare : Nat → Nat → Nat) {h : Heap α}
    {s : Slice} (hs : s.Valid h) (xs : List α) :
    h.Extends (append spare h (s.reslice s.len s.len) xs).1 ∧
      (append spare h (s.reslice s.len s.len) xs).2.Valid
        (append spare h (s.reslice s.len s.len) xs).1 ∧
      (append spare h (s.reslice s.len s.len) xs).2.read
        (append spare h (s.reslice s.len s.len) xs).1 = s.read h ++ xs := by
  have hlen : (s.read h).length = s.len := by
    simp only [Slice.read, List.length_take]
    exact Nat.min_eq_left hs.2
  cases xs with
  | nil =>
      simp only [append, Slice.reslice, List.length_nil, Nat.add_zero, Nat.le_refl, if_true,
        Heap.write_nil, List.append_nil]
      exact ⟨Heap.Extends.refl h, hs, rfl⟩
  | cons x xs =>
      have hfull : ¬ (s.reslice s.len s.len).len + (x :: xs).length ≤
          (s.reslice s.len s.len).cap := by simp [Slice.reslice]
      have hread : Slice.read h (s.reslice s.len s.len) = s.read h := rfl
      have hnew : s.len + (x :: xs).length = (s.read h ++ x :: xs).length := by simp [hlen]
      simp only [append, if_neg hfull, hread]
      refine ⟨⟨Nat.le_succ _, fun a ha => ?_⟩, ⟨Nat.lt_succ_self _, ?_⟩, ?_⟩
      · simp [Function.update_noteq (Nat.ne_of_lt ha)]
      · simp [Slice.reslice, hlen]
      · simp only [Slice.read, Function.update_same, Slice.reslice]
        rw [hnew]
        exact List.take_left' rfl

end ReadGoCode.Runtime
