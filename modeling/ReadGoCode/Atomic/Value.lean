import Mathlib.Data.List.Basic

/-!
# `sync/atomic.Value` under interleaving

A `Value` is two pointer words, `typ` and `data`, laid out as `ifaceWords` lays out an `any`.
`Load`, `Store`, `Swap` and `CompareAndSwap` each run as a sequence of single atomic accesses to
these words (`LoadPointer`, `StorePointer`, `CompareAndSwapPointer`, `SwapPointer`), and any
number of goroutines interleave their accesses in any order. The first store claims the value
by swapping `typ` from nil to the `firstStoreInProgress` marker, stores `data`, then `typ`;
every later store finds a type and overwrites `data` alone.

A type pointer is a `Nat`, and so is a data pointer. The runtime comparison `i != old` of
`CompareAndSwap` is a parameter `ifaceEq`. The words carry two ghost fields: the history of
every `(typ, data)` pair a call stored, and the goroutine, if any, between its claim of the
first store and its store of `typ`. `runtime_procPin` only keeps that goroutine running; the
model lets every goroutine be preempted anywhere, so it allows more interleavings than the
runtime does.

`value_linearizable` states what every interleaving guarantees: a `Load` returns nil or the
argument of one `Store`, `Swap` or successful `CompareAndSwap`; `typ` never changes once set;
`Swap` returns the value it replaced; and `CompareAndSwap` returns true only after replacing a
value equal to `old`. `value_progress` adds that these calls do return: a `Load` within two of
its own steps under every interleaving, and every call within four once a type is stored.
-/

namespace ReadGoCode.Atomic

/-- An `any` as `ifaceWords` sees it: nil, or a type pointer and a data pointer. -/
abbrev Iface := Option (Nat × Nat)

/-- The `typ` word: nil, the address of `firstStoreInProgress`, or a type pointer. -/
inductive TypWord where
  | nil
  | firstStoreInProgress
  | typ (t : Nat)
deriving DecidableEq

/-- What a call returns: `Load` and `Swap` a value, `Store` nothing, `CompareAndSwap` a flag;
any of them may panic. -/
inductive Result where
  | value (v : Iface)
  | stored
  | swapped (b : Bool)
  | panicked (msg : String)
deriving DecidableEq

/-- The call a goroutine makes on the `Value`. -/
inductive Call where
  | load
  | store (val : Iface)
  | swap (new : Iface)
  | compareAndSwap (old new : Iface)
deriving DecidableEq

/-- Where a goroutine is in its call, with the words it has loaded. `entry` is before the
argument checks, `loop` the `LoadPointer(&vp.typ)` at the head of the `for` loop; `casFirst`,
`firstData` and `firstTyp` are the three accesses of the first store, `overwrite` the access to
`data` once a type is seen, and `casData` the final `CompareAndSwapPointer` of
`CompareAndSwap`. -/
inductive Pc where
  | entry
  | loop
  | loadData (t : Nat)
  | casFirst
  | firstData
  | firstTyp
  | overwrite
  | casData (loaded : Nat)
  | done (r : Result)
deriving DecidableEq

/-- A goroutine: its call and its position in it. -/
structure Thread where
  call : Call
  pc : Pc
deriving DecidableEq

/-- The two words of the `Value` and two ghost fields: every `(typ, data)` pair a call has
stored, in order, and the goroutine holding the first store. -/
structure Words where
  typ : TypWord
  data : Nat
  history : List (Nat × Nat)
  owner : Option Nat
deriving DecidableEq

namespace Words

/-- `StorePointer(&vp.data, d)` by a call whose value is `(t, d)`, recorded in the history. -/
def storeData (w : Words) (t d : Nat) : Words :=
  { w with data := d, history := w.history ++ [(t, d)] }

/-- Storing `data` leaves `typ`. -/
@[simp] theorem storeData_typ (w : Words) (t d : Nat) : (w.storeData t d).typ = w.typ := rfl
/-- Storing `data` sets the data word. -/
@[simp] theorem storeData_data (w : Words) (t d : Nat) : (w.storeData t d).data = d := rfl
/-- Storing `data` leaves the first store's goroutine. -/
@[simp] theorem storeData_owner (w : Words) (t d : Nat) : (w.storeData t d).owner = w.owner := rfl
/-- Storing `data` records the pair in the history. -/
@[simp] theorem storeData_history (w : Words) (t d : Nat) :
    (w.storeData t d).history = w.history ++ [(t, d)] := rfl

/-- The value a `Load` running alone would return: the pair once a type is stored, else nil. -/
def value (w : Words) : Iface :=
  match w.typ with
  | .typ t => some (t, w.data)
  | _ => none

/-- With a type stored, the value is the type and the data word. -/
theorem value_of_typ {w : Words} {t : Nat} (h : w.typ = .typ t) : w.value = some (t, w.data) := by
  simp [value, h]

/-- During the first store the value is nil. -/
theorem value_of_marker {w : Words} (h : w.typ = .firstStoreInProgress) : w.value = none := by
  simp [value, h]

end Words

/-- The value a writing call stores. -/
def Call.newValue : Call → Iface
  | .load => none
  | .store val => val
  | .swap new => new
  | .compareAndSwap _ new => new

/-- The steps of the first store by goroutine `i` with value `(t, d)`, shared by `Store`, `Swap`
and `CompareAndSwap`: `CompareAndSwapPointer(&vp.typ, nil, &firstStoreInProgress)`, back to the
loop if it fails; `StorePointer(&vp.data, d)`; `StorePointer(&vp.typ, t)`, then return
`result`. -/
def firstStore (i : Nat) (w : Words) (t d : Nat) (result : Result) : Pc → Pc × Words
  | .casFirst =>
      if w.typ = .nil then (.firstData, { w with typ := .firstStoreInProgress, owner := some i })
      else (.loop, w)
  | .firstData => (.firstTyp, w.storeData t d)
  | .firstTyp => (.done result, { w with typ := .typ t, owner := none })
  | pc => (pc, w)

/-- `typ := LoadPointer(&vp.typ)` at the head of the loop of `Store` and `Swap` with a value of
type `t`: nil starts the first store, the marker spins, another type panics with `msg`. -/
def loadTyp (w : Words) (t : Nat) (msg : String) : Pc × Words :=
  match w.typ with
  | .nil => (.casFirst, w)
  | .firstStoreInProgress => (.loop, w)
  | .typ t' => if t' = t then (.overwrite, w) else (.done (.panicked msg), w)

/-- One atomic step of `Load`. -/
def load (w : Words) : Pc → Pc × Words
  | .entry =>
      match w.typ with
      | .typ t => (.loadData t, w)
      | _ => (.done (.value none), w)
  | .loadData t => (.done (.value (some (t, w.data))), w)
  | pc => (pc, w)

/-- One atomic step of `Store(val)` by goroutine `i`. -/
def store (i : Nat) (w : Words) : Iface → Pc → Pc × Words
  | none, .entry => (.done (.panicked "sync/atomic: store of nil value into Value"), w)
  | some _, .entry => (.loop, w)
  | some (t, _), .loop => loadTyp w t "sync/atomic: store of inconsistently typed value into Value"
  | some (t, d), .overwrite => (.done .stored, w.storeData t d)
  | some (t, d), pc => firstStore i w t d .stored pc
  | none, pc => (pc, w)

/-- One atomic step of `Swap(new)` by goroutine `i`: after the first store it returns nil,
otherwise `SwapPointer(&vp.data, d)` returns the old data word with the stored type. -/
def swap (i : Nat) (w : Words) : Iface → Pc → Pc × Words
  | none, .entry => (.done (.panicked "sync/atomic: swap of nil value into Value"), w)
  | some _, .entry => (.loop, w)
  | some (t, _), .loop => loadTyp w t "sync/atomic: swap of inconsistently typed value into Value"
  | some (t, d), .overwrite => (.done (.value (some (t, w.data))), w.storeData t d)
  | some (t, d), pc => firstStore i w t d (.value none) pc
  | none, pc => (pc, w)

/-- One atomic step of `CompareAndSwap(old, new)` by goroutine `i`. Its loop differs from that
of `Store`: on nil it returns false unless `old` is nil. Once a type is stored it loads `data`,
compares `(typ, data)` with `old` by `ifaceEq`, and swaps `data` only if it is still the word
it loaded. -/
def compareAndSwap (ifaceEq : Iface → Iface → Bool) (i : Nat) (w : Words) (old : Iface) :
    Iface → Pc → Pc × Words
  | none, .entry =>
      (.done (.panicked "sync/atomic: compare and swap of nil value into Value"), w)
  | some (t, _), .entry =>
      match old with
      | some (ot, _) =>
          if t ≠ ot then
            (.done (.panicked "sync/atomic: compare and swap of inconsistently typed values"), w)
          else (.loop, w)
      | none => (.loop, w)
  | some (t, _), .loop =>
      match w.typ with
      | .nil => if old.isSome then (.done (.swapped false), w) else (.casFirst, w)
      | .firstStoreInProgress => (.loop, w)
      | .typ t' =>
          if t' = t then (.overwrite, w)
          else (.done (.panicked
            "sync/atomic: compare and swap of inconsistently typed value into Value"), w)
  | some (t, _), .overwrite =>
      if ifaceEq (some (t, w.data)) old then (.casData w.data, w) else (.done (.swapped false), w)
  | some (t, d), .casData loaded =>
      if w.data = loaded then (.done (.swapped true), w.storeData t d)
      else (.done (.swapped false), w)
  | some (t, d), pc => firstStore i w t d (.swapped true) pc
  | none, pc => (pc, w)

/-- One atomic step of goroutine `i` running call `c`. -/
def Call.step (ifaceEq : Iface → Iface → Bool) (i : Nat) (w : Words) : Call → Pc → Pc × Words
  | .load => Atomic.load w
  | .store val => Atomic.store i w val
  | .swap new => Atomic.swap i w new
  | .compareAndSwap old new => Atomic.compareAndSwap ifaceEq i w old new

/-- The `Value` and every goroutine using it. -/
structure ValueState where
  words : Words
  threads : List Thread

namespace ValueState

variable (ifaceEq : Iface → Iface → Bool)

/-- A zero `Value` and goroutines about to make `calls`. -/
def init (calls : List Call) : ValueState :=
  ⟨⟨.nil, 0, [], none⟩, calls.map fun c => ⟨c, .entry⟩⟩

/-- The scheduler runs one atomic step of goroutine `i`. -/
def step (s : ValueState) (i : Nat) : ValueState :=
  match s.threads[i]? with
  | some th =>
      let r := th.call.step ifaceEq i s.words th.pc
      ⟨r.2, s.threads.set i ⟨th.call, r.1⟩⟩
  | none => s

/-- The interleaving `sched`, one goroutine index per atomic step. -/
def run (s : ValueState) : List Nat → ValueState
  | [] => s
  | i :: sched => (s.step ifaceEq i).run sched

end ValueState

/-! ## What each position knows -/

/-- A `CompareAndSwap` takes the first store only when `old` is nil. -/
def Call.OldNil : Call → Prop
  | .compareAndSwap old _ => old = none
  | _ => True

/-- The call's value counts as stored: always for `Store` and `Swap`; for `CompareAndSwap`
once it has returned true or is at its last step before returning true. -/
def Call.Committed : Call → Pc → Prop
  | .compareAndSwap _ _, pc => pc = .firstTyp ∨ pc = .done (.swapped true)
  | _, _ => True

namespace Words

/-- The words' invariant: a stored type comes with a data word that a call of that type
stored, and a goroutine holds the first store only while `typ` is the marker. -/
structure Inv (w : Words) : Prop where
  typ_history : ∀ t, w.typ = .typ t → (t, w.data) ∈ w.history
  owner_marker : ∀ i, w.owner = some i → w.typ = .firstStoreInProgress

/-- How a step of goroutine `k` from `w` to `w'` looks to every other goroutine: a stored type
stays, the history only grows, and another goroutine's first store is left alone. -/
structure Follows (k : Nat) (w w' : Words) : Prop where
  typ_stable : ∀ t, w.typ = .typ t → w'.typ = .typ t
  history_prefix : w.history <+: w'.history
  others : ∀ j, j ≠ k → w.owner = some j → w'.owner = some j ∧ w'.data = w.data

/-- A step that changes nothing looks to everyone like no step. -/
theorem Follows.refl (k : Nat) (w : Words) : w.Follows k w :=
  ⟨fun _ h => h, List.prefix_refl _, fun _ _ h => ⟨h, rfl⟩⟩

/-- Two steps by the same goroutine look to the others like one. -/
theorem Follows.trans {k : Nat} {w₁ w₂ w₃ : Words} (h₁₂ : w₁.Follows k w₂) (h₂₃ : w₂.Follows k w₃) :
    w₁.Follows k w₃ :=
  ⟨fun t h => h₂₃.typ_stable t (h₁₂.typ_stable t h), h₁₂.history_prefix.trans h₂₃.history_prefix,
    fun j hj h => by
      obtain ⟨h₂, hd₂⟩ := h₁₂.others j hj h
      obtain ⟨h₃, hd₃⟩ := h₂₃.others j hj h₂
      exact ⟨h₃, hd₃.trans hd₂⟩⟩

end Words

section Positions

variable (ifaceEq : Iface → Iface → Bool)

/-- What goroutine `i`, running `c` at position `pc`, knows of the words: the type it loaded
is still stored, it holds the first store it claimed, a `CompareAndSwap` about to swap `data`
found it equal to `old`, and a value it returned was stored by some call. -/
def Sound (w : Words) (i : Nat) (c : Call) : Pc → Prop
  | .loadData t => w.typ = .typ t
  | .casFirst => c.OldNil
  | .firstData => w.owner = some i ∧ c.OldNil
  | .firstTyp => w.owner = some i ∧ c.OldNil ∧
      ∀ t d, c.newValue = some (t, d) → w.data = d ∧ (t, d) ∈ w.history
  | .overwrite => ∀ t d, c.newValue = some (t, d) → w.typ = .typ t
  | .casData l => ∀ old t d, c = .compareAndSwap old (some (t, d)) →
      w.typ = .typ t ∧ ifaceEq (some (t, l)) old = true
  | .done (.value (some v)) => v ∈ w.history
  | _ => True

variable {ifaceEq}

/-- What another goroutine knows survives any step of goroutine `k`. -/
theorem Sound.follow {w w' : Words} {i k : Nat} {c : Call} {pc : Pc} (hik : i ≠ k)
    (hf : w.Follows k w') (h : Sound ifaceEq w i c pc) : Sound ifaceEq w' i c pc := by
  match pc, h with
  | .loadData t, h => exact hf.typ_stable t h
  | .casFirst, h => exact h
  | .firstData, ⟨ho, hold⟩ => exact ⟨(hf.others i hik ho).1, hold⟩
  | .firstTyp, ⟨ho, hold, hd⟩ =>
      obtain ⟨ho', hdata⟩ := hf.others i hik ho
      exact ⟨ho', hold, fun t d hc =>
        ⟨hdata.trans (hd t d hc).1, hf.history_prefix.subset (hd t d hc).2⟩⟩
  | .overwrite, h => exact fun t d hc => hf.typ_stable t (h t d hc)
  | .casData _, h => exact fun old t d hc => ⟨hf.typ_stable t (h old t d hc).1, (h old t d hc).2⟩
  | .done (.value (some _)), h => exact hf.history_prefix.subset h
  | .entry, _ | .loop, _ | .done (.value none), _ | .done .stored, _ | .done (.swapped _), _
  | .done (.panicked _), _ => trivial

variable (ifaceEq)

/-- A step of goroutine `k` running `c` from `w` to position `pc'` in `w'` that keeps the words'
invariant, leaves `k` at a sound position, lets every other goroutine keep what it knows, and
appends to the history at most `c`'s own value, once it counts as stored. -/
structure StepOk (k : Nat) (c : Call) (w : Words) (pc' : Pc) (w' : Words) : Prop where
  inv : w'.Inv
  sound : Sound ifaceEq w' k c pc'
  follows : w.Follows k w'
  history : w'.history = w.history ∨
    ∃ v, w'.history = w.history ++ [v] ∧ c.newValue = some v ∧ c.Committed pc'

variable {ifaceEq} {k : Nat} {c : Call} {w : Words} {pc pc' : Pc}

/-- Outside the first store no goroutine holds it. -/
theorem Words.Inv.owner_eq_none (hw : w.Inv) (h : w.typ ≠ .firstStoreInProgress) :
    w.owner = none := by
  cases ho : w.owner with
  | none => rfl
  | some j => exact absurd (hw.owner_marker j ho) h

/-- A step that changes the words only while goroutine `k` holds the first store, or while
nobody does, leaves every other goroutine's first store alone. -/
theorem Words.Follows.of_owner {w' : Words} (hown : ∀ j, w.owner = some j → j = k)
    (htyp : ∀ t, w.typ = .typ t → w'.typ = .typ t) (hp : w.history <+: w'.history) :
    w.Follows k w' :=
  ⟨htyp, hp, fun j hj h => absurd (hown j h) hj⟩

/-- A step that only moves the goroutine. -/
theorem StepOk.stay (hw : w.Inv) (hs : Sound ifaceEq w k c pc') : StepOk ifaceEq k c w pc' w :=
  ⟨hw, hs, .refl k w, .inl rfl⟩

/-- A step that stores `data` once a type `t` is stored: `Store`, `Swap` and a successful
`CompareAndSwap` past the first store. -/
theorem StepOk.storeData {t d : Nat} (hw : w.Inv) (htyp : w.typ = .typ t)
    (hc : c.newValue = some (t, d)) (hcommit : c.Committed pc')
    (hs : Sound ifaceEq (w.storeData t d) k c pc') :
    StepOk ifaceEq k c w pc' (w.storeData t d) := by
  have hnone := hw.owner_eq_none (by simp [htyp])
  refine ⟨⟨fun t' h => ?_, fun j h => by simp [hnone] at h⟩, hs,
    Words.Follows.of_owner (fun j h => by simp [hnone] at h) (fun _ h => h)
      (List.prefix_append _ _),
    .inr ⟨_, rfl, hc, hcommit⟩⟩
  obtain rfl : t = t' := by simpa [htyp] using h
  simp

/-- Every call counts as stored at the last step of its first store. -/
theorem Call.committed_firstTyp (c : Call) : c.Committed .firstTyp := by
  cases c <;> simp [Call.Committed]

/-- The three steps of the first store. -/
theorem firstStore_ok {t d : Nat} (result : Result) (hw : w.Inv)
    (hc : c.newValue = some (t, d)) (hres : ∀ w', Sound ifaceEq w' k c (.done result))
    (hs : Sound ifaceEq w k c pc) :
    StepOk ifaceEq k c w (firstStore k w t d result pc).1 (firstStore k w t d result pc).2 := by
  cases pc
  case casFirst =>
    simp only [firstStore]
    split
    case isTrue hnil =>
      have hnone := hw.owner_eq_none (by simp [hnil])
      exact ⟨⟨(fun _ h => nomatch h), fun _ _ => rfl⟩, ⟨rfl, hs⟩,
        Words.Follows.of_owner (fun j h => by simp [hnone] at h)
          (fun _ h => by simp [hnil] at h) (List.prefix_refl _), .inl rfl⟩
    case isFalse => exact .stay hw trivial
  case firstData =>
    simp only [firstStore]
    obtain ⟨ho, hold⟩ := hs
    refine ⟨⟨fun _ h => by simp [hw.owner_marker k ho] at h, hw.owner_marker⟩,
      ⟨ho, hold, fun t' d' h => ?_⟩,
      Words.Follows.of_owner (fun j h => Option.some_inj.mp (h.symm.trans ho)) (fun _ h => h)
        (List.prefix_append _ _), .inr ⟨_, rfl, hc, c.committed_firstTyp⟩⟩
    obtain ⟨rfl, rfl⟩ : t = t' ∧ d = d' := by simpa [hc] using h
    simp
  case firstTyp =>
    simp only [firstStore]
    obtain ⟨ho, _, hd⟩ := hs
    refine ⟨⟨fun t' h => ?_, (fun _ h => nomatch h)⟩, hres _,
      Words.Follows.of_owner (fun j h => Option.some_inj.mp (h.symm.trans ho))
        (fun _ h => by simp [hw.owner_marker k ho] at h) (List.prefix_refl _), .inl rfl⟩
    obtain rfl : t = t' := by simpa using h
    simpa [(hd t d hc).1] using (hd t d hc).2
  all_goals exact .stay hw hs

/-- `LoadPointer(&vp.typ)` at the head of the loop of `Store` and `Swap`. -/
theorem loadTyp_ok {t d : Nat} {msg : String} (hw : w.Inv) (hc : c.newValue = some (t, d))
    (hold : c.OldNil) : StepOk ifaceEq k c w (loadTyp w t msg).1 (loadTyp w t msg).2 := by
  unfold loadTyp
  split
  · exact .stay hw hold
  · exact .stay hw trivial
  · split
    · exact .stay hw fun t' d' h => by simp_all
    · exact .stay hw trivial

end Positions

/-! ## One step of each call -/

section Calls

variable {ifaceEq : Iface → Iface → Bool} {k : Nat} {w : Words}

/-- Every step of `Load` is sound. -/
theorem load_ok {pc : Pc} (hw : w.Inv) (hs : Sound ifaceEq w k .load pc) :
    StepOk ifaceEq k .load w (load w pc).1 (load w pc).2 := by
  cases pc
  case entry =>
    simp only [load]
    split
    · next t h => exact .stay hw h
    · exact .stay hw trivial
  case loadData t => exact .stay hw (hw.typ_history t hs)
  all_goals exact .stay hw hs

/-- Every step of `Store` is sound. -/
theorem store_ok {val : Iface} {pc : Pc} (hw : w.Inv) (hs : Sound ifaceEq w k (.store val) pc) :
    StepOk ifaceEq k (.store val) w (store k w val pc).1 (store k w val pc).2 := by
  rcases val with _ | ⟨t, d⟩
  · cases pc
    case entry => exact .stay hw trivial
    all_goals exact .stay hw hs
  · cases pc
    case entry => exact .stay hw trivial
    case loop => exact loadTyp_ok hw rfl trivial
    case overwrite => exact .storeData hw (hs t d rfl) rfl trivial trivial
    all_goals exact firstStore_ok .stored hw rfl (fun _ => trivial) hs

/-- Every step of `Swap` is sound. -/
theorem swap_ok {new : Iface} {pc : Pc} (hw : w.Inv) (hs : Sound ifaceEq w k (.swap new) pc) :
    StepOk ifaceEq k (.swap new) w (swap k w new pc).1 (swap k w new pc).2 := by
  rcases new with _ | ⟨t, d⟩
  · cases pc
    case entry => exact .stay hw trivial
    all_goals exact .stay hw hs
  · cases pc
    case entry => exact .stay hw trivial
    case loop => exact loadTyp_ok hw rfl trivial
    case overwrite =>
      have htyp := hs t d rfl
      exact .storeData hw htyp rfl trivial
        (List.mem_append_left _ (hw.typ_history t htyp) : (t, w.data) ∈ _)
    all_goals exact firstStore_ok (.value none) hw rfl (fun _ => trivial) hs

/-- Every step of `CompareAndSwap` is sound. -/
theorem compareAndSwap_ok {old new : Iface} {pc : Pc} (hw : w.Inv)
    (hs : Sound ifaceEq w k (.compareAndSwap old new) pc) :
    StepOk ifaceEq k (.compareAndSwap old new) w (compareAndSwap ifaceEq k w old new pc).1
      (compareAndSwap ifaceEq k w old new pc).2 := by
  rcases new with _ | ⟨t, d⟩
  · cases pc
    case entry => exact .stay hw trivial
    all_goals exact .stay hw hs
  · cases pc
    case entry =>
      simp only [compareAndSwap]
      split
      · split <;> exact .stay hw trivial
      · exact .stay hw trivial
    case loop =>
      simp only [compareAndSwap]
      split
      · split
        · exact .stay hw trivial
        · next h => exact .stay hw (by simpa [Call.OldNil] using h)
      · exact .stay hw trivial
      · split
        · exact .stay hw fun t' d' h' => by simp_all [Call.newValue]
        · exact .stay hw trivial
    case overwrite =>
      simp only [compareAndSwap]
      split
      · next heq =>
        refine .stay hw fun old' t' d' h => ?_
        obtain ⟨rfl, rfl, rfl⟩ : old = old' ∧ t = t' ∧ d = d' := by simpa using h
        exact ⟨hs t d rfl, heq⟩
      · exact .stay hw trivial
    case casData l =>
      simp only [compareAndSwap]
      split
      · exact .storeData hw (hs old t d rfl).1 rfl (.inr rfl) trivial
      · exact .stay hw trivial
    all_goals exact firstStore_ok (.swapped true) hw rfl (fun _ => trivial) hs

/-- Every step of every call keeps what its goroutine and all the others know. -/
theorem Call.step_ok (c : Call) {pc : Pc} (hw : w.Inv) (hs : Sound ifaceEq w k c pc) :
    StepOk ifaceEq k c w (c.step ifaceEq k w pc).1 (c.step ifaceEq k w pc).2 := by
  cases c
  case load => exact load_ok hw hs
  case store => exact store_ok hw hs
  case swap => exact swap_ok hw hs
  case compareAndSwap => exact compareAndSwap_ok hw hs

/-- A call that counts as stored still does after its next step. -/
theorem Call.committed_step (c : Call) {pc : Pc} (h : c.Committed pc) :
    c.Committed (c.step ifaceEq k w pc).1 := by
  cases c
  case compareAndSwap old new =>
    rcases h with rfl | rfl <;> rcases new with _ | ⟨t, d⟩ <;>
      first | exact .inl rfl | exact .inr rfl
  all_goals trivial

end Calls

/-! ## Where `Swap` and `CompareAndSwap` take effect -/

section Returns

variable {ifaceEq : Iface → Iface → Bool} {k : Nat} {w : Words}

/-- `Swap` returns at the step that replaces the value: what it returns is the value before
that step, and the value after it is `new`. -/
theorem swap_returns {new v : Iface} {pc : Pc} (hw : w.Inv)
    (hs : Sound ifaceEq w k (.swap new) pc) (hpc : ∀ r, pc ≠ .done r)
    (h : (swap k w new pc).1 = .done (.value v)) :
    v = w.value ∧ (swap k w new pc).2.value = new := by
  rcases new with _ | ⟨t, d⟩
  · cases pc <;> simp_all [swap]
  · cases pc
    case firstTyp =>
      obtain ⟨ho, -, hd⟩ := hs
      simp only [swap, firstStore, Pc.done.injEq, Result.value.injEq] at h ⊢
      subst h
      exact ⟨(Words.value_of_marker (hw.owner_marker k ho)).symm,
        by simp [Words.value, (hd t d rfl).1]⟩
    case overwrite =>
      have htyp := hs t d rfl
      simp only [swap, Pc.done.injEq, Result.value.injEq] at h ⊢
      subst h
      exact ⟨(Words.value_of_typ htyp).symm, by simp [Words.value, htyp]⟩
    case loop =>
      simp only [swap, loadTyp] at h
      split at h <;> (try split at h) <;> simp at h
    case done r => exact absurd rfl (hpc r)
    all_goals simp [swap, firstStore] at h; try split at h <;> simp at h

/-- `CompareAndSwap` returns true only at the step that replaces the value: the value before
that step is `old` (nil, for the first store) or equal to `old` by `ifaceEq`, and the value
after it is `new`. -/
theorem compareAndSwap_returns_true {old new : Iface} {pc : Pc} (hw : w.Inv)
    (hs : Sound ifaceEq w k (.compareAndSwap old new) pc) (hpc : ∀ r, pc ≠ .done r)
    (h : (compareAndSwap ifaceEq k w old new pc).1 = .done (.swapped true)) :
    (w.value = old ∨ ifaceEq w.value old = true) ∧
      (compareAndSwap ifaceEq k w old new pc).2.value = new := by
  rcases new with _ | ⟨t, d⟩
  · cases pc <;> simp_all [compareAndSwap]
  · cases pc
    case firstTyp =>
      obtain ⟨ho, hold, hd⟩ := hs
      simp only [compareAndSwap, firstStore]
      exact ⟨.inl ((Words.value_of_marker (hw.owner_marker k ho)).trans hold.symm),
        by simp [Words.value, (hd t d rfl).1]⟩
    case casData l =>
      obtain ⟨htyp, heq⟩ := hs old t d rfl
      simp only [compareAndSwap] at h ⊢
      split at h
      · next hl =>
        subst hl
        simp only [if_true]
        exact ⟨.inr (by rwa [Words.value_of_typ htyp]), by simp [Words.value, htyp]⟩
      · simp at h
    case done r => exact absurd rfl (hpc r)
    all_goals simp only [compareAndSwap, firstStore] at h; repeat' split at h
    all_goals simp at h

end Returns

/-! ## Every interleaving -/

namespace ValueState

variable (ifaceEq : Iface → Iface → Bool)

/-- The invariant of every reachable state: the words' invariant, what every goroutine knows,
and that every stored pair is the value of a call that counts as stored. -/
structure Inv (s : ValueState) : Prop where
  words : s.words.Inv
  sound : ∀ (i : Nat) (th : Thread), s.threads[i]? = some th → Sound ifaceEq s.words i th.call th.pc
  written : ∀ v ∈ s.words.history, ∃ (i : Nat) (th : Thread), s.threads[i]? = some th ∧
    th.call.newValue = some v ∧ th.call.Committed th.pc

variable {ifaceEq}

/-- The zero `Value` with every goroutine at its entry satisfies the invariant. -/
theorem Inv.init (calls : List Call) : (init calls).Inv ifaceEq := by
  refine ⟨⟨(fun _ h => nomatch h), (fun _ h => nomatch h)⟩, fun i th h => ?_,
    (fun _ h => nomatch h)⟩
  obtain ⟨c, -, rfl⟩ : ∃ c, calls[i]? = some c ∧ ⟨c, .entry⟩ = th := by
    simpa [ValueState.init] using h
  trivial

/-- The step of goroutine `k`, when it exists, is its call's step. -/
theorem step_of_get {s : ValueState} {k : Nat} {th : Thread} (hk : s.threads[k]? = some th) :
    s.step ifaceEq k = ⟨(th.call.step ifaceEq k s.words th.pc).2,
      s.threads.set k ⟨th.call, (th.call.step ifaceEq k s.words th.pc).1⟩⟩ := by
  simp [ValueState.step, hk]

/-- One step keeps the invariant. -/
theorem Inv.step {s : ValueState} (hs : s.Inv ifaceEq) (k : Nat) :
    (s.step ifaceEq k).Inv ifaceEq ∧ s.words.Follows k (s.step ifaceEq k).words := by
  cases hk : s.threads[k]? with
  | none => simpa [ValueState.step, hk] using ⟨hs, Words.Follows.refl k s.words⟩
  | some th =>
    have hok := th.call.step_ok hs.words (hs.sound k th hk)
    have hlt : k < s.threads.length := (List.getElem?_eq_some_iff.mp hk).1
    rw [step_of_get hk]
    refine ⟨⟨hok.inv, fun i thi hi => ?_, fun v hv => ?_⟩, hok.follows⟩
    · by_cases hik : i = k
      · subst hik
        obtain rfl := Option.some_inj.mp ((List.getElem?_set_self hlt).symm.trans hi)
        exact hok.sound
      · rw [List.getElem?_set_ne (Ne.symm hik)] at hi
        exact (hs.sound i thi hi).follow hik hok.follows
    · have hold : ∀ v ∈ s.words.history, ∃ (i : Nat) (thi : Thread),
          (s.threads.set k ⟨th.call, (th.call.step ifaceEq k s.words th.pc).1⟩)[i]? = some thi ∧
            thi.call.newValue = some v ∧ thi.call.Committed thi.pc := by
        intro v hv
        obtain ⟨i, thi, hi, hval, hcommit⟩ := hs.written v hv
        by_cases hik : i = k
        · subst hik
          obtain rfl := Option.some_inj.mp (hk.symm.trans hi)
          exact ⟨i, _, List.getElem?_set_self hlt, hval, th.call.committed_step hcommit⟩
        · exact ⟨i, thi, by rw [List.getElem?_set_ne (Ne.symm hik)]; exact hi, hval, hcommit⟩
      rcases hok.history with h | ⟨v', h, hval, hcommit⟩
      · exact hold v (h ▸ hv)
      · rcases List.mem_append.mp (h ▸ hv) with hv | hv
        · exact hold v hv
        · obtain rfl := List.mem_singleton.mp hv
          exact ⟨k, _, List.getElem?_set_self hlt, hval, hcommit⟩

/-- Every interleaving keeps the invariant, and looks to every goroutine like a sequence of
steps by others: in particular a stored type is never replaced. -/
theorem Inv.run {s : ValueState} (hs : s.Inv ifaceEq) (sched : List Nat) :
    (s.run ifaceEq sched).Inv ifaceEq ∧
      ∀ t, s.words.typ = .typ t → (s.run ifaceEq sched).words.typ = .typ t := by
  induction sched generalizing s with
  | nil => exact ⟨hs, fun _ h => h⟩
  | cons k sched ih =>
    obtain ⟨hs', hf⟩ := hs.step k
    exact ⟨(ih hs').1, fun t h => (ih hs').2 t (hf.typ_stable t h)⟩

/-- Goroutine `k`'s step is its call's step on the words, and moves only `k`. -/
theorem step_self {s : ValueState} {k : Nat} {th : Thread} (hk : s.threads[k]? = some th) :
    (s.step ifaceEq k).words = (th.call.step ifaceEq k s.words th.pc).2 ∧
      (s.step ifaceEq k).threads[k]? =
        some ⟨th.call, (th.call.step ifaceEq k s.words th.pc).1⟩ := by
  rw [step_of_get hk]
  exact ⟨rfl, List.getElem?_set_self (List.getElem?_eq_some_iff.mp hk).1⟩

variable (ifaceEq)

/-- What every interleaving of `Load`, `Store`, `Swap` and `CompareAndSwap` calls guarantees, in
every state it reaches: a `Load` that returned a pair returned the value of one `Store`, `Swap`
or successful `CompareAndSwap`; a stored type is never replaced; and a `Swap`, or a
`CompareAndSwap` returning true, returns at the step that replaces the value, which was the
returned value, or equal to `old`, just before. -/
theorem value_linearizable (calls : List Call) (sched : List Nat) :
    let s := (init calls).run ifaceEq sched
    (∀ (i : Nat) (v : Nat × Nat), s.threads[i]? = some ⟨.load, .done (.value (some v))⟩ →
      ∃ (j : Nat) (th : Thread), s.threads[j]? = some th ∧ th.call.newValue = some v ∧
        th.call.Committed th.pc) ∧
    (∀ t sched', s.words.typ = .typ t → (s.run ifaceEq sched').words.typ = .typ t) ∧
    (∀ (k : Nat) (new : Iface) (pc : Pc) (v : Iface), s.threads[k]? = some ⟨.swap new, pc⟩ →
      (∀ r, pc ≠ .done r) →
      (s.step ifaceEq k).threads[k]? = some ⟨.swap new, .done (.value v)⟩ →
      v = s.words.value ∧ (s.step ifaceEq k).words.value = new) ∧
    (∀ (k : Nat) (old new : Iface) (pc : Pc), s.threads[k]? = some ⟨.compareAndSwap old new, pc⟩ →
      (∀ r, pc ≠ .done r) →
      (s.step ifaceEq k).threads[k]? = some ⟨.compareAndSwap old new, .done (.swapped true)⟩ →
      (s.words.value = old ∨ ifaceEq s.words.value old = true) ∧
        (s.step ifaceEq k).words.value = new) := by
  intro s
  have hs : s.Inv ifaceEq := ((Inv.init calls).run sched).1
  refine ⟨fun i v hi => hs.written v (hs.sound i _ hi), fun t sched' h => (hs.run sched').2 t h,
    fun k new pc v hk hpc h => ?_, fun k old new pc hk hpc h => ?_⟩
  · obtain ⟨hw', hk'⟩ := step_self hk
    rw [hw']
    rw [hk'] at h
    exact swap_returns hs.words (hs.sound k _ hk) hpc (Thread.mk.inj (Option.some_inj.mp h)).2
  · obtain ⟨hw', hk'⟩ := step_self hk
    rw [hw']
    rw [hk'] at h
    exact compareAndSwap_returns_true hs.words (hs.sound k _ hk) hpc
      (Thread.mk.inj (Option.some_inj.mp h)).2

/-- A `Store` of `(1, 7)` that runs to completion, then a `Load`. -/
example : ((init [.store (some (1, 7)), .load]).run (fun a b => a == b)
    [0, 0, 0, 0, 0, 1, 1]).threads =
      [⟨.store (some (1, 7)), .done .stored⟩, ⟨.load, .done (.value (some (1, 7)))⟩] := by
  decide

/-- A `Load` inside the first store's window sees nil, and a concurrent `Swap` spins on the
marker until the type is stored, then returns the first value. -/
example : ((init [.store (some (1, 7)), .load, .swap (some (1, 8))]).run (fun a b => a == b)
    [0, 0, 2, 2, 0, 1, 2, 2, 0, 0, 2, 2]).threads =
      [⟨.store (some (1, 7)), .done .stored⟩, ⟨.load, .done (.value none)⟩,
        ⟨.swap (some (1, 8)), .done (.value (some (1, 7)))⟩] := by
  decide

end ValueState

/-! ## Progress -/

/-- The positions call `c` reaches: a `Load` its entry, its load of `data` and its end; the
other calls never load `data` for a `Load`, only `CompareAndSwap` reaches `casData`, and a call
with a nil value returns at its entry. -/
def Call.At : Call → Pc → Prop
  | _, .entry | _, .done _ => True
  | .load, .loadData _ => True
  | .compareAndSwap _ (some _), pc => ∀ t, pc ≠ .loadData t
  | .store (some _), pc | .swap (some _), pc => (∀ t, pc ≠ .loadData t) ∧ ∀ l, pc ≠ .casData l
  | _, _ => False

/-- At most how many more of its own steps call `c` takes from `pc` when none of them spins:
two from the entry of a `Load`, four from that of another call, none once it returned. -/
def Call.stepsLeft : Call → Pc → Nat
  | _, .done _ => 0
  | .load, .entry => 2
  | _, .entry | _, .casFirst => 4
  | _, .loop => 3
  | _, .firstData | _, .overwrite => 2
  | _, .firstTyp | _, .casData _ | _, .loadData _ => 1

/-- Where a goroutine's own steps never spin: a `Load`, the last two steps of a first store, a
call that returned, and every call once a type is stored. -/
def Moves (w : Words) (c : Call) (pc : Pc) : Prop :=
  c = .load ∨ pc = .firstData ∨ pc = .firstTyp ∨ (∃ r, pc = .done r) ∨ ∃ t, w.typ = .typ t

section Progress

variable {ifaceEq : Iface → Iface → Bool} {k : Nat} {w : Words}

/-- A call that returned stays where it is. -/
theorem Call.step_done (c : Call) (r : Result) : c.step ifaceEq k w (.done r) = (.done r, w) := by
  rcases c with _ | (_ | ⟨t, d⟩) | (_ | ⟨t, d⟩) | ⟨old, _ | ⟨t, d⟩⟩ <;> rfl

/-- A call only reaches its own positions. -/
theorem Call.at_step {c : Call} {pc : Pc} (hat : c.At pc) : c.At (c.step ifaceEq k w pc).1 := by
  rcases c with _ | (_ | ⟨t, d⟩) | (_ | ⟨t, d⟩) | ⟨old, _ | ⟨t, d⟩⟩ <;> cases pc <;>
    simp only [Call.At] at hat <;>
    simp only [Call.step, Atomic.load, Atomic.store, Atomic.swap, Atomic.compareAndSwap, firstStore,
      loadTyp] <;>
    repeat' split
  all_goals simp_all [Call.At]

/-- Where a goroutine does not spin, its own step brings it closer to returning. -/
theorem Call.stepsLeft_lt {c : Call} {pc : Pc} (hat : c.At pc) (hpc : ∀ r, pc ≠ .done r)
    (hm : Moves w c pc) : c.stepsLeft (c.step ifaceEq k w pc).1 < c.stepsLeft pc := by
  rcases c with _ | (_ | ⟨t, d⟩) | (_ | ⟨t, d⟩) | ⟨old, _ | ⟨t, d⟩⟩ <;> cases pc <;>
    simp only [Call.At] at hat <;> simp only [Moves] at hm <;>
    simp only [Call.step, Atomic.load, Atomic.store, Atomic.swap, Atomic.compareAndSwap, firstStore,
      loadTyp] <;>
    repeat' split
  all_goals simp_all [Call.stepsLeft]

/-- A goroutine that does not spin keeps not spinning, whatever step is taken, as long as a
stored type stays. -/
theorem Moves.step {c : Call} {pc : Pc} {w' : Words} (hm : Moves w c pc)
    (hf : ∀ t, w.typ = .typ t → w'.typ = .typ t) :
    Moves w' c (c.step ifaceEq k w pc).1 := by
  rcases hm with h | h | h | ⟨r, h⟩ | ⟨t, ht⟩
  · exact .inl h
  all_goals try subst h
  · rcases c with _ | (_ | ⟨t, d⟩) | (_ | ⟨t, d⟩) | ⟨old, _ | ⟨t, d⟩⟩ <;> simp [Call.step,
      Atomic.load, Atomic.store, Atomic.swap, Atomic.compareAndSwap, firstStore, Moves]
  · rcases c with _ | (_ | ⟨t, d⟩) | (_ | ⟨t, d⟩) | ⟨old, _ | ⟨t, d⟩⟩ <;> simp [Call.step,
      Atomic.load, Atomic.store, Atomic.swap, Atomic.compareAndSwap, firstStore, Moves]
  · rw [Call.step_done]
    exact .inr (.inr (.inr (.inl ⟨r, rfl⟩)))
  · exact .inr (.inr (.inr (.inr ⟨t, hf t ht⟩)))

/-- Another goroutine's step keeps a goroutine from spinning, as long as a stored type stays. -/
theorem Moves.step_stable {c : Call} {pc : Pc} {w' : Words} (hm : Moves w c pc)
    (hf : ∀ t, w.typ = .typ t → w'.typ = .typ t) : Moves w' c pc := by
  rcases hm with h | h | h | h | ⟨t, ht⟩
  · exact .inl h
  · exact .inr (.inl h)
  · exact .inr (.inr (.inl h))
  · exact .inr (.inr (.inr (.inl h)))
  · exact .inr (.inr (.inr (.inr ⟨t, hf t ht⟩)))

/-- Every call starts at a position of its own. -/
theorem Call.at_entry (c : Call) : c.At .entry := by
  rcases c with _ | (_ | ⟨t, d⟩) | (_ | ⟨t, d⟩) | ⟨old, _ | ⟨t, d⟩⟩ <;> trivial

/-- No call is more than four of its own steps from returning, and a `Load` two. -/
theorem Call.stepsLeft_le {c : Call} {pc : Pc} (hat : c.At pc) :
    c.stepsLeft pc ≤ 4 ∧ (c = .load → c.stepsLeft pc ≤ 2) := by
  rcases c with _ | (_ | ⟨t, d⟩) | (_ | ⟨t, d⟩) | ⟨old, _ | ⟨t, d⟩⟩ <;> cases pc <;>
    simp_all [Call.At, Call.stepsLeft]

/-- Only a call that returned has no step left. -/
theorem Call.done_of_stepsLeft {c : Call} {pc : Pc} (hat : c.At pc) (h : c.stepsLeft pc = 0) :
    ∃ r, pc = .done r := by
  rcases c with _ | (_ | ⟨t, d⟩) | (_ | ⟨t, d⟩) | ⟨old, _ | ⟨t, d⟩⟩ <;> cases pc <;>
    simp_all [Call.At, Call.stepsLeft]

end Progress

namespace ValueState

variable {ifaceEq : Iface → Iface → Bool}

/-- Another goroutine's step leaves goroutine `i` where it is. -/
theorem step_other {s : ValueState} {i k : Nat} (hik : i ≠ k) :
    (s.step ifaceEq k).threads[i]? = s.threads[i]? := by
  unfold ValueState.step
  split
  · exact List.getElem?_set_ne (Ne.symm hik)
  · rfl

/-- Along every interleaving a goroutine keeps its call and stays at positions of it. -/
theorem run_at {s : ValueState} {i : Nat} {c : Call} {pc : Pc} (hi : s.threads[i]? = some ⟨c, pc⟩)
    (hat : c.At pc) (sched : List Nat) :
    ∃ pc', (s.run ifaceEq sched).threads[i]? = some ⟨c, pc'⟩ ∧ c.At pc' := by
  induction sched generalizing s pc with
  | nil => exact ⟨pc, hi, hat⟩
  | cons k sched ih =>
      by_cases hik : i = k
      · subst hik
        exact ih (step_self hi).2 (Call.at_step hat)
      · exact ih ((step_other hik).trans hi) hat

/-- From a reachable state, a goroutine that does not spin is at most `stepsLeft` of its own
steps from returning, less the steps every interleaving gives it. -/
theorem Inv.run_stepsLeft {s : ValueState} (hs : s.Inv ifaceEq) {i : Nat} {c : Call} {pc : Pc}
    (hi : s.threads[i]? = some ⟨c, pc⟩) (hat : c.At pc) (hm : Moves s.words c pc)
    (sched : List Nat) :
    ∃ pc', (s.run ifaceEq sched).threads[i]? = some ⟨c, pc'⟩ ∧ c.At pc' ∧
      c.stepsLeft pc' ≤ c.stepsLeft pc - sched.count i := by
  induction sched generalizing s pc with
  | nil => exact ⟨pc, hi, hat, Nat.le_refl _⟩
  | cons k sched ih =>
      obtain ⟨hs', hf⟩ := hs.step k
      by_cases hik : i = k
      · subst hik
        obtain ⟨hw', hk'⟩ := step_self hi
        obtain ⟨pc', hrun, hat', hle⟩ := ih hs' hk' (Call.at_step hat)
          (hm.step (hw' ▸ hf.typ_stable))
        refine ⟨pc', hrun, hat', ?_⟩
        rw [List.count_cons_self]
        by_cases hpc : ∃ r, pc = .done r
        · obtain ⟨r, rfl⟩ := hpc
          simp only [Call.step_done, Call.stepsLeft] at hle ⊢
          omega
        · have hlt : c.stepsLeft (c.step ifaceEq i s.words pc).1 < c.stepsLeft pc :=
            Call.stepsLeft_lt hat (fun r h => hpc ⟨r, h⟩) hm
          dsimp only at hle
          omega
      · obtain ⟨pc', hrun, hat', hle⟩ := ih hs' ((step_other hik).trans hi) hat
          (hm.step_stable hf.typ_stable)
        exact ⟨pc', hrun, hat', by rwa [List.count_cons_of_ne hik]⟩

/-- A goroutine that does not spin returns once the interleaving gives it `stepsLeft` steps. -/
theorem Inv.run_done {s : ValueState} (hs : s.Inv ifaceEq) {i : Nat} {c : Call} {pc : Pc}
    (hi : s.threads[i]? = some ⟨c, pc⟩) (hat : c.At pc) (hm : Moves s.words c pc)
    {sched : List Nat} (hn : c.stepsLeft pc ≤ sched.count i) :
    ∃ r, (s.run ifaceEq sched).threads[i]? = some ⟨c, .done r⟩ := by
  obtain ⟨pc', hrun, hat', hle⟩ := hs.run_stepsLeft hi hat hm sched
  obtain ⟨r, rfl⟩ := Call.done_of_stepsLeft hat' (by omega)
  exact ⟨r, hrun⟩

variable (ifaceEq)

/-- Progress of every call under every interleaving from the zero `Value`, after any steps
`pre`. A `Load` returns within two of its own steps. Once a type is stored, every call returns
within four of its own steps. A goroutine past its claim of the first store returns within two.
So a call only spins while it finds another goroutine's first store in progress. -/
theorem value_progress (calls : List Call) (pre sched : List Nat) {i : Nat} {c : Call}
    (hc : calls[i]? = some c) :
    let s := (init calls).run ifaceEq pre
    (c = .load → 2 ≤ sched.count i →
      ∃ r, (s.run ifaceEq sched).threads[i]? = some ⟨c, .done r⟩) ∧
    (∀ t, s.words.typ = .typ t → 4 ≤ sched.count i →
      ∃ r, (s.run ifaceEq sched).threads[i]? = some ⟨c, .done r⟩) ∧
    (∀ pc, s.threads[i]? = some ⟨c, pc⟩ → pc = .firstData ∨ pc = .firstTyp →
      2 ≤ sched.count i → ∃ r, (s.run ifaceEq sched).threads[i]? = some ⟨c, .done r⟩) := by
  intro s
  have hs : s.Inv ifaceEq := ((Inv.init calls).run pre).1
  have hinit : (init calls).threads[i]? = some ⟨c, .entry⟩ := by simp [init, hc]
  obtain ⟨pc, hi, hat⟩ : ∃ pc, s.threads[i]? = some ⟨c, pc⟩ ∧ c.At pc :=
    run_at hinit (Call.at_entry c) pre
  refine ⟨fun hload hn => hs.run_done hi hat (.inl hload) ?_,
    fun t ht hn => hs.run_done hi hat (.inr (.inr (.inr (.inr ⟨t, ht⟩)))) ?_,
    fun pc' hi' hpc hn => ?_⟩
  · exact le_trans ((Call.stepsLeft_le hat).2 hload) hn
  · exact le_trans (Call.stepsLeft_le hat).1 hn
  · obtain rfl : pc = pc' := by simpa using hi.symm.trans hi'
    refine hs.run_done hi hat (by rcases hpc with rfl | rfl <;> simp [Moves]) ?_
    rcases hpc with rfl | rfl <;> simp only [Call.stepsLeft] <;> omega

/-- A `Load` next to a `Store` that has claimed the first store returns in its two steps. -/
theorem value_progress_load :
    [Call.store (some (1, 7)), .load][1]? = some .load ∧
    ((Call.load = .load → 2 ≤ [1, 1].count 1 →
      ∃ r, (((init [.store (some (1, 7)), .load]).run (fun a b => a == b) [0, 0, 0]).run
        (fun a b => a == b) [1, 1]).threads[1]? = some ⟨.load, .done r⟩) ∧
    (∀ t, ((init [.store (some (1, 7)), .load]).run (fun a b => a == b) [0, 0, 0]).words.typ =
        .typ t → 4 ≤ [1, 1].count 1 →
      ∃ r, (((init [.store (some (1, 7)), .load]).run (fun a b => a == b) [0, 0, 0]).run
        (fun a b => a == b) [1, 1]).threads[1]? = some ⟨.load, .done r⟩) ∧
    (∀ pc, ((init [.store (some (1, 7)), .load]).run (fun a b => a == b) [0, 0, 0]).threads[1]? =
        some ⟨.load, pc⟩ → pc = .firstData ∨ pc = .firstTyp → 2 ≤ [1, 1].count 1 →
      ∃ r, (((init [.store (some (1, 7)), .load]).run (fun a b => a == b) [0, 0, 0]).run
        (fun a b => a == b) [1, 1]).threads[1]? = some ⟨.load, .done r⟩)) :=
  ⟨rfl, value_progress (fun a b => a == b) [.store (some (1, 7)), .load] [0, 0, 0] [1, 1] rfl⟩

/-- A `Swap` that finds the first store in progress spins; once the type is stored it returns
within four of its own steps. -/
example : ((init [.store (some (1, 7)), .swap (some (1, 8))]).run (fun a b => a == b)
    [0, 0, 0, 1, 1, 1, 1, 0, 0, 1, 1, 1, 1]).threads[1]? =
      some ⟨.swap (some (1, 8)), .done (.value (some (1, 7)))⟩ := by
  decide

end ValueState

end ReadGoCode.Atomic
