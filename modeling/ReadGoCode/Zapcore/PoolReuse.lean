import ReadGoCode.Zapcore.Pool

/-!
# Reuse of pooled checked entries

`Inv` is what every state a run reaches satisfies (`run_inv`); each call keeps it
(`step_inv`), through one lemma per kind of change: changing an instance in place
(`Inv.modify`), handing an instance out (`Inv.handOut`), taking a handle (`Inv.push`),
writing (`Inv.writeAt`) and dropping a pooled instance (`Inv.drop`).

How the `Write` calls made through a handle compare with those made on its instance is one
generic argument, `run_writesRel`, over a relation every call respects: at most as many in
every run (`run_writesLe`), and as many in a run without stale writes (`run_exact`).
`write_first` and `write_again` then say what a `Write` calls, and `checkedEntry_reuse`
collects it all over every run.
-/

namespace ReadGoCode.Zapcore

namespace Slot

/-- `AddCore` keeps the ghost record in step with the instance. -/
theorem addCore_ok {x : Slot} (h : x.Ok) (core : Core) : (x.addCore core).Ok :=
  ⟨congrArg (· ++ [core]) h.1, h.2.1, h.2.2⟩

/-- `After` keeps the ghost record in step with the instance. -/
theorem after_ok {x : Slot} (h : x.Ok) (hook : CheckWriteHook) : (x.after hook).Ok :=
  ⟨h.1, rfl, h.2.2⟩

end Slot

namespace PoolState

/-- `_cePool.Get` changes no instance. -/
theorem poolGet_heap (s : PoolState) (pick : Option Nat) : (s.poolGet pick).2.heap = s.heap := by
  unfold poolGet; split <;> rfl

/-- `_cePool.Get` takes no handle. -/
theorem poolGet_handles (s : PoolState) (pick : Option Nat) :
    (s.poolGet pick).2.handles = s.handles := by
  unfold poolGet; split <;> rfl

/-- A nil `AddCore` or `After` changes only the instance it takes. -/
theorem acquire_heap (s : PoolState) (pick : Option Nat) (ent : Entry) (f : Slot → Slot)
    (b : Nat) :
    (s.acquire pick ent f).heap b = if b = (s.poolGet pick).1 then
      f (((s.heap b).handOut s.handles.length).setEntry ent) else s.heap b := by
  by_cases hb : b = (s.poolGet pick).1 <;>
    simp [acquire, getCheckedEntry, modify_heap, poolGet_heap, hb]

/-- A nil `AddCore` or `After` takes one new handle on the instance it got. -/
theorem acquire_handles (s : PoolState) (pick : Option Nat) (ent : Entry) (f : Slot → Slot) :
    (s.acquire pick ent f).handles = s.handles ++ [⟨(s.poolGet pick).1, 0⟩] := by
  simp [acquire, getCheckedEntry, poolGet_handles]

section Steps

variable {s : PoolState}

/-- `Write` through a handle changes only the handle's instance. -/
theorem writeAt_heap (w : World) (h : Nat) (x : Handle) (fields : List Field) :
    (s.writeAt w h x fields).1.heap =
      (s.modify x.addr fun _ => ((s.heap x.addr).write w fields).2.1).heap := by
  unfold writeAt; dsimp only; split <;> rfl

/-- `Write` puts the instance back exactly when the write reached `putCheckedEntry`. -/
theorem writeAt_pool (w : World) (h : Nat) (x : Handle) (fields : List Field) :
    (s.writeAt w h x fields).1.pool =
      if ((s.heap x.addr).write w fields).2.2 then x.addr :: s.pool else s.pool := by
  unfold writeAt; dsimp only; split <;> rfl

/-- `Write` allocates nothing. -/
theorem writeAt_next (w : World) (h : Nat) (x : Handle) (fields : List Field) :
    (s.writeAt w h x fields).1.next = s.next := by
  unfold writeAt; dsimp only; split <;> rfl

/-- `Write` counts one more write through the handle. -/
theorem writeAt_handles (w : World) (h : Nat) (x : Handle) (fields : List Field) :
    (s.writeAt w h x fields).1.handles = s.handles.set h ⟨x.addr, x.writes + 1⟩ := by
  unfold writeAt; dsimp only; split <;> rfl

/-- The events of `Write` through a handle are those of its instance's `Write`. -/
theorem writeAt_events (w : World) (h : Nat) (x : Handle) (fields : List Field) :
    (s.writeAt w h x fields).2 = ((s.heap x.addr).ce.write w fields).1 := rfl

/-- A `Write` call on a held handle is `writeAt`. -/
theorem step_write {w : World} {h : Nat} {x : Handle} (hx : s.handles[h]? = some x)
    (fields : List Field) : s.step w (.write h fields) = s.writeAt w h x fields := by
  simp [step, hx]

end Steps

/-! ## The invariant -/

/-- What every reachable state satisfies: the ghost records match the instances, pooled
instances are dirty, no instance is pooled twice, and `New` allocates at a fresh address. -/
structure Inv (s : PoolState) : Prop where
  ok : ∀ a, (s.heap a).Ok
  pooled_dirty : ∀ a ∈ s.pool, (s.heap a).ce.dirty = true
  nodup : s.pool.Nodup
  pool_lt : ∀ a ∈ s.pool, a < s.next
  handles_lt : ∀ x ∈ s.handles, x.addr < s.next

/-- The state before any call satisfies the invariant. -/
theorem init_inv : init.Inv where
  ok _ := ⟨rfl, rfl, rfl⟩
  pooled_dirty _ h := nomatch h
  nodup := List.nodup_nil
  pool_lt _ h := nomatch h
  handles_lt _ h := nomatch h

section Steps

variable {s : PoolState}

/-- Changing an instance's entry, cores or hook keeps the invariant. -/
theorem Inv.modify {f : Slot → Slot} (hs : s.Inv) (a : Nat) (hok : ∀ x : Slot, x.Ok → (f x).Ok)
    (hdirty : ∀ x : Slot, (f x).ce.dirty = x.ce.dirty) : (s.modify a f).Inv where
  ok b := by
    rw [modify_heap]
    split
    · exact hok _ (hs.ok b)
    · exact hs.ok b
  pooled_dirty b hb := by
    rw [modify_heap]
    split
    · rw [hdirty]; exact hs.pooled_dirty b hb
    · exact hs.pooled_dirty b hb
  nodup := hs.nodup
  pool_lt := hs.pool_lt
  handles_lt := hs.handles_lt

/-- Dropping a pooled instance keeps the invariant. -/
theorem Inv.drop (hs : s.Inv) (a : Nat) : { s with pool := s.pool.erase a }.Inv where
  ok := hs.ok
  pooled_dirty b hb := hs.pooled_dirty b (List.mem_of_mem_erase hb)
  nodup := hs.nodup.erase a
  pool_lt b hb := hs.pool_lt b (List.mem_of_mem_erase hb)
  handles_lt := hs.handles_lt

/-- `_cePool.Get()` hands out an address below `next` that is no longer pooled. -/
theorem poolGet_spec (hs : s.Inv) (pick : Option Nat) :
    (s.poolGet pick).2.Inv ∧ (s.poolGet pick).1 ∉ (s.poolGet pick).2.pool ∧
      (s.poolGet pick).1 < (s.poolGet pick).2.next := by
  unfold poolGet
  split
  · rename_i a ha
    have hmem : a ∈ s.pool := by
      cases pick with
      | none => cases ha
      | some k => exact List.getElem?_mem ha
    exact ⟨hs.drop a, hs.nodup.not_mem_erase, hs.pool_lt a hmem⟩
  · exact ⟨⟨hs.ok, hs.pooled_dirty, hs.nodup, fun b hb => Nat.lt_succ_of_lt (hs.pool_lt b hb),
      fun x hx => Nat.lt_succ_of_lt (hs.handles_lt x hx)⟩,
      fun h => Nat.lt_irrefl _ (hs.pool_lt _ h), Nat.lt_succ_self _⟩

/-- Resetting an instance that is not pooled keeps the invariant. -/
theorem Inv.handOut (hs : s.Inv) {a : Nat} (ha : a ∉ s.pool) (n : Nat) :
    (s.modify a (·.handOut n)).Inv where
  ok b := by
    rw [modify_heap]
    split
    · exact Slot.handOut_ok _ _
    · exact hs.ok b
  pooled_dirty b hb := by
    rw [modify_heap, if_neg (fun (h : b = a) => ha (h ▸ hb))]
    exact hs.pooled_dirty b hb
  nodup := hs.nodup
  pool_lt := hs.pool_lt
  handles_lt := hs.handles_lt

/-- `getCheckedEntry()` hands out an empty instance at an address below `next` that is no
longer pooled, whatever the instance held before. -/
theorem getCheckedEntry_spec (hs : s.Inv) (pick : Option Nat) :
    (s.getCheckedEntry pick).2.Inv ∧
      (s.getCheckedEntry pick).1 ∉ (s.getCheckedEntry pick).2.pool ∧
      (s.getCheckedEntry pick).1 < (s.getCheckedEntry pick).2.next ∧
      ((s.getCheckedEntry pick).2.heap (s.getCheckedEntry pick).1).ce = CheckedEntry.empty := by
  obtain ⟨hget, hnot, hlt⟩ := poolGet_spec hs pick
  exact ⟨hget.handOut hnot _, hnot, hlt,
    by simp [getCheckedEntry, modify_heap, Slot.handOut, CheckedEntry.reset_eq_empty]⟩

/-- Taking a new handle on an address below `next` keeps the invariant. -/
theorem Inv.push (hs : s.Inv) {a : Nat} (ha : a < s.next) :
    { s with handles := s.handles ++ [Handle.mk a 0] }.Inv where
  ok := hs.ok
  pooled_dirty := hs.pooled_dirty
  nodup := hs.nodup
  pool_lt := hs.pool_lt
  handles_lt x hx := by
    rcases List.mem_append.1 hx with hx | hx
    · exact hs.handles_lt x hx
    · rw [List.mem_singleton.1 hx]; exact ha

/-- A nil `AddCore` or `After` keeps the invariant. -/
theorem Inv.acquire {f : Slot → Slot} (hs : s.Inv) (pick : Option Nat) (ent : Entry)
    (hok : ∀ x : Slot, x.Ok → (f x).Ok) (hdirty : ∀ x : Slot, (f x).ce.dirty = x.ce.dirty) :
    (s.acquire pick ent f).Inv := by
  obtain ⟨hget, -, hlt, -⟩ := getCheckedEntry_spec hs pick
  exact (hget.modify _ (fun x hx => hok (x.setEntry ent) hx)
    (fun x => hdirty (x.setEntry ent))).push hlt

/-- `Write` through a handle keeps the invariant. -/
theorem Inv.writeAt (hs : s.Inv) (w : World) {h : Nat} {x : Handle}
    (hx : s.handles[h]? = some x) (fields : List Field) : (s.writeAt w h x fields).1.Inv := by
  have hw := Slot.write_ok (hs.ok x.addr) w fields
  have hlt := hs.handles_lt x (List.getElem?_mem hx)
  refine ⟨fun b => ?ok, fun b hb => ?pooled_dirty, ?nodup, fun b hb => ?pool_lt,
    fun y hy => ?handles_lt⟩
  case ok =>
    rw [writeAt_heap, modify_heap]
    split
    · exact hw.1
    · exact hs.ok b
  case pooled_dirty =>
    rw [writeAt_pool] at hb
    rw [writeAt_heap, modify_heap]
    split
    · exact hw.2
    · split at hb
      · exact hs.pooled_dirty b ((List.mem_cons.1 hb).resolve_left ‹_›)
      · exact hs.pooled_dirty b hb
  case nodup =>
    rw [writeAt_pool]
    split
    · refine List.nodup_cons.2 ⟨fun hin => ?_, hs.nodup⟩
      have hdirty := hs.pooled_dirty _ hin
      rw [Slot.write_putBack ‹_›] at hdirty
      cases hdirty
    · exact hs.nodup
  case pool_lt =>
    rw [writeAt_pool] at hb
    rw [writeAt_next]
    split at hb
    · rcases List.mem_cons.1 hb with rfl | hb
      · exact hlt
      · exact hs.pool_lt b hb
    · exact hs.pool_lt b hb
  case handles_lt =>
    rw [writeAt_handles] at hy
    rw [writeAt_next]
    rcases List.mem_or_eq_of_mem_set hy with hy | rfl
    · exact hs.handles_lt y hy
    · exact hlt

/-- Every call keeps the invariant. -/
theorem step_inv (hs : s.Inv) (w : World) : ∀ op : PoolOp, (s.step w op).1.Inv
  | .addCoreNil ent core pick =>
      hs.acquire pick ent (fun _ hx => Slot.addCore_ok hx core) (fun _ => rfl)
  | .afterNil ent hook pick =>
      hs.acquire pick ent (fun _ hx => Slot.after_ok hx hook) (fun _ => rfl)
  | .addCore h core => by
      simp only [step]
      split
      · exact hs.modify _ (fun _ hx => Slot.addCore_ok hx core) (fun _ => rfl)
      · exact hs
  | .after h hook => by
      simp only [step]
      split
      · exact hs.modify _ (fun _ hx => Slot.after_ok hx hook) (fun _ => rfl)
      · exact hs
  | .write h fields => by
      simp only [step]
      split
      · exact hs.writeAt w ‹_› fields
      · exact hs
  | .drop k => by
      simp only [step]
      split
      · exact hs.drop _
      · exact hs

end Steps

/-- The invariant holds in every state a run reaches. -/
theorem run_inv (w : World) : ∀ (s : PoolState) (ops : List PoolOp), s.Inv → (s.run w ops).Inv
  | _, [], hs => hs
  | _, op :: ops, hs => run_inv w _ ops (step_inv hs w op)

/-! ## Handles against their instances -/

/-- A `Write` through a handle whose instance has since been handed out to a later handle. -/
def staleWrite (s : PoolState) : PoolOp → Bool
  | .write h _ =>
      match s.handles[h]? with
      | some x => (s.heap x.addr).owner != h
      | none => false
  | _ => false

/-- No call of the run from `s` is a stale `Write`. -/
def NoStaleWrite (w : World) : PoolState → List PoolOp → Prop
  | _, [] => True
  | s, op :: ops => s.staleWrite op = false ∧ NoStaleWrite w (s.step w op).1 ops

/-- Every handle that took its instance last relates the `Write` calls made through it to
those made on the instance by `R`. -/
def WritesRel (R : Nat → Nat → Prop) (s : PoolState) : Prop :=
  ∀ h x, s.handles[h]? = some x → (s.heap x.addr).owner = h → R x.writes (s.heap x.addr).writes

/-- Before any call there is no handle. -/
theorem init_writesRel (R : Nat → Nat → Prop) : init.WritesRel R :=
  fun _ _ h => by simp [init] at h

section WritesRel

variable {R : Nat → Nat → Prop} {s : PoolState}

/-- A change that keeps owners and write counts keeps the relation. -/
theorem WritesRel.modify {f : Slot → Slot} (hs : s.WritesRel R) (a : Nat)
    (hkeep : ∀ x : Slot, (f x).owner = x.owner ∧ (f x).writes = x.writes) :
    (s.modify a f).WritesRel R := by
  intro h x hx ho
  by_cases hb : x.addr = a
  · rw [modify_heap, if_pos hb, (hkeep _).1] at ho
    rw [modify_heap, if_pos hb, (hkeep _).2]
    exact hs h x hx ho
  · rw [modify_heap, if_neg hb] at ho ⊢
    exact hs h x hx ho

/-- Taking an instance for a new handle keeps the relation. -/
theorem WritesRel.acquire {f : Slot → Slot} (hzero : R 0 0) (hs : s.WritesRel R)
    (pick : Option Nat) (ent : Entry)
    (hkeep : ∀ x : Slot, (f x).owner = x.owner ∧ (f x).writes = x.writes) :
    (s.acquire pick ent f).WritesRel R := by
  intro h x hx ho
  rw [acquire_handles] at hx
  rcases Nat.lt_or_ge h s.handles.length with hlt | hge
  · rw [List.getElem?_append_left hlt] at hx
    by_cases hb : x.addr = (s.poolGet pick).1
    · rw [acquire_heap, if_pos hb, (hkeep _).1] at ho
      exact absurd ho (Nat.ne_of_gt hlt)
    · rw [acquire_heap, if_neg hb] at ho ⊢
      exact hs h x hx ho
  · rw [List.getElem?_append_right hge] at hx
    rw [List.mem_singleton.1 (List.getElem?_mem hx), acquire_heap, if_pos rfl, (hkeep _).2]
    exact hzero

/-- A `Write` through the instance's holder, or any `Write` when the relation allows a lagging
handle, keeps the relation. -/
theorem WritesRel.writeAt (hsucc : ∀ a b, R a b → R (a + 1) (b + 1)) (hs : s.WritesRel R)
    (w : World) {h : Nat} {x : Handle} (hx : s.handles[h]? = some x)
    (hstale : (s.heap x.addr).owner = h ∨ ∀ a b, R a b → R a (b + 1)) (fields : List Field) :
    (s.writeAt w h x fields).1.WritesRel R := by
  intro h' y hy ho
  rw [writeAt_handles, List.getElem?_set] at hy
  rw [writeAt_heap, modify_heap] at ho ⊢
  by_cases hh : h = h'
  · subst hh
    rw [if_pos rfl, if_pos (List.getElem?_eq_some_iff.1 hx).1] at hy
    cases hy
    rw [if_pos rfl] at ho ⊢
    exact hsucc _ _ (hs h x hx ho)
  · rw [if_neg hh] at hy
    by_cases hb : y.addr = x.addr
    · rw [if_pos hb] at ho ⊢
      rcases hstale with hown | hmono
      · exact absurd (hown.symm.trans ho) hh
      · have := hs h' y hy (by rw [hb]; exact ho)
        rw [hb] at this
        exact hmono _ _ this
    · rw [if_neg hb] at ho ⊢
      exact hs h' y hy ho

/-- A call that is not a stale `Write`, or any call when the relation allows a lagging handle, keeps
the relation. -/
theorem WritesRel.step (hzero : R 0 0) (hsucc : ∀ a b, R a b → R (a + 1) (b + 1))
    (hs : s.WritesRel R) (w : World) :
    ∀ op : PoolOp, (s.staleWrite op = false ∨ ∀ a b, R a b → R a (b + 1)) →
      (s.step w op).1.WritesRel R
  | .addCoreNil ent core pick, _ => hs.acquire hzero pick ent (fun _ => ⟨rfl, rfl⟩)
  | .afterNil ent hook pick, _ => hs.acquire hzero pick ent (fun _ => ⟨rfl, rfl⟩)
  | .addCore h core, _ => by
      simp only [PoolState.step]
      split
      · exact hs.modify _ (fun _ => ⟨rfl, rfl⟩)
      · exact hs
  | .after h hook, _ => by
      simp only [PoolState.step]
      split
      · exact hs.modify _ (fun _ => ⟨rfl, rfl⟩)
      · exact hs
  | .write h fields, hstale => by
      simp only [PoolState.step]
      split
      · rename_i x hx
        refine hs.writeAt hsucc w hx (hstale.imp (fun hfresh => ?_) id) fields
        simpa [staleWrite, hx] using hfresh
      · exact hs
  | .drop k, _ => by
      simp only [PoolState.step]
      split <;> exact hs

end WritesRel

/-- Over a run, `WritesRel R` is kept by a relation that every call respects. -/
theorem run_writesRel {R : Nat → Nat → Prop} (hzero : R 0 0)
    (hsucc : ∀ a b, R a b → R (a + 1) (b + 1)) (w : World) :
    ∀ (s : PoolState) (ops : List PoolOp), s.WritesRel R →
      (NoStaleWrite w s ops ∨ ∀ a b, R a b → R a (b + 1)) → (s.run w ops).WritesRel R
  | _, [], hs, _ => hs
  | _, op :: ops, hs, hstale =>
      run_writesRel hzero hsucc w _ ops (hs.step hzero hsucc w op (hstale.imp (·.1) id))
        (hstale.imp (·.2) id)

/-- A handle that took its instance last has written it at most as often as it was
written. -/
theorem run_writesLe (w : World) (ops : List PoolOp) : (init.run w ops).WritesRel (· ≤ ·) :=
  run_writesRel (Nat.le_refl 0) (fun _ _ => Nat.succ_le_succ) w init ops (init_writesRel _)
    (.inr fun _ _ => Nat.le_succ_of_le)

/-- Without stale writes, a handle that took its instance last made every `Write` on it. -/
theorem run_exact (w : World) (ops : List PoolOp) (hclean : NoStaleWrite w init ops) :
    (init.run w ops).WritesRel (· = ·) :=
  run_writesRel rfl (fun _ _ h => congrArg (· + 1) h) w init ops (init_writesRel _) (.inl hclean)

/-! ## What a `Write` calls -/

section Writes

variable {s : PoolState}

/-- The first `Write` on an instance since `getCheckedEntry` handed it out, through whichever
handle, calls `Write(ent, fields)` on each core added to it since, in the order they were
added, then the hook it was given, if any; it puts the instance back exactly when there is no
hook or the hook returns. -/
theorem write_first (hs : s.Inv) (w : World) {h : Nat} {x : Handle}
    (hx : s.handles[h]? = some x) (hfirst : (s.heap x.addr).writes = 0) (fields : List Field) :
    (s.step w (.write h fields)).2.filter Event.isCall =
        (s.heap x.addr).appended.map (.coreWrite · (s.heap x.addr).ce.entry fields) ++
          ((s.heap x.addr).hookSet.map (.onWrite · (s.heap x.addr).ce.entry)).toList ∧
      (s.step w (.write h fields)).1.pool =
        if (s.heap x.addr).hookSet.all (·.returns w) then x.addr :: s.pool else s.pool := by
  obtain ⟨hcores, hafter, hdirty⟩ := hs.ok x.addr
  have hclean : (s.heap x.addr).ce.dirty = false := by simpa [hfirst] using hdirty
  rw [step_write hx, writeAt_events, writeAt_pool,
    CheckedEntry.write_clean_calls w _ fields hclean, hcores, hafter]
  refine ⟨rfl, ?_⟩
  simp only [Slot.write, CheckedEntry.write_clean w _ fields hclean, hafter]
  cases (s.heap x.addr).hookSet <;> rfl

/-- A further `Write` through a handle, before its instance is handed out again, calls no core
and no hook, and leaves the instance and the pool as they are. -/
theorem write_again (hs : s.Inv) (hle : s.WritesRel (· ≤ ·)) (w : World) {h : Nat} {x : Handle}
    (hx : s.handles[h]? = some x) (howner : (s.heap x.addr).owner = h) (hwritten : x.writes ≠ 0)
    (fields : List Field) :
    (s.step w (.write h fields)).2.filter Event.isCall = [] ∧
      (s.step w (.write h fields)).1.pool = s.pool ∧
      ((s.step w (.write h fields)).1.heap x.addr).ce = (s.heap x.addr).ce := by
  have hdirty : (s.heap x.addr).ce.dirty = true := by
    have := hle h x hx howner
    rw [(hs.ok x.addr).2.2]
    simp only [bne_iff_ne, ne_eq]
    omega
  have hw := CheckedEntry.write_dirty_calls w _ fields hdirty
  rw [step_write hx, writeAt_events, writeAt_pool, writeAt_heap, modify_heap, if_pos rfl]
  exact ⟨hw.1, by simp [Slot.write, hw.2], by simp [Slot.write, hw.2]⟩

end Writes

/-- A handle kept past its `Write` aliases the instance's next holder. Handle 0 adds `c₁` and
writes; the pool hands the same instance to handle 1, which adds `c₂`. Writing handle 0 again
performs handle 1's write of `c₂`, and handle 1's first `Write` then calls nothing. -/
theorem stale_write_takes_first_write :
    let w : World := ⟨fun _ _ _ => none, fun _ _ _ _ => none, fun _ => none, fun _ _ => none,
      fun _ => true⟩
    let c₁ := newCore ⟨0, []⟩ ⟨1⟩ (.level infoLevel)
    let c₂ := newCore ⟨0, []⟩ ⟨2⟩ (.level infoLevel)
    let s := init.run w [.addCoreNil Entry.zero c₁ none, .write 0 [],
      .addCoreNil Entry.zero c₂ (some 0)]
    let s' := (s.step w (.write 0 [])).1
    s.handles = [⟨0, 1⟩, ⟨0, 0⟩] ∧ (s.heap 0).appended = [c₂] ∧
      (s.step w (.write 0 [])).2.filter Event.isCall = [.coreWrite c₂ Entry.zero []] ∧
      (s'.step w (.write 1 [])).2.filter Event.isCall = [] :=
  ⟨rfl, rfl, rfl, rfl⟩

/-- Over every run of a single-threaded program from an empty pool. The pool never holds an
instance twice, and every pooled instance is dirty. `getCheckedEntry` hands out an empty
instance that is no longer pooled. The first `Write` on an instance since it was handed out
calls `Write(ent, fields)` on each core added to it since, in order, then its hook, and puts it
back exactly when the hook returns or there is none. A further `Write` through a handle before
its instance is handed out again calls nothing and leaves the instance and the pool as they
are. In a run where no handle was written after its instance went to a later handle, a handle's
first `Write` is its instance's first. -/
theorem checkedEntry_reuse (w : World) (ops : List PoolOp) :
    let s := init.run w ops
    (s.pool.Nodup ∧ ∀ a ∈ s.pool, (s.heap a).ce.dirty = true) ∧
    (∀ pick, ((s.getCheckedEntry pick).2.heap (s.getCheckedEntry pick).1).ce =
        CheckedEntry.empty ∧ (s.getCheckedEntry pick).1 ∉ (s.getCheckedEntry pick).2.pool) ∧
    ∀ (h : Nat) (x : Handle) (fields : List Field), s.handles[h]? = some x →
      ((s.heap x.addr).writes = 0 →
        (s.step w (.write h fields)).2.filter Event.isCall =
            (s.heap x.addr).appended.map (.coreWrite · (s.heap x.addr).ce.entry fields) ++
              ((s.heap x.addr).hookSet.map (.onWrite · (s.heap x.addr).ce.entry)).toList ∧
          (s.step w (.write h fields)).1.pool =
            if (s.heap x.addr).hookSet.all (·.returns w) then x.addr :: s.pool else s.pool) ∧
      ((s.heap x.addr).owner = h → x.writes ≠ 0 →
        (s.step w (.write h fields)).2.filter Event.isCall = [] ∧
          (s.step w (.write h fields)).1.pool = s.pool ∧
          ((s.step w (.write h fields)).1.heap x.addr).ce = (s.heap x.addr).ce) ∧
      (NoStaleWrite w init ops → (s.heap x.addr).owner = h →
        x.writes = (s.heap x.addr).writes) := by
  intro s
  have hs : s.Inv := run_inv w init ops init_inv
  exact ⟨⟨hs.nodup, hs.pooled_dirty⟩,
    fun pick => ⟨(getCheckedEntry_spec hs pick).2.2.2, (getCheckedEntry_spec hs pick).2.1⟩,
    fun h x fields hx => ⟨fun hfirst => write_first hs w hx hfirst fields,
      fun howner hwritten => write_again hs (run_writesLe w ops) w hx howner hwritten fields,
      fun hclean howner => run_exact w ops hclean h x hx howner⟩⟩

end PoolState

end ReadGoCode.Zapcore
