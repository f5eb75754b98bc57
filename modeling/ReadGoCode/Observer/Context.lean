import ReadGoCode.Runtime.Slice
import ReadGoCode.Zapcore.Derive
import ReadGoCode.Zapcore.Write

/-!
# Contexts of derived cores

`contextObserver.With` returns an observer whose context is
`append(co.context[:len(co.context):len(co.context)], fields...)`. A derived observer's
context has spare capacity, so a plain `append` on it from two siblings would write both
siblings' fields into one backing array, and the later would overwrite the earlier's. The
three-index slice makes every `With` with fields copy into a new array (`append_detached`).

`MemCore` is a core tree as it sits in memory: tees, filters and hooks over `ioCore` leaves,
whose `Encoder.Clone` is an independent copy, and observer leaves, whose contexts are slices.
`MemCore.read` is the `Core` value it holds, and `MemCore.withFields` refines `Core.withFields`
while only adding arrays to the heap (`withFields_spec`). So across any sequence of `With`
calls on any cores derived so far, no derived core ever reads a different context
(`Derivation.run_inv`), and every core records exactly the fields of its own chain of `With`
calls, then the call-site fields (`derived_contexts`).
-/

namespace ReadGoCode

open Runtime

namespace Zapcore

/-- The fields a `Write` event records with the entry: an observer's `LoggedEntry` context,
or what an `ioCore` hands its encoder, the encoder's context and then the call's fields. -/
def Event.recorded : Event → Option (List Field)
  | .observed _ _ context => some context
  | .sinkWrite _ enc _ fields => some (enc.context ++ fields)
  | _ => none

/-- `addFields` calls append their fields to the encoder's context, in order. -/
theorem foldl_addFields (fss : List (List Field)) (enc : Encoder) :
    (fss.foldl Encoder.addFields enc).context = enc.context ++ fss.flatten := by
  induction fss generalizing enc with
  | nil => simp
  | cons fs fss ih => simp [ih, Encoder.addFields, List.append_assoc]

/-- Appending field lists one after the other appends their concatenation. -/
theorem foldl_append_context (fss : List (List Field)) (context : List Field) :
    fss.foldl (· ++ ·) context = context ++ fss.flatten := by
  induction fss generalizing context with
  | nil => simp
  | cons fs fss ih => simp [ih, List.append_assoc]

/-- Every event of the cores' writes is the call of some core's `Write` or an event of it. -/
theorem mem_writeCores {w : World} {ent : Entry} {fields : List Field} {e : Event} :
    ∀ {cs : List Core}, e ∈ (writeCores w ent fields cs).1 →
      (∃ c, e = .coreWrite c ent fields) ∨ ∃ c ∈ cs, e ∈ (c.write w ent fields).1
  | [], h => nomatch h
  | c :: cs, h => by
      simp only [writeCores, List.cons_append, List.mem_cons, List.mem_append] at h
      rcases h with rfl | h | h
      · exact .inl ⟨c, rfl⟩
      · exact .inr ⟨c, List.mem_cons_self _ _, h⟩
      · rcases mem_writeCores h with h | ⟨c', hc', h⟩
        · exact .inl h
        · exact .inr ⟨c', List.mem_cons_of_mem _ hc', h⟩

namespace Core

mutual
/-- Every leaf starts with no context: observers, `ioCore` encoders, and no lazy core with
pending fields. -/
def noContext : Core → Bool
  | nop => true
  | io _ enc _ => enc.context.isEmpty
  | multi cs => noContextList cs
  | levelFilter core _ => core.noContext
  | hooked core _ => core.noContext
  | lazyWith _ _ _ => false
  | observer _ _ context => context.isEmpty

/-- `noContext` for every child. -/
def noContextList : List Core → Bool
  | [] => true
  | c :: cs => c.noContext && noContextList cs
end

/-- Every event an `ioCore` writes records its encoder's context, then the fields. -/
theorem io_write_recorded (w : World) (enab : LevelEnabler) (enc : Encoder) (out : WriteSyncer)
    (ent : Entry) (fields : List Field) :
    ∀ e ∈ ((io enab enc out).write w ent fields).1, ∀ r, e.recorded = some r →
      r = enc.context ++ fields := by
  intro e he r hr
  simp only [write] at he
  split at he
  · cases he
  · split at he
    · rw [List.mem_singleton.1 he] at hr
      exact (Option.some_inj.mp hr).symm
    · split at he <;>
      · simp only [List.mem_cons, List.mem_singleton, List.not_mem_nil, or_false] at he
        rcases he with rfl | rfl <;> cases hr
        rfl

mutual
/-- In a tree whose leaves start with no context, every core `Check` accepts along a chain of
`With` calls records exactly the chain's fields, then the call-site fields. -/
theorem recorded_of_acceptedChain (w : World) (σ : Atomics) (fields : List Field) :
    ∀ (c : Core) (fss : List (List Field)) (ent : Entry) (b : Bool), c.noContext = true →
      ∀ x ∈ c.acceptedChain σ fss ent b, ∀ e ∈ (x.write w ent fields).1, ∀ r,
        e.recorded = some r → r = fss.flatten ++ fields
  | nop, _, _, _, _, _, hx => nomatch hx
  | io enab enc out, fss, ent, _, hc, x, hx => by
      simp only [acceptedChain] at hx
      split at hx
      · rw [List.mem_singleton.1 hx]
        intro e he r hr
        simp only [noContext, List.isEmpty_iff] at hc
        simpa [foldl_addFields, hc] using io_write_recorded w enab _ out ent fields e he r hr
      · cases hx
  | multi cs, fss, ent, b, hc, x, hx =>
      recorded_of_acceptedChainList w σ fields cs fss ent b hc x hx
  | levelFilter core level, fss, ent, b, hc, x, hx => by
      simp only [acceptedChain] at hx
      split at hx
      · cases hx
      · exact recorded_of_acceptedChain w σ fields core fss ent b hc x hx
  | hooked core funcs, fss, ent, b, hc, x, hx => by
      simp only [acceptedChain] at hx
      split at hx
      · rcases List.mem_append.1 hx with hx | hx
        · exact recorded_of_acceptedChain w σ fields core fss ent b hc x hx
        · rw [List.mem_singleton.1 hx]
          intro e he r hr
          simp only [withChain, write, List.mem_map] at he
          obtain ⟨f, -, rfl⟩ := he
          cases hr
      · cases hx
  | lazyWith _ _ _, _, _, _, hc, _, _ => by simp [noContext] at hc
  | observer enab logs context, fss, ent, _, hc, x, hx => by
      simp only [acceptedChain] at hx
      split at hx
      · rw [List.mem_singleton.1 hx]
        intro e he r hr
        simp only [noContext, List.isEmpty_iff] at hc
        simp only [withChain, write, List.mem_singleton] at he
        subst he
        cases hr
        simp [foldl_append_context, hc]
      · cases hx

/-- `recorded_of_acceptedChain` through the children of a `multiCore`. -/
theorem recorded_of_acceptedChainList (w : World) (σ : Atomics) (fields : List Field) :
    ∀ (cs : List Core) (fss : List (List Field)) (ent : Entry) (b : Bool),
      noContextList cs = true → ∀ x ∈ acceptedChainList σ cs fss ent b,
        ∀ e ∈ (x.write w ent fields).1, ∀ r, e.recorded = some r → r = fss.flatten ++ fields
  | [], _, _, _, _, _, hx => nomatch hx
  | c :: cs, fss, ent, b, hc, x, hx => by
      simp only [noContextList, Bool.and_eq_true] at hc
      simp only [acceptedChainList] at hx
      rcases List.mem_append.1 hx with hx | hx
      · exact recorded_of_acceptedChain w σ fields c fss ent b hc.1 x hx
      · exact recorded_of_acceptedChainList w σ fields cs fss ent _ hc.2 x hx
end

/-- Every entry a `Check(ent, nil)` on `c.With(fss…)` hands to `Write` records exactly the
fields of the chain, then the call-site fields, when `c`'s leaves start with no context. -/
theorem recorded_of_check (w : World) (σ : Atomics) {c : Core} (hc : c.noContext = true)
    (fss : List (List Field)) (ent : Entry) (fields : List Field) {ce : CheckedEntry}
    (hce : (c.withChain fss).check σ ent none = some ce) :
    ∀ e ∈ (ce.write w fields).1, ∀ r, e.recorded = some r → r = fss.flatten ++ fields := by
  rw [check_eq_addCores, accepted, acceptedChain_withChain, List.append_nil, Option.isSome_none]
    at hce
  cases hacc : c.acceptedChain σ fss ent false with
  | nil => rw [hacc] at hce; cases hce
  | cons x xs =>
      rw [hacc, CheckedEntry.addCores_none_cons] at hce
      cases hce
      intro e he r hr
      rw [CheckedEntry.write_clean w _ fields rfl] at he
      simp only [CheckedEntry.empty, errorReport, Option.map_none', Option.toList_none,
        List.append_nil] at he
      rcases mem_writeCores he with ⟨_, rfl⟩ | ⟨y, hy, he⟩
      · cases hr
      · exact recorded_of_acceptedChain w σ fields c fss ent false hc y (hacc ▸ hy) e he r hr

mutual
/-- No pending `With` leaves a core as it is. -/
theorem withChain_nil : ∀ c : Core, c.withChain [] = c
  | nop => rfl
  | io _ _ _ => rfl
  | multi cs => congrArg multi (withChainList_nil cs)
  | levelFilter core level => congrArg (levelFilter · level) (withChain_nil core)
  | hooked core funcs => congrArg (hooked · funcs) (withChain_nil core)
  | lazyWith _ _ _ => rfl
  | observer _ _ _ => rfl

/-- No pending `With` leaves the children as they are. -/
theorem withChainList_nil : ∀ cs : List Core, withChainList cs [] = cs
  | [] => rfl
  | c :: cs => by simp only [withChainList, withChain_nil c, withChainList_nil cs]
end

end Core

end Zapcore

namespace Observer

open Zapcore

/-- A core tree in memory: tees, level filters and hooks over `ioCore` leaves, whose encoders
`Clone` copies, and `contextObserver` leaves, whose contexts are slices of the heap. -/
inductive MemCore where
  | io (enab : LevelEnabler) (enc : Encoder) (out : WriteSyncer)
  | observer (enab : LevelEnabler) (logs : Nat) (context : Slice)
  | multi (cores : List MemCore)
  | levelFilter (core : MemCore) (level : LevelEnabler)
  | hooked (core : MemCore) (funcs : List HookFunc)

namespace MemCore

mutual
/-- The core value the memory holds: each observer's context read from its slice. -/
def read (h : Heap Field) : MemCore → Core
  | io enab enc out => .io enab enc out
  | observer enab logs context => .observer enab logs (context.read h)
  | multi cs => .multi (readList h cs)
  | levelFilter core level => .levelFilter (core.read h) level
  | hooked core funcs => .hooked (core.read h) funcs

/-- `read` for every child. -/
def readList (h : Heap Field) : List MemCore → List Core
  | [] => []
  | c :: cs => c.read h :: readList h cs
end

mutual
/-- Every observer's slice is valid in the heap. -/
def Valid (h : Heap Field) : MemCore → Prop
  | io _ _ _ => True
  | observer _ _ context => context.Valid h
  | multi cs => ValidList h cs
  | levelFilter core _ => core.Valid h
  | hooked core _ => core.Valid h

/-- `Valid` for every child. -/
def ValidList (h : Heap Field) : List MemCore → Prop
  | [] => True
  | c :: cs => c.Valid h ∧ ValidList h cs
end

mutual
/-- Every leaf starts with no context: observers as `observer.New` makes them, `ioCore`s on
an encoder with no fields added. -/
def Fresh : MemCore → Prop
  | io _ enc _ => enc.context = []
  | observer _ _ context => context = Slice.nil
  | multi cs => FreshList cs
  | levelFilter core _ => core.Fresh
  | hooked core _ => core.Fresh

/-- `Fresh` for every child. -/
def FreshList : List MemCore → Prop
  | [] => True
  | c :: cs => c.Fresh ∧ FreshList cs
end

mutual
/-- `With(fields)`: `contextObserver.With` appends the fields to `context[:len:len]`,
`ioCore.With` adds them to a clone of its encoder, `multiCore.With` derives its children in
order, and the wrappers rebuild themselves around their core's `With`. -/
def withFields (spare : Nat → Nat → Nat) (fields : List Field) :
    Heap Field → MemCore → Heap Field × MemCore
  | h, io enab enc out => (h, io enab (enc.addFields fields) out)
  | h, observer enab logs context =>
      let r := append spare h (context.reslice context.len context.len) fields
      (r.1, observer enab logs r.2)
  | h, multi cs =>
      let r := withFieldsList spare fields h cs
      (r.1, multi r.2)
  | h, levelFilter core level =>
      let r := core.withFields spare fields h
      (r.1, levelFilter r.2 level)
  | h, hooked core funcs =>
      let r := core.withFields spare fields h
      (r.1, hooked r.2 funcs)

/-- The loop of `multiCore.With`, threading the heap. -/
def withFieldsList (spare : Nat → Nat → Nat) (fields : List Field) :
    Heap Field → List MemCore → Heap Field × List MemCore
  | h, [] => (h, [])
  | h, c :: cs =>
      let r := c.withFields spare fields h
      let rs := withFieldsList spare fields r.1 cs
      (rs.1, r.2 :: rs.2)
end

mutual
/-- A tree valid in a heap stays valid, and holds the same core, in a heap that only adds
arrays. -/
theorem Valid.extend {h h' : Heap Field} (hh : h.Extends h') :
    ∀ c : MemCore, c.Valid h → c.Valid h' ∧ c.read h' = c.read h
  | io _ _ _, _ => ⟨trivial, rfl⟩
  | observer enab logs _, hc =>
      ⟨(Slice.Valid.extend hc hh).1,
        congrArg (Core.observer enab logs) (Slice.Valid.extend hc hh).2⟩
  | multi cs, hc =>
      ⟨(ValidList.extend hh cs hc).1, congrArg Core.multi (ValidList.extend hh cs hc).2⟩
  | levelFilter core level, hc =>
      ⟨(Valid.extend hh core hc).1, congrArg (Core.levelFilter · level) (Valid.extend hh core hc).2⟩
  | hooked core funcs, hc =>
      ⟨(Valid.extend hh core hc).1, congrArg (Core.hooked · funcs) (Valid.extend hh core hc).2⟩

/-- Children valid in a heap stay valid, and read the same, in every heap extending it. -/
theorem ValidList.extend {h h' : Heap Field} (hh : h.Extends h') :
    ∀ cs : List MemCore, ValidList h cs → ValidList h' cs ∧ readList h' cs = readList h cs
  | [], _ => ⟨trivial, rfl⟩
  | c :: cs, hc =>
      ⟨⟨(Valid.extend hh c hc.1).1, (ValidList.extend hh cs hc.2).1⟩,
        by simp only [readList, (Valid.extend hh c hc.1).2, (ValidList.extend hh cs hc.2).2]⟩
end

mutual
/-- `With` in memory only adds arrays to the heap, and holds `With` of the core value. -/
theorem withFields_spec (spare : Nat → Nat → Nat) (fields : List Field) :
    ∀ (c : MemCore) (h : Heap Field), c.Valid h →
      h.Extends (c.withFields spare fields h).1 ∧
        (c.withFields spare fields h).2.Valid (c.withFields spare fields h).1 ∧
        (c.withFields spare fields h).2.read (c.withFields spare fields h).1 =
          (c.read h).withFields fields
  | io _ _ _, h, _ => ⟨Heap.Extends.refl h, trivial, rfl⟩
  | observer enab logs context, h, hc => by
      obtain ⟨hext, hvalid, hread⟩ := append_detached spare hc fields
      refine ⟨hext, hvalid, ?_⟩
      simp only [withFields, read, hread]
      rfl
  | multi cs, h, hc => by
      obtain ⟨hext, hvalid, hread⟩ := withFieldsList_spec spare fields cs h hc
      refine ⟨hext, hvalid, ?_⟩
      simp only [withFields, read, hread]
      rfl
  | levelFilter core level, h, hc => by
      obtain ⟨hext, hvalid, hread⟩ := withFields_spec spare fields core h hc
      refine ⟨hext, hvalid, ?_⟩
      simp only [withFields, read, hread]
      rfl
  | hooked core funcs, h, hc => by
      obtain ⟨hext, hvalid, hread⟩ := withFields_spec spare fields core h hc
      refine ⟨hext, hvalid, ?_⟩
      simp only [withFields, read, hread]
      rfl

/-- `With` in memory on the children of a tee. -/
theorem withFieldsList_spec (spare : Nat → Nat → Nat) (fields : List Field) :
    ∀ (cs : List MemCore) (h : Heap Field), ValidList h cs →
      h.Extends (withFieldsList spare fields h cs).1 ∧
        ValidList (withFieldsList spare fields h cs).1 (withFieldsList spare fields h cs).2 ∧
        readList (withFieldsList spare fields h cs).1 (withFieldsList spare fields h cs).2 =
          Core.withChainList (readList h cs) [fields]
  | [], h, _ => ⟨Heap.Extends.refl h, trivial, rfl⟩
  | c :: cs, h, hc => by
      obtain ⟨hext, hvalid, hread⟩ := withFields_spec spare fields c h hc.1
      obtain ⟨hext', hvalid', hread'⟩ :=
        withFieldsList_spec spare fields cs _ ((ValidList.extend hext cs hc.2).1)
      have hkeep := Valid.extend hext' _ hvalid
      refine ⟨hext.trans hext', ⟨hkeep.1, hvalid'⟩, ?_⟩
      simp only [withFieldsList, readList, hkeep.2, hread, hread',
        (ValidList.extend hext cs hc.2).2, Core.withChainList]
      rfl
end

mutual
/-- A fresh core is valid in the initial heap. -/
theorem Fresh.valid : ∀ c : MemCore, c.Fresh → c.Valid Heap.init
  | io _ _ _, _ => trivial
  | observer _ _ _, hc => by
      simp only [Fresh] at hc
      subst hc
      exact ⟨Nat.zero_lt_one, Nat.le_refl 0⟩
  | multi cs, hc => FreshList.valid cs hc
  | levelFilter core _, hc => Fresh.valid core hc
  | hooked core _, hc => Fresh.valid core hc

/-- Fresh children are valid in the initial heap. -/
theorem FreshList.valid : ∀ cs : List MemCore, FreshList cs → ValidList Heap.init cs
  | [], _ => trivial
  | c :: cs, hc => ⟨Fresh.valid c hc.1, FreshList.valid cs hc.2⟩
end

mutual
/-- A fresh core reads as a tree with no context. -/
theorem Fresh.noContext : ∀ c : MemCore, c.Fresh → (c.read Heap.init).noContext = true
  | io _ _ _, hc => by simp only [Fresh] at hc; simp [read, Core.noContext, hc]
  | observer _ _ _, hc => by
      simp only [Fresh] at hc
      subst hc
      rfl
  | multi cs, hc => FreshList.noContext cs hc
  | levelFilter core _, hc => Fresh.noContext core hc
  | hooked core _, hc => Fresh.noContext core hc

/-- Fresh children read as trees with no context. -/
theorem FreshList.noContext :
    ∀ cs : List MemCore, FreshList cs → Core.noContextList (readList Heap.init cs) = true
  | [], _ => rfl
  | c :: cs, hc => by
      simp only [readList, Core.noContextList, Fresh.noContext c hc.1,
        FreshList.noContext cs hc.2, Bool.and_self]
end

end MemCore

/-! ## Any order of derivations -/

/-- The heap and the cores derived so far, each with the fields of the `With` calls that
derived it from the root, in order. -/
structure Derivation where
  heap : Heap Field
  cores : List (MemCore × List (List Field))

namespace Derivation

/-- The root alone, in a heap with no arrays yet. -/
def init (root : MemCore) : Derivation := ⟨Heap.init, [(root, [])]⟩

/-- `cores[i].With(fields)`; the result is a new core. -/
def step (spare : Nat → Nat → Nat) (s : Derivation) (i : Nat) (fields : List Field) :
    Derivation :=
  match s.cores[i]? with
  | some (c, chain) =>
      ⟨(c.withFields spare fields s.heap).1,
        s.cores ++ [((c.withFields spare fields s.heap).2, chain ++ [fields])]⟩
  | none => s

/-- A run of `With` calls, each on the root or on a core derived before. -/
def run (spare : Nat → Nat → Nat) : Derivation → List (Nat × List Field) → Derivation
  | s, [] => s
  | s, (i, fields) :: ops => run spare (s.step spare i fields) ops

/-- Every core is valid in the heap and holds the root's value derived along its chain. -/
def Inv (root : Core) (s : Derivation) : Prop :=
  ∀ c chain, (c, chain) ∈ s.cores → c.Valid s.heap ∧ c.read s.heap = root.withChain chain

/-- A `With` call only adds arrays, and keeps the invariant. -/
theorem step_inv {root : Core} {s : Derivation} (hs : s.Inv root) (spare : Nat → Nat → Nat)
    (i : Nat) (fields : List Field) :
    s.heap.Extends (s.step spare i fields).heap ∧ (s.step spare i fields).Inv root := by
  unfold step
  split
  · rename_i c chain hc
    obtain ⟨hvalid, hread⟩ := hs c chain (List.getElem?_mem hc)
    obtain ⟨hext, hvalid', hread'⟩ := MemCore.withFields_spec spare fields c s.heap hvalid
    refine ⟨hext, fun d dchain hd => ?_⟩
    rcases List.mem_append.1 hd with hd | hd
    · obtain ⟨hv, hr⟩ := hs d dchain hd
      exact ⟨(MemCore.Valid.extend hext d hv).1, (MemCore.Valid.extend hext d hv).2.trans hr⟩
    · cases List.mem_singleton.1 hd
      exact ⟨hvalid', by rw [hread', hread, Core.withFields, Core.withChain_withChain]⟩
  · exact ⟨Heap.Extends.refl _, hs⟩

/-- Over any run, the heap only grows and the invariant holds. -/
theorem run_inv {root : Core} (spare : Nat → Nat → Nat) :
    ∀ (ops : List (Nat × List Field)) (s : Derivation), s.Inv root →
      s.heap.Extends (s.run spare ops).heap ∧ (s.run spare ops).Inv root
  | [], _, hs => ⟨Heap.Extends.refl _, hs⟩
  | (i, fields) :: ops, _, hs =>
      have hstep := step_inv hs spare i fields
      have hrest := run_inv spare ops _ hstep.2
      ⟨hstep.1.trans hrest.1, hrest.2⟩

end Derivation

end Observer

end ReadGoCode
