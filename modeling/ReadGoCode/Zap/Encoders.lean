import ReadGoCode.Zap.Config
import Mathlib.Data.List.Nodup

/-!
# The encoder registry

`_encoderNameToConstructor` maps encoder names to constructors, with `"console"` and `"json"`
registered at start. `RegisterEncoder(name, constructor)` refuses an empty name and a name
already taken, and otherwise adds the constructor. `newEncoder` looks the name up there. As in
`newEncoder`'s model, a constructor is the error it returns.

`registerEncoders_run` says what every run of `RegisterEncoder` calls keeps: the names are
distinct and non-empty, so the list is the map of the source, and a name keeps the constructor
it was first registered with. So `"console"` and `"json"` are never replaced, and `newEncoder`
answers for them as at start (`newEncoder_registerEncoders`).
-/

namespace ReadGoCode.Zap

/-- `RegisterEncoder(name, constructor)`: the registry after the call, and its error. -/
def registerEncoder (constructors : List (String × Option String)) (name : String)
    (constructor : Option String) : List (String × Option String) × Option String :=
  if name = "" then (constructors, some "no encoder name specified")
  else if (constructors.lookup name).isSome then
    (constructors, some ("encoder already registered for name " ++ name.quote))
  else (constructors ++ [(name, constructor)], none)

/-- A run of `RegisterEncoder` calls, their errors ignored. -/
def registerEncoders (constructors : List (String × Option String))
    (calls : List (String × Option String)) : List (String × Option String) :=
  calls.foldl (fun cs c => (registerEncoder cs c.1 c.2).1) constructors

/-- A run split in two is the second part run after the first. -/
theorem registerEncoders_append (cs : List (String × Option String))
    (pre post : List (String × Option String)) :
    registerEncoders cs (pre ++ post) = registerEncoders (registerEncoders cs pre) post := by
  simp [registerEncoders, List.foldl_append]

/-- What every registry built by `RegisterEncoder` keeps: distinct, non-empty names. -/
structure EncodersInv (constructors : List (String × Option String)) : Prop where
  nodup : (constructors.map Prod.fst).Nodup
  nonempty : "" ∉ constructors.map Prod.fst

/-- The encoders registered at start, `console` and `json`, satisfy the invariant. -/
theorem encodersInv_defaultEncoders : EncodersInv defaultEncoders :=
  ⟨by simp [defaultEncoders], by simp [defaultEncoders]⟩

/-- Everything `RegisterEncoder` can do: fail and leave the registry as it was, or add the
constructor under a non-empty name that had none. -/
theorem registerEncoder_cases (cs : List (String × Option String)) (name : String)
    (c : Option String) :
    ((registerEncoder cs name c).1 = cs ∧ (registerEncoder cs name c).2 ≠ none) ∨
    (name ≠ "" ∧ cs.lookup name = none ∧ (registerEncoder cs name c).2 = none ∧
      (registerEncoder cs name c).1 = cs ++ [(name, c)]) := by
  unfold registerEncoder
  split
  · exact .inl ⟨rfl, by simp⟩
  · split
    · exact .inl ⟨rfl, by simp⟩
    · next hname hnone => exact .inr ⟨hname, Option.not_isSome_iff_eq_none.mp hnone, rfl, rfl⟩

/-- A call keeps the invariant, and every name keeps its constructor. -/
theorem registerEncoder_inv {cs : List (String × Option String)} (hs : EncodersInv cs)
    (name : String) (c : Option String) :
    EncodersInv (registerEncoder cs name c).1 ∧ ∀ n v, cs.lookup n = some v →
      (registerEncoder cs name c).1.lookup n = some v := by
  rcases registerEncoder_cases cs name c with ⟨h, -⟩ | ⟨hname, hnone, -, h⟩
  · rw [h]; exact ⟨hs, fun _ _ hk => hk⟩
  · have hfresh : name ∉ cs.map Prod.fst := fun hm => by
      obtain ⟨p, hp, rfl⟩ := List.mem_map.1 hm
      simpa using List.lookup_eq_none_iff.1 hnone p hp
    rw [h]
    refine ⟨⟨?_, ?_⟩, fun _ _ hk => by rw [List.lookup_append, hk]; rfl⟩
    · rw [List.map_append, List.nodup_append]
      exact ⟨hs.nodup, List.nodup_singleton _, by simpa using hfresh⟩
    · simpa [Ne.symm hname] using hs.nonempty

/-- A run of calls keeps the invariant, and every name keeps its constructor. -/
theorem registerEncoders_inv : ∀ (calls : List (String × Option String))
    (cs : List (String × Option String)), EncodersInv cs →
    EncodersInv (registerEncoders cs calls) ∧ ∀ n v, cs.lookup n = some v →
      (registerEncoders cs calls).lookup n = some v
  | [], _, hs => ⟨hs, fun _ _ hk => hk⟩
  | c :: calls, cs, hs => by
      obtain ⟨hs₁, hkeep₁⟩ := registerEncoder_inv hs c.1 c.2
      obtain ⟨hs', hkeep'⟩ := registerEncoders_inv calls _ hs₁
      exact ⟨hs', fun n v hk => hkeep' n v (hkeep₁ n v hk)⟩

/-- Every run of `RegisterEncoder` calls from the default registry. The names registered are
distinct and non-empty. The default encoders keep their constructors, and a call that returns
no error has registered its constructor for the rest of the run. -/
theorem registerEncoders_run (calls : List (String × Option String)) :
    EncodersInv (registerEncoders defaultEncoders calls) ∧
    (∀ name c, defaultEncoders.lookup name = some c →
      (registerEncoders defaultEncoders calls).lookup name = some c) ∧
    ∀ pre name c post, calls = pre ++ (name, c) :: post →
      (registerEncoder (registerEncoders defaultEncoders pre) name c).2 = none →
      (registerEncoders defaultEncoders calls).lookup name = some c := by
  refine ⟨(registerEncoders_inv calls _ encodersInv_defaultEncoders).1,
    (registerEncoders_inv calls _ encodersInv_defaultEncoders).2, ?_⟩
  intro pre name c post hcalls hok
  have hpre := (registerEncoders_inv pre _ encodersInv_defaultEncoders).1
  rcases registerEncoder_cases (registerEncoders defaultEncoders pre) name c with
    ⟨-, herr⟩ | ⟨-, hnone, -, hreg⟩
  · exact absurd hok herr
  · have hlook : (registerEncoder (registerEncoders defaultEncoders pre) name c).1.lookup name =
        some c := by
      rw [hreg, List.lookup_append, hnone]
      simp
    have hpost := (registerEncoders_inv post _ (registerEncoder_inv hpre name c).1).2 name c hlook
    rwa [hcalls, registerEncoders_append, registerEncoders, List.foldl_cons]

/-- After every run of `RegisterEncoder` calls, `newEncoder` answers for a default name as it
does at start. -/
theorem newEncoder_registerEncoders (calls : List (String × Option String)) (name : String)
    {c : Option String} (hname : defaultEncoders.lookup name = some c)
    (encoderConfig : EncoderConfig) :
    newEncoder (registerEncoders defaultEncoders calls) name encoderConfig =
      newEncoder defaultEncoders name encoderConfig := by
  have hkeep := (registerEncoders_inv calls _ encodersInv_defaultEncoders).2 name c hname
  simp only [newEncoder, hkeep, hname]

end ReadGoCode.Zap
