import Mathlib
import ReadGoCode.Strings

/-!
# The sink registry

`_sinkRegistry` maps URL schemes to sink factories. `RegisterSink(scheme, factory)` refuses an
empty scheme, lower-cases the scheme with `normalizeScheme` and checks it against RFC 3986, and
refuses a scheme already registered; otherwise it adds the factory. `newSinkRegistry` registers
the file factory for `"file"`. `newSink(rawURL)` opens an absolute path as a file, and otherwise
parses the URL, takes `"file"` for a URL without a scheme, and calls the factory registered for
its scheme. The file factory refuses URLs with a user, a fragment, a query, a port or a host
other than `localhost`, and opens `stdout`, `stderr` or a file.

`strings.ToLower` is `Map(unicode.ToLower, ·)`, with `unicode.ToLower` a parameter
(`Strings.UnicodeLower`): it may lower a rune outside ASCII to an ASCII letter. `normalizeScheme`
then checks the bytes of the lowered text, as Go indexes a string by bytes. `url.Parse`,
`os.OpenFile` and the user factories are parameters.

`register_run` says what every run of `RegisterSink` calls keeps: the registered schemes are
distinct, the bytes of each are a lower-case RFC 3986 scheme, `"file"` keeps the file factory,
and a scheme once registered keeps its factory. So `newSink` of a URL with a registered scheme
calls the factory that registered it first, whatever is registered after
(`newSink_registered`).
-/

namespace ReadGoCode.Zap

open Strings (UnicodeLower utf8Bytes)

/-- A sink factory: the file factory of `newSinkRegistry`, or a user's, by its index. -/
inductive Factory where
  | file
  | user (id : Nat)
deriving DecidableEq

/-- `sinkRegistry.factories`, in the order of registration. -/
structure SinkRegistry where
  factories : List (String × Factory)

/-- A byte `normalizeScheme` accepts after the first: a letter, a digit, `.`, `+` or `-`. -/
def SchemeByte (c : UInt8) : Prop :=
  ('a'.toUInt8 ≤ c ∧ c ≤ 'z'.toUInt8) ∨ ('0'.toUInt8 ≤ c ∧ c ≤ '9'.toUInt8) ∨
    (c = '.'.toUInt8 ∨ c = '+'.toUInt8 ∨ c = '-'.toUInt8)

instance : DecidablePred SchemeByte := fun _ => by unfold SchemeByte; infer_instance

/-- The loop of `normalizeScheme` over the bytes after the first: the first one it rejects. -/
def schemeLoop : List UInt8 → Option UInt8
  | [] => none
  | c :: cs => if SchemeByte c then schemeLoop cs else some c

/-- `normalizeScheme(s)`: the lower-cased scheme, or why it is not valid. Its checks read the
bytes of the lowered text, and `%q` of a byte quotes the rune of that value. `s[0]` of an empty
`s` panics; the only caller never passes one. -/
def normalizeScheme (lower : UnicodeLower) (s : String) : Except String String :=
  let s := Strings.toLower lower s
  match utf8Bytes s with
  | [] => .error "index out of range"
  | first :: rest =>
      if 'a'.toUInt8 > first ∨ 'z'.toUInt8 < first then .error "must start with a letter"
      else
        match schemeLoop rest with
        | some c => .error ("may not contain " ++ (Char.ofNat c.toNat).quote)
        | none => .ok s

namespace SinkRegistry

/-- `sr.RegisterSink(scheme, factory)`: the registry after it and its error. -/
def registerSink (lower : UnicodeLower) (sr : SinkRegistry) (scheme : String)
    (factory : Factory) : SinkRegistry × Option String :=
  if scheme = "" then (sr, some "can't register a sink factory for empty string")
  else
    match normalizeScheme lower scheme with
    | .error err => (sr, some (scheme.quote ++ " is not a valid scheme: " ++ err))
    | .ok normalized =>
        if (sr.factories.lookup normalized).isSome then
          (sr, some ("sink factory already registered for scheme " ++ normalized.quote))
        else (⟨sr.factories ++ [(normalized, factory)]⟩, none)

/-- A run of `RegisterSink` calls, their errors ignored. -/
def registerAll (lower : UnicodeLower) (sr : SinkRegistry) (calls : List (String × Factory)) :
    SinkRegistry :=
  calls.foldl (fun sr c => (sr.registerSink lower c.1 c.2).1) sr

end SinkRegistry

/-- `newSinkRegistry()`: the file factory registered for `"file"`, its error ignored. -/
def newSinkRegistry (lower : UnicodeLower) : SinkRegistry :=
  (SinkRegistry.registerSink lower ⟨[]⟩ "file" .file).1

/-- A sink `newSink` returns. -/
inductive Sink where
  | stdout
  | stderr
  | file (path : String)
  | user (id : Nat) (url : String)
deriving DecidableEq

/-- The fields of a parsed `*url.URL` that `newSink` and the file factory read: `Scheme`,
whether `User` is set, `Fragment`, `RawQuery`, `Port()`, `Hostname()`, `Path`, and
`u.String()`. -/
structure URL where
  scheme : String
  hasUser : Bool
  fragment : String
  rawQuery : String
  port : String
  hostname : String
  path : String
  str : String

/-- `sr.newFileSinkFromPath(path)`, `openFile` answering the error of `os.OpenFile`. -/
def newFileSinkFromPath (openFile : String → Option String) (path : String) : Except String Sink :=
  match path with
  | "stdout" => .ok .stdout
  | "stderr" => .ok .stderr
  | _ =>
      match openFile path with
      | some err => .error err
      | none => .ok (.file path)

/-- `sr.newFileSinkFromURL(u)`. -/
def newFileSinkFromURL (openFile : String → Option String) (u : URL) : Except String Sink :=
  if u.hasUser then .error ("user and password not allowed with file URLs: got " ++ u.str)
  else if u.fragment ≠ "" then .error ("fragments not allowed with file URLs: got " ++ u.str)
  else if u.rawQuery ≠ "" then .error ("query parameters not allowed with file URLs: got " ++ u.str)
  else if u.port ≠ "" then .error ("ports not allowed with file URLs: got " ++ u.str)
  else if u.hostname ≠ "" ∧ u.hostname ≠ "localhost" then
    .error ("file URLs must leave host empty or use localhost: got " ++ u.str)
  else newFileSinkFromPath openFile u.path

/-- `filepath.IsAbs(path)` on Unix: a leading `/`. -/
def isAbs (path : String) : Bool := path.data.head? == some '/'

/-- `sr.newSink(rawURL)`: `parse` is `url.Parse`, `openFile` `os.OpenFile`, and `userSink id u`
what the user factory `id` returns for `u`. -/
def SinkRegistry.newSink (parse : String → Except String URL) (openFile : String → Option String)
    (userSink : Nat → URL → Except String Sink) (sr : SinkRegistry) (rawURL : String) :
    Except String Sink :=
  if isAbs rawURL then newFileSinkFromPath openFile rawURL
  else
    match parse rawURL with
    | .error err => .error ("can't parse " ++ rawURL.quote ++ " as a URL: " ++ err)
    | .ok u =>
        let u := if u.scheme = "" then { u with scheme := "file" } else u
        match sr.factories.lookup u.scheme with
        | none => .error ("no sink found for scheme " ++ u.scheme.quote)
        | some .file => newFileSinkFromURL openFile u
        | some (.user id) => userSink id u

/-! ## Every run of `RegisterSink` -/

/-- A lower-case scheme as RFC 3986 section 3.1 writes it, read on its bytes: a letter, then
letters, digits, `+`, `-` and `.`. -/
def ValidScheme (s : String) : Prop :=
  ∃ c cs, utf8Bytes s = c :: cs ∧ ('a'.toUInt8 ≤ c ∧ c ≤ 'z'.toUInt8) ∧ ∀ d ∈ cs, SchemeByte d

/-- The loop rejects no byte exactly when it accepts them all. -/
theorem schemeLoop_eq_none : ∀ cs : List UInt8, schemeLoop cs = none → ∀ d ∈ cs, SchemeByte d
  | [], _ => by simp
  | c :: cs, h => by
      unfold schemeLoop at h
      split at h
      · next hc => exact List.forall_mem_cons.mpr ⟨hc, schemeLoop_eq_none cs h⟩
      · cases h

/-- What `normalizeScheme` accepts is the lowered scheme, and a valid one. -/
theorem normalizeScheme_ok {lower : UnicodeLower} {s n : String}
    (h : normalizeScheme lower s = .ok n) : n = Strings.toLower lower s ∧ ValidScheme n := by
  unfold normalizeScheme at h
  dsimp only at h
  split at h
  · cases h
  · next first rest hs =>
      split at h
      · cases h
      · next hfirst =>
          split at h
          · cases h
          · next hloop =>
              cases h
              refine ⟨rfl, first, rest, hs, ?_, schemeLoop_eq_none rest hloop⟩
              simpa only [gt_iff_lt, not_or, UInt8.not_lt] using hfirst

/-- `"file"` is its own lowering and a valid scheme, whatever `unicode.ToLower` does outside
ASCII. -/
theorem normalizeScheme_file (lower : UnicodeLower) :
    normalizeScheme lower "file" = .ok "file" := by
  rw [normalizeScheme, Strings.toLower_of_ascii lower (by decide)]
  rfl

/-- A scheme found in a registry is found after more registrations. -/
theorem lookup_append_of_some {l l' : List (String × Factory)} {k : String} {v : Factory}
    (h : l.lookup k = some v) : (l ++ l').lookup k = some v := by
  induction l with
  | nil => cases h
  | cons p l ih =>
      by_cases hk : k = p.1
      · simpa [List.lookup, hk] using h
      · have hne : (k == p.1) = false := by simpa using hk
        simp only [List.lookup, hne] at h ⊢
        exact ih h

/-- A scheme not found is not registered. -/
theorem not_mem_of_lookup_none {l : List (String × Factory)} {k : String}
    (h : l.lookup k = none) : k ∉ l.map Prod.fst := by
  induction l with
  | nil => simp
  | cons p l ih =>
      by_cases hk : k = p.1
      · simp [List.lookup, hk] at h
      · have hne : (k == p.1) = false := by simpa using hk
        simp only [List.lookup, hne] at h
        rw [List.map_cons, List.mem_cons, not_or]
        exact ⟨hk, ih h⟩

namespace SinkRegistry

variable {lower : UnicodeLower}

/-- Everything `RegisterSink` can do: fail and leave the registry as it was, or add the factory
under the normalized scheme, which no factory had. -/
theorem registerSink_cases (sr : SinkRegistry) (s : String) (f : Factory) :
    ((sr.registerSink lower s f).1 = sr ∧ (sr.registerSink lower s f).2 ≠ none) ∨
    ∃ n, normalizeScheme lower s = .ok n ∧ sr.factories.lookup n = none ∧
      (sr.registerSink lower s f).2 = none ∧
      (sr.registerSink lower s f).1 = ⟨sr.factories ++ [(n, f)]⟩ := by
  unfold registerSink
  split
  · exact .inl ⟨rfl, by simp⟩
  · split
    · exact .inl ⟨rfl, by simp⟩
    · next n hn =>
        split
        · exact .inl ⟨rfl, by simp⟩
        · next hnone => exact .inr ⟨n, hn, Option.not_isSome_iff_eq_none.mp hnone, rfl, rfl⟩

/-- What every registry built by `RegisterSink` keeps: distinct schemes, each a lower-case
RFC 3986 scheme, and the file factory for `"file"`. -/
structure Inv (sr : SinkRegistry) : Prop where
  nodup : (sr.factories.map Prod.fst).Nodup
  valid : ∀ p ∈ sr.factories, ValidScheme p.1
  file : sr.factories.lookup "file" = some .file

/-- `newSinkRegistry` holds the file factory alone, under `"file"`. -/
theorem inv_newSinkRegistry (lower : UnicodeLower) : (newSinkRegistry lower).Inv := by
  have h : newSinkRegistry lower = ⟨[("file", .file)]⟩ := by
    simp [newSinkRegistry, registerSink, normalizeScheme_file, List.lookup]
  rw [h]
  exact ⟨by simp, by simpa using (normalizeScheme_ok (normalizeScheme_file lower)).2, rfl⟩

/-- A call keeps the invariant, and every scheme keeps its factory. -/
theorem registerSink_inv {sr : SinkRegistry} (hs : sr.Inv) (s : String) (f : Factory) :
    (sr.registerSink lower s f).1.Inv ∧ ∀ k v, sr.factories.lookup k = some v →
      (sr.registerSink lower s f).1.factories.lookup k = some v := by
  rcases registerSink_cases sr s f with ⟨h, -⟩ | ⟨n, hn, hnone, -, h⟩
  · rw [h]; exact ⟨hs, fun _ _ hk => hk⟩
  · rw [h]
    refine ⟨⟨?_, ?_, lookup_append_of_some hs.file⟩, fun _ _ hk => lookup_append_of_some hk⟩
    · rw [List.map_append, List.nodup_append]
      exact ⟨hs.nodup, List.nodup_singleton _,
        List.disjoint_singleton.mpr (not_mem_of_lookup_none hnone)⟩
    · simp only [List.mem_append, List.mem_singleton]
      rintro p (hp | rfl)
      · exact hs.valid p hp
      · exact (normalizeScheme_ok hn).2

/-- A run of calls keeps the invariant, and every scheme keeps its factory. -/
theorem registerAll_inv (lower : UnicodeLower) :
    ∀ (calls : List (String × Factory)) (sr : SinkRegistry), sr.Inv →
    (sr.registerAll lower calls).Inv ∧ ∀ k v, sr.factories.lookup k = some v →
      (sr.registerAll lower calls).factories.lookup k = some v
  | [], _, hs => ⟨hs, fun _ _ hk => hk⟩
  | c :: calls, sr, hs => by
      obtain ⟨hs₁, hkeep₁⟩ := registerSink_inv hs c.1 c.2
      obtain ⟨hs', hkeep'⟩ := registerAll_inv lower calls _ hs₁
      exact ⟨hs', fun k v hk => hkeep' k v (hkeep₁ k v hk)⟩

/-- A run split in two is the second part run after the first. -/
theorem registerAll_append (sr : SinkRegistry) (pre post : List (String × Factory)) :
    sr.registerAll lower (pre ++ post) = (sr.registerAll lower pre).registerAll lower post := by
  simp [registerAll, List.foldl_append]

end SinkRegistry

/-- A call of a run that returns no error has registered its factory under the normalized
scheme for the rest of the run. -/
theorem registerAll_lookup {lower : UnicodeLower} {calls pre post : List (String × Factory)}
    {s : String} {f : Factory} (hcalls : calls = pre ++ (s, f) :: post)
    (hok : (((newSinkRegistry lower).registerAll lower pre).registerSink lower s f).2 = none) :
    ∃ n, normalizeScheme lower s = .ok n ∧
      ((newSinkRegistry lower).registerAll lower calls).factories.lookup n = some f := by
  have hpre := (SinkRegistry.registerAll_inv lower pre _ (SinkRegistry.inv_newSinkRegistry lower)).1
  rcases SinkRegistry.registerSink_cases ((newSinkRegistry lower).registerAll lower pre) s f with
    ⟨-, herr⟩ | ⟨n, hn, hnone, -, hreg⟩
  · exact absurd hok herr
  · have hlook : ((((newSinkRegistry lower).registerAll lower pre).registerSink lower s f).1
        ).factories.lookup n = some f := by
      rw [hreg, List.lookup_append, hnone]
      simp [List.lookup]
    refine ⟨n, hn, ?_⟩
    have hpost := (SinkRegistry.registerAll_inv lower post _
      (SinkRegistry.registerSink_inv hpre s f).1).2 n f hlook
    rwa [hcalls, SinkRegistry.registerAll_append, SinkRegistry.registerAll, List.foldl_cons]

/-- Every run of `RegisterSink` calls from `newSinkRegistry`, whatever their schemes, in any
order, and whatever `unicode.ToLower` does outside ASCII. The schemes registered are distinct,
the bytes of each are a lower-case RFC 3986 scheme, and `"file"` keeps the file factory. A call
that returns no error has registered its factory under its lowered scheme, and no later call
replaces it. -/
theorem register_run (lower : UnicodeLower) (calls : List (String × Factory)) :
    ((newSinkRegistry lower).registerAll lower calls).Inv ∧
    ∀ pre s f post, calls = pre ++ (s, f) :: post →
      (((newSinkRegistry lower).registerAll lower pre).registerSink lower s f).2 = none →
      ∃ n, normalizeScheme lower s = .ok n ∧
        ((newSinkRegistry lower).registerAll lower calls).factories.lookup n = some f :=
  ⟨(SinkRegistry.registerAll_inv lower calls _ (SinkRegistry.inv_newSinkRegistry lower)).1,
    fun _ _ _ _ hcalls hok => registerAll_lookup hcalls hok⟩

/-- A `U+212A afka` scheme is lowered to `kafka` and takes the name: a later `kafka` call is
refused, and `kafka` keeps the first factory. -/
example : (((newSinkRegistry .intoAscii).registerAll .intoAscii
    [("\u212Aafka", .user 1), ("kafka", .user 2)]).factories.lookup "kafka") = some (.user 1) := by
  decide

/-- After every run of `RegisterSink` calls, `newSink` of a URL that is not an absolute path and
parses: without a scheme it goes through the file factory's checks for `"file"`, and with a
scheme that a call of the run registered without error for the user factory `id`, it calls
that factory. -/
theorem newSink_registered (lower : UnicodeLower) (parse : String → Except String URL)
    (openFile : String → Option String) (userSink : Nat → URL → Except String Sink)
    (calls : List (String × Factory)) (rawURL : String) (hrel : ¬isAbs rawURL)
    (u : URL) (hparse : parse rawURL = .ok u) :
    (u.scheme = "" → ((newSinkRegistry lower).registerAll lower calls).newSink parse openFile
        userSink rawURL = newFileSinkFromURL openFile { u with scheme := "file" }) ∧
    ∀ pre s id post, calls = pre ++ (s, .user id) :: post →
      (((newSinkRegistry lower).registerAll lower pre).registerSink lower s (.user id)).2 = none →
      normalizeScheme lower s = .ok u.scheme →
      ((newSinkRegistry lower).registerAll lower calls).newSink parse openFile userSink rawURL =
        userSink id u := by
  have hinv :=
    (SinkRegistry.registerAll_inv lower calls _ (SinkRegistry.inv_newSinkRegistry lower)).1
  refine ⟨fun hempty => ?_, fun pre s id post hcalls hok hn => ?_⟩
  · simp only [SinkRegistry.newSink, hrel, hparse, hempty, if_true, if_false]
    rw [hinv.file]
    rfl
  · obtain ⟨n, hn', hlook⟩ := registerAll_lookup hcalls hok
    cases hn.symm.trans hn'
    obtain ⟨c, cs, hbytes, -⟩ := (normalizeScheme_ok hn).2
    have hne : u.scheme ≠ "" := fun h => by
      rw [h] at hbytes
      cases hbytes
    simp only [SinkRegistry.newSink, hrel, hparse, hne, if_false]
    rw [hlook]
    rfl

/-- A factory registered for `U+212A afka` as user factory `1`, then `kafka` for factory `2`:
`kafka://topic` opens through factory `1`. -/
theorem newSink_registered_kafka :
    ¬isAbs "kafka://topic" ∧
    (fun _ => .ok ⟨"kafka", false, "", "", "", "", "topic", "kafka://topic"⟩ :
      String → Except String URL) "kafka://topic" =
      .ok ⟨"kafka", false, "", "", "", "", "topic", "kafka://topic"⟩ ∧
    (("kafka" : String) = "" →
      ((newSinkRegistry .intoAscii).registerAll .intoAscii
          [("\u212Aafka", .user 1), ("kafka", .user 2)]).newSink
          (fun _ => .ok ⟨"kafka", false, "", "", "", "", "topic", "kafka://topic"⟩)
          (fun _ => none) (fun id _ => .ok (.user id "kafka://topic")) "kafka://topic" =
        newFileSinkFromURL (fun _ => none)
          { (⟨"kafka", false, "", "", "", "", "topic", "kafka://topic"⟩ : URL) with
            scheme := "file" }) ∧
    ∀ pre s id post, [("\u212Aafka", Factory.user 1), ("kafka", .user 2)] =
        pre ++ (s, .user id) :: post →
      (((newSinkRegistry .intoAscii).registerAll .intoAscii pre).registerSink .intoAscii s
        (.user id)).2 = none →
      normalizeScheme .intoAscii s = .ok "kafka" →
      ((newSinkRegistry .intoAscii).registerAll .intoAscii
          [("\u212Aafka", .user 1), ("kafka", .user 2)]).newSink
          (fun _ => .ok ⟨"kafka", false, "", "", "", "", "topic", "kafka://topic"⟩)
          (fun _ => none) (fun id _ => .ok (.user id "kafka://topic")) "kafka://topic" =
        .ok (.user id "kafka://topic") :=
  ⟨by decide, rfl, newSink_registered .intoAscii (fun _ => .ok ⟨"kafka", false, "", "", "", "",
    "topic", "kafka://topic"⟩) (fun _ => none) (fun id _ => .ok (.user id "kafka://topic"))
    [("\u212Aafka", .user 1), ("kafka", .user 2)] "kafka://topic" (by decide)
    ⟨"kafka", false, "", "", "", "", "topic", "kafka://topic"⟩ rfl⟩

end ReadGoCode.Zap
