import Mathlib.Logic.Basic

/-!
# `strings.ToLower` and the bytes of a string

`strings.ToLower(s)` lower-cases an ASCII text byte by byte and any other text with
`Map(unicode.ToLower, s)`, rune by rune; `bytes.ToLower` does the same on a byte slice. On an ASCII
rune `unicode.ToLower` is the ASCII lowering, so both are `Map(unicode.ToLower, ·)` of a valid
UTF-8 text. Go's Unicode tables are not in the repository: `unicode.ToLower` is a parameter, a
`UnicodeLower`, which carries the one fact the proofs use, that it lowers ASCII as `Char.toLower`
does. It may map other runes to ASCII: it maps the Kelvin sign U+212A to `k` and U+0130 to `i`.

A Go string is its UTF-8 bytes: `s[i]` is a byte and `len(s)` counts bytes. `utf8Bytes` gives
them.
-/

namespace ReadGoCode.Strings

/-- `unicode.ToLower`: a rune mapping that lowers ASCII as `Char.toLower` does. -/
structure UnicodeLower where
  toFun : Char → Char
  ascii : ∀ c : Char, c.val < 128 → toFun c = c.toLower

/-- `strings.ToLower(s)`, and `bytes.ToLower` of the bytes of `s`: `Map(unicode.ToLower, s)`. -/
def toLower (lower : UnicodeLower) (s : String) : String := ⟨s.data.map lower.toFun⟩

/-- The bytes of `s`, as `[]byte(s)` holds them. -/
def utf8Bytes (s : String) : List UInt8 := s.data.flatMap String.utf8EncodeChar

/-- `Char.toLower`: `unicode.ToLower` as it acts on ASCII text. -/
def UnicodeLower.asciiOnly : UnicodeLower := ⟨Char.toLower, fun _ _ => rfl⟩

/-- `unicode.ToLower` on ASCII and on the two runes it maps into ASCII, the Kelvin sign U+212A to
`k` and U+0130, capital I with a dot above, to `i`; it leaves every other rune as it is. -/
def UnicodeLower.intoAscii : UnicodeLower where
  toFun c := if c = '\u212A' then 'k' else if c = '\u0130' then 'i' else c.toLower
  ascii c hc := by
    show ite _ _ (ite _ _ _) = _
    rw [if_neg, if_neg] <;> rintro rfl <;> exact absurd hc (by decide)

/-- Lowering an ASCII text uses only the ASCII part of `unicode.ToLower`. -/
theorem toLower_of_ascii (lower : UnicodeLower) {s : String} (h : ∀ c ∈ s.data, c.val < 128) :
    toLower lower s = ⟨s.data.map Char.toLower⟩ :=
  congrArg String.mk (List.map_congr_left fun c hc => lower.ascii c (h c hc))

/-- A text of lower-case ASCII is its own lowering. -/
theorem toLower_of_lowerAscii (lower : UnicodeLower) {s : String}
    (h : ∀ c ∈ s.data, c.val < 128 ∧ c.toLower = c) : toLower lower s = s := by
  obtain ⟨cs⟩ := s
  show String.mk (cs.map lower.toFun) = ⟨cs⟩
  rw [List.map_congr_left fun c hc => (lower.ascii c (h c hc).1).trans (h c hc).2, List.map_id']

/-- Lowering keeps the number of runes: a text is empty exactly when its lowering is. -/
theorem toLower_eq_empty (lower : UnicodeLower) (s : String) : toLower lower s = "" ↔ s = "" := by
  obtain ⟨cs⟩ := s
  cases cs <;> simp [toLower, String.ext_iff]

/-- The empty text has no bytes, and a text with no bytes is empty. -/
theorem utf8Bytes_eq_nil (s : String) : utf8Bytes s = [] ↔ s = "" := by
  obtain ⟨cs⟩ := s
  cases cs with
  | nil => simp [utf8Bytes]
  | cons c cs =>
      have : String.utf8EncodeChar c ≠ [] := by
        rw [← List.length_pos, String.length_utf8EncodeChar]
        exact Char.utf8Size_pos c
      simp [utf8Bytes, this, String.ext_iff]

end ReadGoCode.Strings
