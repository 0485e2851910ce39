import Cossack.Lib.Base64
import Cossack.Lib.JsonPrint
import Cossack.Lib.TextEncoder

/-! # Data in base64

    An object written as JSON, in UTF-8 and in the base64 of URLs, is read back. -/

namespace JsonBase64

open JsonText
open Base64 (urlEncode urlDecode isUrl)

def encode (value : Json) : List Nat := urlEncode (Utf8.encode (print value))

/-- `atob`, the fatal `TextDecoder` and `JSON.parse`. -/
def decode (encoded : List Nat) : Option Json := do
  let bytes ← urlDecode encoded
  let json ← Utf8.decodeText bytes
  JsonText.parse json

/-- The alphabet is of ASCII and has no full stop. -/
theorem isUrl_lt {u : Nat} (h : isUrl u = true) : u < 0x80 ∧ u ≠ 46 := by
  simp only [isUrl, Bool.or_eq_true, Bool.and_eq_true, decide_eq_true_eq] at h
  omega

theorem isUrl_encode {value : Json} {u : Nat} (h : u ∈ encode value) : isUrl u = true :=
  Base64.isUrl_urlEncode h

theorem encode_ne_nil (value : Json) : encode value ≠ [] := by
  intro h
  have hlength := congrArg List.length h
  rw [encode, Base64.length_urlEncode, List.length_nil] at hlength
  obtain ⟨c, text, hprint, -⟩ := print_begins value
  have hbytes : Utf8.encode (print value) = Utf8.encodeChar c ++ Utf8.encode text := by
    rw [hprint, Utf8.encode_cons]
  have hpos : 0 < (Utf8.encodeChar c).length := by
    unfold Utf8.encodeChar
    simp only
    split
    · simp
    split
    · simp
    split <;> simp
  rw [hbytes, List.length_append] at hlength
  omega

/-- An object that is encoded is decoded with its numbers as they are read. -/
theorem decode_encode {entries : List (List Nat × Json)} (h : Valid (.obj entries)) :
    decode (encode (.obj entries)) = some (.obj (canonicalMembers entries)) := by
  have htext : Utf8.decodeText (Utf8.encode (print (.obj entries))) = some (print (.obj entries)) := by
    obtain ⟨text, hprint⟩ : ∃ text, print (.obj entries) = '{' :: text := by
      rw [print]
      exact ⟨_, rfl⟩
    rw [hprint]
    exact Utf8.decodeText_encode '{' text (by decide)
  unfold decode encode
  rw [Base64.urlDecode_urlEncode]
  simp only [Option.bind_eq_bind, Option.bind_some, htext, parse_print _ h, canonical]

theorem decode_dot {encoded : List Nat} (h : 46 ∈ encoded) : decode encoded = none := by
  unfold decode
  rw [Base64.urlDecode_dot h]
  rfl

end JsonBase64
