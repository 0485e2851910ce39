import Cossack.Auth.OAuthState
import Mathlib

/-! # What the OAuth state tokens carry

    A token that a verifier accepts is one that its own signer made, for the same
    key and provider, and the verifier gives back what was signed.  The two kinds
    of token are kept apart by the full stop in the message of a stateless state:
    no encoded text has one. -/

namespace Cossack.Auth.OAuthState

open UriText (Text)
open JsonText
open Macs (Mac)
open Base64 (urlEncode isUrl)
open JsonBase64 (isUrl_lt)

/-! ## Section 1: The parts of a token -/

theorem splitLast_append {encoded sig : List Nat} (h : dot ∉ sig) :
    splitLast (encoded ++ dot :: sig) = some (encoded, sig) := by
  have hreverse : (encoded ++ dot :: sig).reverse = sig.reverse ++ dot :: encoded.reverse := by simp
  have hall : ∀ u ∈ sig.reverse, (u != dot) = true := by
    intro u hu
    rw [bne_iff_ne]
    rintro rfl
    exact h (List.mem_reverse.mp hu)
  unfold splitLast
  rw [hreverse, List.dropWhile_append_of_pos hall, List.takeWhile_append_of_pos hall]
  simp

theorem splitLast_eq {token encoded sig : List Nat} (h : splitLast token = some (encoded, sig)) :
    token = encoded ++ dot :: sig := by
  unfold splitLast at h
  split at h
  · cases h
  · rename_i d before hdrop
    obtain ⟨rfl, rfl⟩ := Prod.mk.inj (Option.some.inj h)
    have hd : d = dot := by
      have hhead := List.head?_dropWhile_not (· != dot) token.reverse
      rw [hdrop] at hhead
      simpa using hhead
    have hwhole := List.takeWhile_append_dropWhile (p := (· != dot)) (l := token.reverse)
    rw [hdrop, hd] at hwhole
    have hreverse := congrArg List.reverse hwhole
    simpa using hreverse.symm

theorem foldl_and {α : Type} (p : α → Bool) (items : List α) (b : Bool) :
    items.foldl (fun same i => same && p i) b = (b && items.all p) := by
  induction items generalizing b with
  | nil => simp
  | cons i items ih => rw [List.foldl_cons, ih, List.all_cons, Bool.and_assoc]

theorem constantTimeEqual_iff (a b : List Nat) :
    constantTimeEqual a b = true ↔ TextEncoder.encode a = TextEncoder.encode b := by
  unfold constantTimeEqual
  generalize TextEncoder.encode a = xs
  generalize TextEncoder.encode b = ys
  simp only [foldl_and, Bool.and_eq_true, beq_iff_eq, List.all_eq_true, List.mem_range]
  constructor
  · rintro ⟨hlength, hsame⟩
    apply List.ext_getElem hlength
    intro i hx hy
    have hi := hsame i (by omega)
    rwa [List.getD_eq_getElem _ _ hx, List.getD_eq_getElem _ _ hy] at hi
  · rintro rfl
    exact ⟨rfl, fun i _ => rfl⟩

theorem dot_encode (value : Json) : dot ∉ JsonBase64.encode value :=
  fun h => (isUrl_lt (JsonBase64.isUrl_encode h)).2 rfl

theorem decodePayload_encode {entries : List (List Nat × Json)} (h : Valid (.obj entries)) :
    decodePayload (JsonBase64.encode (.obj entries)) = some (canonicalMembers entries) := by
  unfold decodePayload
  rw [JsonBase64.decode_encode h]

theorem isSignature_urlEncode {bytes : List UInt8} (h : bytes.length = 32) :
    isSignature (urlEncode bytes) = true := by
  unfold isSignature
  rw [Base64.length_urlEncode, h]
  simpa using fun u => Base64.isUrl_urlEncode

/-- A right signature is the text that the signer writes. -/
theorem constantTimeEqual_urlEncode {sig : List Nat} {bytes : List UInt8} (h : isSignature sig = true) :
    constantTimeEqual sig (urlEncode bytes) = true ↔ sig = urlEncode bytes := by
  rw [constantTimeEqual_iff]
  constructor
  · intro heq
    have hsig : ∀ u ∈ sig, u < 0x10000 := by
      simp only [isSignature, Bool.and_eq_true, List.all_eq_true] at h
      intro u hu
      have := (isUrl_lt (h.2 u hu)).1
      omega
    exact TextEncoder.encode_ascii_injective (fun u hu => (isUrl_lt (Base64.isUrl_urlEncode hu)).1) hsig heq
  · rintro rfl
    rfl

/-! ## Section 2: What the verifiers accept -/

/-- A state cookie is accepted for these reasons only. -/
structure Accepted (mac : Mac) (now : Int) (token secret : List Nat) (r : VerifiedStateCookie)
    (k : mac.Key) (encoded : List Nat) (parsed : List (List Nat × Json)) (d : Decimal) : Prop where
  short : token.length ≤ 4096
  signed : token = encoded ++ dot :: urlEncode (mac.sign k (TextEncoder.encode encoded))
  nonempty : encoded ≠ []
  key : mac.keyOf secret = some k
  decoded : decodePayload encoded = some parsed
  state : lookup parsed "state" = some (.str r.state)
  verifier : lookup parsed "codeVerifier" = some (.str r.codeVerifier)
  expiry : lookup parsed "expiresAt" = some (.num d)
  safe : d.toSafeInteger = some r.expiresAt
  fresh : now < r.expiresAt
  dated : r.expiresAt ≤ maxDate

theorem dot_signature (mac : Mac) (k : mac.Key) (message : List UInt8) : dot ∉ urlEncode (mac.sign k message) :=
  fun h => (isUrl_lt (Base64.isUrl_urlEncode h)).2 rfl

theorem Accepted.verify {mac : Mac} {now : Int} {token secret : List Nat} {r : VerifiedStateCookie}
    {k : mac.Key} {encoded : List Nat} {parsed : List (List Nat × Json)} {d : Decimal}
    (h : Accepted mac now token secret r k encoded parsed d) :
    verifyCookieValue mac now token secret = some (some r) := by
  have hsplit : splitLast token = some (encoded, urlEncode (mac.sign k (TextEncoder.encode encoded))) := by
    rw [h.signed, splitLast_append (dot_signature mac k _)]
  have hsig := isSignature_urlEncode (mac.length_sign k (TextEncoder.encode encoded))
  have hshort := h.short
  have hfresh := h.fresh
  have hdated := h.dated
  unfold verifyCookieValue hmac
  rw [if_neg (by omega), hsplit]
  simp only [h.nonempty, if_false, hsig, h.key, Option.map_some, Option.bind_eq_bind, Option.bind_some,
    (constantTimeEqual_urlEncode hsig).mpr rfl, Bool.not_true, Bool.false_eq_true, h.decoded, h.state,
    h.verifier, h.expiry, h.safe]
  rw [if_neg (by omega)]
  rfl

/-- What the payload of a signed cookie decides. -/
def cookiePayload (now : Int) (encoded : List Nat) : Option (Option VerifiedStateCookie) :=
  match decodePayload encoded with
  | none => some none
  | some parsed =>
      match lookup parsed "state", lookup parsed "codeVerifier", lookup parsed "expiresAt" with
      | some (.str state), some (.str codeVerifier), some (.num expiresAt) =>
          match expiresAt.toSafeInteger with
          | some e =>
              if e ≤ now ∨ maxDate < e then some none
              else some (some ⟨state, codeVerifier, e⟩)
          | none => some none
      | _, _, _ => some none

/-- Every other token ends in `null`, where the secret is a key. -/
theorem verifyCookieValue_cases (mac : Mac) (now : Int) (token secret : List Nat)
    (hkey : mac.keyOf secret ≠ none) :
    verifyCookieValue mac now token secret = some none ∨
      ∃ r k encoded parsed d, verifyCookieValue mac now token secret = some (some r) ∧
        Accepted mac now token secret r k encoded parsed d := by
  obtain ⟨k, hk⟩ := Option.ne_none_iff_exists'.mp hkey
  by_cases hlong : 4096 < token.length
  · exact .inl (if_pos hlong)
  cases hsplit : splitLast token with
  | none =>
    left
    unfold verifyCookieValue
    rw [if_neg hlong, hsplit]
  | some parts =>
    obtain ⟨encoded, sig⟩ := parts
    by_cases hempty : encoded = []
    · left
      unfold verifyCookieValue
      rw [if_neg hlong, hsplit]
      exact if_pos hempty
    by_cases hsig : isSignature sig = true
    swap
    · left
      unfold verifyCookieValue
      rw [if_neg hlong, hsplit]
      simp [hempty, hsig]
    by_cases hequal : sig = urlEncode (mac.sign k (TextEncoder.encode encoded))
    swap
    · left
      have hfalse : constantTimeEqual sig (urlEncode (mac.sign k (TextEncoder.encode encoded))) = false :=
        Bool.eq_false_iff.mpr fun h => hequal ((constantTimeEqual_urlEncode hsig).mp h)
      unfold verifyCookieValue hmac
      rw [if_neg hlong, hsplit]
      simp [hempty, hsig, hk, hfalse]
    have htrue := (constantTimeEqual_urlEncode hsig).mpr hequal
    have hsigned : token = encoded ++ dot :: urlEncode (mac.sign k (TextEncoder.encode encoded)) := by
      rw [← hequal]
      exact splitLast_eq hsplit
    -- the signature is right: what the payload decides
    have hrest : verifyCookieValue mac now token secret =
        cookiePayload now encoded := by
      unfold verifyCookieValue hmac
      rw [if_neg hlong, hsplit]
      simp only [hempty, if_false, hsig, hk, Option.map_some, Option.bind_eq_bind, Option.bind_some,
        htrue, Bool.not_true, Bool.false_eq_true]
      rfl
    rw [hrest, cookiePayload]
    cases hdecode : decodePayload encoded with
    | none => exact .inl rfl
    | some parsed =>
      simp only
      split
      · rename_i state codeVerifier expiresAt hstate hverifier hexpiry
        cases hsafe : expiresAt.toSafeInteger with
        | none => exact .inl rfl
        | some e =>
          simp only
          by_cases hdate : e ≤ now ∨ maxDate < e
          · exact .inl (if_pos hdate)
          · rw [if_neg hdate]
            exact .inr ⟨⟨state, codeVerifier, e⟩, k, encoded, parsed, expiresAt, rfl, by omega, hsigned,
              hempty, hk, hdecode, hstate, hverifier, hexpiry, hsafe, by simp only; omega,
              by simp only; omega⟩
      · exact .inl rfl

/-- A stateless state is accepted for these reasons only. -/
structure AcceptedStateless (mac : Mac) (now : Int) (token : List Nat) (provider : Text)
    (secret : List Nat) (e : Int) (k : mac.Key) (encoded nonce : List Nat)
    (parsed : List (List Nat × Json)) (d : Decimal) : Prop where
  short : token.length ≤ 1024
  signed : token = encoded ++ dot :: urlEncode (mac.sign k (TextEncoder.encode (statelessMessage encoded)))
  nonempty : encoded ≠ []
  plain : encoded.all isUrl = true
  key : mac.keyOf secret = some k
  decoded : decodePayload encoded = some parsed
  nonce : lookup parsed "n" = some (.str nonce)
  provider : lookup parsed "p" = some (.str provider.1)
  expiry : lookup parsed "e" = some (.num d)
  safe : d.toSafeInteger = some e
  fresh : now < e

theorem AcceptedStateless.verify {mac : Mac} {now : Int} {token : List Nat} {provider : Text}
    {secret : List Nat} {e : Int} {k : mac.Key} {encoded nonce : List Nat}
    {parsed : List (List Nat × Json)} {d : Decimal}
    (h : AcceptedStateless mac now token provider secret e k encoded nonce parsed d) :
    verifyStatelessState mac now token provider secret = some (some e) := by
  have hsplit : splitLast token =
      some (encoded, urlEncode (mac.sign k (TextEncoder.encode (statelessMessage encoded)))) := by
    rw [h.signed, splitLast_append (dot_signature mac k _)]
  have hsig := isSignature_urlEncode (mac.length_sign k (TextEncoder.encode (statelessMessage encoded)))
  have hshort := h.short
  have hfresh := h.fresh
  unfold verifyStatelessState hmac
  rw [if_neg (by omega), hsplit]
  simp only [h.nonempty, if_false, h.plain, hsig, h.key, Option.map_some, Option.bind_eq_bind,
    Option.bind_some, (constantTimeEqual_urlEncode hsig).mpr rfl, Bool.not_true, Bool.or_self,
    Bool.false_eq_true, h.decoded, h.nonce, h.provider, h.expiry, h.safe, ne_eq, not_true_eq_false]
  rw [if_neg (by omega)]
  rfl

/-- What the payload of a signed stateless state decides. -/
def statelessPayload (now : Int) (provider : Text) (encoded : List Nat) : Option (Option Int) :=
  match decodePayload encoded with
  | none => some none
  | some parsed =>
      match lookup parsed "n", lookup parsed "p", lookup parsed "e" with
      | some (.str _), some (.str p), some (.num e) =>
          if p ≠ provider.1 then some none
          else
            match e.toSafeInteger with
            | some e => if e ≤ now then some none else some (some e)
            | none => some none
      | _, _, _ => some none

theorem verifyStatelessState_cases (mac : Mac) (now : Int) (token : List Nat) (provider : Text)
    (secret : List Nat) (hkey : mac.keyOf secret ≠ none) :
    verifyStatelessState mac now token provider secret = some none ∨
      ∃ e k encoded nonce parsed d, verifyStatelessState mac now token provider secret = some (some e) ∧
        AcceptedStateless mac now token provider secret e k encoded nonce parsed d := by
  obtain ⟨k, hk⟩ := Option.ne_none_iff_exists'.mp hkey
  by_cases hlong : 1024 < token.length
  · exact .inl (if_pos hlong)
  cases hsplit : splitLast token with
  | none =>
    left
    unfold verifyStatelessState
    rw [if_neg hlong, hsplit]
  | some parts =>
    obtain ⟨encoded, sig⟩ := parts
    by_cases hempty : encoded = []
    · left
      unfold verifyStatelessState
      rw [if_neg hlong, hsplit]
      exact if_pos hempty
    by_cases hplain : encoded.all isUrl = true
    swap
    · left
      have hfalse := (Bool.not_eq_true _).mp hplain
      unfold verifyStatelessState
      rw [if_neg hlong, hsplit]
      simp only [hempty, if_false, hfalse, Bool.not_false, Bool.true_or, if_true]
    by_cases hsig : isSignature sig = true
    swap
    · left
      have hfalse := (Bool.not_eq_true _).mp hsig
      unfold verifyStatelessState
      rw [if_neg hlong, hsplit]
      simp only [hempty, if_false, hfalse, Bool.not_false, Bool.or_true, if_true]
    by_cases hequal : sig = urlEncode (mac.sign k (TextEncoder.encode (statelessMessage encoded)))
    swap
    · left
      have hfalse : constantTimeEqual sig
          (urlEncode (mac.sign k (TextEncoder.encode (statelessMessage encoded)))) = false :=
        Bool.eq_false_iff.mpr fun h => hequal ((constantTimeEqual_urlEncode hsig).mp h)
      unfold verifyStatelessState hmac
      rw [if_neg hlong, hsplit]
      simp only [hempty, if_false, hplain, hsig, hk, Option.map_some, Option.bind_eq_bind,
        Option.bind_some, hfalse, Bool.not_true, Bool.not_false, Bool.or_self, Bool.false_eq_true, if_true]
      rfl
    have htrue := (constantTimeEqual_urlEncode hsig).mpr hequal
    have hsigned : token = encoded ++
        dot :: urlEncode (mac.sign k (TextEncoder.encode (statelessMessage encoded))) := by
      rw [← hequal]
      exact splitLast_eq hsplit
    have hrest : verifyStatelessState mac now token provider secret =
        statelessPayload now provider encoded := by
      unfold verifyStatelessState hmac
      rw [if_neg hlong, hsplit]
      simp only [hempty, if_false, hplain, hsig, hk, Option.map_some, Option.bind_eq_bind,
        Option.bind_some, htrue, Bool.not_true, Bool.or_self, Bool.false_eq_true]
      rfl
    rw [hrest, statelessPayload]
    cases hdecode : decodePayload encoded with
    | none => exact .inl rfl
    | some parsed =>
      simp only
      split
      · rename_i nonce p d hnonce hp hexpiry
        by_cases hprovider : p = provider.1
        swap
        · exact .inl (if_pos hprovider)
        rw [if_neg (not_not_intro hprovider)]
        cases hsafe : d.toSafeInteger with
        | none => exact .inl rfl
        | some e =>
          simp only
          by_cases hdate : e ≤ now
          · exact .inl (if_pos hdate)
          · rw [if_neg hdate]
            exact .inr ⟨e, k, encoded, nonce, parsed, d, rfl, by omega, hsigned, hempty, hplain, hk,
              hdecode, hnonce, hprovider ▸ hp, hexpiry, hsafe, by omega⟩
      · exact .inl rfl

/-! ## Section 3: The signers -/

/-- A call of a signer. -/
inductive Signing where
  | cookie (now : Int) (payload : OAuthStatePayload) (secret : List Nat) (maxAge : Option Int)
      (expiresAt : Option Number)
  | stateless (random : List UInt8) (provider : Text) (secret : List Nat) (expiresAt : Number)

def Signing.secret : Signing → List Nat
  | .cookie _ _ secret _ _ => secret
  | .stateless _ _ secret _ => secret

/-- What the signer gives to the code. -/
def Signing.message : Signing → List Nat
  | .cookie now payload _ maxAge expiresAt => JsonBase64.encode (payload.json (expiryOf now maxAge expiresAt))
  | .stateless random provider _ expiresAt =>
      statelessMessage (JsonBase64.encode (statelessJson random provider expiresAt))

/-- What a key has signed in some calls. -/
def Signed (mac : Mac) (log : List Signing) (key : mac.Key) (message : List UInt8) : Prop :=
  ∃ s ∈ log, mac.keyOf s.secret = some key ∧ TextEncoder.encode s.message = message

/-- The code is unforgeable: where the signature at the end of a token is right for a
message of one of the verifiers, that message was signed. -/
def NotForged (mac : Mac) (log : List Signing) (token secret : List Nat) : Prop :=
  ∀ k encoded signature, mac.keyOf secret = some k → splitLast token = some (encoded, urlEncode signature) →
    mac.Unforged (Signed mac log) k (TextEncoder.encode encoded) signature ∧
    mac.Unforged (Signed mac log) k (TextEncoder.encode (statelessMessage encoded)) signature

theorem signCookieValue_eq {mac : Mac} {now : Int} {payload : OAuthStatePayload} {secret token : List Nat}
    {maxAge : Option Int} {expiresAt : Option Number} :
    signCookieValue mac now payload secret maxAge expiresAt = some token ↔
      ∃ k, mac.keyOf secret = some k ∧
        token = JsonBase64.encode (payload.json (expiryOf now maxAge expiresAt)) ++ dot :: urlEncode (mac.sign k
          (TextEncoder.encode (JsonBase64.encode (payload.json (expiryOf now maxAge expiresAt))))) := by
  unfold signCookieValue hmac
  cases mac.keyOf secret with
  | none => simp
  | some k => simp [eq_comm]

theorem signStatelessState_eq {mac : Mac} {random : List UInt8} {provider : Text} {secret token : List Nat}
    {expiresAt : Number} :
    signStatelessState mac random provider secret expiresAt = some token ↔
      ∃ k, mac.keyOf secret = some k ∧
        token = JsonBase64.encode (statelessJson random provider expiresAt) ++ dot :: urlEncode (mac.sign k
          (TextEncoder.encode (statelessMessage (JsonBase64.encode (statelessJson random provider expiresAt))))) := by
  unfold signStatelessState hmac
  cases mac.keyOf secret with
  | none => simp
  | some k => simp [eq_comm]

theorem key_lt {name : String} {u : Nat} (h : u ∈ key name) : u < 0x10000 := utf16_lt h

theorem valid_number (n : Number) : Valid n.json := by
  cases n <;> exact trivial

theorem valid_payload (payload : OAuthStatePayload) (expiresAt : Number) : Valid (payload.json expiresAt) :=
  ⟨(by decide : [key "state", key "codeVerifier", key "expiresAt"].Nodup), fun _ => key_lt, payload.state.2, fun _ => key_lt, payload.codeVerifier.2, fun _ => key_lt,
    valid_number expiresAt, trivial⟩

theorem valid_stateless (random : List UInt8) (provider : Text) (expiresAt : Number) :
    Valid (statelessJson random provider expiresAt) := by
  refine ⟨(by decide : [key "n", key "p", key "e"].Nodup), fun _ => key_lt, fun u hu => ?_, fun _ => key_lt, provider.2, fun _ => key_lt,
    valid_number expiresAt, trivial⟩
  have := (isUrl_lt (Base64.isUrl_urlEncode hu)).1
  omega

/-- The fields of an object of three. -/
theorem lookup_three {a b c : String} (hab : JsString.utf16 a ≠ JsString.utf16 b)
    (hac : JsString.utf16 a ≠ JsString.utf16 c) (hbc : JsString.utf16 b ≠ JsString.utf16 c) (x y z : Json) :
    let entries := canonicalMembers [(key a, x), (key b, y), (key c, z)]
    lookup entries a = some (canonical x) ∧ lookup entries b = some (canonical y) ∧
      lookup entries c = some (canonical z) := by
  intro entries
  simp only [entries, lookup_canonical]
  refine ⟨?_, ?_, ?_⟩ <;> simp [lookup, key, hab, hac, hbc]

theorem decode_payload (payload : OAuthStatePayload) (expiresAt : Number) :
    ∃ parsed, decodePayload (JsonBase64.encode (payload.json expiresAt)) = some parsed ∧
      lookup parsed "state" = some (.str payload.state.1) ∧
      lookup parsed "codeVerifier" = some (.str payload.codeVerifier.1) ∧
      lookup parsed "expiresAt" = some (canonical expiresAt.json) :=
  ⟨_, decodePayload_encode (valid_payload payload expiresAt),
    lookup_three (by decide) (by decide) (by decide) _ _ _⟩

theorem decode_stateless (random : List UInt8) (provider : Text) (expiresAt : Number) :
    ∃ parsed, decodePayload (JsonBase64.encode (statelessJson random provider expiresAt)) = some parsed ∧
      lookup parsed "n" = some (.str (generateState random)) ∧
      lookup parsed "p" = some (.str provider.1) ∧
      lookup parsed "e" = some (canonical expiresAt.json) :=
  ⟨_, decodePayload_encode (valid_stateless random provider expiresAt),
    lookup_three (by decide) (by decide) (by decide) _ _ _⟩

theorem canonical_number {n : Number} {d : Decimal} (h : canonical n.json = .num d) :
    ∃ m, n = .finite m ∧ m.canonical = d := by
  cases n with
  | finite m =>
    rw [Number.json, canonical] at h
    exact ⟨m, rfl, Json.num.inj h⟩
  | other => cases h

/-! ## Section 4: Tokens round trip -/

theorem verify_signed_cookie {mac : Mac} {now later : Int} {payload : OAuthStatePayload}
    {secret token : List Nat} {maxAge : Option Int} {expiresAt : Option Number} {e : Int}
    (hsign : signCookieValue mac now payload secret maxAge expiresAt = some token)
    (hshort : token.length ≤ 4096) (hexpiry : expiryOf now maxAge expiresAt = .ofInt e)
    (hsafe : e.natAbs ≤ maxSafe) (hdated : e ≤ maxDate) (hfresh : later < e) :
    verifyCookieValue mac later token secret =
      some (some ⟨payload.state.1, payload.codeVerifier.1, e⟩) := by
  obtain ⟨k, hk, htoken⟩ := signCookieValue_eq.mp hsign
  obtain ⟨parsed, hdecode, hstate, hverifier, hnumber⟩ :=
    decode_payload payload (expiryOf now maxAge expiresAt)
  rw [hexpiry, Number.ofInt, Number.json, canonical, canonical_ofInt hsafe] at hnumber
  exact Accepted.verify ⟨hshort, htoken, JsonBase64.encode_ne_nil _, hk, hdecode, hstate, hverifier, hnumber,
    toSafeInteger_ofInt hsafe, hfresh, hdated⟩

theorem verify_signed_stateless {mac : Mac} {now : Int} {random : List UInt8} {provider : Text}
    {secret token : List Nat} {e : Int}
    (hsign : signStatelessState mac random provider secret (.ofInt e) = some token)
    (hshort : token.length ≤ 1024) (hsafe : e.natAbs ≤ maxSafe) (hfresh : now < e) :
    verifyStatelessState mac now token provider secret = some (some e) := by
  obtain ⟨k, hk, htoken⟩ := signStatelessState_eq.mp hsign
  obtain ⟨parsed, hdecode, hnonce, hprovider, hnumber⟩ := decode_stateless random provider (.ofInt e)
  rw [Number.ofInt, Number.json, canonical, canonical_ofInt hsafe] at hnumber
  have hplain : (JsonBase64.encode (statelessJson random provider (.ofInt e))).all isUrl = true :=
    List.all_eq_true.mpr fun _ => JsonBase64.isUrl_encode
  exact AcceptedStateless.verify ⟨hshort, htoken, JsonBase64.encode_ne_nil _, hplain, hk, hdecode, hnonce,
    hprovider, hnumber, toSafeInteger_ofInt hsafe, hfresh⟩

/-! ## Section 5: No other token is accepted -/

/-- The cookie was made with the key of `secret` and carries `r`. -/
def MadeCookie (mac : Mac) (log : List Signing) (now : Int) (token secret : List Nat)
    (r : VerifiedStateCookie) : Prop :=
  ∃ signedAt payload secret' maxAge expiresAt d, .cookie signedAt payload secret' maxAge expiresAt ∈ log ∧
    mac.keyOf secret' = mac.keyOf secret ∧
    signCookieValue mac signedAt payload secret' maxAge expiresAt = some token ∧
    r.state = payload.state.1 ∧ r.codeVerifier = payload.codeVerifier.1 ∧
    expiryOf signedAt maxAge expiresAt = .finite d ∧ d.canonical.toSafeInteger = some r.expiresAt ∧
    now < r.expiresAt

/-- The stateless state was made with the key of `secret` for this provider, and expires
at `e`. -/
def MadeStateless (mac : Mac) (log : List Signing) (now : Int) (token : List Nat) (provider : Text)
    (secret : List Nat) (e : Int) : Prop :=
  ∃ random secret' d, .stateless random provider secret' (.finite d) ∈ log ∧
    mac.keyOf secret' = mac.keyOf secret ∧
    signStatelessState mac random provider secret' (.finite d) = some token ∧
    d.canonical.toSafeInteger = some e ∧ now < e

theorem purpose_ascii {u : Nat} (h : u ∈ statelessPurpose) : u < 0x80 := by
  revert u
  decide

theorem message_ascii {s : Signing} {u : Nat} (h : u ∈ s.message) : u < 0x80 := by
  cases s with
  | cookie => exact (isUrl_lt (JsonBase64.isUrl_encode h)).1
  | stateless =>
    rcases List.mem_append.mp h with h | h
    · exact purpose_ascii h
    · rcases List.mem_cons.mp h with rfl | h
      · decide
      · exact (isUrl_lt (JsonBase64.isUrl_encode h)).1

theorem decodePayload_dot {encoded : List Nat} (h : dot ∈ encoded) : decodePayload encoded = none := by
  unfold decodePayload
  rw [JsonBase64.decode_dot h]

/-- The message that a key signed for the text of a token. -/
theorem signed_text {mac : Mac} {log : List Signing} {k : mac.Key} {text : List Nat}
    (htext : ∀ u ∈ text, u < 0x10000) (h : Signed mac log k (TextEncoder.encode text)) :
    ∃ s ∈ log, mac.keyOf s.secret = some k ∧ text = s.message := by
  obtain ⟨s, hs, hkey, hmessage⟩ := h
  exact ⟨s, hs, hkey, TextEncoder.encode_ascii_injective (fun u => message_ascii) htext hmessage.symm⟩

theorem cookie_made {mac : Mac} {log : List Signing} {now : Int} {token : Text} {secret : List Nat}
    {r : VerifiedStateCookie} {k : mac.Key} {encoded : List Nat} {parsed : List (List Nat × Json)}
    {d : Decimal} (hforged : NotForged mac log token.1 secret)
    (h : Accepted mac now token.1 secret r k encoded parsed d) :
    MadeCookie mac log now token.1 secret r := by
  have hsplit : splitLast token.1 = some (encoded, urlEncode (mac.sign k (TextEncoder.encode encoded))) := by
    rw [h.signed, splitLast_append (dot_signature mac k _)]
  have hsigned := (hforged k encoded _ h.key hsplit).1 rfl
  have hunits : ∀ u ∈ encoded, u < 0x10000 := by
    intro u hu
    apply token.2 u
    rw [h.signed]
    exact List.mem_append_left _ hu
  obtain ⟨s, hs, hkey, htext⟩ := signed_text hunits hsigned
  cases s with
  | cookie signedAt payload secret' maxAge expiresAt =>
    have htext : encoded = JsonBase64.encode (payload.json (expiryOf signedAt maxAge expiresAt)) := htext
    obtain ⟨fields, hdecode, hstate, hverifier, hnumber⟩ :=
      decode_payload payload (expiryOf signedAt maxAge expiresAt)
    obtain rfl : parsed = fields := by
      rw [← htext, h.decoded] at hdecode
      exact Option.some.inj hdecode
    rw [h.state] at hstate
    rw [h.verifier] at hverifier
    rw [h.expiry] at hnumber
    obtain ⟨m, hm, hcanonical⟩ := canonical_number (Option.some.inj hnumber).symm
    refine ⟨signedAt, payload, secret', maxAge, expiresAt, m, hs, by rw [h.key]; exact hkey, ?_,
      Json.str.inj (Option.some.inj hstate), Json.str.inj (Option.some.inj hverifier), hm,
      by rw [hcanonical, h.safe], h.fresh⟩
    exact signCookieValue_eq.mpr ⟨k, hkey, by rw [← htext]; exact h.signed⟩
  | stateless random provider secret' expiresAt =>
    -- the message of a stateless state has a full stop, so that it is not base64
    exfalso
    have hdot : dot ∈ encoded := by
      rw [htext]
      exact List.mem_append_right _ List.mem_cons_self
    have hdecoded := h.decoded
    rw [decodePayload_dot hdot] at hdecoded
    cases hdecoded

theorem stateless_made {mac : Mac} {log : List Signing} {now : Int} {token provider : Text}
    {secret : List Nat} {e : Int} {k : mac.Key} {encoded nonce : List Nat}
    {parsed : List (List Nat × Json)} {d : Decimal} (hforged : NotForged mac log token.1 secret)
    (h : AcceptedStateless mac now token.1 provider secret e k encoded nonce parsed d) :
    MadeStateless mac log now token.1 provider secret e := by
  have hsplit : splitLast token.1 =
      some (encoded, urlEncode (mac.sign k (TextEncoder.encode (statelessMessage encoded)))) := by
    rw [h.signed, splitLast_append (dot_signature mac k _)]
  have hsigned := (hforged k encoded _ h.key hsplit).2 rfl
  have hunits : ∀ u ∈ statelessMessage encoded, u < 0x10000 := by
    intro u hu
    rcases List.mem_append.mp hu with hu | hu
    · have := purpose_ascii hu
      omega
    · rcases List.mem_cons.mp hu with rfl | hu
      · decide
      · have := (isUrl_lt (List.all_eq_true.mp h.plain u hu)).1
        omega
  obtain ⟨s, hs, hkey, htext⟩ := signed_text hunits hsigned
  cases s with
  | cookie signedAt payload secret' maxAge expiresAt =>
    -- a cookie is signed as base64, which has no full stop
    exfalso
    apply dot_encode (payload.json (expiryOf signedAt maxAge expiresAt))
    rw [show JsonBase64.encode (payload.json (expiryOf signedAt maxAge expiresAt)) = statelessMessage encoded from
      htext.symm]
    exact List.mem_append_right _ List.mem_cons_self
  | stateless random provider' secret' expiresAt =>
    have htext : encoded = JsonBase64.encode (statelessJson random provider' expiresAt) :=
      (List.cons.inj (List.append_cancel_left htext)).2
    obtain ⟨fields, hdecode, -, hprovider, hnumber⟩ := decode_stateless random provider' expiresAt
    obtain rfl : parsed = fields := by
      rw [← htext, h.decoded] at hdecode
      exact Option.some.inj hdecode
    rw [h.provider] at hprovider
    rw [h.expiry] at hnumber
    obtain rfl : provider = provider' := Subtype.ext (Json.str.inj (Option.some.inj hprovider))
    obtain ⟨m, rfl, hcanonical⟩ := canonical_number (Option.some.inj hnumber).symm
    refine ⟨random, secret', m, hs, by rw [h.key]; exact hkey, ?_, by rw [hcanonical, h.safe], h.fresh⟩
    exact signStatelessState_eq.mpr ⟨k, hkey, by rw [← htext]; exact h.signed⟩

/-- State tokens round trip while they are fresh, and a verifier answers `null` for every
token that its own signer did not make with the same key, for the same provider and for a
later time. -/
theorem state_tokens_exact (mac : Mac) :
    (∀ (now later : Int) (payload : OAuthStatePayload) (secret token : List Nat) (maxAge : Option Int)
      (expiresAt : Option Number) (e : Int),
      signCookieValue mac now payload secret maxAge expiresAt = some token → token.length ≤ 4096 →
      expiryOf now maxAge expiresAt = .ofInt e → e.natAbs ≤ maxSafe → e ≤ maxDate → later < e →
      verifyCookieValue mac later token secret =
        some (some ⟨payload.state.1, payload.codeVerifier.1, e⟩)) ∧
    (∀ (now : Int) (random : List UInt8) (provider : Text) (secret token : List Nat) (e : Int),
      signStatelessState mac random provider secret (.ofInt e) = some token → token.length ≤ 1024 →
      e.natAbs ≤ maxSafe → now < e →
      verifyStatelessState mac now token provider secret = some (some e)) ∧
    (∀ (log : List Signing) (now : Int) (token provider : Text) (secret : List Nat),
      NotForged mac log token.1 secret → mac.keyOf secret ≠ none →
      (verifyCookieValue mac now token.1 secret = some none ∨
        ∃ r, verifyCookieValue mac now token.1 secret = some (some r) ∧
          MadeCookie mac log now token.1 secret r) ∧
      (verifyStatelessState mac now token.1 provider secret = some none ∨
        ∃ e, verifyStatelessState mac now token.1 provider secret = some (some e) ∧
          MadeStateless mac log now token.1 provider secret e)) := by
  refine ⟨?_, ?_, ?_⟩
  · intro now later payload secret token maxAge expiresAt e hsign hshort hexpiry hsafe hdated hfresh
    exact verify_signed_cookie hsign hshort hexpiry hsafe hdated hfresh
  · intro now random provider secret token e hsign hshort hsafe hfresh
    exact verify_signed_stateless hsign hshort hsafe hfresh
  · intro log now token provider secret hforged hkey
    constructor
    · rcases verifyCookieValue_cases mac now token.1 secret hkey with hnull | ⟨r, k, encoded, parsed, d, hr, h⟩
      · exact .inl hnull
      · exact .inr ⟨r, hr, cookie_made hforged h⟩
    · rcases verifyStatelessState_cases mac now token.1 provider secret hkey with
        hnull | ⟨e, k, encoded, nonce, parsed, d, he, h⟩
      · exact .inl hnull
      · exact .inr ⟨e, he, stateless_made hforged h⟩

/-! ## Section 6: Known codes -/

/-- A provider whose tokens are too long to be verified. -/
def longProvider : Text := ⟨List.replicate 700 112, fun u hu => by
  rw [List.eq_of_mem_replicate hu]
  decide⟩

def exampleNonce : List UInt8 := (List.range 16).map UInt8.ofNat

/-- HMAC-SHA256 of some messages: the secret, the message and the code. -/
def knownCodes : List (List UInt8 × List Nat × List UInt8) :=
  [([107], JsString.utf16 "eyJzdGF0ZSI6InMiLCJjb2RlVmVyaWZpZXIi" ++
      JsString.utf16 "OiJ2IiwiZXhwaXJlc0F0Ijo4NjQwMDAwMDAw" ++
      JsString.utf16 "MDAwMDAxfQ",
      [139, 80, 95, 52, 244, 233, 231, 47, 64, 227, 109, 113, 103, 123, 13, 0, 133, 122, 167, 58, 130, 225,
        75, 121, 126, 27, 88, 7, 102, 179, 222, 181]),
    ([107], JsString.utf16 "eyJzdGF0ZSI6InMiLCJjb2RlVmVyaWZpZXIi" ++
      JsString.utf16 "OiJ2IiwiZXhwaXJlc0F0IjoxMDAwfQ",
      [184, 33, 251, 118, 182, 64, 162, 133, 142, 92, 190, 18, 105, 175, 183, 219, 222, 242, 148, 137, 2,
        91, 127, 139, 149, 114, 166, 91, 158, 152, 61, 168]),
    ([107], JsString.utf16 "eyJzdGF0ZSI6InMiLCJjb2RlVmVyaWZpZXIi" ++
      JsString.utf16 "OiJ2IiwiZXhwaXJlc0F0IjoxNTAwLjV9",
      [91, 182, 65, 132, 80, 18, 138, 100, 83, 23, 216, 88, 118, 120, 208, 59, 44, 121, 169, 179, 51, 12,
        135, 7, 6, 88, 25, 245, 29, 127, 8, 149]),
    ([239, 191, 189], JsString.utf16 "eyJzdGF0ZSI6InMiLCJjb2RlVmVyaWZpZXIi" ++
      JsString.utf16 "OiJ2IiwiZXhwaXJlc0F0IjoxMDAwfQ",
      [20, 158, 219, 212, 36, 248, 13, 27, 163, 241, 91, 117, 68, 21, 110, 235, 162, 128, 97, 254, 199, 174,
        32, 217, 62, 32, 71, 6, 144, 64, 12, 86]),
    ([107], statelessMessage (JsString.utf16 "eyJuIjoiQUFFQ0F3UUZCZ2NJQ1FvTERBME9E" ++
      JsString.utf16 "dyIsInAiOiJwIiwiZSI6MTAwMH0"),
      [183, 36, 9, 169, 182, 147, 134, 27, 8, 45, 115, 100, 151, 68, 30, 232, 142, 246, 147, 149, 50, 251,
        209, 41, 62, 112, 227, 65, 194, 18, 185, 56]),
    ([107], statelessMessage (JsonBase64.encode (statelessJson exampleNonce longProvider (.ofInt 1000))),
      [22, 45, 248, 3, 250, 137, 38, 122, 228, 56, 181, 19, 225, 113, 216, 222, 127, 213, 225, 64, 210, 67,
        16, 98, 79, 224, 74, 170, 198, 166, 196, 117])]

def knownMac : Mac where
  Key := List UInt8
  importKey bytes := if bytes = [] then none else some bytes
  sign k message :=
    match knownCodes.find? fun code => code.1 = k && TextEncoder.encode code.2.1 = message with
    | some code => code.2.2
    | none => List.replicate 32 0
  length_sign k message := by
    split
    · rename_i code hfind
      have hmem := List.mem_of_find?_eq_some hfind
      have hall : ∀ code ∈ knownCodes, code.2.2.length = 32 := by
        simp [knownCodes]
      exact hall code hmem
    · simp

def examplePayload : OAuthStatePayload := ⟨UriText.ofString "s", UriText.ofString "v"⟩

/-- A cookie for a time that no date has, one for half a millisecond, a stateless state
longer than the limit, and a secret whose bytes another secret has too. -/
theorem tokens_beyond_limits :
    (∃ token, signCookieValue knownMac 0 examplePayload [107] none (some (.ofInt 8640000000000001)) = some token ∧
      token.length ≤ 4096 ∧ verifyCookieValue knownMac 0 token [107] = some none) ∧
    (∃ token, signCookieValue knownMac 0 examplePayload [107] none (some (.finite ⟨false, 15005, -1⟩)) =
        some token ∧ token.length ≤ 4096 ∧ verifyCookieValue knownMac 0 token [107] = some none) ∧
    (∃ token, signStatelessState knownMac exampleNonce longProvider [107] (.ofInt 1000) = some token ∧
      verifyStatelessState knownMac 0 token longProvider [107] = some none) ∧
    (∃ token, signCookieValue knownMac 0 examplePayload [0xD800] none (some (.ofInt 1000)) = some token ∧
      verifyCookieValue knownMac 0 token [0xDFFF] =
        some (some ⟨examplePayload.state.1, examplePayload.codeVerifier.1, 1000⟩)) := by
  refine ⟨⟨_, rfl, ?_, ?_⟩, ⟨_, rfl, ?_, ?_⟩, ⟨_, rfl, ?_⟩, ⟨_, rfl, ?_⟩⟩
  · decide +kernel
  · decide +kernel
  · decide +kernel
  · decide +kernel
  · decide +kernel
  · decide +kernel

/-- The cookie of the example payload, until 1000. -/
def exampleCookie : Text :=
  ⟨JsString.utf16 "eyJzdGF0ZSI6InMiLCJjb2RlVmVyaWZpZXIi" ++
    JsString.utf16 "OiJ2IiwiZXhwaXJlc0F0IjoxMDAwfQ.uCH7d" ++
    JsString.utf16 "rZAooWOXL4Saa-3297ylIkCW3-LlXKmW56YPag", by decide +kernel⟩

/-- A stateless state of the provider `p`, until 1000. -/
def exampleState : List Nat :=
  JsString.utf16 "eyJuIjoiQUFFQ0F3UUZCZ2NJQ1FvTERBME9E" ++
    JsString.utf16 "dyIsInAiOiJwIiwiZSI6MTAwMH0.tyQJqbaT" ++
    JsString.utf16 "hhsILXNkl0Qe6I72k5Uy-9EpPnDjQcISuTg"

theorem exampleCookie_signed :
    signCookieValue knownMac 0 examplePayload [107] none (some (.ofInt 1000)) = some exampleCookie.1 := by
  decide +kernel

/-- Nobody forges with the example cookie, where it is all that was signed. -/
theorem exampleCookie_notForged :
    NotForged knownMac [.cookie 0 examplePayload [107] none (some (.ofInt 1000))] exampleCookie.1 [107] := by
  intro k encoded signature hk hsplit
  obtain ⟨k', hk', htoken⟩ := signCookieValue_eq.mp exampleCookie_signed
  obtain rfl : k = k' := Option.some.inj (hk.symm.trans hk')
  rw [htoken, splitLast_append (dot_signature knownMac _ _)] at hsplit
  obtain ⟨hencoded, hcode⟩ := Prod.mk.inj (Option.some.inj hsplit)
  have hsignature := Base64.urlEncode_injective hcode
  constructor
  · intro _
    exact ⟨_, List.mem_singleton_self _, hk, by rw [← hencoded]; rfl⟩
  · intro hright
    rw [← hsignature, ← hencoded] at hright
    have hne : ∀ k : List UInt8, k = [107] →
        knownMac.sign k (TextEncoder.encode (statelessMessage
          (JsonBase64.encode (examplePayload.json (expiryOf 0 none (some (Number.ofInt 1000))))))) ≠
        knownMac.sign k (TextEncoder.encode
          (JsonBase64.encode (examplePayload.json (expiryOf 0 none (some (Number.ofInt 1000)))))) := by
      rintro _ rfl
      decide +kernel
    exact absurd hright (hne k (Option.some.inj hk).symm)

theorem exampleState_signed :
    signStatelessState knownMac exampleNonce (UriText.ofString "p") [107] (.ofInt 1000) = some exampleState := by
  decide +kernel

theorem state_tokens_exact_known :
    verifyCookieValue knownMac 999 exampleCookie.1 [107] =
      some (some ⟨examplePayload.state.1, examplePayload.codeVerifier.1, 1000⟩) ∧
    verifyStatelessState knownMac 999 exampleState (UriText.ofString "p") [107] = some (some 1000) ∧
    (verifyCookieValue knownMac 999 exampleCookie.1 [107] = some none ∨
      ∃ r, verifyCookieValue knownMac 999 exampleCookie.1 [107] = some (some r) ∧
        MadeCookie knownMac [.cookie 0 examplePayload [107] none (some (.ofInt 1000))] 999 exampleCookie.1 [107] r) := by
  refine ⟨?_, ?_, ?_⟩
  · exact (state_tokens_exact knownMac).1 0 999 examplePayload [107] exampleCookie.1 none (some (.ofInt 1000)) 1000
      exampleCookie_signed (by decide +kernel) rfl (by decide) (by decide) (by decide)
  · exact (state_tokens_exact knownMac).2.1 999 exampleNonce (UriText.ofString "p") [107] exampleState 1000
      exampleState_signed (by decide +kernel) (by decide) (by decide)
  · have hkey : knownMac.keyOf [107] ≠ none := by
      rw [show knownMac.keyOf [107] = some _ from rfl]
      exact Option.some_ne_none _
    exact ((state_tokens_exact knownMac).2.2 [.cookie 0 examplePayload [107] none (some (.ofInt 1000))] 999
      exampleCookie (UriText.ofString "p") [107] exampleCookie_notForged hkey).1

end Cossack.Auth.OAuthState
