import Cossack.Lib.JsonBase64
import Cossack.Lib.Macs
import Cossack.Lib.SafeIntegers
import Cossack.Lib.UriText

/-! # OAuth state tokens

    The signed state cookie and the signed stateless state of
    `auth/src/oauth/state.ts`: `encoded.signature`, where the signature of a
    cookie is over `encoded` and that of a stateless state over a purpose and
    `encoded`.  Strings are UTF-16 code units; the code is a parameter. -/

namespace Cossack.Auth.OAuthState

open UriText (Text)
open JsonText
open Macs (Mac)
open Base64 (urlEncode isUrl)

/-! ## Section 1: Encodings -/

/-- A JavaScript number: a decimal, or one that is not finite. -/
inductive Number where
  | finite (d : Decimal)
  | other

def Number.ofInt (n : Int) : Number := .finite (Decimal.ofInt n)

/-- `JSON.stringify` writes `null` for a number that is not finite. -/
def Number.json : Number → Json
  | .finite d => .num d
  | .other => .null

/-- The full stop between the parts of a token. -/
def dot : Nat := 46

/-- The payload of a token; a property can only be read of an object, every other value
ends in `null`. -/
def decodePayload (encoded : List Nat) : Option (List (List Nat × Json)) :=
  match JsonBase64.decode encoded with
  | some (.obj entries) => some entries
  | _ => none

/-- Compare all bytes without an early mismatch exit. -/
def constantTimeEqual (a b : List Nat) : Bool :=
  let aBytes := TextEncoder.encode a
  let bBytes := TextEncoder.encode b
  (List.range (max aBytes.length bBytes.length)).foldl
    (fun same i => same && aBytes.getD i 0 == bBytes.getD i 0) (aBytes.length == bBytes.length)

/-- The signature of a message; none where the secret is refused as a key. -/
def hmac (mac : Mac) (message secret : List Nat) : Option (List Nat) :=
  (mac.keyOf secret).map fun key => urlEncode (mac.sign key (TextEncoder.encode message))

/-- What stands before and after the last full stop. -/
def splitLast (token : List Nat) : Option (List Nat × List Nat) :=
  match token.reverse.dropWhile (· != dot) with
  | [] => none
  | _ :: before => some (before.reverse, (token.reverse.takeWhile (· != dot)).reverse)

/-- `/^[A-Za-z0-9_-]{43}$/`. -/
def isSignature (sig : List Nat) : Bool := sig.length = 43 && sig.all isUrl

/-! ## Section 2: The state cookie -/

structure OAuthStatePayload where
  state : Text
  codeVerifier : Text

structure VerifiedStateCookie where
  state : List Nat
  codeVerifier : List Nat
  expiresAt : Int
  deriving DecidableEq

def key (name : String) : List Nat := JsString.utf16 name

/-- `{ ...payload, expiresAt }`. -/
def OAuthStatePayload.json (payload : OAuthStatePayload) (expiresAt : Number) : Json :=
  .obj [(key "state", .str payload.state.1), (key "codeVerifier", .str payload.codeVerifier.1),
    (key "expiresAt", expiresAt.json)]

/-- The defaults of `maxAge` and `expiresAt`, where `now` is `Date.now()`. -/
def expiryOf (now : Int) (maxAge : Option Int) (expiresAt : Option Number) : Number :=
  expiresAt.getD (.ofInt (now + maxAge.getD 600 * 1000))

def signCookieValue (mac : Mac) (now : Int) (payload : OAuthStatePayload) (secret : List Nat)
    (maxAge : Option Int) (expiresAt : Option Number) : Option (List Nat) :=
  let encoded := JsonBase64.encode (payload.json (expiryOf now maxAge expiresAt))
  (hmac mac encoded secret).map fun sig => encoded ++ dot :: sig

/-- The latest time that a `Date` has. -/
def maxDate : Int := 8640000000000000

/-- The answer is none where the key is refused, which rejects the promise, and
`some none` for `null`. -/
def verifyCookieValue (mac : Mac) (now : Int) (token secret : List Nat) : Option (Option VerifiedStateCookie) :=
  if 4096 < token.length then some none
  else
    match splitLast token with
    | none => some none
    | some (encoded, sig) =>
        if encoded = [] then some none
        else if !isSignature sig then some none
        else do
          let expected ← hmac mac encoded secret
          if !constantTimeEqual sig expected then return none
          match decodePayload encoded with
          | none => return none
          | some parsed =>
              match lookup parsed "state", lookup parsed "codeVerifier", lookup parsed "expiresAt" with
              | some (.str state), some (.str codeVerifier), some (.num expiresAt) =>
                  match expiresAt.toSafeInteger with
                  | some e =>
                      if e ≤ now ∨ maxDate < e then return none
                      else return some ⟨state, codeVerifier, e⟩
                  | none => return none
              | _, _, _ => return none

/-! ## Section 3: The stateless state -/

def statelessPurpose : List Nat := JsString.utf16 "cossack-oauth-stateless-state"

/-- The message under a stateless state. -/
def statelessMessage (encoded : List Nat) : List Nat := statelessPurpose ++ dot :: encoded

/-- A nonce of random bytes. -/
def generateState (random : List UInt8) : List Nat := urlEncode random

def statelessJson (random : List UInt8) (provider : Text) (expiresAt : Number) : Json :=
  .obj [(key "n", .str (generateState random)), (key "p", .str provider.1), (key "e", expiresAt.json)]

def signStatelessState (mac : Mac) (random : List UInt8) (provider : Text) (secret : List Nat)
    (expiresAt : Number) : Option (List Nat) :=
  let encoded := JsonBase64.encode (statelessJson random provider expiresAt)
  (hmac mac (statelessMessage encoded) secret).map fun sig => encoded ++ dot :: sig

def verifyStatelessState (mac : Mac) (now : Int) (token : List Nat) (provider : Text) (secret : List Nat) :
    Option (Option Int) :=
  if 1024 < token.length then some none
  else
    match splitLast token with
    | none => some none
    | some (encoded, sig) =>
        if encoded = [] then some none
        else if !encoded.all isUrl || !isSignature sig then some none
        else do
          let expected ← hmac mac (statelessMessage encoded) secret
          if !constantTimeEqual sig expected then return none
          match decodePayload encoded with
          | none => return none
          | some parsed =>
              match lookup parsed "n", lookup parsed "p", lookup parsed "e" with
              | some (.str _), some (.str p), some (.num e) =>
                  if p ≠ provider.1 then return none
                  else
                    match e.toSafeInteger with
                    | some e => if e ≤ now then return none else return some e
                    | none => return none
              | _, _, _ => return none

end Cossack.Auth.OAuthState
