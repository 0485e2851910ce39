import Cossack.Lib.TextEncoder

/-! # Message authentication codes

    A keyed code of 32 bytes, and what it means that nobody else makes one. -/

namespace Macs

/-- A code as Web Crypto has it: the bytes of a secret give a key or are refused, and
the secrets that give one key cannot be told apart. -/
structure Mac where
  Key : Type
  importKey : List UInt8 → Option Key
  sign : Key → List UInt8 → List UInt8
  length_sign : ∀ key message, (sign key message).length = 32

/-- The key of a secret given as a string. -/
def Mac.keyOf (mac : Mac) (secret : List Nat) : Option mac.Key := mac.importKey (TextEncoder.encode secret)

/-- A signature that somebody presents for a message is no forgery: if it is right, the
holder of the key has signed that message. -/
def Mac.Unforged (mac : Mac) (signed : mac.Key → List UInt8 → Prop) (key : mac.Key)
    (message signature : List UInt8) : Prop :=
  mac.sign key message = signature → signed key message

end Macs
