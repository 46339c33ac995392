import Sluice.Digest.Sha256

/-!
Keyed digests: HMAC over SHA-256. A key longer than a block is replaced by its digest and a shorter
one is filled with zeros.
-/

namespace Sluice.Hmac

/-- The key as one block of 64 bytes. -/
def blockKey (key : List UInt8) : List UInt8 :=
  let k := if key.length > 64 then Sha256.digest key else key
  k ++ List.replicate (64 - k.length) 0

/-- The digest of a message under a key. -/
def digest (key message : List UInt8) : List UInt8 :=
  let k := blockKey key
  let inner := Sha256.digest (k.map (· ^^^ 0x36) ++ message)
  Sha256.digest (k.map (· ^^^ 0x5c) ++ inner)

end Sluice.Hmac
