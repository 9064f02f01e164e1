import ChunkRelay.Ed25519.Curve
import ChunkRelay.Digest.Sha512

/-! Ed25519 signatures: a secret seed of 32 bytes, its public key, and signatures of 64 bytes. A
signature verifies when its first half is the encoding of the point that its second half yields; the
equation is not multiplied by the cofactor. -/
namespace ChunkRelay
namespace Ed25519

/-- The low half of the seed's hash with its low three bits and its top bit cleared and the bit below
the top set. -/
def secretScalar (seed : Bytes) : Nat :=
  let v := ((Sha512.hash seed).slice 0 32).toNatLE
  v % Nat.pow 2 254 / 8 * 8 + Nat.pow 2 254

def publicKey (seed : Bytes) : Bytes := (Point.base.mul (secretScalar seed)).encode

/-- The hash of the parts as a number modulo the order of the base point. -/
def challenge (parts : List Bytes) : Nat := (Sha512.hash (Bytes.concat parts)).toNatLE % order

def sign (seed message : Bytes) : Bytes :=
  let a := secretScalar seed
  let nonce := challenge [(Sha512.hash seed).slice 32 32, message]
  let r := (Point.base.mul nonce).encode
  let k := challenge [r, publicKey seed, message]
  r ++ Bytes.ofNatLE 32 ((nonce + k * a) % order)

def verify (key message signature : Bytes) : Bool :=
  if key.size = 32 ∧ signature.size = 64 then
    match Point.decode? key with
    | none => false
    | some a =>
      let r := signature.slice 0 32
      let s := (signature.slice 32 32).toNatLE
      if s < order then
        let k := challenge [r, key, message]
        decide (((Point.base.mul s).add (a.neg.mul k)).encode = r)
      else false
  else false

def isKey (key : Bytes) : Bool := key.size = 32 && (Point.decode? key).isSome

theorem size_publicKey (seed : Bytes) : (publicKey seed).size = 32 := by
  simp [publicKey, Point.encode, Bytes.size_ofNatLE]

theorem size_sign (seed message : Bytes) : (sign seed message).size = 64 := by
  simp [sign, Point.encode, Bytes.size_ofNatLE]

end Ed25519
end ChunkRelay
