import ChunkRelay.Hash
import ChunkRelay.Ed25519.Signature
import ChunkRelay.Text.Base64

/-! Signing keys. A secret is a seed of 32 bytes, or the seed followed by the public key that it gives;
a public key is known by its fingerprint. -/
namespace ChunkRelay

inductive KeyError where
  | secretKeyLength (size : Nat)
  | malformedSecretKey
  | publicKeyLength (size : Nat)
  | missingPublicKey
  | missingPrivateKey (fingerprint : String)
  | encoding
  | store (cause : String)
  deriving DecidableEq, Repr

def KeyError.message : KeyError → String
  | .secretKeyLength n => s!"secret key must be 32 or 64 bytes, got {n}"
  | .malformedSecretKey => "secret key does not match its embedded public key"
  | .publicKeyLength n => s!"public key must be 32 bytes, got {n}"
  | .missingPublicKey => "identity has no public key under the reserved key name"
  | .missingPrivateKey fp => s!"no private key stored for {fp}"
  | .encoding => "invalid base64 key encoding"
  | .store cause => s!"key store failure: {cause}"

/-- What kind of failure it is, in one word. -/
def KeyError.name : KeyError → String
  | .secretKeyLength _ => "SecretKeyLength"
  | .malformedSecretKey => "MalformedSecretKey"
  | .publicKeyLength _ => "PublicKeyLength"
  | .missingPublicKey => "MissingPublicKey"
  | .missingPrivateKey _ => "MissingPrivateKey"
  | .encoding => "Encoding"
  | .store _ => "Store"

def publicKeyLength : Nat := 32
def seedLength : Nat := 32
def secretKeyLength : Nat := 64
def signatureLength : Nat := 64

def fingerprint (publicKey : Bytes) : String := Base64.encode (Hash.of publicKey).bytes

def decodeSecret (text : String) : Except KeyError Bytes :=
  match Base64.decode? text with
  | some b => .ok b
  | none => .error .encoding

structure Keypair where
  seed : Bytes

namespace Keypair

def ofSecret (secret : Bytes) : Except KeyError Keypair :=
  if secret.size = seedLength then .ok ⟨secret⟩
  else if secret.size = secretKeyLength then
    let seed := secret.slice 0 32
    if Ed25519.publicKey seed = secret.slice 32 32 then .ok ⟨seed⟩ else .error .malformedSecretKey
  else .error (.secretKeyLength secret.size)

def publicKey (k : Keypair) : Bytes := Ed25519.publicKey k.seed

def secret (k : Keypair) : Bytes := k.seed ++ k.publicKey

def sign (k : Keypair) (message : Bytes) : Bytes := Ed25519.sign k.seed message

@[simp] theorem size_publicKey (k : Keypair) : k.publicKey.size = 32 := Ed25519.size_publicKey k.seed

@[simp] theorem size_sign (k : Keypair) (m : Bytes) : (k.sign m).size = 64 := Ed25519.size_sign k.seed m

end Keypair

def signWith (secret message : Bytes) : Except KeyError Bytes :=
  (Keypair.ofSecret secret).map (·.sign message)

end ChunkRelay
