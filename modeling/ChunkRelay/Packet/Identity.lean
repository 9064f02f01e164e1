import ChunkRelay.Packet.Policy
import ChunkRelay.Sorted

/-! Identities: a name and a map of named keys under one signature. The public key lies under a
reserved name, which only a new identity sets. -/
namespace ChunkRelay

abbrev KeyMap : Type := SortedMap String Bytes

instance stringLtTrans : Trans (α := String) (· < ·) (· < ·) (· < ·) := ⟨String.lt_trans⟩

structure Identity where
  name : String
  keys : KeyMap
  signature : Option Bytes
  deriving DecidableEq

namespace Identity

def reservedKey : String := "scatterbrain"

def new (name : String) (publicKey : Bytes) : Except PacketError Identity :=
  if name = "" then .error (.policy .emptyName)
  else if publicKey.size ≠ publicKeyLength then .error (.key (.publicKeyLength publicKey.size))
  else .ok ⟨name, SortedMap.empty.insert reservedKey publicKey, none⟩

def get? (i : Identity) (key : String) : Option Bytes := i.keys.get? key

def publicKey (i : Identity) : Bytes := (i.get? reservedKey).getD ByteArray.empty

def fingerprint (i : Identity) : String := ChunkRelay.fingerprint i.publicKey

/-- Adds or replaces a key; the value that it had comes with the result. -/
def insert (i : Identity) (key : String) (value : Bytes) : Except PolicyError (Option Bytes × Identity) :=
  if key = reservedKey then .error (.reservedKey key)
  else .ok (i.get? key, { i with keys := i.keys.insert key value })

def remove (i : Identity) (key : String) : Except PolicyError (Option Bytes × Identity) :=
  if key = reservedKey then .error (.reservedKey key)
  else .ok (i.get? key, { i with keys := i.keys.erase key })

/-- What a signature covers: the name, then every key and its value in ascending order. -/
def signedPayload (i : Identity) : Bytes :=
  i.name.toUTF8 ++ Bytes.concat (i.keys.entries.flatMap fun a => [a.1.toUTF8, a.2])

def sign (i : Identity) (secret : Bytes) : Except KeyError Identity :=
  (signWith secret i.signedPayload).map fun sig => { i with signature := some sig }

def verify (i : Identity) (publicKey : Bytes) : Bool :=
  match i.signature with
  | some sig => Ed25519.verify publicKey i.signedPayload sig
  | none => false

/-- One change of a shared identity: a key to set or to remove. -/
inductive Edit where
  | insert (key : String) (value : Bytes)
  | remove (key : String)

def edit (i : Identity) : Edit → Except PolicyError Identity
  | .insert k v => (i.insert k v).map (·.2)
  | .remove k => (i.remove k).map (·.2)

/-- All the edits and a new signature, or nothing. -/
def update (i : Identity) (secret : Bytes) (edits : List Edit) : Except PacketError Identity :=
  match edits.foldlM edit i with
  | .error e => .error (.policy e)
  | .ok j => (j.sign secret).mapError .key

end Identity

/-- A live identity, or the end of a batch of them. -/
inductive IdentityPacket where
  | live (identity : Identity)
  | ended
  deriving DecidableEq

namespace IdentityPacket

def identity? : IdentityPacket → Option Identity
  | .live i => some i
  | .ended => none

def verify (p : IdentityPacket) (publicKey : Bytes) : Bool :=
  match p with
  | .live i => i.verify publicKey
  | .ended => false

def encode : IdentityPacket → Bytes
  | .live i => Bytes.concat ([Record.word 0, Record.text i.name, Record.length i.keys.entries.length] ++
      i.keys.entries.flatMap (fun a => [Record.text a.1, Record.blob a.2]) ++
      [Record.blob (i.signature.getD ByteArray.empty)])
  | .ended => Record.word 1

/-- An identity packet as it stands in its record, with nothing checked. -/
inductive Raw where
  | live (name : String) (keys : List (String × Bytes)) (signature : Bytes)
  | ended

open Record in
def Raw.decoder : Decoder Raw := do
  match ← Decoder.word with
  | 0 =>
    let name ← Decoder.text
    let keys ← Decoder.list (Decoder.pair Decoder.text Decoder.blob)
    let signature ← Decoder.blob
    return .live name keys signature
  | 1 => return .ended
  | n => Decoder.fail (.variant n 2)

def ofRaw : Raw → Except PacketError IdentityPacket
  | .ended => .ok .ended
  | .live name keys signature =>
    let keys : KeyMap := .ofList keys
    if name = "" then .error (.policy .emptyName)
    else match keys.get? Identity.reservedKey with
      | none => .error (.key .missingPublicKey)
      | some k =>
        if k.size ≠ publicKeyLength then .error (.key (.publicKeyLength k.size))
        else .ok (.live ⟨name, keys, if signature.size = 0 then none else some signature⟩)

end IdentityPacket
end ChunkRelay
