import ChunkRelay.Disk
import ChunkRelay.Keys
import ChunkRelay.Packet.Identity
import ChunkRelay.Text.JsonObject

/-! Secret keys by fingerprint, in memory or in a file. The file is one JSON object; every change writes
it anew beside its place and moves it there, readable by its owner alone. -/
namespace ChunkRelay

class KeyRing (κ : Type) where
  /-- Keeps a secret in base64 under a fingerprint. -/
  put : String → String → κ → Except KeyError Unit × κ
  get? : String → κ → Except KeyError (Option String)

namespace KeyRing

variable {κ : Type} [KeyRing κ]

def secretKey (fp : String) (r : κ) : Except KeyError Bytes :=
  match get? fp r with
  | .error e => .error e
  | .ok none => .error (.missingPrivateKey fp)
  | .ok (some text) => decodeSecret text

end KeyRing

/-- The fingerprints and secrets of a key ring. -/
abbrev SecretMap : Type := SortedMap String String

structure MemoryKeyRing where
  secrets : SecretMap

namespace MemoryKeyRing

def empty : MemoryKeyRing := ⟨.empty⟩

def size (r : MemoryKeyRing) : Nat := r.secrets.entries.length

instance : KeyRing MemoryKeyRing where
  put fp text r := (.ok (), ⟨r.secrets.insert fp text⟩)
  get? fp r := .ok (r.secrets.get? fp)

end MemoryKeyRing

structure FileKeyRing where
  disk : Disk
  path : String

namespace FileKeyRing

/-- Permissions of a key file: its owner may read and write it, no one else anything. -/
def mode : Nat := 0o600

def failure (what : String) (e : IoError) : KeyError := .store (what ++ ": " ++ e.message)

/-- What the file holds. A file that is not there holds nothing. -/
def secrets (r : FileKeyRing) : Except KeyError SecretMap :=
  match r.disk.readText r.path with
  | .error .notFound => .ok .empty
  | .error e => .error (failure s!"failed to read key file: {r.path}" e)
  | .ok text =>
    match JsonObject.read? text with
    | some l => .ok (.ofList l)
    | none => .error (.store s!"failed to parse key file: {r.path}")

/-- Makes the directory that the file is to lie in. -/
def makeParent (r : FileKeyRing) : Except KeyError Unit × FileKeyRing :=
  match Path.parent? r.path with
  | none => (.ok (), r)
  | some parent =>
    if parent = "" then (.ok (), r)
    else
      let (result, d) := r.disk.makeDirectories parent
      (result.mapError (failure s!"failed to create key dir: {parent}"), { r with disk := d })

def save (r : FileKeyRing) (m : SecretMap) : Except KeyError Unit × FileKeyRing :=
  match r.makeParent with
  | (.error e, r) => (.error e, r)
  | (.ok (), r) =>
    let beside := Path.withExtension r.path "tmp"
    match r.disk.create beside with
    | .error e => (.error (failure s!"failed to create temp file: {beside}" e), r)
    | .ok (place, d) =>
      let d := (d.setMode place mode).append place (JsonObject.write m.entries).toUTF8
      match d.rename beside r.path with
      | .error e => (.error (failure s!"failed to rename {beside} to {r.path}" e), { r with disk := d })
      | .ok d => (.ok (), { r with disk := d })

def fingerprints (r : FileKeyRing) : Except KeyError (List String) := r.secrets.map (·.keys)

instance : KeyRing FileKeyRing where
  put fp text r :=
    match r.secrets with
    | .error e => (.error e, r)
    | .ok m => r.save (m.insert fp text)
  get? fp r := r.secrets.map (·.get? fp)

end FileKeyRing

/-- A new identity, signed, whose secret is kept in a key ring. The seed must be one that no one can
guess. -/
def Identity.generate {κ : Type} [KeyRing κ] (name : String) (seed : Bytes) (r : κ) :
    Except PacketError Identity × κ :=
  match Keypair.ofSecret seed with
  | .error e => (.error (.key e), r)
  | .ok pair =>
    match Identity.new name pair.publicKey with
    | .error e => (.error e, r)
    | .ok identity =>
      match KeyRing.put (ChunkRelay.fingerprint pair.publicKey) (Base64.encode pair.secret) r with
      | (.error e, r) => (.error (.key e), r)
      | (.ok (), r) => ((identity.sign pair.secret).mapError .key, r)

end ChunkRelay
