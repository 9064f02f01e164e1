import ChunkRelay.Packet.Policy
import ChunkRelay.Sorted

/-! Declarations of the content that a peer already holds, so that it is not sent again. A peer that
opts out wants nothing at all. -/
namespace ChunkRelay

instance Hash.ltTrans : Trans (α := Hash) (· < ·) (· < ·) (· < ·) := ⟨Hash.lt_trans⟩

abbrev HashSet : Type := SortedMap Hash Unit

structure Declaration where
  optOut : Bool
  hashes : HashSet
  deriving DecidableEq

namespace Declaration

/-- The most hashes that a peer announces in one packet. -/
def defaultCap : Nat := 512

def none : Declaration := ⟨true, .empty⟩

def setOf (l : List Hash) : HashSet := .ofList (l.map (·, ()))

def ofHashes (l : List Hash) : Declaration := ⟨false, setOf l⟩

/-- The set grown by hashes of the list in order until it has `cap` of them. -/
def collect (cap : Nat) (s : HashSet) : List Hash → HashSet
  | [] => s
  | h :: r => if s.entries.length ≥ cap then s else collect cap (s.insert h ()) r

/-- Announces up to `cap` distinct hashes; with nothing to announce a peer opts out. -/
def ofKnown (known : List Hash) (cap : Nat) : Declaration :=
  let s := collect cap .empty known
  if s.isEmpty then none else ⟨false, s⟩

def wants (d : Declaration) (key : Hash) : Bool := !d.optOut && !d.hashes.contains key

/-- What a declaration is built from, one call after another. -/
inductive Call where
  | optOut
  | hash (h : Hash)
  | hashes (l : List Hash)

def apply (d : Declaration) : Call → Declaration
  | .optOut => { d with optOut := true }
  | .hash h => { d with hashes := d.hashes.insert h () }
  | .hashes l => { d with hashes := l.foldl (·.insert · ()) d.hashes }

def build (calls : List Call) : Except PolicyError Declaration :=
  let d := calls.foldl apply ⟨false, .empty⟩
  if d.optOut && !d.hashes.isEmpty then .error .optOutWithHashes else .ok d

def encode (d : Declaration) : Bytes := Record.flag d.optOut ++ Record.hashes d.hashes.keys

/-- A peer that opts out and lists hashes all the same is taken to opt out. -/
def ofRaw (optOut : Bool) (hashes : List Hash) : Declaration := if optOut then none else ofHashes hashes

open Record in
def decoder : Decoder Declaration := do
  let optOut ← Decoder.flag
  let hashes ← Decoder.list Decoder.hash
  return ofRaw optOut hashes

end Declaration
end ChunkRelay
