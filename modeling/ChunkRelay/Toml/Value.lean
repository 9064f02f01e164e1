/-! TOML values and the rules by which keys and headers fill tables. A table may be named once by a header
and once more through the keys of others, but never extended by a route that has closed it. -/
namespace ChunkRelay
namespace Toml

/-- How a table came to be: written inline, named by its own header, passed through by the header of a
table inside it, or passed through by a dotted key. -/
inductive Origin where
  | inline
  | header
  | passed
  | dotted
  deriving DecidableEq, Repr

/-- `tables` are the elements of an array of tables, the latest first. Of a float or a date nothing is
kept but what it is. -/
inductive Value where
  | string (s : String)
  | integer (n : Int)
  | float
  | boolean (b : Bool)
  | datetime
  | array (items : List Value)
  | table (origin : Origin) (entries : List (String × Value))
  | tables (items : List (List (String × Value)))

abbrev Entries : Type := List (String × Value)

namespace Entries

/-- Gives a key a value, in place of the one it had. -/
def set (k : String) (v : Value) : Entries → Entries
  | [] => [(k, v)]
  | (k', v') :: r => if k' = k then (k, v) :: r else (k', v') :: set k v r

/-- Changes the table at a path with `f`, making the tables on the way that are missing. By a dotted key
no table is reached that has a header. `f` is told whether its table came from a dotted key. -/
def update (byKey : Bool) (f : Bool → Entries → Option Entries) : List String → Bool → Entries → Option Entries
  | [], fromKey, es => f fromKey es
  | k :: path, _, es =>
    match es.lookup k with
    | none =>
      (update byKey f path byKey []).map fun sub => set k (.table (if byKey then .dotted else .passed) sub) es
    | some (.table origin sub) =>
      if origin = .inline ∨ (byKey ∧ origin = .header) then none
      else (update byKey f path (origin = .dotted) sub).map fun sub => set k (.table origin sub) es
    | some (.tables (sub :: earlier)) =>
      (update byKey f path false sub).map fun sub => set k (.tables (sub :: earlier)) es
    | some _ => none

/-- Adds a value under a dotted key. A table that dotted keys made takes further keys only through dotted
keys, and any other table only by its own name. -/
def addPair (path : List String) (key : String) (v : Value) (es : Entries) : Option Entries :=
  update true (fun fromKey es =>
    if fromKey = path.isEmpty then none
    else if (es.lookup key).isSome then none
    else some (es ++ [(key, v)])) path false es

/-- Opens the table that a header names. -/
def openTable (path : List String) (key : String) (es : Entries) : Option Entries :=
  update false (fun _ es =>
    match es.lookup key with
    | none => some (set key (.table .header []) es)
    | some (.table .passed sub) => some (set key (.table .header sub) es)
    | some _ => none) path false es

/-- Opens a further element of the array of tables that a header names. -/
def openElement (path : List String) (key : String) (es : Entries) : Option Entries :=
  update false (fun _ es =>
    match es.lookup key with
    | none => some (set key (.tables [[]]) es)
    | some (.tables l) => some (set key (.tables ([] :: l)) es)
    | some _ => none) path false es

/-- Adds a value to the table that was opened last. -/
def addTo (opened path : List String) (key : String) (v : Value) (es : Entries) : Option Entries :=
  update false (fun _ es => addPair path key v es) opened false es

end Entries
end Toml
end ChunkRelay
