import Reshard.Json.Reader
import Reshard.Plan

/-!
How keys, ranges, scopes, moves, plans and requests are exchanged as JSON. Numbers are
64-bit words. The keys of a scope are a set again after reading; those of a request keep
their order and their repeats, and the moves of a plan are taken as they are.
-/

namespace Reshard

def wordOfJson? (j : Json) : Option Nat :=
  j.natural?.filter (· < Word.limit)

namespace Key

def toJson (k : Key) : Json := .record [("table", .ofString k.table), ("id", .natural k.id)]

def ofJson? (j : Json) : Option Key :=
  match j.fields? ["table", "id"] with
  | some [table, id] => do return ⟨← table.string?, ← wordOfJson? id⟩
  | _ => none

end Key

namespace IdRange

def toJson (r : IdRange) : Json := .record [("start", .natural r.first), ("end", .natural r.last)]

def ofJson? (j : Json) : Option IdRange :=
  match j.fields? ["start", "end"] with
  | some [first, last] => do return ⟨← wordOfJson? first, ← wordOfJson? last⟩
  | _ => none

end IdRange

def keysToJson (ks : List Key) : Json := .array (ks.map Key.toJson)

def keysOfJson? (j : Json) : Option (List Key) := do (← j.array?).mapM Key.ofJson?

namespace Scope

def toJson : Scope → Json
  | keys members => .record [("Keys", keysToJson members.toList)]
  | range ids => .record [("Range", ids.toJson)]

def ofJson? (j : Json) : Option Scope :=
  match j.variant? with
  | some ("Keys", value) => (keysOfJson? value).map fun ks => keys (Std.ExtTreeSet.ofList ks)
  | some ("Range", value) => (IdRange.ofJson? value).map range
  | _ => none

end Scope

namespace Move

def toJson (m : Move) : Json :=
  .record [("source", .natural m.source), ("dest", .natural m.dest), ("scope", m.scope.toJson)]

def ofJson? (j : Json) : Option Move :=
  match j.fields? ["source", "dest", "scope"] with
  | some [source, dest, scope] => do
    return ⟨← wordOfJson? source, ← wordOfJson? dest, ← Scope.ofJson? scope⟩
  | _ => none

end Move

namespace Plan

def toJson (p : Plan) : Json := .record [("units", .array (p.moves.map Move.toJson))]

def ofJson? (j : Json) : Option Plan :=
  match j.fields? ["units"] with
  | some [moves] => do return ⟨← (← moves.array?).mapM Move.ofJson?⟩
  | _ => none

end Plan

namespace Payload

def toJson : Payload → Json
  | keys list => .record [("Keys", keysToJson list)]
  | range ids => .record [("Range", ids.toJson)]

def ofJson? (j : Json) : Option Payload :=
  match j.variant? with
  | some ("Keys", value) => (keysOfJson? value).map keys
  | some ("Range", value) => (IdRange.ofJson? value).map range
  | _ => none

end Payload

namespace Request

def toJson (r : Request) : Json :=
  .record [("source", .natural r.source), ("dest", .natural r.dest),
    ("payload", r.payload.toJson)]

def ofJson? (j : Json) : Option Request :=
  match j.fields? ["source", "dest", "payload"] with
  | some [source, dest, payload] => do
    return ⟨← wordOfJson? source, ← wordOfJson? dest, ← Payload.ofJson? payload⟩
  | _ => none

end Request

end Reshard
