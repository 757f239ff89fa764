import ApiSurface.Json
import ApiSurface.Table
/-!
Records written as JSON: an object that gives each field by its name, or an array that gives them
in order. Other keys of an object are passed over. A record that may have several forms names its
form in the field `kind`.
-/
namespace ApiSurface.Json

/-- The values that are given for the fields of a record. -/
structure Record where
  given : List (String × Json)
  /-- They were given in order. -/
  inOrder : Bool

/-- Reads a record with known fields. A field given twice spoils it, as do items without a field. -/
def record? (fields : List String) : Json → Option Record
  | obj all =>
    let given := all.filter (fields.contains ·.1)
    if (given.map (·.1)).Nodup then some ⟨given, false⟩ else none
  | arr items => if items.length ≤ fields.length then some ⟨fields.zip items, true⟩ else none
  | _ => none

namespace Record

/-- A field that must be given. -/
def required {α : Type} (r : Record) (field : String) (read : Json → Option α) : Option α :=
  (r.given.lookup field).bind read

/-- A field with a value to take when it is missing. -/
def withDefault {α : Type} (r : Record) (field : String) (read : Json → Option α) (value : α) :
    Option α :=
  match r.given.lookup field with
  | none => some value
  | some v => read v

/-- A field that may be missing or `null`. -/
def optional {α : Type} (r : Record) (field : String) (read : Json → Option α) :
    Option (Option α) :=
  match r.given.lookup field with
  | none | some .null => some none
  | some v => (read v).map some

/-- A field that may be `null`, and that only an object may leave out. -/
def nullable {α : Type} (r : Record) (field : String) (read : Json → Option α) :
    Option (Option α) :=
  if r.inOrder && (r.given.lookup field).isNone then none else r.optional field read

end Record

/-- Reads a list. -/
def listOf? {α : Type} (read : Json → Option α) : Json → Option (List α)
  | arr items => items.mapM read
  | _ => none

/-- Reads an object as a table. A key that comes again takes its new value. -/
def table? {α : Type} (read : Json → Option α) (v : Json) : Option (Table String α) := do
  let entries ← (← v.obj?).mapM fun f => (f.1, ·) <$> read f.2
  return entries.foldl (fun t e => Table.insert t e.1 e.2) []

/-- The name of a form and the record without it. -/
def form? : Json → Option (Json × Json)
  | obj fields =>
    match fields.filter (·.1 == "kind") with
    | [(_, kind)] => some (kind, obj (fields.filter (·.1 != "kind")))
    | _ => none
  | arr (kind :: items) => some (kind, arr items)
  | _ => none

/-- One of some words, by itself or as the only key of an object that holds nothing. -/
def word? : Json → Option String
  | str s => some s
  | obj [(key, null)] | obj [(key, obj [])] => some key
  | _ => none

/-- One of some words or its place among them. -/
def wordOrPlace? (words : List String) : Json → Option String
  | str s => some s
  | num text => text.toNat?.bind (words[·]?)
  | _ => none

mutual

/-- How deep a value nests arrays and objects. -/
def depth : Json → Nat
  | arr items => depthAll items + 1
  | obj fields => depthFields fields + 1
  | _ => 0

/-- How deep the deepest of some values nests. -/
def depthAll : List Json → Nat
  | [] => 0
  | v :: vs => max v.depth (depthAll vs)

/-- How deep the deepest of some fields nests. -/
def depthFields : List (String × Json) → Nat
  | [] => 0
  | (_, v) :: fields => max v.depth (depthFields fields)

end

mutual

/-- A value that can be kept: all its text is whole, and its numbers satisfy `good`. -/
def isWhole (good : String → Bool) : Json → Bool
  | num text => good text
  | arr items => areWhole good items
  | obj fields => haveWhole good fields
  | unpaired => false
  | _ => true

/-- Values that can be kept. -/
def areWhole (good : String → Bool) : List Json → Bool
  | [] => true
  | v :: vs => v.isWhole good && areWhole good vs

/-- Fields that can be kept. -/
def haveWhole (good : String → Bool) : List (String × Json) → Bool
  | [] => true
  | (_, v) :: fields => v.isWhole good && haveWhole good fields

end

end ApiSurface.Json
