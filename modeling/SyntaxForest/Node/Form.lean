import SyntaxForest.Node

/-!
# Written form of nodes

A node is written as an object whose only key is the kind and whose value is a record: the
identifier, the location, the plain data, and the slots in traversal order. A single slot is an
identifier or null and may be left out of the record when it is empty; a list slot is an array of
identifiers. `Node.ofJson?` reads every record that has these fields, in any order and among any
others, and also the array of their values.
-/

namespace SyntaxForest

namespace Slot

/-- The contents of a slot: an identifier or null, or an array of identifiers. -/
def toJson : Slot → Json
  | single occupant => .ofOption .ofId occupant
  | list children => .ofIds children

/-- The contents of a slot of a given shape. -/
def ofJson? : Shape → Json → Option Slot
  | .single, j => (j.optional? Json.id?).map single
  | .list, j => j.ids?.map list

/-- The contents of a slot of a given shape from a field; a single slot may be left out. -/
def ofField? (shape : Shape) (fields : List (String × Json)) (name : String) : Option Slot :=
  match shape, fields.lookup name with
  | .single, none => some (single none)
  | .list, none => none
  | shape, some j => ofJson? shape j

@[simp] theorem ofJson?_toJson (s : Slot) : ofJson? s.shape s.toJson = some s := by
  cases s with
  | single occupant =>
    cases occupant with
    | none => rfl
    | some id =>
      change ((Json.ofId id).id?.map some).map single = _
      simp
  | list children => simp [toJson, shape, ofJson?]

end Slot

namespace Node

/-- The fields of a written node of a given kind, in order. -/
def fieldNames (k : Kind) : List String :=
  "id" :: "location" :: (Content.fieldNames k ++ k.table.map SlotRow.field)

/-- The fields of a node with their values. -/
def fields (n : Node) : List (String × Json) :=
  ("id", .ofId n.id) :: ("location", n.location.toJson) ::
    (n.content.fields ++ n.stored.map fun e => (e.1, e.2.toJson))

/-- The record of a node, without its kind. -/
def record (n : Node) : Json := .obj n.fields

/-- The written form of a node. -/
def toJson (n : Node) : Json := .obj [(Vocabulary.name n.kind, n.record)]

/-- A node of a given kind from the values of its fields. -/
def ofFields? (k : Kind) (fields : List (String × Json)) : Option Node := do
  let id ← Json.required? fields "id" Json.id?
  let location ← Json.required? fields "location" Location.ofJson?
  let content ← Content.ofFields? k fields
  let slots ← k.table.mapM fun row =>
    (Slot.ofField? row.shape fields row.field).map fun s => (row.property, s)
  ofSlots? id location content slots

/-- A node from its written form. -/
def ofJson? : Json → Option Node
  | .obj [(name, body)] => do
    let k ← Vocabulary.ofName? name
    let fields ← body.record? (fieldNames k)
    ofFields? k fields
  | _ => none

end Node

end SyntaxForest
