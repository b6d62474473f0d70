import SyntaxForest.Slot
import SyntaxForest.Vocabulary

/-!
# JSON values

The values in which nodes, locations and settings are written down. A number written as an
integer is kept apart from every other number, because identifiers and positions must be written
as integers.

The readers follow three rules. A member of a vocabulary is its name, or an object whose only key
is that name and whose value is null (`Json.member?`). A record is an object, in which keys that
the record does not know are ignored, or the array of its values in field order (`Json.record?`).
A record whose fields all have defaults may leave values out (`Json.partialRecord?`).
-/

namespace SyntaxForest

/-- A JSON value. -/
inductive Json where
  | null
  | bool (value : Bool)
  | int (value : Int)
  /-- A number that is not written as an integer. -/
  | decimal (text : String)
  | str (value : String)
  | arr (items : List Json)
  | obj (fields : List (String × Json))

namespace Json

/-! ### Writing -/

/-- A 32-bit word as an integer. -/
def ofWord (w : UInt32) : Json := int w.toNat

/-- A count as an integer. -/
def ofNat (n : Nat) : Json := int n

/-- An identifier as an integer. -/
def ofId (id : NodeId) : Json := ofWord id.raw

/-- Identifiers as an array. -/
def ofIds (ids : List NodeId) : Json := arr (ids.map ofId)

/-- A value that may be absent; absence is null. -/
def ofOption {α : Type} (write : α → Json) : Option α → Json
  | none => null
  | some a => write a

/-- A member of a vocabulary as its name. -/
def ofMember {α : Type} [Vocabulary α] (a : α) : Json := str (Vocabulary.name a)

/-! ### Reading -/

/-- A boolean. -/
def bool? : Json → Option Bool
  | bool b => some b
  | _ => none

/-- A string. -/
def str? : Json → Option String
  | str s => some s
  | _ => none

/-- An array. -/
def arr? : Json → Option (List Json)
  | arr items => some items
  | _ => none

/-- A natural number below a bound, written as an integer. -/
def natBelow? (bound : Nat) : Json → Option Nat
  | int (.ofNat n) => if n < bound then some n else none
  | _ => none

/-- A 32-bit word, written as an integer. -/
def word? (j : Json) : Option UInt32 :=
  (j.natBelow? UInt32.size).map UInt32.ofNat

/-- An identifier. -/
def id? (j : Json) : Option NodeId :=
  j.word?.map NodeId.mk

/-- An array whose items are read one by one. -/
def items? {α : Type} (read : Json → Option α) (j : Json) : Option (List α) :=
  j.arr?.bind fun items => items.mapM read

/-- An array of identifiers. -/
def ids? (j : Json) : Option (List NodeId) := j.items? id?

/-- A value that may be absent; null is absence. -/
def optional? {α : Type} (read : Json → Option α) : Json → Option (Option α)
  | null => some none
  | j => (read j).map some

/-- A member of a vocabulary. -/
def member? {α : Type} [Vocabulary α] : Json → Option α
  | str s => Vocabulary.ofName? s
  | obj [(s, null)] => Vocabulary.ofName? s
  | _ => none

/-- The fields of a record whose fields are all required. -/
def record? (names : List String) : Json → Option (List (String × Json))
  | obj fields => some fields
  | arr items => if items.length = names.length then some (names.zip items) else none
  | _ => none

/-- The fields of a record that may leave out any of them. -/
def partialRecord? (names : List String) : Json → Option (List (String × Json))
  | obj fields => some fields
  | arr items => if items.length ≤ names.length then some (names.zip items) else none
  | _ => none

/-- A required field, read. -/
def required? {α : Type} (fields : List (String × Json)) (name : String)
    (read : Json → Option α) : Option α :=
  (fields.lookup name).bind read

/-- A field that takes a default when it is left out, read. -/
def defaulted? {α : Type} (fields : List (String × Json)) (name : String) (fallback : α)
    (read : Json → Option α) : Option α :=
  match fields.lookup name with
  | none => some fallback
  | some j => read j

/-! ### Reading back -/

@[simp] theorem word?_ofWord (w : UInt32) : (ofWord w).word? = some w := by
  have h : w.toNat < UInt32.size := w.toNat_lt
  simp [ofWord, word?, natBelow?, h]

@[simp] theorem id?_ofId (id : NodeId) : (ofId id).id? = some id := by
  simp [ofId, id?]

@[simp] theorem ids?_ofIds (ids : List NodeId) : (ofIds ids).ids? = some ids := by
  induction ids with
  | nil => rfl
  | cons id ids ih =>
    simp only [ofIds, ids?, items?, arr?, Option.bind_some, List.map_cons, List.mapM_cons,
      id?_ofId] at ih ⊢
    simp [ih]

@[simp] theorem member?_ofMember {α : Type} [Vocabulary α] (a : α) :
    (ofMember a).member? = some a := by
  simp [ofMember, member?]

end Json

end SyntaxForest
