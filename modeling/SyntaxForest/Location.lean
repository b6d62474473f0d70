import SyntaxForest.Json

/-!
# Locations

The stretch of source text that a node covers.
-/

namespace SyntaxForest

/-- A stretch of source text: its offsets, its lines and columns, and the text itself. -/
structure Location where
  offsetStart : UInt32
  offsetEnd : UInt32
  startLine : UInt32
  startColumn : UInt32
  endLine : UInt32
  endColumn : UInt32
  source : String
  deriving DecidableEq, Repr

namespace Location

/-- A location that records only the text it covers. -/
def ofSource (source : String) : Location := ⟨0, 0, 0, 0, 0, 0, source⟩

/-- The location of a node whose place in the text is not known. -/
def unknown : Location := ofSource ""

instance : Inhabited Location := ⟨unknown⟩

/-- The line and the column at which the location starts. -/
def label (l : Location) : String :=
  toString l.startLine.toNat ++ ":" ++ toString l.startColumn.toNat

/-! ### Written form -/

/-- The fields of a written location, in order. -/
def fieldNames : List String :=
  ["offset_start", "offset_end", "start_line", "start_column", "end_line", "end_column", "source"]

/-- The fields of a location with their values. -/
def fields (l : Location) : List (String × Json) :=
  [("offset_start", .ofWord l.offsetStart), ("offset_end", .ofWord l.offsetEnd),
    ("start_line", .ofWord l.startLine), ("start_column", .ofWord l.startColumn),
    ("end_line", .ofWord l.endLine), ("end_column", .ofWord l.endColumn),
    ("source", .str l.source)]

/-- A location as a record. -/
def toJson (l : Location) : Json := .obj l.fields

/-- A location from the values of its fields. -/
def ofFields? (fields : List (String × Json)) : Option Location := do
  let offsetStart ← Json.required? fields "offset_start" Json.word?
  let offsetEnd ← Json.required? fields "offset_end" Json.word?
  let startLine ← Json.required? fields "start_line" Json.word?
  let startColumn ← Json.required? fields "start_column" Json.word?
  let endLine ← Json.required? fields "end_line" Json.word?
  let endColumn ← Json.required? fields "end_column" Json.word?
  let source ← Json.required? fields "source" Json.str?
  return ⟨offsetStart, offsetEnd, startLine, startColumn, endLine, endColumn, source⟩

/-- A location from a record. -/
def ofJson? (j : Json) : Option Location :=
  (j.record? fieldNames).bind ofFields?

end Location

end SyntaxForest
