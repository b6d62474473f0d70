import SyntaxForest.Json
import SyntaxForest.Kind

/-!
# Events

What an editor reports about the edits it makes.
-/

namespace SyntaxForest

/-- How much attention an event asks for. -/
inductive Level where
  | trace
  | debug
  | warn
  deriving DecidableEq, Repr

namespace Level

instance : Vocabulary Level where
  members := [trace, debug, warn]
  name
    | trace => "TRACE"
    | debug => "DEBUG"
    | warn => "WARN"
  mem_members a := by cases a <;> decide
  nodup_names := by decide

end Level

/-- Something an editor did. -/
inductive Event where
  /-- A new node came into the forest. -/
  | added (id : NodeId) (kind : Kind)
  /-- A node came under a parent. -/
  | attached (child parent : NodeId) (property : Property)
  /-- A node was taken from its parent. -/
  | detached (child parent : NodeId) (property : Property)
  /-- A node lost its slot to another one, or to none. -/
  | displaced (parent : NodeId) (property : Property) (child : NodeId)
  /-- A node lost its place to the one that is named as new. -/
  | replaced (parent old new : NodeId) (property : Property)
  /-- An ambiguity gave way to one of its alternatives, and so many nodes were dropped. -/
  | resolved (ambiguity winner : NodeId) (reclaimed : Nat)
  /-- A node was to be replaced under a parent that does not hold it. -/
  | overlooked (parent old : NodeId)
  deriving DecidableEq, Repr

namespace Event

/-- The level of an event. -/
def level : Event → Level
  | added .. | attached .. | detached .. | displaced .. => .trace
  | replaced .. | resolved .. => .debug
  | overlooked .. => .warn

/-- The message of an event. -/
def message : Event → String
  | added .. => "added node"
  | attached .. => "attached node"
  | detached .. => "detached node"
  | displaced .. => "displaced slot occupant"
  | replaced .. => "replaced child"
  | resolved .. => "resolved ambiguity"
  | overlooked .. => "replace target is not a child, ignoring"

/-- The details of an event. -/
def fields : Event → List (String × Json)
  | added id kind => [("id", .str id.label), ("kind", .ofMember kind)]
  | attached child parent property =>
    [("child", .str child.label), ("parent", .str parent.label), ("property", .str property.label)]
  | detached child parent property =>
    [("child", .str child.label), ("parent", .str parent.label), ("property", .str property.label)]
  | displaced parent property child =>
    [("parent", .str parent.label), ("property", .str property.label),
      ("displaced", .str child.label)]
  | replaced parent old new property =>
    [("parent", .str parent.label), ("old", .str old.label), ("new", .str new.label),
      ("property", .str property.label)]
  | resolved ambiguity winner reclaimed =>
    [("ambiguity", .str ambiguity.label), ("winner", .str winner.label),
      ("reclaimed", .ofNat reclaimed)]
  | overlooked parent old => [("parent", .str parent.label), ("old", .str old.label)]

end Event

end SyntaxForest
