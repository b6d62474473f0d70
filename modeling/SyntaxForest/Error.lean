import SyntaxForest.Kind

/-!
# Errors

The reasons for which an edit of a forest is refused, and how they are reported.
-/

namespace SyntaxForest

/-- Why an edit is refused. -/
inductive Error where
  /-- The forest has no node with this identifier. -/
  | unknownNode (id : NodeId)
  /-- Nodes of this kind have no slot of this property. -/
  | noSuchSlot (kind : Kind) (property : Property)
  /-- The edit wants a slot of the other shape. -/
  | shapeMismatch (kind : Kind) (property : Property) (shape : Shape)
  /-- The node is not of the category that the slot accepts. -/
  | categoryMismatch (id : NodeId) (property : Property) (expected found : Category)
  /-- The node has a parent and may not be taken from it. -/
  | alreadyAttached (id parent : NodeId)
  /-- A new node lists the same child twice. -/
  | duplicateChild (id : NodeId)
  /-- The child is the parent itself or one of its ancestors. -/
  | cycle (parent child : NodeId)
  /-- The parent does not hold the child. -/
  | notAChild (parent child : NodeId)
  /-- Only ambiguities are resolved. -/
  | notAnAmbiguity (id : NodeId) (kind : Kind)
  /-- An ambiguity would be left with fewer than two alternatives. -/
  | degenerateAmbiguity (count : Nat)
  /-- The ambiguity has no alternative with this index. -/
  | alternativeOutOfRange (id : NodeId) (index count : Nat)
  /-- The ambiguity is still there. -/
  | unresolvedAmbiguity (id : NodeId)
  deriving DecidableEq, Repr

namespace Error

/-- The report of an error. -/
def message : Error → String
  | unknownNode id => "node " ++ id.label ++ " does not exist in the arena"
  | noSuchSlot kind property => Vocabulary.name kind ++ " has no slot `" ++ property.label ++ "`"
  | shapeMismatch kind property shape =>
    "slot `" ++ property.label ++ "` of " ++ Vocabulary.name kind ++ " is a " ++ shape.label ++
      " slot"
  | categoryMismatch id property expected found =>
    "slot `" ++ property.label ++ "` accepts a " ++ expected.phrase ++ ", found a " ++
      found.phrase ++ " (node " ++ id.label ++ ")"
  | alreadyAttached id parent =>
    "node " ++ id.label ++ " is already attached to node " ++ parent.label
  | duplicateChild id =>
    "node " ++ id.label ++ " is listed more than once among the children of a new node"
  | cycle parent child =>
    "attaching node " ++ child.label ++ " below node " ++ parent.label ++ " would create a cycle"
  | notAChild parent child =>
    "node " ++ child.label ++ " is not a child of node " ++ parent.label
  | notAnAmbiguity id kind =>
    "node " ++ id.label ++ " is a " ++ Vocabulary.name kind ++ ", not an ambiguity"
  | degenerateAmbiguity count =>
    "an ambiguity needs at least 2 alternatives, got " ++ toString count
  | alternativeOutOfRange id index count =>
    "ambiguity " ++ id.label ++ " has no alternative " ++ toString index ++ " (it has " ++
      toString count ++ ")"
  | unresolvedAmbiguity id => "ambiguity " ++ id.label ++ " was never resolved"

end Error

end SyntaxForest
