import SyntaxForest.Editor

/-!
# Edits as data

The edits of a forest, their answers, and sequences of them. The forests that occur are those that
some sequence of edits makes out of the forest without nodes.
-/

namespace SyntaxForest

/-- An edit of a forest. -/
inductive Edit where
  | insert (node : Node)
  | fill (parent : NodeId) (property : Property) (child : Option NodeId)
  | append (parent : NodeId) (property : Property) (child : Option NodeId)
  | detach (id : NodeId)
  | substitute (parent old new : NodeId)
  | resolve (id : NodeId) (index : Nat)
  | prune (id : NodeId)

/-- The answer of an edit. -/
inductive Answer where
  /-- The edit has nothing to tell. -/
  | done
  /-- The node the edit made or kept. -/
  | node (id : NodeId)
  /-- The node that was replaced or left behind, if any. -/
  | former (id : Option NodeId)
  /-- How many nodes the edit dropped. -/
  | count (n : Nat)
  deriving DecidableEq, Repr

namespace Answer

/-- The written form of an answer. -/
def toJson : Answer → Json
  | done => .null
  | node id => .ofId id
  | former id => .ofOption .ofId id
  | count n => .ofNat n

end Answer

namespace Outcome

/-- The outcome with its answer in another form. -/
def map {α β : Type} (form : α → β) (o : Outcome α) : Outcome β := (o.1.map form, o.2)

end Outcome

namespace Editor

/-- Makes an edit. -/
def perform (e : Editor) : Edit → Outcome Answer
  | .insert n => Outcome.map .node (e.insert n)
  | .fill parent p child => Outcome.map .former (e.fill parent p child)
  | .append parent p child => Outcome.map (fun _ => .done) (e.append parent p child)
  | .detach id => Outcome.map .former (e.detach id)
  | .substitute parent old new => Outcome.map (fun _ => .done) (e.substitute parent old new)
  | .resolve id index => Outcome.map .node (e.resolve id index)
  | .prune id => Outcome.map .count (e.prune id)

/-- Makes one edit after the other, whether or not they succeed. -/
def run (e : Editor) (edits : List Edit) : Editor :=
  edits.foldl (fun e edit => (e.perform edit).2) e

end Editor

end SyntaxForest
