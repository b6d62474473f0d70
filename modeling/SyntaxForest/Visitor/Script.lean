import SyntaxForest.Visitor

/-!
# Scripted visitors

A scripted visitor gives verdicts that depend on the node alone, may change its interest at a
node, and keeps a record of the calls made to it. A silent visitor lets everything pass and only
counts how often it was asked for its interest.
-/

namespace SyntaxForest

/-- A call made to a visitor. -/
inductive Call where
  | visit (id : NodeId)
  | leave (id : NodeId)
  deriving DecidableEq, Repr

namespace Call

/-- A call as a record shows it: the number of the node after a plus sign for a visit and a minus
sign for a leave. -/
def label : Call → String
  | visit id => "+" ++ toString id.raw.toNat
  | leave id => "-" ++ toString id.raw.toNat

end Call

/-- The verdicts of a scripted visitor. -/
structure Script where
  /-- The verdict when a node is reached. -/
  onVisit : NodeId → Verdict
  /-- The verdict when the children of a node are done. -/
  onLeave : NodeId → Verdict
  /-- The interest the visitor takes up when a node is reached, if it changes there. -/
  refocus : NodeId → Option Interest

/-- The state of a scripted visitor. -/
structure Record where
  /-- The interest of the visitor. -/
  interest : Interest
  /-- The calls made so far, the oldest first. -/
  calls : List Call

namespace Visitor

/-- The visitor that follows a script. -/
def scripted (script : Script) : Visitor Record where
  interest r := (r.interest, r)
  visit n r :=
    (script.onVisit n.id,
      ⟨(script.refocus n.id).getD r.interest, r.calls ++ [.visit n.id]⟩)
  leave n r := (script.onLeave n.id, ⟨r.interest, r.calls ++ [.leave n.id]⟩)

/-- The visitor that lets everything pass and counts how often it states its interest. -/
def silent (interest : Interest) : Visitor Nat where
  interest reads := (interest, reads + 1)
  visit _ reads := (.proceed, reads)
  leave _ reads := (.proceed, reads)

end Visitor

end SyntaxForest
