import SyntaxForest.Forest.Check
import SyntaxForest.Visitor

/-!
# Walking and searching subtrees

`Forest.walk` leads a visitor through a subtree, each node before its children and the children in
traversal order. What happens at one node, given how its children are walked, is `Forest.walkNode`.

Two visitors search a subtree: one collects names, the other stops at the first ambiguity. A subtree
is resolved if the second one finds nothing (`Forest.checkResolved`).
-/

namespace SyntaxForest

/-! ### Walking -/

namespace Forest

variable {σ : Type}

/-- Takes steps for the listed nodes, until one of them says to stop. -/
def walkEach (step : NodeId → σ → Bool × σ) : List NodeId → σ → Bool × σ
  | [], s => (true, s)
  | id :: ids, s =>
    match step id s with
    | (false, s) => (false, s)
    | (true, s) => walkEach step ids s

/-- Leads a visitor through a node, given the way to lead it through the children. -/
def walkNode (v : Visitor σ) (n : Node) (walkChild : NodeId → σ → Bool × σ) (s : σ) : Bool × σ :=
  let (interest, s) := v.interest s
  if interest.contains n.category then
    match v.visit n s with
    | (.abort, s) => (false, s)
    | (.skip, s) => (true, s)
    | (.proceed, s) =>
      match walkEach walkChild n.children s with
      | (false, s) => (false, s)
      | (true, s) =>
        let (verdict, s) := v.leave n s
        (verdict != .abort, s)
  else walkEach walkChild n.children s

/-- Leads a visitor through a subtree, down to a number of levels. -/
def walkWithin (f : Forest) (v : Visitor σ) : Nat → NodeId → σ → Bool × σ
  | 0, _, s => (true, s)
  | levels + 1, id, s =>
    match f.node? id with
    | none => (true, s)
    | some n => walkNode v n (f.walkWithin v levels) s

/-- Leads a visitor through a subtree. Answers whether the walk came to its end without an abort,
and the state of the visitor afterwards. A node that does not exist is an absent child. -/
def walk (f : Forest) (v : Visitor σ) (id : NodeId) (s : σ) : Bool × σ :=
  f.walkWithin v f.size id s

end Forest

/-! ### Searching -/

namespace Visitor

/-- The visitor that collects the names of a subtree, or only those with a given text. -/
def names (text : Option String) : Visitor (List NodeId) where
  interest found := (.only [.names], found)
  visit n found :=
    match n.content.nameText? with
    | none => (.proceed, found)
    | some name =>
      (.proceed, if text.all fun text => text == name then found ++ [n.id] else found)
  leave _ found := (.proceed, found)

/-- The visitor that stops at the first ambiguity. -/
def firstAmbiguity : Visitor (Option NodeId) where
  interest found := (.only [.ambiguities], found)
  visit n _ := (.abort, some n.id)
  leave _ found := (.proceed, found)

end Visitor

namespace Forest

/-- No ambiguity is left below and including a node. -/
def checkResolved (f : Forest) (id : NodeId) : Except Error Unit := do
  let _ ← f.require id
  match (f.walk .firstAmbiguity id none).2 with
  | some ambiguity => .error (.unresolvedAmbiguity ambiguity)
  | none => .ok ()

end Forest

end SyntaxForest
