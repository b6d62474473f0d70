import Std.Data.ExtTreeMap
import SyntaxForest.Node
import SyntaxForest.Policy

/-!
# Forests

A forest holds nodes by their identifiers. It knows every parent–child relation twice: downwards,
as an identifier in a slot of the parent, and upwards, in the route of the child. Every node has a
route. It has a place for the parent and one for the property of the slot, and both are empty if the
node is a root; only a route that has both leads anywhere (`Route.link?`). Identifiers are given out
in increasing order and never a second time; `Forest.lastId` is the last one given out.

This file has the views of a forest (`Forest.node?`, `Forest.route?` and what follows from them)
and the elementary writes, each of which touches one node or one route. Edits that keep the two
directions in step are made by an editor.
-/

namespace SyntaxForest

/-- The upward link of a node: its parent, and the slot it occupies there. -/
structure Link where
  parent : NodeId
  property : Property
  deriving DecidableEq, Repr

/-- The way from a node to its parent. -/
structure Route where
  /-- The node that the way starts from. -/
  id : NodeId
  /-- The parent, which a root does not have. -/
  parent : Option NodeId
  /-- The property of the slot that the node occupies in its parent. -/
  property : Option Property
  deriving DecidableEq, Repr

namespace Route

/-- The route of a root. -/
def root (id : NodeId) : Route := ⟨id, none, none⟩

/-- The link that a route gives, if it has both a parent and a property. -/
def link? (r : Route) : Option Link :=
  match r.parent, r.property with
  | some parent, some property => some ⟨parent, property⟩
  | _, _ => none

end Route

/-- A collection of syntax trees. -/
structure Forest where
  /-- The nodes by their identifiers. -/
  nodes : Std.ExtTreeMap NodeId Node
  /-- The routes of the nodes. -/
  routes : Std.ExtTreeMap NodeId Route
  /-- The last identifier given out. -/
  lastId : NodeId
  /-- How lenient the forest is. -/
  policy : Policy

namespace Forest

/-- The forest without nodes. -/
def empty (policy : Policy) : Forest := ⟨∅, ∅, .unassigned, policy⟩

/-! ### Views -/

instance : Membership NodeId Forest := ⟨fun f id => id ∈ f.nodes⟩

instance (f : Forest) (id : NodeId) : Decidable (id ∈ f) :=
  inferInstanceAs (Decidable (id ∈ f.nodes))

/-- The number of nodes. -/
def size (f : Forest) : Nat := f.nodes.size

/-- The node with a given identifier. -/
def node? (f : Forest) (id : NodeId) : Option Node := f.nodes[id]?

/-- The route of a node. -/
def route? (f : Forest) (id : NodeId) : Option Route := f.routes[id]?

/-- The upward link of a node. -/
def link? (f : Forest) (id : NodeId) : Option Link := (f.route? id).bind Route.link?

/-- The parent of a node. -/
def parent? (f : Forest) (id : NodeId) : Option NodeId := (f.route? id).bind Route.parent

/-- The property of the slot that a node occupies. -/
def property? (f : Forest) (id : NodeId) : Option Property := (f.route? id).bind Route.property

/-- The children of a node, in traversal order. -/
def children (f : Forest) (id : NodeId) : List NodeId := (f.node? id).elim [] Node.children

/-- The alternatives of an ambiguity; other nodes have none. -/
def alternatives (f : Forest) (id : NodeId) : List NodeId :=
  (f.node? id).elim [] Node.alternatives

/-- The child in a single slot of a node. -/
def childIn? (f : Forest) (id : NodeId) (p : Property) : Option NodeId :=
  (f.node? id).bind fun n => n.childIn? p

/-- All identifiers, in increasing order. -/
def ids (f : Forest) : List NodeId := f.nodes.keys

/-- The identifiers of the nodes that meet a condition, in increasing order. -/
def idsWhere (f : Forest) (condition : Node → Bool) : List NodeId :=
  f.ids.filter fun id => (f.node? id).any condition

/-- The nodes without a parent, in increasing order. -/
def roots (f : Forest) : List NodeId := f.ids.filter fun id => (f.parent? id).isNone

/-- The ambiguities, in increasing order. -/
def ambiguities (f : Forest) : List NodeId := f.idsWhere Node.isAmbiguity

/-! ### Lines and subtrees

Both are followed from node to node, at most as many steps as there are nodes. -/

/-- The parent, the grandparent and so on, up to a number of steps. -/
def ancestorsWithin (f : Forest) : Nat → NodeId → List NodeId
  | 0, _ => []
  | steps + 1, id =>
    match f.parent? id with
    | none => []
    | some parent => parent :: f.ancestorsWithin steps parent

/-- The parent, the grandparent and so on, up to the root. -/
def ancestors (f : Forest) (id : NodeId) : List NodeId := f.ancestorsWithin f.size id

/-- The identifiers below and including a node in preorder, down to a number of levels. -/
def subtreeWithin (f : Forest) : Nat → NodeId → List NodeId
  | 0, _ => []
  | levels + 1, id =>
    match f.node? id with
    | none => []
    | some n => id :: n.children.flatMap (f.subtreeWithin levels)

/-- The identifiers below and including a node, in preorder. -/
def subtree (f : Forest) (id : NodeId) : List NodeId := f.subtreeWithin f.size id

/-! ### Elementary writes -/

/-- The forest with a node under a new identifier, as a root. -/
def store (f : Forest) (id : NodeId) (n : Node) : Forest :=
  { f with
    nodes := f.nodes.insert id (n.withId id), routes := f.routes.insert id (.root id),
    lastId := id }

/-- The forest with one of its nodes changed. -/
def modifyNode (f : Forest) (id : NodeId) (change : Node → Node) : Forest :=
  { f with nodes := f.nodes.modify id change }

/-- The forest with one of its nodes linked to a slot. -/
def setLink (f : Forest) (id : NodeId) (link : Link) : Forest :=
  { f with
    routes := f.routes.modify id fun r =>
      { r with parent := some link.parent, property := some link.property } }

/-- The forest with the link of one of its nodes removed. -/
def clearLink (f : Forest) (id : NodeId) : Forest :=
  { f with routes := f.routes.modify id fun r => { r with parent := none, property := none } }

/-- The forest without a node and its route. -/
def erase (f : Forest) (id : NodeId) : Forest :=
  { f with nodes := f.nodes.erase id, routes := f.routes.erase id }

/-- Drops the pending nodes and, as each of them goes, makes its children the next pending ones.
Returns the dropped nodes in the order in which they went, and what is left. -/
def dropPending (f : Forest) : Nat → List NodeId → List NodeId × Forest
  | 0, _ => ([], f)
  | _ + 1, [] => ([], f)
  | steps + 1, id :: pending =>
    match f.node? id with
    | none => (f.erase id).dropPending steps pending
    | some n =>
      let (dropped, rest) := (f.erase id).dropPending steps (n.children ++ pending)
      (id :: dropped, rest)

/-- Drops a node with all that stands below it. -/
def dropSubtree (f : Forest) (id : NodeId) : List NodeId × Forest := f.dropPending f.size [id]

end Forest

end SyntaxForest
