import SyntaxForest.Error
import SyntaxForest.Forest

/-!
# Checks

What is asked of an edit before anything is written. A check either passes or gives the first
reason to refuse the edit.
-/

namespace SyntaxForest

/-- The category that the slot of a property accepts, which has to exist. -/
def Node.expects (n : Node) (p : Property) : Except Error Category :=
  match n.accepts? p with
  | some category => .ok category
  | none => .error (.noSuchSlot n.kind p)

namespace Forest

/-- The node with an identifier, which has to exist. -/
def require (f : Forest) (id : NodeId) : Except Error Node :=
  match f.node? id with
  | some n => .ok n
  | none => .error (.unknownNode id)

/-- The parent has a slot of this property and shape. Gives the category that the slot accepts. -/
def checkSlot (f : Forest) (parent : NodeId) (p : Property) (shape : Shape) :
    Except Error Category := do
  let owner ← f.require parent
  match owner.slot? p with
  | none => .error (.noSuchSlot owner.kind p)
  | some slot =>
    if slot.shape = shape then owner.expects p
    else .error (.shapeMismatch owner.kind p slot.shape)

/-- The child exists and is of the category that its slot accepts. -/
def checkCategory (f : Forest) (child : NodeId) (p : Property) (expected : Category) :
    Except Error Unit := do
  let n ← f.require child
  if n.slotCategory = expected then .ok ()
  else .error (.categoryMismatch child p expected n.slotCategory)

/-- The child has no parent, or may be taken from it. -/
def checkFree (f : Forest) (child : NodeId) : Except Error Unit :=
  match f.parent? child, f.policy.reattach with
  | some parent, .reject => .error (.alreadyAttached child parent)
  | _, _ => .ok ()

/-- The ambiguity that has a node among its alternatives. -/
def ambiguityOver? (f : Forest) (child : NodeId) : Option NodeId :=
  (f.link? child).bind fun link =>
    if link.property = .alternative then some link.parent else none

/-- How many alternatives an ambiguity keeps when some nodes are taken away. -/
def alternativesWithout (f : Forest) (taken : List NodeId) (ambiguity : NodeId) : Nat :=
  (f.alternatives ambiguity).length -
    taken.countP fun child => f.ambiguityOver? child = some ambiguity

/-- Every ambiguity keeps two alternatives when the nodes are taken from their parents. Of several
that do not, the youngest is reported, whatever the order of the nodes. -/
def checkDetachable (f : Forest) (taken : List NodeId) : Except Error Unit :=
  let owners := taken.filterMap f.ambiguityOver?
  match (owners.filter fun ambiguity => f.alternativesWithout taken ambiguity < 2).max? with
  | some ambiguity => .error (.degenerateAmbiguity (f.alternativesWithout taken ambiguity))
  | none => .ok ()

/-- The child is neither the parent nor an ancestor of it. -/
def checkAcyclic (f : Forest) (parent child : NodeId) : Except Error Unit :=
  if child = parent ∨ child ∈ f.ancestors parent then .error (.cycle parent child) else .ok ()

/-- The child may go into a slot of the parent that accepts a given category. -/
def checkAttach (f : Forest) (parent : NodeId) (p : Property) (expected : Category)
    (child : NodeId) : Except Error Unit := do
  f.checkCategory child p expected
  f.checkFree child
  f.checkDetachable [child]
  f.checkAcyclic parent child

/-- The children of a new node are all different, fit their slots, and are free. The children that
stand in `seen` have been met before. -/
def checkEntries (f : Forest) (n : Node) :
    (seen : List NodeId) → List (Property × NodeId) → Except Error Unit
  | _, [] => .ok ()
  | seen, (p, child) :: entries =>
    if child ∈ seen then .error (.duplicateChild child)
    else do
      (n.accepts? p).forM (f.checkCategory child p)
      f.checkFree child
      f.checkEntries n (child :: seen) entries

/-- A new node may come into the forest together with its children. -/
def checkInsert (f : Forest) (n : Node) : Except Error Unit :=
  if n.isAmbiguity ∧ n.alternatives.length < 2 then
    .error (.degenerateAmbiguity n.alternatives.length)
  else do
    f.checkEntries n [] n.entries
    f.checkDetachable n.children

/-- A new child may take the place of an old one in the slot of a property of the parent, which is
the node `owner`. A child of the old one may always leave it. -/
def checkSubstitute (f : Forest) (parent : NodeId) (owner : Node) (p : Property)
    (old new : NodeId) : Except Error Unit := do
  let expected ← owner.expects p
  f.checkCategory new p expected
  if f.parent? new = some old then .ok ()
  else do
    f.checkFree new
    f.checkDetachable [new]
  f.checkAcyclic parent new

/-- The alternative of an ambiguity with a given index. -/
def checkAlternative (f : Forest) (id : NodeId) (index : Nat) : Except Error NodeId := do
  let n ← f.require id
  if n.isAmbiguity then
    match n.alternatives[index]? with
    | some winner => .ok winner
    | none => .error (.alternativeOutOfRange id index n.alternatives.length)
  else .error (.notAnAmbiguity id n.kind)

end Forest

end SyntaxForest
