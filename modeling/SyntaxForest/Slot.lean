import SyntaxForest.Vocabulary

/-!
# Identifiers and slots

Nodes are named by 32-bit words, ordered by value. The first node of a forest gets the word one;
zero marks a node that belongs to no forest yet.

A slot is a place for children inside a node, which it holds by their names: a single slot has room
for one child, a list slot holds any number of them in order. The operations that write a slot
(`Slot.erase`, `Slot.append`, `Slot.replace`, `Slot.assign`) never change its shape.
-/

namespace SyntaxForest

/-! ### Identifiers -/

/-- The identifier of a node. -/
structure NodeId where
  /-- The word behind the identifier. -/
  raw : UInt32
  deriving DecidableEq, Repr

namespace NodeId

/-- The identifier of a node that belongs to no forest yet. -/
def unassigned : NodeId := ⟨0⟩

instance : Inhabited NodeId := ⟨unassigned⟩

/-- The identifier given out after this one. -/
def next (id : NodeId) : NodeId := ⟨id.raw + 1⟩

/-- An identifier as messages show it: the number after a hash sign. -/
def label (id : NodeId) : String := "#" ++ toString id.raw.toNat

/-- Identifiers are ordered by their words. -/
instance : Ord NodeId := ⟨compareOn NodeId.raw⟩

theorem compare_def (a b : NodeId) : compare a b = compare a.raw b.raw := rfl

instance : Std.TransOrd NodeId :=
  inferInstanceAs (Std.TransCmp (compareOn NodeId.raw))

instance : Std.LawfulEqOrd NodeId where
  eq_of_compare {a b} h := by
    cases a; cases b
    exact congrArg NodeId.mk (Std.LawfulEqOrd.eq_of_compare (compare_def _ _ ▸ h))

/-- The younger of two identifiers. -/
instance : Max NodeId := ⟨fun a b => if a.raw ≤ b.raw then b else a⟩

instance : Std.MaxEqOr NodeId where
  max_eq_or a b := by
    change (if a.raw ≤ b.raw then b else a) = a ∨ (if a.raw ≤ b.raw then b else a) = b
    split
    · exact .inr rfl
    · exact .inl rfl

end NodeId

/-! ### Slots -/

/-- How many children a slot has room for. -/
inductive Shape where
  | single
  | list
  deriving DecidableEq, Repr

namespace Shape

instance : Vocabulary Shape where
  members := [single, list]
  name
    | single => "Single"
    | list => "List"
  mem_members a := by cases a <;> decide
  nodup_names := by decide

/-- The shape as messages speak of it. -/
def label : Shape → String
  | single => "single"
  | list => "list"

end Shape

/-- Where a child stands in a slot. -/
inductive Position where
  /-- The child fills a single slot. -/
  | only
  /-- The child has this index in a list slot. -/
  | nth (index : Nat)
  deriving DecidableEq, Repr

/-- The contents of a slot. -/
inductive Slot where
  | single (occupant : Option NodeId)
  | list (children : List NodeId)
  deriving DecidableEq, Repr

namespace Slot

/-- The shape of a slot. -/
def shape : Slot → Shape
  | single _ => .single
  | list _ => .list

/-- The slot of a given shape that holds nothing. -/
def empty : Shape → Slot
  | .single => single none
  | .list => list []

/-- The children a slot holds, in order. -/
def children : Slot → List NodeId
  | single occupant => occupant.toList
  | list children => children

/-- The first place of a slot where a child stands. -/
def locate? (child : NodeId) : Slot → Option Position
  | single occupant => if occupant = some child then some .only else none
  | list children => (children.idxOf? child).map .nth

/-- The slot without the first occurrence of a child; the others keep their order. -/
def erase (child : NodeId) : Slot → Slot
  | single occupant => single (if occupant = some child then none else occupant)
  | list children => list (children.erase child)

/-- The slot with a child added at the end; a single slot has no end and stays as it is. -/
def append (child : NodeId) : Slot → Slot
  | single occupant => single occupant
  | list children => list (children ++ [child])

/-- The slot with a new child in the first place where the old one stands. -/
def replace (old new : NodeId) : Slot → Slot
  | single occupant => single (if occupant = some old then some new else occupant)
  | list children => list (children.replace old new)

/-- The slot overwritten by other contents, unless those are of another shape. -/
def assign (slot contents : Slot) : Slot :=
  if contents.shape = slot.shape then contents else slot

@[simp] theorem shape_empty (s : Shape) : (empty s).shape = s := by
  cases s <;> rfl

@[simp] theorem children_empty (s : Shape) : (empty s).children = [] := by
  cases s <;> rfl

@[simp] theorem shape_erase (child : NodeId) (s : Slot) : (s.erase child).shape = s.shape := by
  cases s <;> rfl

@[simp] theorem shape_append (child : NodeId) (s : Slot) : (s.append child).shape = s.shape := by
  cases s <;> rfl

@[simp] theorem shape_replace (old new : NodeId) (s : Slot) :
    (s.replace old new).shape = s.shape := by
  cases s <;> rfl

@[simp] theorem shape_assign (s contents : Slot) : (s.assign contents).shape = s.shape := by
  rw [assign]
  split
  · assumption
  · rfl

end Slot

end SyntaxForest
