import SyntaxForest.Content
import SyntaxForest.Location

/-!
# Nodes

A node has an identifier, a location, contents, and one slot for each row of the table of its kind,
in the order of the table and of the shape that the row gives (`Node.fits`). Children are listed
slot by slot in that order (`Node.entries`), which is the order of every traversal.

What may be asked about a slot is answered from different sources: its contents from the slots of
the node (`Node.slot?`), its shape and role from the table (`Node.row?`), the category it accepts
from the table too, except that an ambiguity has a family of its own (`Node.accepts?`), and the
value of a field from the fields that hold the slots (`Node.getter?`).
-/

namespace SyntaxForest

/-- A node of a syntax tree. -/
structure Node where
  id : NodeId
  location : Location
  content : Content
  /-- The slots with their properties, in traversal order. -/
  slots : List (Property × Slot)
  /-- The slots are those of the kind, each of the shape that its row gives. -/
  fits : slots.map (fun e => (e.1, e.2.shape)) =
    content.kind.table.map fun row => (row.property, row.shape)
  deriving DecidableEq

namespace Node

/-! ### Making nodes -/

/-- A node with given slots, if these are the slots of its kind. -/
def ofSlots? (id : NodeId) (location : Location) (content : Content)
    (slots : List (Property × Slot)) : Option Node :=
  if fits : slots.map (fun e => (e.1, e.2.shape)) =
      content.kind.table.map fun row => (row.property, row.shape) then
    some ⟨id, location, content, slots, fits⟩
  else
    none

/-- A new node, not yet in any forest. The slots that its kind fills from the start take their
contents from `fill`, where contents of the wrong shape count as none. -/
def make (location : Location) (content : Content) (fill : Property → Slot) : Node where
  id := .unassigned
  location := location
  content := content
  slots := content.kind.table.map fun row =>
    (row.property,
      if row.property ∈ content.kind.initialProperties then
        (Slot.empty row.shape).assign (fill row.property)
      else .empty row.shape)
  fits := by
    rw [List.map_map]
    refine List.map_congr_left fun row _ => Prod.ext rfl ?_
    dsimp only [Function.comp]
    split <;> simp

/-- The node under another identifier. -/
def withId (n : Node) (id : NodeId) : Node := { n with id := id }

/-! ### Classification -/

/-- The kind of a node. -/
def kind (n : Node) : Kind := n.content.kind

/-- The category of a node. -/
def category (n : Node) : Category := n.kind.category

/-- The category a node counts as where it stands in a slot. -/
def slotCategory (n : Node) : Category := n.content.slotCategory

/-- Whether a node is an ambiguity. -/
def isAmbiguity (n : Node) : Bool := n.kind == .ambiguity

/-! ### Reading slots -/

/-- The slot of a property, absent if the kind has no such slot. -/
def slot? (n : Node) (p : Property) : Option Slot := n.slots.lookup p

/-- Whether a node has a slot of a property. -/
def hasSlot (n : Node) (p : Property) : Bool := (n.slot? p).isSome

/-- What the table of the kind says about the slot of a property. -/
def row? (n : Node) (p : Property) : Option SlotRow :=
  n.kind.table.find? fun row => row.property = p

/-- The category that the slot of a property accepts, absent if there is no such slot. The
alternatives of an ambiguity belong to its family; every other node goes by the table of its
kind. -/
def accepts? (n : Node) (p : Property) : Option Category :=
  match n.content.family? with
  | some family => if p = .alternative then some family else none
  | none => (n.row? p).map SlotRow.accepts

/-- The slots under the names of the fields that hold them, in the order of the table. -/
def stored (n : Node) : List (String × Slot) :=
  List.zipWith (fun row e => (row.field, e.2)) n.kind.table n.slots

/-- The contents of a field that holds a slot, absent if the kind has no such field. -/
def getter? (n : Node) (field : String) : Option Slot := n.stored.lookup field

/-- The children in the slot of a property, none if there is no such slot. -/
def childrenIn (n : Node) (p : Property) : List NodeId :=
  (n.slot? p).elim [] Slot.children

/-- The first child in the slot of a property. -/
def childIn? (n : Node) (p : Property) : Option NodeId := (n.childrenIn p).head?

/-- The alternatives of an ambiguity; other nodes have none. -/
def alternatives (n : Node) : List NodeId := n.childrenIn .alternative

/-- The children of a node with the properties of their slots, in traversal order. -/
def entries (n : Node) : List (Property × NodeId) :=
  n.slots.flatMap fun e => e.2.children.map fun child => (e.1, child)

/-- The children of a node, in traversal order. -/
def children (n : Node) : List NodeId := n.entries.map Prod.snd

/-- The first slot that holds a child, and where the child stands in it. -/
def locate? (n : Node) (child : NodeId) : Option (Property × Position) :=
  n.slots.findSome? fun e => (e.2.locate? child).map fun position => (e.1, position)

/-! ### Writing slots -/

/-- The node with the slot of a property changed by a function that keeps shapes. -/
def modifySlot (n : Node) (p : Property) (f : Slot → Slot) (h : ∀ s, (f s).shape = s.shape) :
    Node where
  id := n.id
  location := n.location
  content := n.content
  slots := n.slots.map fun e => if e.1 = p then (e.1, f e.2) else e
  fits := by
    rw [← n.fits, List.map_map]
    refine List.map_congr_left fun e _ => ?_
    dsimp only [Function.comp]
    split <;> simp [h]

/-- The node without a child in the slot of a property. -/
def eraseChild (n : Node) (p : Property) (child : NodeId) : Node :=
  n.modifySlot p (Slot.erase child) (Slot.shape_erase child)

/-- The node with a child added at the end of the list slot of a property. -/
def appendChild (n : Node) (p : Property) (child : NodeId) : Node :=
  n.modifySlot p (Slot.append child) (Slot.shape_append child)

/-- The node with a new child in the place of an old one in the slot of a property. -/
def replaceChild (n : Node) (p : Property) (old new : NodeId) : Node :=
  n.modifySlot p (Slot.replace old new) (Slot.shape_replace old new)

/-- The node with the slot of a property overwritten; contents of the wrong shape are dropped. -/
def setSlot (n : Node) (p : Property) (contents : Slot) : Node :=
  n.modifySlot p (fun s => s.assign contents) fun s => s.shape_assign contents

/-! ### First laws -/

/-- The slots of a node are those of its kind. -/
theorem map_fst_slots (n : Node) : n.slots.map Prod.fst = n.kind.properties := by
  have h := congrArg (List.map Prod.fst) n.fits
  simpa [List.map_map, Function.comp_def, kind, Kind.properties] using h

/-- A slot of a node has the shape that its property fixes. -/
theorem shape_of_mem_slots {n : Node} {p : Property} {s : Slot} (h : (p, s) ∈ n.slots) :
    s.shape = p.shape := by
  have hm : (p, s.shape) ∈ n.slots.map fun e => (e.1, e.2.shape) :=
    List.mem_map.2 ⟨(p, s), h, rfl⟩
  rw [n.fits] at hm
  obtain ⟨row, hrow, heq⟩ := List.mem_map.1 hm
  obtain ⟨rfl, hs⟩ := Prod.mk.inj heq
  rw [← hs, Kind.eq_row_of_mem_table hrow]
  rfl

@[ext] theorem ext {m n : Node} (hid : m.id = n.id) (hlocation : m.location = n.location)
    (hcontent : m.content = n.content) (hslots : m.slots = n.slots) : m = n := by
  cases m; cases n
  cases hid; cases hlocation; cases hcontent; cases hslots
  rfl

end Node

end SyntaxForest
