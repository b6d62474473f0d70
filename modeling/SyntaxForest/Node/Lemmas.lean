import SyntaxForest.Node

/-!
# Laws of slots in nodes

The slots of a node are seen through `Node.slot?`. A node has a slot for exactly the properties of
its kind, each of the shape that the property fixes, and writing one slot leaves the others, the
identifier, the location and the contents alone. The table and the accepted categories know the
same properties: `Content.accepts` is what `Node.accepts?` gives where it gives anything.
-/

namespace SyntaxForest

namespace Content

/-- Only ambiguities have a family. -/
theorem kind_eq_ambiguity {c : Content} {family : Category} (h : c.family? = some family) :
    c.kind = .ambiguity := by
  cases c <;> first | rfl | cases h

/-- What the slots of a node with these contents accept: the family if there is one, else what the
property fixes. -/
def accepts (c : Content) (p : Property) : Category := c.family?.getD p.accepts

end Content

namespace Node

/-- A slot that is found is one of the slots of the node. -/
theorem mem_slots_of_slot? {n : Node} {p : Property} {s : Slot} (h : n.slot? p = some s) :
    (p, s) ∈ n.slots := by
  obtain ⟨left, right, heq, -⟩ := List.lookup_eq_some_iff.1 h
  rw [heq]
  exact List.mem_append_right left List.mem_cons_self

/-- A node has a slot for exactly the properties of its kind. -/
theorem isSome_slot?_iff {n : Node} {p : Property} :
    (n.slot? p).isSome ↔ p ∈ n.kind.properties := by
  rw [← n.map_fst_slots, slot?, List.lookup_isSome_iff, List.mem_map]
  exact exists_congr fun e => and_congr_right fun _ => beq_iff_eq.trans eq_comm

/-- A slot that is found has the shape that its property fixes. -/
theorem shape_of_slot? {n : Node} {p : Property} {s : Slot} (h : n.slot? p = some s) :
    s.shape = p.shape :=
  shape_of_mem_slots (mem_slots_of_slot? h)

/-! ### What the table says -/

/-- The table of the kind says the same about a property for all nodes that have it. -/
theorem row?_eq_some_iff {n : Node} {p : Property} {row : SlotRow} :
    n.row? p = some row ↔ p ∈ n.kind.properties ∧ p.row = row := by
  rw [row?, Kind.find?_table]
  split <;> simp [*]

/-- A slot accepts a category exactly when the node has it. -/
theorem accepts?_eq_some_iff {n : Node} {p : Property} {c : Category} :
    n.accepts? p = some c ↔ p ∈ n.kind.properties ∧ n.content.accepts p = c := by
  rw [accepts?, Content.accepts]
  cases h : n.content.family? with
  | none =>
    simp only [Option.map_eq_some_iff, row?_eq_some_iff, Option.getD_none]
    constructor
    · rintro ⟨row, ⟨hp, rfl⟩, hc⟩
      exact ⟨hp, hc⟩
    · rintro ⟨hp, hc⟩
      exact ⟨p.row, ⟨hp, rfl⟩, hc⟩
  | some family =>
    rw [kind, Content.kind_eq_ambiguity h]
    by_cases hp : p = .alternative <;> simp [hp, Kind.properties, Kind.table]

/-- The table of the kind has one row for each slot. -/
theorem table_eq (n : Node) : n.kind.table = n.slots.map fun e => e.1.row := by
  rw [← Kind.map_row_properties, ← n.map_fst_slots, List.map_map]
  rfl

/-- Each slot is stored in the field of its property. -/
theorem stored_eq (n : Node) : n.stored = n.slots.map fun e => (e.1.field, e.2) := by
  rw [stored, table_eq, List.zipWith_map_left, List.zipWith_self]
  rfl

/-- The slots are stored in the fields of the table. -/
theorem map_fst_stored (n : Node) : n.stored.map Prod.fst = n.kind.table.map SlotRow.field := by
  rw [stored_eq, table_eq, List.map_map, List.map_map]
  rfl

/-! ### Writing -/

section

variable (n : Node) (p : Property) (f : Slot → Slot) (h : ∀ s, (f s).shape = s.shape)

@[simp] theorem id_modifySlot : (n.modifySlot p f h).id = n.id := rfl

@[simp] theorem location_modifySlot : (n.modifySlot p f h).location = n.location := rfl

@[simp] theorem content_modifySlot : (n.modifySlot p f h).content = n.content := rfl

@[simp] theorem kind_modifySlot : (n.modifySlot p f h).kind = n.kind := rfl

/-- A write changes the slot it is made to and no other. -/
theorem slot?_modifySlot (q : Property) :
    (n.modifySlot p f h).slot? q = if q = p then (n.slot? q).map f else n.slot? q := by
  change (n.slots.map fun e => if e.1 = p then (e.1, f e.2) else e).lookup q =
    if q = p then (n.slots.lookup q).map f else n.slots.lookup q
  generalize n.slots = l
  induction l with
  | nil => split <;> rfl
  | cons e l ih =>
    obtain ⟨r, t⟩ := e
    by_cases hr : r = p <;> by_cases hq : q = r
    · subst hr; subst hq; simp
    · subst hr; simpa [List.lookup_cons, beq_false_of_ne hq] using ih
    · subst hq; simp [hr]
    · simpa [List.lookup_cons, beq_false_of_ne hq, hr] using ih

end

/-- After a write of contents of the right shape, the slot holds these contents. -/
theorem slot?_setSlot_self {n : Node} {p : Property} {s : Slot} (hp : p ∈ n.kind.properties)
    (hs : s.shape = p.shape) : (n.setSlot p s).slot? p = some s := by
  obtain ⟨t, ht⟩ := Option.isSome_iff_exists.1 (isSome_slot?_iff.2 hp)
  rw [setSlot, slot?_modifySlot, if_pos rfl, ht, Option.map_some, Slot.assign, if_pos]
  rw [hs, shape_of_slot? ht]

/-- A write leaves every other slot alone. -/
theorem slot?_setSlot_of_ne {n : Node} {p q : Property} {s : Slot} (h : q ≠ p) :
    (n.setSlot p s).slot? q = n.slot? q := by
  rw [setSlot, slot?_modifySlot, if_neg h]

end Node

end SyntaxForest
