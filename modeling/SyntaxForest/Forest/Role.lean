import SyntaxForest.Forest
import SyntaxForest.Node.Lemmas

/-!
# Roles in a forest

The role of a name goes by the slot that holds it: the node that is asked about is searched for the
name, and the table of its kind has the role for the slot where the search ends. Since the tables
agree about every property, this is the role that the property fixes (`Forest.role_of_locate?`).
-/

namespace SyntaxForest

/-- The search for a child ends in a slot that is in the table. -/
theorem Node.row?_of_locate? {n : Node} {child : NodeId} {p : Property} {position : Position}
    (h : n.locate? child = some (p, position)) : n.row? p = some p.row := by
  obtain ⟨e, he, heq⟩ := List.exists_of_findSome?_eq_some h
  obtain ⟨_, -, hplace⟩ := Option.map_eq_some_iff.1 heq
  obtain ⟨rfl, -⟩ := Prod.mk.inj hplace
  refine row?_eq_some_iff.2 ⟨?_, rfl⟩
  rw [← n.map_fst_slots]
  exact List.mem_map.2 ⟨e, he, rfl⟩

namespace Forest

/-- The role that a name plays in the node that holds it. It is unclear for anything that is not a
name held directly by that node. -/
def role (f : Forest) (owner name : NodeId) : Role :=
  match f.node? owner, f.node? name with
  | some holder, some n =>
    if n.kind = .name then
      ((holder.locate? name).bind fun place => holder.row? place.1).elim .unclear SlotRow.role
    else .unclear
  | _, _ => .unclear

variable {f g : Forest} {owner name : NodeId} {holder n : Node}

/-- A name has the role that goes with the slot where it is found. -/
theorem role_of_locate? (howner : f.node? owner = some holder) (hn : f.node? name = some n)
    (hkind : n.kind = .name) {p : Property} {position : Position}
    (hlocate : holder.locate? name = some (p, position)) : f.role owner name = p.role := by
  simp only [role, howner, hn, if_pos hkind, hlocate, Option.bind_some,
    Node.row?_of_locate? hlocate, Option.elim_some]
  rfl

/-- A name has no clear role in a node that does not hold it. -/
theorem role_eq_unclear_of_locate? (howner : f.node? owner = some holder)
    (hlocate : holder.locate? name = none) : f.role owner name = .unclear := by
  rw [role, howner]
  cases f.node? name with
  | none => rfl
  | some n => simp [hlocate]

/-- What is no name has no clear role. -/
theorem role_eq_unclear_of_kind (h : ∀ n, f.node? name = some n → n.kind ≠ .name) :
    f.role owner name = .unclear := by
  rw [role]
  split
  · next n _ hn => exact if_neg (h n hn)
  · rfl

/-- A node that does not exist holds no names. -/
theorem role_eq_unclear_of_node? (h : f.node? owner = none) : f.role owner name = .unclear := by
  rw [role, h]

/-- The role of a name depends on the name and the node that holds it. -/
theorem role_congr (howner : g.node? owner = f.node? owner) (hname : g.node? name = f.node? name) :
    g.role owner name = f.role owner name := by
  rw [role, role, howner, hname]

end Forest

end SyntaxForest
