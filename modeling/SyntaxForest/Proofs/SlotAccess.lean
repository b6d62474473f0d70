import SyntaxForest.Proofs.Slots

/-!
# Access to slots

The table of a kind, the reader of a slot, the writer of a slot, the getters of the fields and the
search for a child speak of the same slots. What is written into a slot is read back, and the rest
of the node stays as it is; a write to a slot that the kind does not have, or of another shape than
the slot, has no effect (`Node.setSlot_eq_self`). The search for a child ends at the first entry
that holds it (`Node.locate?_eq_find?`). This is so for nodes of every kind, and also if a child
occurs in a node more than once.
-/

namespace SyntaxForest

/-- Only what the search gives for the members of a list matters. -/
lemma findSome?_congr {α β : Type} {first second : α → Option β} {l : List α}
    (h : ∀ x ∈ l, first x = second x) : l.findSome? first = l.findSome? second := by
  induction l with
  | nil => rfl
  | cons x l ih =>
    rw [List.findSome?_cons, List.findSome?_cons, h x List.mem_cons_self,
      ih fun y hy => h y (List.mem_cons_of_mem x hy)]

/-- Whatever a slot holds, there are other contents of the same shape. -/
lemma Slot.exists_ne (s : Slot) : ∃ t : Slot, t.shape = s.shape ∧ t ≠ s := by
  cases s with
  | single occupant =>
    cases occupant with
    | none => exact ⟨.single (some .unassigned), rfl, by decide⟩
    | some id => exact ⟨.single none, rfl, fun h => by cases h⟩
  | list l => exact ⟨.list (.unassigned :: l), rfl, fun h => by simp at h⟩

namespace Node

variable {n : Node} {p : Property}

/-! ### Writing -/

/-- A write to a slot that the kind does not have, or of another shape than the slot, has no
effect. -/
lemma setSlot_eq_self {s : Slot} (h : ¬ (p ∈ n.kind.properties ∧ s.shape = p.shape)) :
    n.setSlot p s = n := by
  refine ext rfl rfl rfl ((List.map_congr_left fun e he => ?_).trans (List.map_id _))
  obtain ⟨q, t⟩ := e
  by_cases hq : q = p
  · subst hq
    have hmem : q ∈ n.kind.properties := by
      rw [← n.map_fst_slots]
      exact List.mem_map.2 ⟨_, he, rfl⟩
    have hshape : s.shape ≠ t.shape := by
      rw [shape_of_mem_slots he]
      exact fun hs => h ⟨hmem, hs⟩
    simp only [if_true, Slot.assign, if_neg hshape, id_eq]
  · simp only [if_neg hq, id_eq]

/-- Only slots that the kind has can be written. -/
lemma exists_setSlot_ne_iff : (∃ s, n.setSlot p s ≠ n) ↔ p ∈ n.kind.properties := by
  constructor
  · rintro ⟨s, hne⟩
    exact (not_not.1 (mt setSlot_eq_self hne)).1
  · intro hp
    obtain ⟨t, ht⟩ := Option.isSome_iff_exists.1 (isSome_slot?_iff.2 hp)
    obtain ⟨s, hshape, hne⟩ := t.exists_ne
    have hwritten := slot?_setSlot_self hp (hshape.trans (shape_of_slot? ht))
    refine ⟨s, fun heq => hne ?_⟩
    rw [heq, ht] at hwritten
    exact (Option.some.inj hwritten).symm

/-! ### Asking about slots -/

lemma isSome_row?_iff : (n.row? p).isSome ↔ p ∈ n.kind.properties := by
  simp only [Option.isSome_iff_exists, row?_eq_some_iff, exists_and_left, exists_eq', and_true]

lemma isSome_accepts?_iff : (n.accepts? p).isSome ↔ p ∈ n.kind.properties := by
  simp only [Option.isSome_iff_exists, accepts?_eq_some_iff, exists_and_left, exists_eq', and_true]

/-- The field that the table gives for a property holds the slot of this property. -/
lemma getter?_of_row? {row : SlotRow} (h : n.row? p = some row) :
    n.getter? row.field = n.slot? p := by
  obtain ⟨hp, rfl⟩ := row?_eq_some_iff.1 h
  obtain ⟨s, hs⟩ := Option.isSome_iff_exists.1 (isSome_slot?_iff.2 hp)
  have hmem : (p.field, s) ∈ n.stored := by
    rw [stored_eq]
    exact List.mem_map.2 ⟨(p, s), mem_slots_of_slot? hs, rfl⟩
  have hnodup : (n.stored.map Prod.fst).Nodup := by
    rw [map_fst_stored]
    exact n.kind.nodup_fields
  rw [hs]
  exact lookup_eq_some_of_mem hmem fun e he heq => List.inj_on_of_nodup_map hnodup he hmem heq

/-! ### Searching -/

/-- The entries of a node, seen through the reader: what stands in each slot of the table. -/
theorem entries_eq_flatMap_slot? (n : Node) :
    n.entries = n.kind.properties.flatMap fun p =>
      (n.slot? p).elim [] fun s => s.children.map fun child => (p, child) := by
  rw [entries_eq_flatMap]
  refine List.flatMap_congr fun p _ => ?_
  rw [childrenIn]
  cases n.slot? p <;> rfl

/-- Where a child is first found in the slot of a property that holds it. -/
def placeOf (n : Node) (p : Property) (child : NodeId) : Position :=
  match p.shape with
  | .single => .only
  | .list => .nth ((n.childrenIn p).idxOf child)

/-- A child is located in the slots that hold it. -/
lemma locate?_of_mem_slots {s : Slot} (h : (p, s) ∈ n.slots) (child : NodeId) :
    s.locate? child = if child ∈ s.children then some (n.placeOf p child) else none := by
  by_cases hmem : child ∈ s.children
  · rw [if_pos hmem, placeOf, ← shape_of_mem_slots h, childrenIn_of_mem_slots h]
    cases s with
    | single occupant =>
      have hoccupant : occupant = some child := Option.mem_toList.1 hmem
      exact if_pos hoccupant
    | list l =>
      obtain ⟨index, hindex⟩ : ∃ index, l.idxOf? child = some index :=
        Option.ne_none_iff_exists'.1 (mt List.idxOf?_eq_none_iff.1 (not_not_intro hmem))
      have hfirst : l.idxOf child = index := by
        rw [List.idxOf_eq_getD_idxOf?, hindex, Option.getD_some]
      rw [Slot.locate?, hindex, ← hfirst]
      rfl
  · rw [if_neg hmem]
    exact Slot.locate?_eq_none_iff.2 hmem

/-- The entries of one slot are searched as its children are. -/
lemma find?_map_mk (p : Property) (l : List NodeId) (child : NodeId) :
    (l.map fun x => (p, x)).find? (fun e => e.2 = child) =
      if child ∈ l then some (p, child) else none := by
  induction l with
  | nil => rfl
  | cons x l ih =>
    rw [List.map_cons, List.find?_cons, ih]
    by_cases hx : x = child
    · simp [hx]
    · simp [hx, Ne.symm hx]

/-- The search for a child ends at the first entry that holds it. -/
theorem locate?_eq_find? (n : Node) (child : NodeId) :
    n.locate? child =
      (n.entries.find? fun e => e.2 = child).map fun e => (e.1, n.placeOf e.1 child) := by
  rw [locate?, entries, List.find?_flatMap, List.map_findSome?]
  refine findSome?_congr fun e he => ?_
  obtain ⟨p, s⟩ := e
  rw [Function.comp_apply, find?_map_mk, locate?_of_mem_slots he]
  split <;> rfl

/-! ### The laws together -/

/-- The laws of slots, for every node, all properties and every identifier. The reader, the writer,
the rows and the categories that are accepted know the slots that the table of the kind has, with
the shapes of the table. What is written in the right shape is read back, by the reader, by the
getters for this shape and by the getter of the field that the table names, while the other slots,
the identifier, the location, the kind and the contents stay as they are. The entries are what
stands in the slots, in the order of the table, and the children are those of the entries. The
search for a child fails exactly if the node does not have it. Otherwise it gives the property of
the first entry with the child, and where the child stands first if this slot is a list. -/
theorem slots_obey_access_laws (n : Node) (p q : Property) (c : NodeId) :
    (((n.slot? p).isSome ↔ p ∈ n.kind.properties) ∧
      ((∃ s, n.setSlot p s ≠ n) ↔ p ∈ n.kind.properties) ∧
      ((n.row? p).isSome ↔ p ∈ n.kind.properties) ∧
      ((n.accepts? p).isSome ↔ p ∈ n.kind.properties)) ∧
    ((∀ s, n.slot? p = some s → s.shape = p.shape) ∧
      (∀ s, n.setSlot p s ≠ n → s.shape = p.shape) ∧
      ∀ row, n.row? p = some row → row.shape = p.shape) ∧
    (p ∈ n.kind.properties → ∀ s : Slot, s.shape = p.shape →
      (n.setSlot p s).slot? p = some s ∧
      (∀ occupant, s = .single occupant → (n.setSlot p s).childIn? p = occupant) ∧
      (∀ children, s = .list children → (n.setSlot p s).childrenIn p = children) ∧
      (∀ row, n.row? p = some row → (n.setSlot p s).getter? row.field = some s) ∧
      (q ≠ p → (n.setSlot p s).slot? q = n.slot? q) ∧
      (n.setSlot p s).id = n.id ∧ (n.setSlot p s).location = n.location ∧
      (n.setSlot p s).kind = n.kind ∧ (n.setSlot p s).content = n.content) ∧
    (n.entries = n.kind.properties.flatMap (fun r =>
      (n.slot? r).elim [] fun s => s.children.map fun child => (r, child)) ∧
      n.children = n.entries.map Prod.snd) ∧
    (n.locate? c = none ↔ c ∉ n.children) ∧
    n.locate? c = (n.entries.find? fun e => e.2 = c).map fun e =>
      (e.1, match e.1.shape with
        | .single => .only
        | .list => .nth ((n.childrenIn e.1).idxOf c)) := by
  have hshape : ∀ row, n.row? p = some row → row.shape = p.shape := by
    intro row hrow
    rw [← (row?_eq_some_iff.1 hrow).2]
    rfl
  refine ⟨⟨isSome_slot?_iff, exists_setSlot_ne_iff, isSome_row?_iff, isSome_accepts?_iff⟩,
    ⟨fun s => shape_of_slot?, fun s hne => (not_not.1 (mt setSlot_eq_self hne)).2, hshape⟩,
    fun hp s hs => ?_, ⟨n.entries_eq_flatMap_slot?, rfl⟩, locate?_eq_none_iff,
    n.locate?_eq_find? c⟩
  have hslot := slot?_setSlot_self hp hs
  have hchildren : (n.setSlot p s).childrenIn p = s.children := by
    rw [childrenIn, hslot, Option.elim_some]
  refine ⟨hslot, ?_, ?_, fun row hrow => ?_, slot?_setSlot_of_ne, rfl, rfl, rfl, rfl⟩
  · rintro occupant rfl
    rw [childIn?, hchildren]
    cases occupant <;> rfl
  · rintro children rfl
    exact hchildren
  · have hrow' : (n.setSlot p s).row? p = some row := hrow
    rw [getter?_of_row? hrow', hslot]

/-- A call without a function, two of whose arguments are the same. -/
def repetitiveCall : Node :=
  .make .unknown .functionCallExpression fun _ => .list [⟨1⟩, ⟨2⟩, ⟨1⟩]

/-- The call gets its function, the arguments stay, and the search finds the first of those that are
the same. -/
theorem slots_obey_access_laws_in_repetitiveCall :
    (repetitiveCall.setSlot .functionName (.single (some ⟨3⟩))).childIn? .functionName =
      some ⟨3⟩ ∧
    (repetitiveCall.setSlot .functionName (.single (some ⟨3⟩))).getter? "function_name" =
      some (.single (some ⟨3⟩)) ∧
    (repetitiveCall.setSlot .functionName (.single (some ⟨3⟩))).slot? .functionArgument =
      some (.list [⟨1⟩, ⟨2⟩, ⟨1⟩]) ∧
    repetitiveCall.locate? ⟨1⟩ = some (.functionArgument, .nth 0) := by
  obtain ⟨-, -, hwrite, -, -, hsearch⟩ :=
    repetitiveCall.slots_obey_access_laws .functionName .functionArgument ⟨1⟩
  obtain ⟨-, hoccupant, -, hgetter, hother, -⟩ := hwrite (by decide) (.single (some ⟨3⟩)) rfl
  exact ⟨hoccupant _ rfl, hgetter Property.functionName.row (by decide),
    (hother (by decide)).trans (by decide), hsearch.trans (by decide)⟩

end Node

end SyntaxForest
