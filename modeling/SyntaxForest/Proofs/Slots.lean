import Mathlib.Data.List.Flatten
import Mathlib.Data.List.Nodup
import SyntaxForest.Node.Lemmas

/-!
# Children in slots

A slot of a known shape is determined by the list of its children (`Slot.ofChildren`), so every
write to a node is seen as a change of such a list. `Node.refill` puts a list of children into one
slot, and the writes that editors make (`Node.eraseChild`, `Node.appendChild`, `Node.replaceChild`,
`Node.setSlot`) are refills with the erased, extended, replaced or new list.

A node whose children get other names (`Node.mapChildren`) is what a replacement makes of it, if the
child that is replaced occurs only once.

The second half relates the three ways in which a node shows its children: slot by slot
(`Node.childrenIn`), in traversal order (`Node.entries`, `Node.children`), and by search
(`Node.locate?`).
-/

namespace SyntaxForest

/-- What stands under a key is found if nothing else has this key. -/
lemma lookup_eq_some_of_mem {α β : Type} [DecidableEq α] {l : List (α × β)} {a : α} {b : β}
    (hmem : (a, b) ∈ l) (hunique : ∀ e ∈ l, e.1 = a → e = (a, b)) : l.lookup a = some b := by
  obtain ⟨left, right, rfl, hleft⟩ := List.eq_append_cons_of_mem hmem
  refine List.lookup_eq_some_iff.2 ⟨left, right, rfl, fun e he => ?_⟩
  have hne : a ≠ e.1 := by
    intro heq
    have hsame := hunique e (List.mem_append_left _ he) heq.symm
    exact hleft (hsame ▸ he)
  simpa using hne

namespace Slot

/-- The slot of a given shape that holds the listed children; a single slot takes the first. -/
def ofChildren : Shape → List NodeId → Slot
  | .single, children => single children.head?
  | .list, children => list children

/-- Making a slot out of children gives it the shape asked for. -/
@[simp] lemma shape_ofChildren (shape : Shape) (children : List NodeId) :
    (ofChildren shape children).shape = shape := by
  cases shape <;> rfl

/-- A slot that has room for the listed children holds exactly these. -/
lemma children_ofChildren {shape : Shape} {children : List NodeId}
    (hroom : shape = .single → children.length ≤ 1) :
    (ofChildren shape children).children = children := by
  cases shape with
  | list => rfl
  | single =>
    match children, hroom rfl with
    | [], _ => rfl
    | [_], _ => rfl

/-- A slot is determined by its shape and its children. -/
lemma ofChildren_children (s : Slot) : ofChildren s.shape s.children = s := by
  cases s with
  | list _ => rfl
  | single occupant => cases occupant <;> rfl

/-- A single slot has at most one child. -/
lemma length_children_le {s : Slot} (h : s.shape = .single) : s.children.length ≤ 1 := by
  cases s with
  | list _ => cases h
  | single occupant => cases occupant <;> simp [children]

/-- Erasing a child erases it from the list of children. -/
lemma erase_eq (s : Slot) (child : NodeId) :
    s.erase child = ofChildren s.shape (s.children.erase child) := by
  cases s with
  | list _ => rfl
  | single occupant =>
    cases occupant with
    | none => rfl
    | some id =>
      by_cases h : id = child
      · simp [erase, shape, ofChildren, children, h]
      · simp [erase, shape, ofChildren, children, h]

/-- Replacing a child replaces it in the list of children. -/
lemma replace_eq (s : Slot) (old new : NodeId) :
    s.replace old new = ofChildren s.shape (s.children.replace old new) := by
  cases s with
  | list _ => rfl
  | single occupant =>
    cases occupant with
    | none => rfl
    | some id =>
      by_cases h : id = old
      · simp [replace, shape, ofChildren, children, h]
      · simp [replace, shape, ofChildren, children, h, Ne.symm h]

/-- A child appended to a list slot comes at the end of the list of children. -/
lemma append_eq {s : Slot} (h : s.shape = .list) (child : NodeId) :
    s.append child = ofChildren s.shape (s.children ++ [child]) := by
  cases s with
  | list _ => rfl
  | single _ => cases h

/-- Overwriting a single slot makes the new occupant its only child. -/
lemma assign_single_eq {s : Slot} (h : s.shape = .single) (occupant : Option NodeId) :
    s.assign (.single occupant) = ofChildren s.shape occupant.toList := by
  have hshape : (single occupant).shape = s.shape := h.symm
  rw [assign, if_pos hshape, h]
  cases occupant <;> rfl

/-- A child that is located in a slot is one of its children. -/
lemma mem_children_of_locate? {s : Slot} {child : NodeId} {position : Position}
    (h : s.locate? child = some position) : child ∈ s.children := by
  cases s with
  | single occupant =>
    by_cases ho : occupant = some child
    · simp [children, ho]
    · simp [locate?, ho] at h
  | list l =>
    by_contra hmem
    have hnone : l.idxOf? child = none := List.idxOf?_eq_none_iff.2 hmem
    simp [locate?, hnone] at h

/-- A child that is not located in a slot is none of its children. -/
lemma locate?_eq_none_iff {s : Slot} {child : NodeId} :
    s.locate? child = none ↔ child ∉ s.children := by
  cases s with
  | single occupant => by_cases ho : occupant = some child <;> simp [locate?, children, ho]
  | list l => simp [locate?, children, List.idxOf?_eq_none_iff]

/-- The slot with its children under other names. -/
def map (rename : NodeId → NodeId) : Slot → Slot
  | single occupant => single (occupant.map rename)
  | list children => list (children.map rename)

@[simp] lemma shape_map (rename : NodeId → NodeId) (s : Slot) : (s.map rename).shape = s.shape := by
  cases s <;> rfl

@[simp] lemma children_map (rename : NodeId → NodeId) (s : Slot) :
    (s.map rename).children = s.children.map rename := by
  cases s with
  | list _ => rfl
  | single occupant => cases occupant <;> rfl

end Slot

/-- The name by which a node goes when one name is given up for another. -/
def NodeId.rename (old new id : NodeId) : NodeId := if id = old then new else id

@[simp] lemma NodeId.rename_self (old new : NodeId) : rename old new old = new := if_pos rfl

lemma NodeId.rename_of_ne {old new id : NodeId} (h : id ≠ old) : rename old new id = id := if_neg h

/-- Replacing what occurs at most once in a list gives it another name. -/
lemma replace_eq_map {l : List NodeId} (hnodup : l.Nodup) (old new : NodeId) :
    l.replace old new = l.map (NodeId.rename old new) := by
  induction l with
  | nil => rfl
  | cons x l ih =>
    rw [List.nodup_cons] at hnodup
    by_cases hx : x = old
    · subst hx
      have hrest : l.map (NodeId.rename x new) = l := by
        refine (List.map_congr_left fun y hy => ?_).trans (List.map_id' l)
        exact NodeId.rename_of_ne fun heq => hnodup.1 (heq ▸ hy)
      rw [List.replace_cons_self, List.map_cons, hrest, NodeId.rename_self]
    · have hbeq : (old == x) = false := beq_false_of_ne (Ne.symm hx)
      rw [List.replace_cons, hbeq, List.map_cons, NodeId.rename_of_ne hx, ih hnodup.2]

namespace Node

/-! ### Writing lists of children -/

/-- The node with other children in the slot of a property. -/
def refill (n : Node) (p : Property) (children : List NodeId) : Node :=
  n.setSlot p (.ofChildren p.shape children)

@[simp] lemma id_refill (n : Node) (p : Property) (l : List NodeId) : (n.refill p l).id = n.id :=
  rfl

@[simp] lemma content_refill (n : Node) (p : Property) (l : List NodeId) :
    (n.refill p l).content = n.content := rfl

@[simp] lemma kind_refill (n : Node) (p : Property) (l : List NodeId) :
    (n.refill p l).kind = n.kind := rfl

@[simp] lemma slotCategory_refill (n : Node) (p : Property) (l : List NodeId) :
    (n.refill p l).slotCategory = n.slotCategory := rfl

/-- The properties of the slots of a node are all different. -/
lemma nodup_map_fst_slots (n : Node) : (n.slots.map Prod.fst).Nodup := by
  rw [map_fst_slots]
  exact n.kind.nodup_properties

/-- Each of the slots of a node is found under its property. -/
lemma slot?_of_mem_slots {n : Node} {p : Property} {s : Slot} (h : (p, s) ∈ n.slots) :
    n.slot? p = some s :=
  lookup_eq_some_of_mem h fun _ he heq => List.inj_on_of_nodup_map n.nodup_map_fst_slots he h heq

/-- The children of each of the slots of a node are the children under its property. -/
lemma childrenIn_of_mem_slots {n : Node} {p : Property} {s : Slot} (h : (p, s) ∈ n.slots) :
    n.childrenIn p = s.children := by
  rw [childrenIn, slot?_of_mem_slots h]
  rfl

/-- There are no children under a property that the kind does not have. -/
lemma childrenIn_eq_nil {n : Node} {p : Property} (h : p ∉ n.kind.properties) :
    n.childrenIn p = [] := by
  have hnone : n.slot? p = none := by
    rw [← Option.not_isSome_iff_eq_none, isSome_slot?_iff]
    exact h
  rw [childrenIn, hnone]
  rfl

/-- A child stands only in slots that the kind has. -/
lemma mem_properties_of_mem_childrenIn {n : Node} {p : Property} {child : NodeId}
    (h : child ∈ n.childrenIn p) : p ∈ n.kind.properties := by
  by_contra hp
  rw [childrenIn_eq_nil hp] at h
  exact absurd h List.not_mem_nil

/-- A single slot has at most one child. -/
lemma length_childrenIn_le (n : Node) {p : Property} (h : p.shape = .single) :
    (n.childrenIn p).length ≤ 1 := by
  rw [childrenIn]
  cases hs : n.slot? p with
  | none => exact Nat.zero_le 1
  | some s => exact Slot.length_children_le ((shape_of_slot? hs).trans h)

/-- A change that acts on slots of a shape as another one acts on their children is a refill. -/
lemma modifySlot_eq_refill (n : Node) (p : Property) {f : Slot → Slot}
    (h : ∀ s, (f s).shape = s.shape) {g : List NodeId → List NodeId}
    (hg : ∀ s, s.shape = p.shape → f s = .ofChildren s.shape (g s.children)) :
    n.modifySlot p f h = n.refill p (g (n.childrenIn p)) := by
  refine ext rfl rfl rfl (List.map_congr_left fun e he => ?_)
  obtain ⟨q, s⟩ := e
  by_cases hq : q = p
  · subst hq
    have hshape : s.shape = q.shape := shape_of_mem_slots he
    have hassign : s.assign (.ofChildren q.shape (g (n.childrenIn q))) =
        .ofChildren q.shape (g (n.childrenIn q)) := by
      rw [Slot.assign, if_pos (by rw [Slot.shape_ofChildren, hshape])]
    simp only [if_true]
    rw [hassign, hg s hshape, hshape, childrenIn_of_mem_slots he]
  · simp only [if_neg hq]

/-- Erasing a child from a slot is a refill. -/
lemma eraseChild_eq_refill (n : Node) (p : Property) (child : NodeId) :
    n.eraseChild p child = n.refill p ((n.childrenIn p).erase child) :=
  modifySlot_eq_refill n p _ (g := fun l => l.erase child) fun s _ => s.erase_eq child

/-- Replacing a child in a slot is a refill. -/
lemma replaceChild_eq_refill (n : Node) (p : Property) (old new : NodeId) :
    n.replaceChild p old new = n.refill p ((n.childrenIn p).replace old new) :=
  modifySlot_eq_refill n p _ (g := fun l => l.replace old new) fun s _ => s.replace_eq old new

/-- Appending a child to a list slot is a refill. -/
lemma appendChild_eq_refill (n : Node) {p : Property} (h : p.shape = .list) (child : NodeId) :
    n.appendChild p child = n.refill p (n.childrenIn p ++ [child]) :=
  modifySlot_eq_refill n p _ (g := fun l => l ++ [child]) fun _ hs =>
    Slot.append_eq (hs.trans h) child

/-- Overwriting a single slot is a refill. -/
lemma setSlot_single_eq_refill (n : Node) {p : Property} (h : p.shape = .single)
    (occupant : Option NodeId) :
    n.setSlot p (.single occupant) = n.refill p occupant.toList :=
  modifySlot_eq_refill n p _ (g := fun _ => occupant.toList) fun _ hs =>
    Slot.assign_single_eq (hs.trans h) occupant

/-- After a refill, the slot holds the new children and every other slot what it held before. -/
lemma childrenIn_refill {n : Node} {p : Property} {l : List NodeId} (hp : p ∈ n.kind.properties)
    (hroom : p.shape = .single → l.length ≤ 1) (q : Property) :
    (n.refill p l).childrenIn q = if q = p then l else n.childrenIn q := by
  by_cases hq : q = p
  · subst hq
    rw [if_pos rfl, childrenIn, refill, slot?_setSlot_self hp (Slot.shape_ofChildren _ _)]
    exact Slot.children_ofChildren hroom
  · rw [if_neg hq, childrenIn, refill, slot?_setSlot_of_ne hq]
    rfl

/-- What a node is apart from its slots: its identifier, its location and its contents. -/
def header (n : Node) : NodeId × Location × Content := (n.id, n.location, n.content)

@[simp] lemma header_refill (n : Node) (p : Property) (l : List NodeId) :
    (n.refill p l).header = n.header := rfl

/-- A node is determined by its identifier, its location, its contents, and the children in each of
its slots. -/
lemma ext_childrenIn {m n : Node} (hid : m.id = n.id) (hlocation : m.location = n.location)
    (hcontent : m.content = n.content) (hchildren : ∀ p, m.childrenIn p = n.childrenIn p) :
    m = n := by
  have hslots : ∀ n : Node,
      n.slots = n.kind.properties.map fun p => (p, .ofChildren p.shape (n.childrenIn p)) := by
    intro n
    rw [← n.map_fst_slots, List.map_map]
    refine (List.map_id' _).symm.trans (List.map_congr_left fun e he => ?_)
    obtain ⟨p, s⟩ := e
    simp only [Function.comp, childrenIn_of_mem_slots he, ← shape_of_mem_slots he,
      Slot.ofChildren_children]
  refine ext hid hlocation hcontent ?_
  rw [hslots m, hslots n, Node.kind, Node.kind, hcontent]
  simp only [hchildren]

/-- The node with its children under other names. -/
def mapChildren (n : Node) (rename : NodeId → NodeId) : Node where
  id := n.id
  location := n.location
  content := n.content
  slots := n.slots.map fun e => (e.1, e.2.map rename)
  fits := by
    rw [← n.fits, List.map_map]
    refine List.map_congr_left fun e _ => ?_
    simp only [Function.comp, Slot.shape_map]

@[simp] lemma content_mapChildren (n : Node) (rename : NodeId → NodeId) :
    (n.mapChildren rename).content = n.content := rfl

@[simp] lemma isAmbiguity_mapChildren (n : Node) (rename : NodeId → NodeId) :
    (n.mapChildren rename).isAmbiguity = n.isAmbiguity := rfl

/-- Other names for the children change nothing but the names. -/
@[simp] lemma childrenIn_mapChildren (n : Node) (rename : NodeId → NodeId) (p : Property) :
    (n.mapChildren rename).childrenIn p = (n.childrenIn p).map rename := by
  cases hs : n.slot? p with
  | none =>
    have hp : p ∉ n.kind.properties := by
      rw [← isSome_slot?_iff, hs]
      simp
    have hp' : p ∉ (n.mapChildren rename).kind.properties := hp
    rw [childrenIn_eq_nil hp, childrenIn_eq_nil hp', List.map_nil]
  | some s =>
    have hmem : (p, s) ∈ n.slots := mem_slots_of_slot? hs
    have hmem' : (p, s.map rename) ∈ (n.mapChildren rename).slots := List.mem_map.2 ⟨_, hmem, rfl⟩
    rw [childrenIn_of_mem_slots hmem, childrenIn_of_mem_slots hmem', Slot.children_map]

/-- Giving other names twice is giving other names once. -/
lemma mapChildren_mapChildren (n : Node) (first second : NodeId → NodeId) :
    (n.mapChildren first).mapChildren second = n.mapChildren (second ∘ first) := by
  refine ext_childrenIn rfl rfl rfl fun p => ?_
  rw [childrenIn_mapChildren, childrenIn_mapChildren, childrenIn_mapChildren, List.map_map]

/-! ### Children in traversal order -/

/-- The entries of a node are the children of its slots, one slot after the other. -/
theorem entries_eq_flatMap (n : Node) :
    n.entries =
      n.kind.properties.flatMap fun p => (n.childrenIn p).map fun child => (p, child) := by
  rw [← n.map_fst_slots, List.flatMap_map, entries]
  refine List.flatMap_congr fun e he => ?_
  obtain ⟨p, s⟩ := e
  rw [childrenIn_of_mem_slots he]

/-- The children of a node are the children of its slots, one slot after the other. -/
theorem children_eq_flatMap (n : Node) : n.children = n.kind.properties.flatMap n.childrenIn := by
  rw [children, entries_eq_flatMap, List.map_flatMap]
  refine List.flatMap_congr fun p _ => ?_
  rw [List.map_map]
  exact List.map_id _

/-- Other names for the children keep them in their order. -/
@[simp] lemma children_mapChildren (n : Node) (rename : NodeId → NodeId) :
    (n.mapChildren rename).children = n.children.map rename := by
  rw [children_eq_flatMap, children_eq_flatMap, List.map_flatMap]
  exact List.flatMap_congr fun p _ => childrenIn_mapChildren n rename p

/-- The entries of a node are the pairs of a property and a child in its slot. -/
lemma mem_entries {n : Node} {p : Property} {child : NodeId} :
    (p, child) ∈ n.entries ↔ child ∈ n.childrenIn p := by
  rw [entries_eq_flatMap, List.mem_flatMap]
  constructor
  · rintro ⟨q, -, hq⟩
    obtain ⟨c, hc, heq⟩ := List.mem_map.1 hq
    obtain ⟨rfl, rfl⟩ := Prod.mk.inj heq
    exact hc
  · intro h
    exact ⟨p, mem_properties_of_mem_childrenIn h, List.mem_map.2 ⟨child, h, rfl⟩⟩

/-- The children of a node are those that stand in one of its slots. -/
lemma mem_children {n : Node} {child : NodeId} :
    child ∈ n.children ↔ ∃ p, child ∈ n.childrenIn p := by
  rw [children_eq_flatMap, List.mem_flatMap]
  constructor
  · rintro ⟨p, -, hp⟩
    exact ⟨p, hp⟩
  · rintro ⟨p, hp⟩
    exact ⟨p, mem_properties_of_mem_childrenIn hp, hp⟩

/-- No child of a node occurs twice if none occurs twice in a slot or in two slots. -/
lemma nodup_children {n : Node} (hslot : ∀ p, (n.childrenIn p).Nodup)
    (hunique : ∀ p q child, child ∈ n.childrenIn p → child ∈ n.childrenIn q → p = q) :
    n.children.Nodup := by
  rw [children_eq_flatMap, List.nodup_flatMap]
  refine ⟨fun p _ => hslot p, n.kind.nodup_properties.imp ?_⟩
  intro p q hpq child hp hq
  exact hpq (hunique p q child hp hq)

/-- If no child of a node occurs twice, none occurs twice in a slot. -/
lemma nodup_childrenIn {n : Node} (h : n.children.Nodup) (p : Property) :
    (n.childrenIn p).Nodup := by
  by_cases hp : p ∈ n.kind.properties
  · rw [children_eq_flatMap, List.nodup_flatMap] at h
    exact h.1 p hp
  · rw [childrenIn_eq_nil hp]
    exact List.nodup_nil

/-- If no child of a node occurs twice, none occurs in two slots. -/
lemma eq_of_mem_childrenIn {n : Node} (h : n.children.Nodup) {p q : Property} {child : NodeId}
    (hp : child ∈ n.childrenIn p) (hq : child ∈ n.childrenIn q) : p = q := by
  have hinj := List.inj_on_of_nodup_map h (mem_entries.2 hp) (mem_entries.2 hq) rfl
  exact (Prod.mk.inj hinj).1

/-- Only the names of the children of the node matter. -/
lemma mapChildren_congr {n : Node} {first second : NodeId → NodeId}
    (h : ∀ child ∈ n.children, first child = second child) :
    n.mapChildren first = n.mapChildren second := by
  refine ext_childrenIn rfl rfl rfl fun p => ?_
  rw [childrenIn_mapChildren, childrenIn_mapChildren]
  exact List.map_congr_left fun child hchild => h child (mem_children.2 ⟨p, hchild⟩)

/-- A node whose children keep their names stays as it is. -/
lemma mapChildren_eq_self {n : Node} {rename : NodeId → NodeId}
    (h : ∀ child ∈ n.children, rename child = child) : n.mapChildren rename = n := by
  refine ext_childrenIn rfl rfl rfl fun p => ?_
  rw [childrenIn_mapChildren]
  exact (List.map_congr_left fun child hchild => h child (mem_children.2 ⟨p, hchild⟩)).trans
    (List.map_id _)

/-- Replacing a child that occurs once gives it another name. -/
lemma refill_replace_eq_mapChildren {n : Node} (hnodup : n.children.Nodup) {p : Property}
    {old : NodeId} (hold : old ∈ n.childrenIn p) (new : NodeId) :
    n.refill p ((n.childrenIn p).replace old new) = n.mapChildren (NodeId.rename old new) := by
  have hroom : p.shape = .single → ((n.childrenIn p).replace old new).length ≤ 1 := by
    intro hp
    rw [List.length_replace]
    exact n.length_childrenIn_le hp
  refine ext_childrenIn rfl rfl rfl fun q => ?_
  rw [childrenIn_refill (mem_properties_of_mem_childrenIn hold) hroom, childrenIn_mapChildren]
  split
  · next hq => rw [hq, replace_eq_map (nodup_childrenIn hnodup p)]
  · next hq =>
    have hnot : old ∉ n.childrenIn q := fun hmem => hq (eq_of_mem_childrenIn hnodup hmem hold)
    rw [← replace_eq_map (nodup_childrenIn hnodup q), List.replace_of_not_mem hnot]

/-! ### Searching children -/

/-- A child that is located under a property stands in the slot of that property. -/
lemma mem_childrenIn_of_locate? {n : Node} {child : NodeId} {p : Property} {position : Position}
    (h : n.locate? child = some (p, position)) : child ∈ n.childrenIn p := by
  obtain ⟨e, he, hmap⟩ := List.exists_of_findSome?_eq_some h
  obtain ⟨pos, hpos, heq⟩ := Option.map_eq_some_iff.1 hmap
  obtain ⟨rfl, rfl⟩ := Prod.mk.inj heq
  rw [childrenIn_of_mem_slots he]
  exact Slot.mem_children_of_locate? hpos

/-- Exactly the children of a node are located in it. -/
lemma locate?_eq_none_iff {n : Node} {child : NodeId} :
    n.locate? child = none ↔ child ∉ n.children := by
  rw [locate?, List.findSome?_eq_none_iff, children, entries, List.map_flatMap]
  simp only [List.map_map, List.mem_flatMap, not_exists, not_and]
  constructor
  · intro h e he hmem
    have hnone := Option.map_eq_none_iff.1 (h e he)
    have hid : child ∈ e.2.children := by simpa using hmem
    exact Slot.locate?_eq_none_iff.1 hnone hid
  · intro h e he
    rw [Option.map_eq_none_iff, Slot.locate?_eq_none_iff]
    intro hmem
    exact h e he (by simpa using hmem)

/-! ### Ambiguities -/

/-- An ambiguity carries the family of its alternatives. -/
lemma exists_content_eq_ambiguity {n : Node} (h : n.isAmbiguity) :
    ∃ family, n.content = .ambiguity family := by
  have hkind : n.content.kind = .ambiguity := eq_of_beq h
  cases hcontent : n.content with
  | ambiguity family => exact ⟨family, rfl⟩
  | _ => rw [hcontent] at hkind; cases hkind

/-- Only ambiguities have a slot for alternatives. -/
lemma isAmbiguity_of_mem_properties {n : Node} (h : .alternative ∈ n.kind.properties) :
    n.isAmbiguity := by
  have hkinds : ∀ k : Kind, .alternative ∈ k.properties → k = .ambiguity := by
    intro k
    cases k <;> decide
  rw [isAmbiguity, hkinds n.kind h]
  rfl

/-- Only ambiguities have alternatives. -/
lemma isAmbiguity_of_mem_alternatives {n : Node} {child : NodeId} (h : child ∈ n.alternatives) :
    n.isAmbiguity :=
  isAmbiguity_of_mem_properties (mem_properties_of_mem_childrenIn h)

/-- An ambiguity has no children but its alternatives. -/
lemma children_eq_alternatives {n : Node} (h : n.isAmbiguity) : n.children = n.alternatives := by
  have hkind : n.kind = .ambiguity := eq_of_beq h
  rw [children_eq_flatMap, hkind]
  exact List.flatMap_singleton ..

/-- The alternatives of an ambiguity count as what the ambiguity counts as itself. -/
lemma accepts_eq_slotCategory {n : Node} (h : n.isAmbiguity) (p : Property) :
    n.content.accepts p = n.slotCategory := by
  obtain ⟨family, hcontent⟩ := exists_content_eq_ambiguity h
  rw [slotCategory, hcontent]
  rfl

end Node

end SyntaxForest
