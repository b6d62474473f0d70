import SyntaxForest.Editor
import SyntaxForest.Forest.Lemmas
import SyntaxForest.Proofs.Slots

/-!
# Rewriting one slot

Whatever an edit does to nodes that exist already, it does by giving one slot of one node other
children and by bringing the links of those that come and go into line. `Forest.refill` is this
step as a whole. `Forest.pluck` is the refill that takes one node out of its slot, `Forest.plant`
brings in a new node above its children, and `Forest.eraseAll` drops nodes.

For each of the four, this file has the equations for the two views of a forest, `Forest.node?` and
`Forest.route?`, and for what follows from these. All of them keep the routes upright
(`Forest.Upright`): no write leaves a route with a parent and without a property, or the other way
round.
-/

namespace SyntaxForest

namespace Forest

/-- The children in one slot of a node. -/
def childrenIn (f : Forest) (id : NodeId) (p : Property) : List NodeId :=
  (f.node? id).elim [] fun n => n.childrenIn p

/-- The contents of a node. -/
def content? (f : Forest) (id : NodeId) : Option Content := (f.node? id).map Node.content

/-- What a node is apart from its slots. -/
def header? (f : Forest) (id : NodeId) : Option (NodeId × Location × Content) :=
  (f.node? id).map Node.header

/-- A node has a slot of a property. -/
def HasSlot (f : Forest) (id : NodeId) (p : Property) : Prop :=
  ∃ n, f.node? id = some n ∧ p ∈ n.kind.properties

section

variable {f : Forest} {id child : NodeId} {n : Node} {p : Property}

/-- The nodes of a forest are those that are found. -/
lemma mem_iff_exists_node? : id ∈ f ↔ ∃ n, f.node? id = some n := by
  rw [mem_iff_isSome_node?, Option.isSome_iff_exists]

lemma mem_of_node? (h : f.node? id = some n) : id ∈ f := mem_iff_exists_node?.2 ⟨n, h⟩

lemma node?_eq_none_iff : f.node? id = none ↔ id ∉ f := by
  rw [mem_iff_isSome_node?, Option.not_isSome_iff_eq_none]

lemma childrenIn_of_node? (h : f.node? id = some n) (p : Property) :
    f.childrenIn id p = n.childrenIn p := by
  rw [childrenIn, h]
  rfl

lemma content?_of_node? (h : f.node? id = some n) : f.content? id = some n.content := by
  rw [content?, h]
  rfl

lemma children_of_node? (h : f.node? id = some n) : f.children id = n.children := by
  rw [children, h]
  rfl

lemma alternatives_of_node? (h : f.node? id = some n) : f.alternatives id = n.alternatives := by
  rw [alternatives, h]
  rfl

/-- What stands in a slot stands in a slot of a node. -/
lemma mem_childrenIn_iff :
    child ∈ f.childrenIn id p ↔ ∃ n, f.node? id = some n ∧ child ∈ n.childrenIn p := by
  cases hn : f.node? id with
  | none => simp [childrenIn, hn]
  | some n => simp [childrenIn, hn]

/-- A child stands only in slots that exist. -/
lemma hasSlot_of_mem_childrenIn (h : child ∈ f.childrenIn id p) : f.HasSlot id p := by
  obtain ⟨n, hn, hmem⟩ := mem_childrenIn_iff.1 h
  exact ⟨n, hn, Node.mem_properties_of_mem_childrenIn hmem⟩

/-- The children of a node are those that stand in one of its slots. -/
lemma mem_children_iff : child ∈ f.children id ↔ ∃ p, child ∈ f.childrenIn id p := by
  cases hn : f.node? id with
  | none => simp [children, childrenIn, hn]
  | some n =>
    rw [children_of_node? hn, Node.mem_children]
    simp only [childrenIn_of_node? hn]

/-- A single slot has at most one child. -/
lemma length_childrenIn_le (f : Forest) (id : NodeId) (h : p.shape = .single) :
    (f.childrenIn id p).length ≤ 1 := by
  cases hn : f.node? id with
  | none => simp [childrenIn, hn]
  | some n =>
    rw [childrenIn_of_node? hn]
    exact n.length_childrenIn_le h

lemma childIn?_eq_head? (f : Forest) (id : NodeId) (p : Property) :
    f.childIn? id p = (f.childrenIn id p).head? := by
  cases hn : f.node? id with
  | none => simp [childIn?, childrenIn, hn]
  | some n => simp [childIn?, childrenIn, hn, Node.childIn?]

/-- The child in a single slot is the only one there. -/
lemma childrenIn_eq_toList (f : Forest) (id : NodeId) (h : p.shape = .single) :
    f.childrenIn id p = (f.childIn? id p).toList := by
  have hlength := f.length_childrenIn_le id h
  rw [childIn?_eq_head?]
  match f.childrenIn id p, hlength with
  | [], _ => rfl
  | [x], _ => rfl

lemma mem_childrenIn_iff_childIn? (h : p.shape = .single) :
    child ∈ f.childrenIn id p ↔ f.childIn? id p = some child := by
  rw [childrenIn_eq_toList f id h, Option.mem_toList]

/-- The alternatives of an ambiguity are the children in its only slot. -/
lemma alternatives_eq_childrenIn (f : Forest) (id : NodeId) :
    f.alternatives id = f.childrenIn id .alternative := rfl

lemma link?_of_route? {r : Route} (h : f.route? id = some r) : f.link? id = r.link? := by
  rw [link?, h]
  rfl

/-- A node that has a link has the route along it. -/
lemma exists_route?_of_link? {link : Link} (h : f.link? id = some link) :
    ∃ x, f.route? id = some (.along x (some link)) := by
  obtain ⟨r, hr, hlink⟩ := Option.bind_eq_some_iff.1 h
  exact ⟨r.id, by rw [hr, ← Route.eq_along_of_link? hlink]⟩

/-- The parent of a node is that of its link. -/
lemma parent?_of_link? {parent : NodeId} (h : f.link? id = some ⟨parent, p⟩) :
    f.parent? id = some parent := by
  obtain ⟨x, hr⟩ := exists_route?_of_link? h
  rw [parent?, hr]
  rfl

/-- The property of a node is that of its link. -/
lemma property?_of_link? {parent : NodeId} (h : f.link? id = some ⟨parent, p⟩) :
    f.property? id = some p := by
  obtain ⟨x, hr⟩ := exists_route?_of_link? h
  rw [property?, hr]
  rfl

end

/-! ### Upright routes -/

/-- Every route starts from the node it belongs to, and it has a parent exactly if it has a
property. -/
def Upright (f : Forest) : Prop :=
  ∀ id r, f.route? id = some r → r.id = id ∧ (r.parent.isSome ↔ r.property.isSome)

namespace Upright

variable {f g : Forest}

/-- A node that has a route has the one along its link. -/
lemma route?_eq_along (h : f.Upright) {id : NodeId} (hsome : (f.route? id).isSome) :
    f.route? id = some (.along id (f.link? id)) := by
  obtain ⟨r, hr⟩ := Option.isSome_iff_exists.1 hsome
  obtain ⟨rfl, hparts⟩ := h id r hr
  rw [link?_of_route? hr, ← Route.eq_along hparts, hr]

/-- Routes stay upright if each of them is kept or led along a link. -/
lemma of_route? (h : f.Upright)
    (hroute : ∀ id r, g.route? id = some r →
      f.route? id = some r ∨ ∃ link, r = .along id link) : g.Upright := by
  intro id r hr
  rcases hroute id r hr with hkept | ⟨link, rfl⟩
  · exact h id r hkept
  · exact ⟨rfl, Route.isSome_along id link⟩

/-- A route that is led along a link still starts from its node. -/
lemma eq_along_of_map (h : f.Upright) {id : NodeId} {r : Route} {link : Option Link}
    (hr : ((f.route? id).map fun old => .along old.id link) = some r) : r = .along id link := by
  obtain ⟨old, hold, rfl⟩ := Option.map_eq_some_iff.1 hr
  rw [(h id old hold).1]

/-- Linking a node to a slot keeps the routes upright. -/
lemma setLink (h : f.Upright) (id : NodeId) (link : Link) : (f.setLink id link).Upright := by
  refine h.of_route? fun x r hr => ?_
  rw [route?_setLink] at hr
  split at hr
  · exact .inr ⟨_, h.eq_along_of_map hr⟩
  · exact .inl hr

/-- Removing a link keeps the routes upright. -/
lemma clearLink (h : f.Upright) (id : NodeId) : (f.clearLink id).Upright := by
  refine h.of_route? fun x r hr => ?_
  rw [route?_clearLink] at hr
  split at hr
  · exact .inr ⟨_, h.eq_along_of_map hr⟩
  · exact .inl hr

end Upright

/-! ### Links after writing a route -/

/-- Two forests are the same if they have the same nodes, routes for the same ones, and the same
links. -/
lemma ext_link? {f g : Forest} (hf : f.Upright) (hg : g.Upright)
    (hnode : ∀ id, f.node? id = g.node? id)
    (hsome : ∀ id, (f.route? id).isSome = (g.route? id).isSome)
    (hlink : ∀ id, f.link? id = g.link? id) (hlast : f.lastId = g.lastId)
    (hpolicy : f.policy = g.policy) : f = g := by
  refine ext hnode (fun id => ?_) hlast hpolicy
  by_cases h : (f.route? id).isSome
  · rw [hf.route?_eq_along h, hg.route?_eq_along (hsome id ▸ h), hlink]
  · have hg : ¬ (g.route? id).isSome := hsome id ▸ h
    rw [Option.not_isSome_iff_eq_none.1 h, Option.not_isSome_iff_eq_none.1 hg]

lemma link?_setLink {f : Forest} {id : NodeId} (h : (f.route? id).isSome) (link : Link)
    (x : NodeId) : (f.setLink id link).link? x = if x = id then some link else f.link? x := by
  rw [link?, route?_setLink]
  by_cases hx : x = id
  · obtain ⟨r, hr⟩ := Option.isSome_iff_exists.1 h
    simp [hx, hr]
  · rw [if_neg hx, if_neg hx]
    rfl

lemma link?_clearLink (f : Forest) (id x : NodeId) :
    (f.clearLink id).link? x = if x = id then none else f.link? x := by
  rw [link?, route?_clearLink]
  by_cases hx : x = id
  · rw [if_pos hx, if_pos hx]
    cases f.route? x <;> rfl
  · rw [if_neg hx, if_neg hx]
    rfl

@[simp] lemma isSome_route?_setLink (f : Forest) (id : NodeId) (link : Link) (x : NodeId) :
    ((f.setLink id link).route? x).isSome = (f.route? x).isSome := by
  rw [route?_setLink]
  split
  · exact Option.isSome_map
  · rfl

@[simp] lemma isSome_route?_clearLink (f : Forest) (id x : NodeId) :
    ((f.clearLink id).route? x).isSome = (f.route? x).isSome := by
  rw [route?_clearLink]
  split
  · exact Option.isSome_map
  · rfl

/-! ### Writing several routes -/

/-- The forest with the routes of all listed nodes along one and the same link. -/
def reroute (f : Forest) (link : Option Link) (l : List NodeId) : Forest :=
  l.foldl (fun f id => link.elim (f.clearLink id) (f.setLink id)) f

section

variable (link : Option Link) (l : List NodeId) (f : Forest)

@[simp] lemma node?_reroute (x : NodeId) : (f.reroute link l).node? x = f.node? x := by
  induction l generalizing f with
  | nil => rfl
  | cons id l ih =>
    refine (ih _).trans ?_
    cases link <;> rfl

@[simp] lemma lastId_reroute : (f.reroute link l).lastId = f.lastId := by
  induction l generalizing f with
  | nil => rfl
  | cons id l ih =>
    refine (ih _).trans ?_
    cases link <;> rfl

@[simp] lemma policy_reroute : (f.reroute link l).policy = f.policy := by
  induction l generalizing f with
  | nil => rfl
  | cons id l ih =>
    refine (ih _).trans ?_
    cases link <;> rfl

/-- The listed nodes get the route, if they have one at all. -/
lemma route?_reroute (x : NodeId) :
    (f.reroute link l).route? x =
      if x ∈ l then (f.route? x).map fun r => .along r.id link else f.route? x := by
  induction l generalizing f with
  | nil => rfl
  | cons id l ih =>
    have hwrite : ∀ x, (link.elim (f.clearLink id) (f.setLink id)).route? x =
        if x = id then (f.route? x).map fun r => .along r.id link else f.route? x := by
      cases link with
      | none => exact route?_clearLink f id
      | some link => exact route?_setLink f id link
    rw [reroute, List.foldl_cons]
    refine (ih _).trans ?_
    rw [hwrite]
    by_cases hx : x = id <;> by_cases hl : x ∈ l <;> cases f.route? x <;> simp [hx, hl]

end

/-- Linking children to slots leaves the nodes alone, and every link that is not set. -/
lemma foldl_setLink (id : NodeId) (entries : List (Property × NodeId)) (f : Forest) :
    let g := entries.foldl (fun f entry => f.setLink entry.2 ⟨id, entry.1⟩) f
    (∀ x, g.node? x = f.node? x) ∧
    (∀ x, x ∉ entries.map Prod.snd → g.route? x = f.route? x) ∧
    g.lastId = f.lastId ∧ g.policy = f.policy := by
  induction entries generalizing f with
  | nil => simp
  | cons entry entries ih =>
    obtain ⟨hnode, hroute, hlast, hpolicy⟩ := ih (f.setLink entry.2 ⟨id, entry.1⟩)
    refine ⟨hnode, fun x hx => ?_, hlast, hpolicy⟩
    rw [List.map_cons, List.mem_cons, not_or] at hx
    rw [List.foldl_cons, hroute x hx.2, route?_setLink, if_neg hx.1]

/-- Of children that are all different, each is linked to the slot it is listed with. -/
lemma route?_foldl_setLink_of_mem (id : NodeId) {entries : List (Property × NodeId)}
    (hnodup : (entries.map Prod.snd).Nodup) {p : Property} {x : NodeId}
    (hx : (p, x) ∈ entries) (f : Forest) :
    (entries.foldl (fun f entry => f.setLink entry.2 ⟨id, entry.1⟩) f).route? x =
      (f.route? x).map fun r => .along r.id (some ⟨id, p⟩) := by
  induction entries generalizing f with
  | nil => exact absurd hx List.not_mem_nil
  | cons entry entries ih =>
    rw [List.map_cons, List.nodup_cons] at hnodup
    rw [List.foldl_cons]
    rcases List.mem_cons.1 hx with rfl | hmem
    · rw [(foldl_setLink id entries _).2.1 x hnodup.1, route?_setLink, if_pos rfl]
    · have hne : x ≠ entry.2 := by
        rintro rfl
        exact hnodup.1 (List.mem_map.2 ⟨_, hmem, rfl⟩)
      rw [ih hnodup.2 hmem, route?_setLink, if_neg hne]

/-! ### Refilling a slot -/

/-- The forest with other children in one slot: those that leave the slot become roots, and the
listed ones are linked to it. -/
def refill (f : Forest) (id : NodeId) (p : Property) (l : List NodeId) : Forest :=
  ((f.reroute none (f.childrenIn id p)).reroute (some ⟨id, p⟩) l).modifyNode id fun n =>
    n.refill p l

section

variable (f : Forest) (id : NodeId) (p : Property) (l : List NodeId)

/-- A refill writes one node. -/
theorem node?_refill (x : NodeId) :
    (f.refill id p l).node? x =
      if x = id then (f.node? x).map fun n => n.refill p l else f.node? x := by
  rw [refill, node?_modifyNode, node?_reroute, node?_reroute]

/-- A refill links the listed children and cuts the links of the others that were there. -/
theorem route?_refill (x : NodeId) :
    (f.refill id p l).route? x =
      if x ∈ l then (f.route? x).map fun r => .along r.id (some ⟨id, p⟩)
      else if x ∈ f.childrenIn id p then (f.route? x).map fun r => .along r.id none
      else f.route? x := by
  rw [refill, route?_modifyNode, route?_reroute, route?_reroute]
  by_cases hc : x ∈ f.childrenIn id p <;> cases f.route? x <;> simp [hc]

@[simp] lemma lastId_refill : (f.refill id p l).lastId = f.lastId :=
  (lastId_reroute ..).trans (lastId_reroute ..)

@[simp] lemma policy_refill : (f.refill id p l).policy = f.policy :=
  (policy_reroute ..).trans (policy_reroute ..)

/-- A refill neither makes nor drops nodes. -/
@[simp] lemma mem_refill {x : NodeId} : x ∈ f.refill id p l ↔ x ∈ f := by
  rw [mem_iff_isSome_node?, mem_iff_isSome_node?, node?_refill]
  by_cases hx : x = id <;> simp [hx]

/-- A refill keeps the set of nodes that have a route. -/
@[simp] lemma isSome_route?_refill (x : NodeId) :
    ((f.refill id p l).route? x).isSome = (f.route? x).isSome := by
  rw [route?_refill]
  split
  · exact Option.isSome_map
  · split
    · exact Option.isSome_map
    · rfl

variable {f id p l}

/-- A refill keeps the routes upright. -/
lemma Upright.refill (h : f.Upright) : (f.refill id p l).Upright := by
  refine h.of_route? fun x r hr => ?_
  rw [route?_refill] at hr
  split at hr
  · exact .inr ⟨_, h.eq_along_of_map hr⟩
  · split at hr
    · exact .inr ⟨_, h.eq_along_of_map hr⟩
    · exact .inl hr

/-- After a refill with nodes that have a route, each of them is linked to the slot. -/
lemma link?_refill (hl : ∀ x ∈ l, (f.route? x).isSome) (x : NodeId) :
    (f.refill id p l).link? x =
      if x ∈ l then some ⟨id, p⟩ else if x ∈ f.childrenIn id p then none else f.link? x := by
  rw [link?, route?_refill]
  by_cases hx : x ∈ l
  · obtain ⟨r, hr⟩ := Option.isSome_iff_exists.1 (hl x hx)
    simp [hx, hr]
  · by_cases hc : x ∈ f.childrenIn id p
    · cases f.route? x <;> simp [hx, hc]
    · simp [hx, hc, link?]

/-- A refill of a slot that exists and has room changes the children in this slot only. -/
lemma childrenIn_refill (hslot : f.HasSlot id p) (hroom : p.shape = .single → l.length ≤ 1)
    (x : NodeId) (q : Property) :
    (f.refill id p l).childrenIn x q =
      if x = id ∧ q = p then l else f.childrenIn x q := by
  obtain ⟨n, hn, hp⟩ := hslot
  rw [childrenIn, node?_refill]
  by_cases hx : x = id
  · subst hx
    rw [if_pos rfl, hn, Option.map_some, Option.elim_some, Node.childrenIn_refill hp hroom,
      childrenIn_of_node? hn]
    simp
  · rw [if_neg hx, if_neg fun h => hx h.1]
    rfl

/-- A refill keeps the contents of every node. -/
@[simp] lemma content?_refill (x : NodeId) : (f.refill id p l).content? x = f.content? x := by
  rw [content?, node?_refill]
  by_cases hx : x = id
  · subst hx
    cases hn : f.node? x <;> simp [content?, hn]
  · rw [if_neg hx]
    rfl

/-- A refill changes nothing about a node but its slots. -/
@[simp] lemma header?_refill (x : NodeId) : (f.refill id p l).header? x = f.header? x := by
  rw [header?, node?_refill]
  by_cases hx : x = id
  · subst hx
    cases hn : f.node? x <;> simp [header?, hn]
  · rw [if_neg hx]
    rfl

end

/-! ### Taking a node out of its slot -/

/-- The forest with a node taken out of its slot; a root stays as it is. -/
def pluck (f : Forest) (child : NodeId) : Forest :=
  match f.link? child with
  | none => f
  | some ⟨parent, p⟩ => f.refill parent p ((f.childrenIn parent p).erase child)

section

variable {f : Forest} {child parent : NodeId} {p : Property}

lemma pluck_of_link?_none (h : f.link? child = none) : f.pluck child = f := by
  rw [pluck, h]

lemma pluck_of_link? (h : f.link? child = some ⟨parent, p⟩) :
    f.pluck child = f.refill parent p ((f.childrenIn parent p).erase child) := by
  rw [pluck, h]

/-- Taking a node out of its slot neither makes nor drops nodes. -/
@[simp] lemma mem_pluck {x : NodeId} : x ∈ f.pluck child ↔ x ∈ f := by
  rw [pluck]
  split
  · rfl
  · exact mem_refill ..

@[simp] lemma lastId_pluck (f : Forest) (child : NodeId) : (f.pluck child).lastId = f.lastId := by
  rw [pluck]
  split
  · rfl
  · exact lastId_refill ..

@[simp] lemma policy_pluck (f : Forest) (child : NodeId) : (f.pluck child).policy = f.policy := by
  rw [pluck]
  split
  · rfl
  · exact policy_refill ..

/-- Taking a node out of its slot keeps the contents of every node. -/
@[simp] lemma content?_pluck (f : Forest) (child x : NodeId) :
    (f.pluck child).content? x = f.content? x := by
  rw [pluck]
  split
  · rfl
  · exact content?_refill x

/-- Taking a node out of its slot changes nothing about any node but its slots. -/
@[simp] lemma header?_pluck (f : Forest) (child x : NodeId) :
    (f.pluck child).header? x = f.header? x := by
  rw [pluck]
  split
  · rfl
  · exact header?_refill x

end

/-! ### Planting a new node -/

/-- The forest with a new node above its children. -/
def plant (f : Forest) (id : NodeId) (n : Node) : Forest :=
  (n.entries.foldl (fun f entry => f.setLink entry.2 ⟨id, entry.1⟩) f).store id n

section

variable (f : Forest) (id : NodeId) (n : Node)

theorem node?_plant (x : NodeId) :
    (f.plant id n).node? x = if x = id then some (n.withId id) else f.node? x := by
  rw [plant, node?_store, (foldl_setLink id n.entries f).1]

@[simp] lemma lastId_plant : (f.plant id n).lastId = id := rfl

@[simp] lemma policy_plant : (f.plant id n).policy = f.policy :=
  (foldl_setLink id n.entries f).2.2.2

@[simp] lemma mem_plant {x : NodeId} : x ∈ f.plant id n ↔ x = id ∨ x ∈ f := by
  rw [mem_iff_isSome_node?, mem_iff_isSome_node?, node?_plant]
  by_cases hx : x = id <;> simp [hx]

/-- The new node is a root. -/
lemma route?_plant_self : (f.plant id n).route? id = some (.root id) := by
  rw [plant, route?_store, if_pos rfl]

variable {f id n}

/-- The children of the new node are linked to it. -/
lemma route?_plant_of_mem (hnodup : n.children.Nodup) {p : Property} {x : NodeId} (hx : x ≠ id)
    (hmem : x ∈ n.childrenIn p) :
    (f.plant id n).route? x = (f.route? x).map fun r => .along r.id (some ⟨id, p⟩) := by
  rw [plant, route?_store, if_neg hx]
  exact route?_foldl_setLink_of_mem id hnodup (Node.mem_entries.2 hmem) f

/-- All other nodes keep their routes. -/
lemma route?_plant_of_notMem {x : NodeId} (hx : x ≠ id) (hmem : x ∉ n.children) :
    (f.plant id n).route? x = f.route? x := by
  rw [plant, route?_store, if_neg hx]
  exact (foldl_setLink id n.entries f).2.1 x hmem

/-- Planting a node above different children keeps the routes upright. -/
lemma Upright.plant (h : f.Upright) (hnodup : n.children.Nodup) : (f.plant id n).Upright := by
  refine h.of_route? fun x r hr => ?_
  by_cases hx : x = id
  · rw [hx, route?_plant_self] at hr
    exact .inr ⟨none, by rw [← Option.some.inj hr, hx, Route.along_none]⟩
  · by_cases hc : x ∈ n.children
    · obtain ⟨p, hp⟩ := Node.mem_children.1 hc
      rw [route?_plant_of_mem hnodup hx hp] at hr
      exact .inr ⟨_, h.eq_along_of_map hr⟩
    · rw [route?_plant_of_notMem hx hc] at hr
      exact .inl hr

lemma content?_plant (x : NodeId) :
    (f.plant id n).content? x = if x = id then some n.content else f.content? x := by
  rw [content?, node?_plant]
  by_cases hx : x = id
  · rw [if_pos hx, if_pos hx]
    rfl
  · rw [if_neg hx, if_neg hx]
    rfl

lemma childrenIn_plant (x : NodeId) (p : Property) :
    (f.plant id n).childrenIn x p = if x = id then n.childrenIn p else f.childrenIn x p := by
  rw [childrenIn, node?_plant]
  by_cases hx : x = id
  · rw [if_pos hx, if_pos hx]
    rfl
  · rw [if_neg hx, if_neg hx]
    rfl

end

/-! ### Dropping nodes -/

/-- The forest without the listed nodes and their routes. -/
def eraseAll (f : Forest) (ids : List NodeId) : Forest := ids.foldl erase f

section

variable (f : Forest) (ids : List NodeId)

/-- Erasing one more node. -/
lemma erase_eraseAll (id : NodeId) : (f.eraseAll ids).erase id = f.eraseAll (ids ++ [id]) := by
  rw [eraseAll, eraseAll, List.foldl_append]
  rfl

theorem node?_eraseAll (x : NodeId) :
    (f.eraseAll ids).node? x = if x ∈ ids then none else f.node? x := by
  induction ids generalizing f with
  | nil => rfl
  | cons id ids ih =>
    change ((f.erase id).eraseAll ids).node? x = _
    rw [ih, node?_erase]
    by_cases hx : x = id <;> by_cases hl : x ∈ ids <;> simp [hx, hl]

theorem route?_eraseAll (x : NodeId) :
    (f.eraseAll ids).route? x = if x ∈ ids then none else f.route? x := by
  induction ids generalizing f with
  | nil => rfl
  | cons id ids ih =>
    change ((f.erase id).eraseAll ids).route? x = _
    rw [ih, route?_erase]
    by_cases hx : x = id <;> by_cases hl : x ∈ ids <;> simp [hx, hl]

@[simp] lemma lastId_eraseAll : (f.eraseAll ids).lastId = f.lastId := by
  induction ids generalizing f with
  | nil => rfl
  | cons id ids ih => exact ih (f.erase id)

@[simp] lemma policy_eraseAll : (f.eraseAll ids).policy = f.policy := by
  induction ids generalizing f with
  | nil => rfl
  | cons id ids ih => exact ih (f.erase id)

@[simp] lemma mem_eraseAll {x : NodeId} : x ∈ f.eraseAll ids ↔ x ∈ f ∧ x ∉ ids := by
  rw [mem_iff_isSome_node?, mem_iff_isSome_node?, node?_eraseAll]
  by_cases hx : x ∈ ids <;> simp [hx]

lemma childrenIn_eraseAll (x : NodeId) (p : Property) :
    (f.eraseAll ids).childrenIn x p = if x ∈ ids then [] else f.childrenIn x p := by
  rw [childrenIn, node?_eraseAll]
  by_cases hx : x ∈ ids
  · rw [if_pos hx, if_pos hx]
    rfl
  · rw [if_neg hx, if_neg hx]
    rfl

lemma content?_eraseAll (x : NodeId) :
    (f.eraseAll ids).content? x = if x ∈ ids then none else f.content? x := by
  rw [content?, node?_eraseAll]
  by_cases hx : x ∈ ids
  · rw [if_pos hx, if_pos hx]
    rfl
  · rw [if_neg hx, if_neg hx]
    rfl

/-- The routes that are left are upright. -/
lemma Upright.eraseAll {f : Forest} (h : f.Upright) (ids : List NodeId) :
    (f.eraseAll ids).Upright := by
  refine h.of_route? fun x r hr => ?_
  rw [route?_eraseAll] at hr
  split at hr
  · cases hr
  · exact .inl hr

lemma parent?_eraseAll (x : NodeId) :
    (f.eraseAll ids).parent? x = if x ∈ ids then none else f.parent? x := by
  rw [parent?, route?_eraseAll]
  by_cases hx : x ∈ ids
  · rw [if_pos hx, if_pos hx]
    rfl
  · rw [if_neg hx, if_neg hx]
    rfl

lemma link?_eraseAll (x : NodeId) :
    (f.eraseAll ids).link? x = if x ∈ ids then none else f.link? x := by
  rw [link?, route?_eraseAll]
  by_cases hx : x ∈ ids
  · rw [if_pos hx, if_pos hx]
    rfl
  · rw [if_neg hx, if_neg hx]
    rfl

end

end Forest

end SyntaxForest
