import SyntaxForest.Forest

/-!
# Laws of the elementary writes

A forest is seen through `Forest.node?` and `Forest.route?`. Each elementary write has one equation
for each of the two views. A route that is written has both a parent and a property or none of them:
it is the route along a link or the route of a root (`Route.along`).
-/

namespace SyntaxForest

namespace Route

/-- The route from a node along a link, or that of a root if there is none. -/
def along (id : NodeId) (link : Option Link) : Route :=
  ⟨id, link.map Link.parent, link.map Link.property⟩

theorem along_none (id : NodeId) : along id none = root id := rfl

@[simp] theorem link?_root (id : NodeId) : (root id).link? = none := rfl

@[simp] theorem id_along (id : NodeId) (link : Option Link) : (along id link).id = id := rfl

@[simp] theorem link?_along (id : NodeId) (link : Option Link) : (along id link).link? = link := by
  cases link <;> rfl

/-- The parts of a route along a link are there or missing together. -/
theorem isSome_along (id : NodeId) (link : Option Link) :
    (along id link).parent.isSome ↔ (along id link).property.isSome := by
  cases link <;> simp [along]

/-- A route whose parts are there or missing together is the route along its link. -/
theorem eq_along {r : Route} (h : r.parent.isSome ↔ r.property.isSome) :
    r = along r.id r.link? := by
  obtain ⟨id, parent, property⟩ := r
  cases parent <;> cases property
  · rfl
  · simp at h
  · simp at h
  · rfl

/-- A route that gives a link has its parts from it. -/
theorem eq_along_of_link? {r : Route} {link : Link} (h : r.link? = some link) :
    r = along r.id (some link) := by
  obtain ⟨id, parent, property⟩ := r
  cases parent <;> cases property <;> cases h
  rfl

end Route

namespace Forest

/-- Two forests that look alike in both views, with the same last identifier and the same
policies, are the same. -/
@[ext] theorem ext {f g : Forest} (hnode : ∀ id, f.node? id = g.node? id)
    (hroute : ∀ id, f.route? id = g.route? id) (hlast : f.lastId = g.lastId)
    (hpolicy : f.policy = g.policy) : f = g := by
  cases f; cases g
  cases hlast; cases hpolicy
  have hn := Std.ExtTreeMap.ext_getElem? hnode
  have hr := Std.ExtTreeMap.ext_getElem? hroute
  cases hn; cases hr
  rfl

/-- The identifiers of a forest are those of its nodes. -/
theorem mem_iff_isSome_node? {f : Forest} {id : NodeId} : id ∈ f ↔ (f.node? id).isSome :=
  Std.ExtTreeMap.mem_iff_isSome_getElem?

@[simp] theorem mem_ids {f : Forest} {id : NodeId} : id ∈ f.ids ↔ id ∈ f :=
  Std.ExtTreeMap.mem_keys

/-! ### The forest without nodes -/

@[simp] theorem node?_empty (policy : Policy) (id : NodeId) : (empty policy).node? id = none :=
  Std.ExtTreeMap.getElem?_empty

@[simp] theorem route?_empty (policy : Policy) (id : NodeId) : (empty policy).route? id = none :=
  Std.ExtTreeMap.getElem?_empty

/-! ### What a write does to the nodes -/

theorem node?_store (f : Forest) (id : NodeId) (n : Node) (x : NodeId) :
    (f.store id n).node? x = if x = id then some (n.withId id) else f.node? x := by
  simp only [node?, store, Std.ExtTreeMap.getElem?_insert, Std.LawfulEqOrd.compare_eq_iff_eq,
    @eq_comm NodeId x]

theorem node?_modifyNode (f : Forest) (id : NodeId) (change : Node → Node) (x : NodeId) :
    (f.modifyNode id change).node? x = if x = id then (f.node? x).map change else f.node? x := by
  simp only [node?, modifyNode, Std.ExtTreeMap.getElem?_modify, Std.LawfulEqOrd.compare_eq_iff_eq]
  by_cases h : id = x
  · subst h; simp
  · simp [h, Ne.symm h]

@[simp] theorem node?_setLink (f : Forest) (id : NodeId) (link : Link) (x : NodeId) :
    (f.setLink id link).node? x = f.node? x := rfl

@[simp] theorem node?_clearLink (f : Forest) (id x : NodeId) :
    (f.clearLink id).node? x = f.node? x := rfl

theorem node?_erase (f : Forest) (id x : NodeId) :
    (f.erase id).node? x = if x = id then none else f.node? x := by
  simp only [node?, erase, Std.ExtTreeMap.getElem?_erase, Std.LawfulEqOrd.compare_eq_iff_eq,
    @eq_comm NodeId x]

/-! ### What a write does to the routes -/

theorem route?_store (f : Forest) (id : NodeId) (n : Node) (x : NodeId) :
    (f.store id n).route? x = if x = id then some (.root id) else f.route? x := by
  simp only [route?, store, Std.ExtTreeMap.getElem?_insert, Std.LawfulEqOrd.compare_eq_iff_eq,
    @eq_comm NodeId x]

@[simp] theorem route?_modifyNode (f : Forest) (id : NodeId) (change : Node → Node) (x : NodeId) :
    (f.modifyNode id change).route? x = f.route? x := rfl

theorem route?_setLink (f : Forest) (id : NodeId) (link : Link) (x : NodeId) :
    (f.setLink id link).route? x =
      if x = id then (f.route? x).map fun r => .along r.id (some link) else f.route? x := by
  simp only [route?, setLink, Std.ExtTreeMap.getElem?_modify, Std.LawfulEqOrd.compare_eq_iff_eq]
  by_cases h : id = x
  · subst h; simp [Route.along]
  · simp [h, Ne.symm h]

theorem route?_clearLink (f : Forest) (id x : NodeId) :
    (f.clearLink id).route? x =
      if x = id then (f.route? x).map fun r => .along r.id none else f.route? x := by
  simp only [route?, clearLink, Std.ExtTreeMap.getElem?_modify, Std.LawfulEqOrd.compare_eq_iff_eq]
  by_cases h : id = x
  · subst h; simp [Route.along]
  · simp [h, Ne.symm h]

theorem route?_erase (f : Forest) (id x : NodeId) :
    (f.erase id).route? x = if x = id then none else f.route? x := by
  simp only [route?, erase, Std.ExtTreeMap.getElem?_erase, Std.LawfulEqOrd.compare_eq_iff_eq,
    @eq_comm NodeId x]

end Forest

end SyntaxForest
