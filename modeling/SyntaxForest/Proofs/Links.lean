import SyntaxForest.Proofs.Refill

/-!
# Links in both directions

`Forest.Linked` says that the two directions of every parent–child relation agree: a node is linked
to a slot exactly if it stands there. With it goes that the nodes and the routes have the same
identifiers, that every node knows its own identifier, that every route has a parent exactly if it
has a property (`Forest.Upright`), and that no slot holds a node twice. From these it follows that a
node stands in at most one place of the whole forest (`Forest.Linked.nodup_flatMap_children`).

The relation survives every refill with nodes that stand in the slot already or are roots
(`Forest.Linked.refill`), planting a new node above roots (`Forest.Linked.plant`), and dropping
nodes along with all their neighbours (`Forest.Linked.eraseAll`).
-/

namespace SyntaxForest

namespace Forest

/-- The two directions of every parent–child relation agree. -/
structure Linked (f : Forest) : Prop where
  /-- Exactly the nodes have a route. -/
  routed : ∀ id, (f.route? id).isSome ↔ id ∈ f
  /-- Every route starts from its node and has both a parent and a property or none of them. -/
  upright : f.Upright
  /-- Every node knows its own identifier. -/
  named : ∀ id n, f.node? id = some n → n.id = id
  /-- A node is linked to a slot exactly if it stands there. -/
  link_iff : ∀ child parent p, f.link? child = some ⟨parent, p⟩ ↔ child ∈ f.childrenIn parent p
  /-- No slot holds a node twice. -/
  nodup : ∀ id p, (f.childrenIn id p).Nodup

variable {f : Forest}

/-- No identifier is listed twice. -/
lemma nodup_ids (f : Forest) : f.ids.Nodup := Std.ExtTreeMap.nodup_keys

namespace Linked

/-! ### Consequences -/

/-- The forest without nodes is linked. -/
lemma empty (policy : Policy) : (empty policy).Linked where
  routed id := by simp [mem_iff_isSome_node?]
  upright id r h := by simp at h
  named id n h := by simp at h
  link_iff child parent p := by simp [link?, childrenIn]
  nodup id p := by simp [childrenIn]

/-- A node that has a link exists. -/
lemma mem_of_link? (h : f.Linked) {child : NodeId} {link : Link}
    (hlink : f.link? child = some link) : child ∈ f := by
  obtain ⟨x, hroute⟩ := exists_route?_of_link? hlink
  rw [← h.routed, hroute]
  rfl

/-- The route of a node that exists is the one along its link. -/
lemma route?_eq_some (h : f.Linked) {x : NodeId} (hx : x ∈ f) :
    f.route? x = some (.along x (f.link? x)) :=
  h.upright.route?_eq_along ((h.routed x).2 hx)

/-- A node has the route to a slot exactly if it is linked to the slot. -/
lemma route?_eq_some_iff (h : f.Linked) {x parent : NodeId} {p : Property} (hx : x ∈ f) :
    f.route? x = some ⟨x, some parent, some p⟩ ↔ f.link? x = some ⟨parent, p⟩ := by
  constructor
  · intro hroute
    rw [link?_of_route? hroute]
    rfl
  · intro hlink
    rw [h.route?_eq_some hx, hlink]
    rfl

/-- A node that does not exist has no route. -/
lemma route?_eq_none (h : f.Linked) {x : NodeId} (hx : x ∉ f) : f.route? x = none :=
  Option.not_isSome_iff_eq_none.1 (mt (h.routed x).1 hx)

/-- A node has the same route in two forests if it exists in both or in none and has the same link. -/
lemma route?_congr {g : Forest} (h : f.Linked) (hg : g.Linked) {x : NodeId} (hmem : x ∈ g ↔ x ∈ f)
    (hlink : g.link? x = f.link? x) : g.route? x = f.route? x := by
  by_cases hx : x ∈ f
  · rw [h.route?_eq_some hx, hg.route?_eq_some (hmem.2 hx), hlink]
  · rw [h.route?_eq_none hx, hg.route?_eq_none (mt hmem.1 hx)]

/-- The parent of a node is that of its link. -/
lemma parent?_eq (h : f.Linked) (x : NodeId) : f.parent? x = (f.link? x).map Link.parent := by
  by_cases hx : x ∈ f
  · rw [parent?, h.route?_eq_some hx]
    rfl
  · rw [parent?, link?, h.route?_eq_none hx]
    rfl

/-- The property of a node is that of its link. -/
lemma property?_eq (h : f.Linked) (x : NodeId) :
    f.property? x = (f.link? x).map Link.property := by
  by_cases hx : x ∈ f
  · rw [property?, h.route?_eq_some hx]
    rfl
  · rw [property?, link?, h.route?_eq_none hx]
    rfl

lemma parent?_eq_none_iff (h : f.Linked) {x : NodeId} : f.parent? x = none ↔ f.link? x = none := by
  rw [h.parent?_eq, Option.map_eq_none_iff]

/-- A node that has a parent is linked to a slot of it. -/
lemma exists_link? (h : f.Linked) {child parent : NodeId}
    (hparent : f.parent? child = some parent) : ∃ p, f.link? child = some ⟨parent, p⟩ := by
  rw [h.parent?_eq] at hparent
  obtain ⟨⟨_, p⟩, hlink, rfl⟩ := Option.map_eq_some_iff.1 hparent
  exact ⟨p, hlink⟩

/-- A node that stands in a slot exists. -/
lemma mem_of_mem_childrenIn (h : f.Linked) {child parent : NodeId} {p : Property}
    (hmem : child ∈ f.childrenIn parent p) : child ∈ f :=
  h.mem_of_link? ((h.link_iff child parent p).2 hmem)

/-- The slot that a node is linked to exists. -/
lemma hasSlot_of_link? (h : f.Linked) {child parent : NodeId} {p : Property}
    (hlink : f.link? child = some ⟨parent, p⟩) : f.HasSlot parent p :=
  hasSlot_of_mem_childrenIn ((h.link_iff child parent p).1 hlink)

/-- The parent of a node exists. -/
lemma mem_of_parent? (h : f.Linked) {child parent : NodeId}
    (hparent : f.parent? child = some parent) : parent ∈ f := by
  obtain ⟨p, hlink⟩ := h.exists_link? hparent
  obtain ⟨n, hn, -⟩ := h.hasSlot_of_link? hlink
  exact mem_of_node? hn

/-- The children of a node are those that have it as their parent. -/
theorem mem_children_iff_parent? (h : f.Linked) {child parent : NodeId} :
    child ∈ f.children parent ↔ f.parent? child = some parent := by
  rw [mem_children_iff]
  simp only [← h.link_iff]
  exact ⟨fun ⟨p, hlink⟩ => parent?_of_link? hlink, h.exists_link?⟩

/-- A root stands in no slot. -/
lemma notMem_childrenIn (h : f.Linked) {child : NodeId} (hroot : f.link? child = none)
    (parent : NodeId) (p : Property) : child ∉ f.childrenIn parent p := by
  intro hmem
  rw [← h.link_iff, hroot] at hmem
  cases hmem

/-- A node stands in one slot only. -/
lemma eq_of_mem_childrenIn (h : f.Linked) {child x y : NodeId} {p q : Property}
    (hx : child ∈ f.childrenIn x p) (hy : child ∈ f.childrenIn y q) : x = y ∧ p = q := by
  rw [← h.link_iff] at hx hy
  have heq : (⟨x, p⟩ : Link) = ⟨y, q⟩ := Option.some.inj (hx.symm.trans hy)
  exact ⟨congrArg Link.parent heq, congrArg Link.property heq⟩

/-- No child of a node occurs twice in it. -/
lemma nodup_children (h : f.Linked) {id : NodeId} {n : Node} (hn : f.node? id = some n) :
    n.children.Nodup := by
  refine Node.nodup_children (fun p => ?_) fun p q child hp hq => ?_
  · rw [← childrenIn_of_node? hn]
    exact h.nodup id p
  · rw [← childrenIn_of_node? hn] at hp hq
    exact (h.eq_of_mem_childrenIn hp hq).2

/-- A child that stands in a slot is located there. -/
lemma locate?_of_link? (h : f.Linked) {parent child : NodeId} {p : Property} {n : Node}
    (hn : f.node? parent = some n) (hlink : f.link? child = some ⟨parent, p⟩) :
    ∃ position, n.locate? child = some (p, position) := by
  have hmem : child ∈ n.childrenIn p := by
    rw [← childrenIn_of_node? hn]
    exact (h.link_iff child parent p).1 hlink
  cases hlocate : n.locate? child with
  | none =>
    have hnot := Node.locate?_eq_none_iff.1 hlocate
    exact absurd (Node.mem_children.2 ⟨p, hmem⟩) hnot
  | some place =>
    obtain ⟨q, position⟩ := place
    have hq : child ∈ n.childrenIn q := Node.mem_childrenIn_of_locate? hlocate
    obtain rfl := Node.eq_of_mem_childrenIn (h.nodup_children hn) hmem hq
    exact ⟨position, rfl⟩

/-- No node occurs twice over all slots and positions of all nodes. -/
theorem nodup_flatMap_children (h : f.Linked) : (f.ids.flatMap f.children).Nodup := by
  rw [List.nodup_flatMap]
  constructor
  · intro id hid
    obtain ⟨n, hn⟩ := mem_iff_exists_node?.1 (mem_ids.1 hid)
    rw [children_of_node? hn]
    exact h.nodup_children hn
  · refine f.nodup_ids.imp ?_
    intro x y hxy child hx hy
    obtain ⟨p, hp⟩ := mem_children_iff.1 hx
    obtain ⟨q, hq⟩ := mem_children_iff.1 hy
    exact hxy (h.eq_of_mem_childrenIn hp hq).1

/-- The links follow from the slots: forests that agree on the nodes are the same. -/
theorem eq_of_node? {g : Forest} (hf : f.Linked) (hg : g.Linked)
    (hnode : ∀ id, f.node? id = g.node? id) (hlast : f.lastId = g.lastId)
    (hpolicy : f.policy = g.policy) : f = g := by
  refine ext_link? hf.upright hg.upright hnode (fun id => ?_) (fun id => ?_) hlast hpolicy
  · rw [Bool.eq_iff_iff, hf.routed, hg.routed, mem_iff_isSome_node?, mem_iff_isSome_node?, hnode]
  · refine Option.ext fun link => ?_
    obtain ⟨parent, p⟩ := link
    rw [hf.link_iff, hg.link_iff, childrenIn, childrenIn, hnode]

/-- Forests whose nodes differ in nothing, the children in their slots included, are the same. -/
theorem ext_childrenIn {g : Forest} (hf : f.Linked) (hg : g.Linked)
    (hheader : ∀ id, f.header? id = g.header? id)
    (hchildren : ∀ id p, f.childrenIn id p = g.childrenIn id p) (hlast : f.lastId = g.lastId)
    (hpolicy : f.policy = g.policy) : f = g := by
  refine hf.eq_of_node? hg (fun id => ?_) hlast hpolicy
  have hid := hheader id
  cases hm : f.node? id <;> cases hn : g.node? id <;>
    simp only [header?, hm, hn, Option.map_none, Option.map_some, reduceCtorEq,
      Option.some.injEq] at hid
  · rfl
  · next m n =>
    obtain ⟨hname, hrest⟩ := Prod.mk.inj hid
    obtain ⟨hlocation, hcontent⟩ := Prod.mk.inj hrest
    refine congrArg some (Node.ext_childrenIn hname hlocation hcontent fun p => ?_)
    have hp := hchildren id p
    rwa [childrenIn_of_node? hm, childrenIn_of_node? hn] at hp

end Linked

/-! ### Refilling a slot -/

/-- A list of children may go into a slot: there is room for it, and each of the nodes stands there
already or is a root. -/
structure Admits (f : Forest) (id : NodeId) (p : Property) (l : List NodeId) : Prop where
  slot : f.HasSlot id p
  room : p.shape = .single → l.length ≤ 1
  nodup : l.Nodup
  free : ∀ child ∈ l, child ∈ f.childrenIn id p ∨ child ∈ f ∧ f.link? child = none

namespace Linked

variable {id : NodeId} {p : Property} {l : List NodeId}

/-- The nodes that may go into a slot exist. -/
lemma mem_of_admits (h : f.Linked) (ha : f.Admits id p l) {child : NodeId} (hc : child ∈ l) :
    child ∈ f := by
  rcases ha.free child hc with hmem | ⟨hmem, -⟩
  · exact h.mem_of_mem_childrenIn hmem
  · exact hmem

/-- The nodes that may go into a slot stand in no other one. -/
lemma eq_of_admits (h : f.Linked) (ha : f.Admits id p l) {child x : NodeId} {q : Property}
    (hc : child ∈ l) (hmem : child ∈ f.childrenIn x q) : x = id ∧ q = p := by
  rcases ha.free child hc with hin | ⟨-, hroot⟩
  · exact h.eq_of_mem_childrenIn hmem hin
  · exact absurd hmem (h.notMem_childrenIn hroot x q)

/-- The links after a refill. -/
lemma link?_refill (h : f.Linked) (ha : f.Admits id p l) (x : NodeId) :
    (f.refill id p l).link? x =
      if x ∈ l then some ⟨id, p⟩ else if x ∈ f.childrenIn id p then none else f.link? x :=
  Forest.link?_refill (fun _ hx => (h.routed _).2 (h.mem_of_admits ha hx)) x

/-- A refill keeps the two directions in step. -/
theorem refill (h : f.Linked) (ha : f.Admits id p l) : (f.refill id p l).Linked where
  routed x := by rw [isSome_route?_refill, mem_refill, h.routed]
  upright := h.upright.refill
  named x n hn := by
    rw [node?_refill] at hn
    by_cases hx : x = id
    · rw [if_pos hx] at hn
      obtain ⟨m, hm, rfl⟩ := Option.map_eq_some_iff.1 hn
      exact h.named x m hm
    · rw [if_neg hx] at hn
      exact h.named x n hn
  link_iff child x q := by
    rw [h.link?_refill ha, childrenIn_refill ha.slot ha.room]
    by_cases hc : child ∈ l
    · rw [if_pos hc]
      constructor
      · intro heq
        obtain ⟨rfl, rfl⟩ := Link.mk.inj (Option.some.inj heq)
        rwa [if_pos ⟨rfl, rfl⟩]
      · intro hmem
        have hxq : x = id ∧ q = p := by
          by_contra hne
          rw [if_neg hne] at hmem
          exact hne (h.eq_of_admits ha hc hmem)
        rw [hxq.1, hxq.2]
    · rw [if_neg hc]
      by_cases hin : child ∈ f.childrenIn id p
      · -- The child has lost its place, and it had no other.
        rw [if_pos hin]
        refine iff_of_false (by simp) fun hmem => ?_
        by_cases hxq : x = id ∧ q = p
        · rw [if_pos hxq] at hmem
          exact hc hmem
        · rw [if_neg hxq] at hmem
          exact hxq (h.eq_of_mem_childrenIn hmem hin)
      · rw [if_neg hin, h.link_iff]
        by_cases hxq : x = id ∧ q = p
        · obtain ⟨rfl, rfl⟩ := hxq
          rw [if_pos ⟨rfl, rfl⟩]
          exact iff_of_false hin hc
        · rw [if_neg hxq]
  nodup x q := by
    rw [childrenIn_refill ha.slot ha.room]
    split
    · exact ha.nodup
    · exact h.nodup x q

/-! ### Taking nodes out of their slots -/

/-- A slot admits its own children without one of them. -/
lemma admits_erase (h : f.Linked) {child : NodeId} (hlink : f.link? child = some ⟨id, p⟩) :
    f.Admits id p ((f.childrenIn id p).erase child) where
  slot := h.hasSlot_of_link? hlink
  room hp := Nat.le_trans List.length_erase_le (f.length_childrenIn_le id hp)
  nodup := (h.nodup id p).erase child
  free _ hc := .inl (List.mem_of_mem_erase hc)

/-- Taking a node out of its slot keeps the two directions in step. -/
theorem pluck (h : f.Linked) (child : NodeId) : (f.pluck child).Linked := by
  cases hlink : f.link? child with
  | none =>
    rw [pluck_of_link?_none hlink]
    exact h
  | some link =>
    rw [pluck_of_link? hlink]
    exact h.refill (h.admits_erase hlink)

/-- A node that is taken out of its slot becomes a root, and no other link changes. -/
lemma link?_pluck (h : f.Linked) (child x : NodeId) :
    (f.pluck child).link? x = if x = child then none else f.link? x := by
  cases hlink : f.link? child with
  | none =>
    rw [pluck_of_link?_none hlink]
    by_cases hx : x = child
    · rw [if_pos hx, hx, hlink]
    · rw [if_neg hx]
  | some link =>
    obtain ⟨parent, p⟩ := link
    have hmem : child ∈ f.childrenIn parent p := (h.link_iff ..).1 hlink
    rw [pluck_of_link? hlink, h.link?_refill (h.admits_erase hlink)]
    simp only [(h.nodup parent p).mem_erase_iff]
    by_cases hx : x = child
    · simp [hx, hmem]
    · by_cases hin : x ∈ f.childrenIn parent p
      · simp [hx, hin, (h.link_iff x parent p).2 hin]
      · simp [hx, hin]

/-- A node that is taken out of its slot leaves the others in their order. -/
lemma childrenIn_pluck (h : f.Linked) (child x : NodeId) (q : Property) :
    (f.pluck child).childrenIn x q = (f.childrenIn x q).erase child := by
  cases hlink : f.link? child with
  | none =>
    rw [pluck_of_link?_none hlink, List.erase_of_not_mem (h.notMem_childrenIn hlink x q)]
  | some link =>
    obtain ⟨parent, p⟩ := link
    have ha := h.admits_erase hlink
    have hmem : child ∈ f.childrenIn parent p := (h.link_iff ..).1 hlink
    rw [pluck_of_link? hlink, childrenIn_refill ha.slot ha.room]
    by_cases hxq : x = parent ∧ q = p
    · rw [if_pos hxq, hxq.1, hxq.2]
    · rw [if_neg hxq, List.erase_of_not_mem fun hin => hxq (h.eq_of_mem_childrenIn hin hmem)]

/-- Taking several nodes out of their slots keeps the two directions in step. -/
theorem foldl_pluck (h : f.Linked) (l : List NodeId) : (l.foldl Forest.pluck f).Linked := by
  induction l generalizing f with
  | nil => exact h
  | cons child l ih => exact ih (h.pluck child)

/-- Nodes that are taken out of their slots become roots, and no other link changes. -/
lemma link?_foldl_pluck (h : f.Linked) (l : List NodeId) (x : NodeId) :
    (l.foldl Forest.pluck f).link? x = if x ∈ l then none else f.link? x := by
  induction l generalizing f with
  | nil => rfl
  | cons child l ih =>
    rw [List.foldl_cons, ih (h.pluck child), h.link?_pluck]
    by_cases hx : x = child <;> by_cases hl : x ∈ l <;> simp [hx, hl]

/-- Nodes that are taken out of their slots leave the others in their order. -/
lemma childrenIn_foldl_pluck (h : f.Linked) (l : List NodeId) (x : NodeId) (q : Property) :
    (l.foldl Forest.pluck f).childrenIn x q = (f.childrenIn x q).diff l := by
  induction l generalizing f with
  | nil => rfl
  | cons child l ih => rw [List.foldl_cons, ih (h.pluck child), h.childrenIn_pluck, List.diff_cons]

end Linked

@[simp] lemma mem_foldl_pluck {l : List NodeId} {x : NodeId} :
    x ∈ l.foldl pluck f ↔ x ∈ f := by
  induction l generalizing f with
  | nil => rfl
  | cons child l ih => rw [List.foldl_cons, ih, mem_pluck]

@[simp] lemma lastId_foldl_pluck (l : List NodeId) : (l.foldl pluck f).lastId = f.lastId := by
  induction l generalizing f with
  | nil => rfl
  | cons child l ih => rw [List.foldl_cons, ih, lastId_pluck]

@[simp] lemma content?_foldl_pluck (l : List NodeId) (x : NodeId) :
    (l.foldl pluck f).content? x = f.content? x := by
  induction l generalizing f with
  | nil => rfl
  | cons child l ih => rw [List.foldl_cons, ih, content?_pluck]

@[simp] lemma header?_foldl_pluck (l : List NodeId) (x : NodeId) :
    (l.foldl pluck f).header? x = f.header? x := by
  induction l generalizing f with
  | nil => rfl
  | cons child l ih => rw [List.foldl_cons, ih, header?_pluck]

@[simp] lemma policy_foldl_pluck (l : List NodeId) : (l.foldl pluck f).policy = f.policy := by
  induction l generalizing f with
  | nil => rfl
  | cons child l ih => rw [List.foldl_cons, ih, policy_pluck]

namespace Linked

/-! ### Planting and dropping -/

section

variable {id : NodeId} {n : Node} (h : f.Linked) (hid : id ∉ f) (hnodup : n.children.Nodup)
  (hroots : ∀ child ∈ n.children, child ∈ f ∧ f.link? child = none)

include h hid hnodup hroots

/-- The children of a new node are linked to it. -/
lemma route?_plant {x : NodeId} {p : Property} (hx : x ∈ n.childrenIn p) :
    (f.plant id n).route? x = some (.along x (some ⟨id, p⟩)) := by
  have hc : x ∈ n.children := Node.mem_children.2 ⟨p, hx⟩
  have hne : x ≠ id := by
    rintro rfl
    exact hid (hroots x hc).1
  rw [route?_plant_of_mem hnodup hne hx, h.route?_eq_some (hroots x hc).1]
  rfl

/-- The links and the slots agree after a new node was planted. -/
lemma link?_plant_iff (child parent : NodeId) (q : Property) :
    (f.plant id n).link? child = some ⟨parent, q⟩ ↔ child ∈ (f.plant id n).childrenIn parent q := by
  rw [childrenIn_plant]
  by_cases hc : child ∈ n.children
  · obtain ⟨p, hp⟩ := Node.mem_children.1 hc
    rw [link?_of_route? (h.route?_plant hid hnodup hroots hp), Route.link?_along]
    constructor
    · intro heq
      obtain ⟨rfl, rfl⟩ := Link.mk.inj (Option.some.inj heq)
      rwa [if_pos rfl]
    · intro hmem
      split at hmem
      · next hparent => rw [hparent, Node.eq_of_mem_childrenIn hnodup hp hmem]
      · exact absurd hmem (h.notMem_childrenIn (hroots child hc).2 parent q)
  · by_cases hx : child = id
    · -- The new node is a root, and nobody can have it as a child.
      subst hx
      rw [link?_of_route? (route?_plant_self f child n)]
      refine iff_of_false (by simp) fun hmem => ?_
      split at hmem
      · exact hc (Node.mem_children.2 ⟨q, hmem⟩)
      · exact hid (h.mem_of_mem_childrenIn hmem)
    · have hlink : (f.plant id n).link? child = f.link? child := by
        rw [link?, route?_plant_of_notMem hx hc]
        rfl
      rw [hlink, h.link_iff]
      split
      · next hparent =>
        subst hparent
        refine iff_of_false (fun hmem => ?_) fun hmem => hc (Node.mem_children.2 ⟨q, hmem⟩)
        obtain ⟨m, hm, -⟩ := hasSlot_of_mem_childrenIn hmem
        exact hid (mem_of_node? hm)
      · rfl

/-- Planting a new node above different roots keeps the two directions in step. -/
theorem plant : (f.plant id n).Linked where
  routed x := by
    rw [mem_plant]
    by_cases hx : x = id
    · subst hx
      simp [route?_plant_self]
    · by_cases hc : x ∈ n.children
      · obtain ⟨p, hp⟩ := Node.mem_children.1 hc
        simp [h.route?_plant hid hnodup hroots hp, (hroots x hc).1]
      · rw [route?_plant_of_notMem hx hc, h.routed]
        simp [hx]
  upright := h.upright.plant hnodup
  named x m hm := by
    rw [node?_plant] at hm
    by_cases hx : x = id
    · rw [if_pos hx] at hm
      rw [← Option.some.inj hm, hx]
      rfl
    · rw [if_neg hx] at hm
      exact h.named x m hm
  link_iff := h.link?_plant_iff hid hnodup hroots
  nodup x q := by
    rw [childrenIn_plant]
    split
    · exact Node.nodup_childrenIn hnodup q
    · exact h.nodup x q

end

/-- Dropping nodes keeps the two directions in step if a child is dropped exactly when its parent
is. -/
theorem eraseAll (h : f.Linked) {ids : List NodeId}
    (hclosed : ∀ child parent, f.parent? child = some parent → (child ∈ ids ↔ parent ∈ ids)) :
    (f.eraseAll ids).Linked where
  routed x := by
    rw [route?_eraseAll, mem_eraseAll, ← h.routed]
    by_cases hx : x ∈ ids <;> simp [hx]
  upright := h.upright.eraseAll ids
  named x n hn := by
    rw [node?_eraseAll] at hn
    split at hn
    · cases hn
    · exact h.named x n hn
  link_iff child parent p := by
    rw [link?_eraseAll, childrenIn_eraseAll]
    by_cases hlink : f.link? child = some ⟨parent, p⟩
    · have hiff := hclosed child parent (parent?_of_link? hlink)
      have hmem := (h.link_iff child parent p).1 hlink
      by_cases hx : child ∈ ids
      · simp [hx, hiff.1 hx]
      · simp [hx, mt hiff.2 hx, hlink, hmem]
    · have hmem := mt (h.link_iff child parent p).2 hlink
      split <;> split <;> simp [hlink, hmem]
  nodup x q := by
    rw [childrenIn_eraseAll]
    split
    · exact List.nodup_nil
    · exact h.nodup x q

end Linked

end Forest

/-! ### The elementary steps of editors -/

/-- The forest with one node changed, the link of the child that leaves one of its slots cut, and
the child that comes in linked to this slot. -/
def Forest.exchange (f : Forest) (id : NodeId) (p : Property) (change : Node → Node)
    (gone new : Option NodeId) : Forest :=
  let written := f.modifyNode id change
  let cut := gone.elim written written.clearLink
  new.elim cut fun child => cut.setLink child ⟨id, p⟩

/-- An exchange keeps the routes upright. -/
lemma Forest.Upright.exchange {f : Forest} (h : f.Upright) {id : NodeId} {p : Property}
    {change : Node → Node} {gone new : Option NodeId} :
    (f.exchange id p change gone new).Upright := by
  have hwritten : (f.modifyNode id change).Upright := h
  have hcut : (gone.elim (f.modifyNode id change) (f.modifyNode id change).clearLink).Upright := by
    cases gone with
    | none => exact hwritten
    | some x => exact hwritten.clearLink x
  cases new with
  | none => exact hcut
  | some x => exact hcut.setLink x ⟨id, p⟩

/-- The links after an exchange. -/
lemma Forest.link?_exchange {f : Forest} {id : NodeId} {p : Property} {change : Node → Node}
    {gone new : Option NodeId} (hnew : ∀ y, new = some y → (f.route? y).isSome) (x : NodeId) :
    (f.exchange id p change gone new).link? x =
      if new = some x then some ⟨id, p⟩ else if gone = some x then none else f.link? x := by
  have hcut : (gone.elim (f.modifyNode id change) (f.modifyNode id change).clearLink).link? x =
      if gone = some x then none else f.link? x := by
    cases gone with
    | none => rfl
    | some y =>
      rw [Option.elim_some, link?_clearLink]
      simp only [Option.some.injEq, eq_comm (a := y)]
      rfl
  cases new with
  | none => exact hcut
  | some y =>
    unfold exchange
    rw [Option.elim_some, link?_setLink, hcut]
    · simp only [Option.some.injEq, eq_comm (a := y)]
    · have hroute := hnew y rfl
      cases gone <;> simpa using hroute

/-- The listed children are those that a slot holds after one of its children has left and another
one has come in. -/
structure Forest.Exchanges (f : Forest) (id : NodeId) (p : Property) (gone new : Option NodeId)
    (l : List NodeId) : Prop where
  admits : f.Admits id p l
  leaves : ∀ x, gone = some x → x ∈ f.childrenIn id p ∧ new ≠ some x
  mem_iff : ∀ x, x ∈ l ↔ new = some x ∨ x ∈ f.childrenIn id p ∧ gone ≠ some x

/-- A refill that exchanges children links the one that has come in, and only the one that has left
loses its link. -/
lemma Forest.Linked.link?_refill_of_exchanges {f : Forest} (h : f.Linked) {id : NodeId}
    {p : Property} {gone new : Option NodeId} {l : List NodeId} (hl : f.Exchanges id p gone new l)
    (x : NodeId) :
    (f.refill id p l).link? x =
      if new = some x then some ⟨id, p⟩ else if gone = some x then none else f.link? x := by
  rw [h.link?_refill hl.admits]
  by_cases hnew : new = some x
  · rw [if_pos hnew, if_pos ((hl.mem_iff x).2 (.inl hnew))]
  · rw [if_neg hnew]
    by_cases hx : gone = some x
    · have hxl : x ∉ l := fun hmem => ((hl.mem_iff x).1 hmem).elim hnew fun h => h.2 hx
      rw [if_pos hx, if_neg hxl, if_pos (hl.leaves x hx).1]
    · -- What stays in the slot keeps the link that it has.
      rw [if_neg hx]
      by_cases hin : x ∈ f.childrenIn id p
      · rw [if_pos ((hl.mem_iff x).2 (.inr ⟨hin, hx⟩)), (h.link_iff x id p).2 hin]
      · have hxl : x ∉ l := fun hmem => ((hl.mem_iff x).1 hmem).elim hnew fun h => hin h.1
        rw [if_neg hxl, if_neg hin]

/-- An exchange that writes the children which are due in the slot is a refill. -/
theorem Forest.Linked.exchange_eq_refill {f : Forest} (h : f.Linked) {id : NodeId} {p : Property}
    {l : List NodeId} {change : Node → Node} {gone new : Option NodeId}
    (hl : f.Exchanges id p gone new l)
    (hchange : ∀ n, f.node? id = some n → change n = n.refill p l) :
    f.exchange id p change gone new = f.refill id p l := by
  have hroute : ∀ y, new = some y → (f.route? y).isSome := by
    intro y hy
    exact (h.routed y).2 (h.mem_of_admits hl.admits ((hl.mem_iff y).2 (.inl hy)))
  refine ext_link? h.upright.exchange h.upright.refill (fun x => ?_) (fun x => ?_) (fun x => ?_)
    ?_ ?_
  · have hnode : (f.exchange id p change gone new).node? x = (f.modifyNode id change).node? x := by
      cases gone <;> cases new <;> rfl
    rw [hnode, node?_modifyNode, node?_refill]
    by_cases hx : x = id
    · subst hx
      rw [if_pos rfl, if_pos rfl]
      exact Option.map_congr hchange
    · rw [if_neg hx, if_neg hx]
  · rw [isSome_route?_refill]
    cases gone <;> cases new <;> simp [exchange]
  · rw [link?_exchange hroute, h.link?_refill_of_exchanges hl]
  · rw [lastId_refill]
    cases gone <;> cases new <;> rfl
  · rw [policy_refill]
    cases gone <;> cases new <;> rfl

namespace Editor

/-- Taking a node out of its slot, as an editor does it, plucks it. -/
theorem forest_unlink {e : Editor} (h : e.forest.Linked) (child : NodeId) :
    (e.unlink child).forest = e.forest.pluck child := by
  cases hlink : e.forest.link? child with
  | none => rw [Forest.pluck_of_link?_none hlink, unlink, hlink]
  | some link =>
    obtain ⟨parent, p⟩ := link
    have hmem : child ∈ e.forest.childrenIn parent p := (h.link_iff ..).1 hlink
    have hforest : (e.unlink child).forest =
        e.forest.exchange parent p (fun n => n.eraseChild p child) (some child) none := by
      rw [unlink, hlink]
      rfl
    rw [Forest.pluck_of_link? hlink, hforest]
    refine h.exchange_eq_refill ⟨h.admits_erase hlink, fun x hx => ?_, fun x => ?_⟩ fun n hn => ?_
    · obtain rfl := Option.some.inj hx
      exact ⟨hmem, by simp⟩
    · rw [(h.nodup parent p).mem_erase_iff]
      simp [and_comm, eq_comm]
    · rw [Node.eraseChild_eq_refill, Forest.childrenIn_of_node? hn]

/-- Taking several nodes out of their slots plucks them. -/
theorem forest_foldl_unlink {e : Editor} (h : e.forest.Linked) (l : List NodeId) :
    (l.foldl unlink e).forest = l.foldl Forest.pluck e.forest := by
  induction l generalizing e with
  | nil => rfl
  | cons child l ih =>
    have hstep := forest_unlink h child
    rw [List.foldl_cons, List.foldl_cons, ← hstep]
    refine ih ?_
    rw [hstep]
    exact h.pluck child

/-- Linking children to their slots sets their links. -/
lemma forest_foldl_attach (e : Editor) (id : NodeId) (entries : List (Property × NodeId)) :
    (entries.foldl (fun e entry => e.attach entry.2 id entry.1) e).forest =
      entries.foldl (fun f entry => f.setLink entry.2 ⟨id, entry.1⟩) e.forest := by
  induction entries generalizing e with
  | nil => rfl
  | cons entry entries ih => exact ih (e.attach entry.2 id entry.1)

end Editor

end SyntaxForest
