import SyntaxForest.Proofs.Outcomes

/-!
# Placing children

Filling a single slot, appending to a list slot and putting a new child in the place of an old one
all write one slot: a child comes into it, out of the slot where it stood before, and at most one
child loses its place. `Forest.Placed` says what that does to a forest, and that it does nothing
else. Every change that takes a child out of its slot and then exchanges the children of one slot is
of this kind (`Forest.Linked.placed`).

With the conditions under which the three edits are not refused this gives all there is to know
about them (`Editor.Reachable.filling_places_child`, `Editor.Reachable.appending_places_child`,
`Editor.Reachable.substituting_places_child`). The conditions are those of `Forest.Attachable` and
`Forest.Replaceable`, in terms of what can be seen of a forest: parents, ancestors, alternatives,
and the categories that slots accept.
-/

namespace SyntaxForest

open Relation

namespace Forest

/-! ### What placing a child does -/

/-- Of two forests the second one is the first one with a child placed in a slot, where another one
has lost its place. -/
structure Placed (f g : Forest) (parent : NodeId) (p : Property) (child gone : Option NodeId)
    (slot : List NodeId) : Prop where
  /-- The slot holds the listed children. -/
  slot_eq : g.childrenIn parent p = slot
  /-- The child that has come in is linked to the slot. -/
  linked : ∀ c, child = some c → g.route? c = some ⟨c, some parent, some p⟩
  /-- The child that has lost its place is there as a root. -/
  root : ∀ c, gone = some c → c ∈ g ∧ g.route? c = some (.root c)
  /-- If the child has left another slot, this slot holds the others in their order. -/
  former : ∀ c x q, child = some c → f.link? c = some ⟨x, q⟩ → ¬ (x = parent ∧ q = p) →
    g.childrenIn x q = (f.childrenIn x q).erase c
  /-- Every other slot holds what it held. -/
  slots : ∀ x q, ¬ (x = parent ∧ q = p) → (∀ c, child = some c → f.link? c ≠ some ⟨x, q⟩) →
    g.childrenIn x q = f.childrenIn x q
  /-- Every other node has the route it had. -/
  routes : ∀ x, child ≠ some x → gone ≠ some x → g.route? x = f.route? x
  /-- No node has come or gone. -/
  mem : ∀ x, x ∈ g ↔ x ∈ f
  /-- Nothing else about the nodes has changed. -/
  header : ∀ x, g.header? x = f.header? x
  lastId : g.lastId = f.lastId
  policy : g.policy = f.policy

variable {f : Forest} {parent : NodeId} {p : Property}

namespace Linked

variable (hf : f.Linked)

include hf

/-- Only the child that has left its slot has lost its link. -/
lemma link?_freed {child : Option NodeId} {x : NodeId} (hx : child ≠ some x) :
    (child.elim f f.pluck).link? x = f.link? x := by
  cases child with
  | none => rfl
  | some c =>
    have hne : x ≠ c := fun heq => hx (congrArg some heq.symm)
    rw [Option.elim_some, hf.link?_pluck, if_neg hne]

/-- A child that leaves its slot and comes into another one, in exchange for at most one of the
children there, is placed in it. -/
theorem placed (child : Option NodeId) {gone : Option NodeId} {slot : List NodeId}
    (h : (child.elim f f.pluck).Exchanges parent p gone child slot) :
    f.Placed ((child.elim f f.pluck).refill parent p slot) parent p child gone slot := by
  have hfreed : (child.elim f f.pluck).Linked := hf.freed child
  have hlinked := hfreed.refill h.admits
  have hlink := hfreed.link?_refill_of_exchanges h
  have hchildren := childrenIn_refill h.admits.slot h.admits.room
  have hmem : ∀ x, x ∈ (child.elim f f.pluck).refill parent p slot ↔ x ∈ f := by
    intro x
    rw [mem_refill]
    cases child <;> simp
  refine ⟨?_, fun c hc => ?_, fun c hc => ?_, fun c x q hc hformer hother => ?_,
    fun x q hother hfree => ?_, fun x hchild hgone => ?_, hmem, fun x => ?_, ?_, ?_⟩
  · rw [hchildren, if_pos ⟨rfl, rfl⟩]
  · have hexists := hfreed.mem_of_admits h.admits ((h.mem_iff c).2 (.inl hc))
    rw [hlinked.route?_eq_some_iff ((mem_refill ..).2 hexists), hlink, if_pos hc]
  · obtain ⟨hin, hne⟩ := h.leaves c hc
    have hexists : c ∈ (child.elim f f.pluck).refill parent p slot :=
      (mem_refill ..).2 (hfreed.mem_of_mem_childrenIn hin)
    refine ⟨hexists, ?_⟩
    rw [hlinked.route?_eq_some hexists, hlink, if_neg hne, if_pos hc, Route.along_none]
  · subst hc
    rw [hchildren, if_neg hother, Option.elim_some, hf.childrenIn_pluck]
  · rw [hchildren, if_neg hother]
    cases child with
    | none => rfl
    | some c =>
      rw [Option.elim_some, hf.childrenIn_pluck, List.erase_of_not_mem]
      exact fun hin => hfree c rfl ((hf.link_iff c x q).2 hin)
  · apply hf.route?_congr hlinked (hmem x)
    rw [hlink, if_neg hchild, if_neg hgone, hf.link?_freed hchild]
  · rw [header?_refill]
    cases child <;> simp
  · rw [lastId_refill]
    cases child <;> simp
  · rw [policy_refill]
    cases child <;> simp

end Linked

/-! ### When a child may be placed -/

/-- A node has a slot of a property and a shape. -/
def HasSlotOf (f : Forest) (id : NodeId) (p : Property) (shape : Shape) : Prop :=
  ∃ n s, f.node? id = some n ∧ n.slot? p = some s ∧ s.shape = shape

/-- A node exists and counts as what a slot accepts. -/
def Suits (f : Forest) (parent : NodeId) (p : Property) (x : NodeId) : Prop :=
  ∃ n m, f.node? parent = some n ∧ f.node? x = some m ∧ n.accepts? p = some m.slotCategory

/-- An ambiguity that has a node among its alternatives has two others. -/
def Spareable (f : Forest) (x : NodeId) : Prop :=
  ∀ a, x ∈ f.alternatives a → 3 ≤ (f.alternatives a).length

/-- A node may be placed in a slot. -/
structure Placeable (f : Forest) (parent : NodeId) (p : Property) (x : NodeId) : Prop where
  suits : f.Suits parent p x
  takable : f.parent? x = none ∨ f.policy.reattach = .detach
  spareable : f.Spareable x
  ne_parent : x ≠ parent
  notMem_ancestors : x ∉ f.ancestors parent

/-- A new node may be placed where an old one stands. -/
structure Supplants (f : Forest) (parent : NodeId) (p : Property) (old new : NodeId) : Prop where
  child : old ∈ f.childrenIn parent p
  ne : new ≠ old
  suits : f.Suits parent p new
  ne_parent : new ≠ parent
  notMem_ancestors : new ∉ f.ancestors parent
  loose : f.parent? new = none ∨ f.parent? new = some old ∨
    f.policy.reattach = .detach ∧ (∃ x, f.parent? new = some x ∧ x ≠ old) ∧ f.Spareable new

lemma hasSlotOf_iff {id : NodeId} {shape : Shape} :
    f.HasSlotOf id p shape ↔ f.HasSlot id p ∧ p.shape = shape := by
  constructor
  · rintro ⟨n, s, hn, hs, rfl⟩
    refine ⟨⟨n, hn, ?_⟩, (Node.shape_of_slot? hs).symm⟩
    rw [← Node.isSome_slot?_iff, hs]
    rfl
  · rintro ⟨⟨n, hn, hp⟩, rfl⟩
    obtain ⟨s, hs⟩ := Option.isSome_iff_exists.1 (Node.isSome_slot?_iff.2 hp)
    exact ⟨n, s, hn, hs, Node.shape_of_slot? hs⟩

/-- What suits a slot is what fits it. -/
lemma suits_iff {x : NodeId} (hslot : f.HasSlot parent p) :
    f.Suits parent p x ↔
      ∀ content, f.content? parent = some content → f.Fits x (content.accepts p) := by
  obtain ⟨n, hn, hp⟩ := hslot
  have haccepts : ∀ c, n.accepts? p = some c ↔ c = n.content.accepts p := by
    intro c
    rw [Node.accepts?_eq_some_iff, eq_comm (a := c)]
    exact and_iff_right hp
  simp only [content?_of_node? hn, Option.some.injEq, forall_eq']
  constructor
  · rintro ⟨n', m, hn', hm, hc⟩
    obtain rfl := Option.some.inj (hn.symm.trans hn')
    exact ⟨m, hm, (haccepts _).1 hc⟩
  · rintro ⟨m, hm, hc⟩
    exact ⟨n, m, hn, hm, (haccepts _).2 hc⟩

/-- A node can be spared exactly if taking it away starves no ambiguity. -/
lemma Linked.spareable_iff (hf : f.Linked) {x : NodeId} : f.Spareable x ↔ f.Detachable [x] := by
  simp only [Spareable, detachable_singleton_iff, alternatives_eq_childrenIn, hf.link_iff]

namespace Sound

variable (h : f.Sound)

include h

/-- A node is not above another one exactly if it is neither this one nor an ancestor of it. -/
lemma not_reflTransGen_iff {x : NodeId} :
    ¬ ReflTransGen f.Above x parent ↔ x ≠ parent ∧ x ∉ f.ancestors parent := by
  rw [reflTransGen_iff_eq_or_transGen, ← mem_ancestors_iff h.linked h.grounded, not_or, ne_comm]

/-- The nodes that may be placed in a slot are those that may be attached there. -/
theorem placeable_iff {x : NodeId} (hslot : f.HasSlot parent p) :
    f.Placeable parent p x ↔ f.Attachable parent p x := by
  constructor
  · rintro ⟨hsuits, htakable, hspareable, hne, hnot⟩
    exact ⟨(suits_iff hslot).1 hsuits, htakable, h.linked.spareable_iff.1 hspareable,
      h.not_reflTransGen_iff.2 ⟨hne, hnot⟩⟩
  · rintro ⟨hfits, htakable, hdetachable, hbelow⟩
    obtain ⟨hne, hnot⟩ := h.not_reflTransGen_iff.1 hbelow
    exact ⟨(suits_iff hslot).2 hfits, htakable, h.linked.spareable_iff.2 hdetachable, hne, hnot⟩

/-- There is no child, or it may be placed, exactly if the child may be attached if there is one. -/
lemma forall_attachable_iff {child : Option NodeId} (hslot : f.HasSlot parent p) :
    (∀ c, child = some c → f.Attachable parent p c) ↔
      child = none ∨ ∃ x, child = some x ∧ f.Placeable parent p x := by
  cases child with
  | none => simp
  | some x => simp [h.placeable_iff hslot]

/-- A new node may be placed where an old one stands exactly if it is another one that may replace
it. -/
theorem supplants_iff {old new : NodeId} :
    f.Supplants parent p old new ↔
      f.link? old = some ⟨parent, p⟩ ∧ old ≠ new ∧ f.Replaceable parent p old new := by
  have hlink := h.linked.link_iff old parent p
  constructor
  · rintro ⟨hchild, hne, hsuits, hparent, hnot, hloose⟩
    refine ⟨hlink.2 hchild, hne.symm, (suits_iff (hasSlot_of_mem_childrenIn hchild)).1 hsuits, ?_,
      h.not_reflTransGen_iff.2 ⟨hparent, hnot⟩⟩
    rcases hloose with hroot | hold | ⟨hpolicy, -, hspareable⟩
    · -- A root is an alternative of nothing, so taking it away starves no ambiguity.
      refine .inr ⟨.inl hroot, detachable_singleton_iff.2 fun a ha => ?_⟩
      rw [h.linked.parent?_eq_none_iff.1 hroot] at ha
      cases ha
    · exact .inl hold
    · exact .inr ⟨.inr hpolicy, h.linked.spareable_iff.1 hspareable⟩
  · rintro ⟨hold, hne, hfits, hloose, hbelow⟩
    have hchild := hlink.1 hold
    obtain ⟨hparent, hnot⟩ := h.not_reflTransGen_iff.1 hbelow
    refine ⟨hchild, hne.symm, (suits_iff (hasSlot_of_mem_childrenIn hchild)).2 hfits, hparent, hnot,
      ?_⟩
    rcases hloose with hfrom | ⟨htakable, hdetachable⟩
    · exact .inr (.inl hfrom)
    · cases hnew : f.parent? new with
      | none => exact .inl rfl
      | some x =>
        by_cases hx : x = old
        · exact .inr (.inl (congrArg some hx))
        · have hpolicy : f.policy.reattach = .detach := htakable.resolve_left (by simp [hnew])
          exact .inr (.inr ⟨hpolicy, ⟨x, rfl, hx⟩, h.linked.spareable_iff.2 hdetachable⟩)

end Sound

end Forest

namespace Edit

/-- Three statements become a block, and the block becomes the body of a loop. -/
def loopOverBlock : List Edit :=
  [insertOver .nullStatement [], insertOver .nullStatement [], insertOver .nullStatement [],
    insertOver .compoundStatement [⟨1⟩, ⟨2⟩, ⟨3⟩], insertOver .whileStatement [],
    .fill ⟨5⟩ .body (some ⟨4⟩)]

end Edit

namespace Editor

open Forest

section

variable {e : Editor} (h : e.forest.Sound)

include h

/-- A child, or none, can be put into a slot exactly if the slot is a single one and holds this child
already, or the child may be placed there, or there is none. -/
lemma isOk_fill_iff (parent : NodeId) (p : Property) (child : Option NodeId) :
    (e.fill parent p child).1.isOk ↔
      e.forest.HasSlotOf parent p .single ∧
        (child = e.forest.childIn? parent p ∨ child = none ∨
          ∃ x, child = some x ∧ e.forest.Placeable parent p x) := by
  rw [isOk_iff_change h (.fill parent p child) rfl]
  constructor
  · rintro ⟨_, _, hchange⟩
    cases hchange with
    | settled hslot hshape heq => exact ⟨hasSlotOf_iff.2 ⟨hslot, hshape⟩, .inl heq⟩
    | fill hslot hshape _ hattachable =>
      exact ⟨hasSlotOf_iff.2 ⟨hslot, hshape⟩, .inr ((h.forall_attachable_iff hslot).1 hattachable)⟩
  · rintro ⟨hslotOf, hchild⟩
    obtain ⟨hslot, hshape⟩ := hasSlotOf_iff.1 hslotOf
    by_cases heq : child = e.forest.childIn? parent p
    · exact ⟨_, _, .settled hslot hshape heq⟩
    · have hattachable := (h.forall_attachable_iff hslot).2 (hchild.resolve_left heq)
      exact ⟨_, _, .fill hslot hshape heq hattachable⟩

/-- A child, or none, can be appended to a slot exactly if the slot is a list and the child may be
placed there, or there is none. -/
lemma isOk_append_iff (parent : NodeId) (p : Property) (child : Option NodeId) :
    (e.append parent p child).1.isOk ↔
      e.forest.HasSlotOf parent p .list ∧
        (child = none ∨ ∃ x, child = some x ∧ e.forest.Placeable parent p x) := by
  rw [isOk_iff_change h (.append parent p child) rfl]
  constructor
  · rintro ⟨_, _, hchange⟩
    cases hchange with
    | appendNone hslot hshape => exact ⟨hasSlotOf_iff.2 ⟨hslot, hshape⟩, .inl rfl⟩
    | append hslot hshape hattachable =>
      exact ⟨hasSlotOf_iff.2 ⟨hslot, hshape⟩,
        .inr ⟨_, rfl, (h.placeable_iff hslot).2 hattachable⟩⟩
  · rintro ⟨hslotOf, hchild⟩
    obtain ⟨hslot, hshape⟩ := hasSlotOf_iff.1 hslotOf
    rcases hchild with rfl | ⟨x, rfl, hplaceable⟩
    · exact ⟨_, _, .appendNone hslot hshape⟩
    · exact ⟨_, _, .append hslot hshape ((h.placeable_iff hslot).1 hplaceable)⟩

/-- A new child can be put in the place of an old one exactly if the parent exists and does not hold
the old one, which the policy overlooks, or holds it and is to keep it, or holds it where the new one
may be placed. -/
lemma isOk_substitute_iff (parent old new : NodeId) :
    (e.substitute parent old new).1.isOk ↔
      parent ∈ e.forest ∧
        (old ∉ e.forest.children parent ∧ e.forest.policy.missingChild = .ignore ∨
          old ∈ e.forest.children parent ∧ new = old ∨
          ∃ p, e.forest.Supplants parent p old new) := by
  rw [isOk_iff_change h (.substitute parent old new) rfl]
  constructor
  · rintro ⟨_, _, hchange⟩
    cases hchange with
    | overlooked hparent hnot hpolicy => exact ⟨hparent, .inl ⟨hnot, hpolicy⟩⟩
    | stay hparent =>
      exact ⟨h.linked.mem_of_parent? hparent,
        .inr (.inl ⟨h.linked.mem_children_iff_parent?.2 hparent, rfl⟩)⟩
    | @substitute _ _ _ p hlink hne hreplaceable =>
      exact ⟨h.linked.mem_of_parent? (above_of_link? hlink),
        .inr (.inr ⟨p, h.supplants_iff.2 ⟨hlink, hne, hreplaceable⟩⟩)⟩
  · rintro ⟨hparent, ⟨hnot, hpolicy⟩ | ⟨hin, rfl⟩ | ⟨p, hsupplants⟩⟩
    · exact ⟨_, _, .overlooked hparent hnot hpolicy⟩
    · exact ⟨_, _, .stay (h.linked.mem_children_iff_parent?.1 hin)⟩
    · obtain ⟨hlink, hne, hreplaceable⟩ := h.supplants_iff.1 hsupplants
      exact ⟨_, _, .substitute hlink hne hreplaceable⟩

/-- A new child that may be placed where an old one stands is placed there, at the position that the
old one has when the new one has left its slot. -/
lemma placed_substitute {parent old new : NodeId} {p : Property}
    (hsupplants : e.forest.Supplants parent p old new) :
    (e.substitute parent old new).1 = .ok () ∧
      ∃ left right, (e.forest.childrenIn parent p).erase new = left ++ old :: right ∧
        e.forest.Placed (e.substitute parent old new).2.forest parent p (some new) (some old)
          (left ++ new :: right) := by
  obtain ⟨hlink, hne, hreplaceable⟩ := h.supplants_iff.1 hsupplants
  have hnew : new ∈ e.forest := hreplaceable.mem (h.linked.hasSlot_of_link? hlink)
  obtain ⟨left, right, hslot, hreplaced⟩ :=
    exists_replace_eq (h.linked.mem_childrenIn_pluck hlink hne) new
  obtain ⟨hanswer, hforest⟩ := substitute_of_replaceable h hlink hne hreplaceable
  refine ⟨hanswer, left, right, ?_, ?_⟩
  · rw [← hslot, h.linked.childrenIn_pluck]
  · rw [hforest, ← hreplaced]
    exact h.linked.placed (some new) (h.linked.exchanges_graft hlink hne hnew)

end

/-! ### The three edits -/

/-- In every reachable forest a child, or none, can be put into a slot exactly if the slot exists, is
a single one, and holds this child already, or the child may be placed there, or there is none. Where
the slot holds the child already, nothing is done and nothing is answered. Otherwise the child is
placed in the slot, and the one that loses it is answered. -/
theorem Reachable.filling_places_child {e : Editor} (he : e.Reachable) (parent : NodeId)
    (p : Property) (child : Option NodeId) :
    ((e.fill parent p child).1.isOk ↔
      e.forest.HasSlotOf parent p .single ∧
        (child = e.forest.childIn? parent p ∨ child = none ∨
          ∃ x, child = some x ∧ e.forest.Placeable parent p x)) ∧
    (e.forest.HasSlotOf parent p .single → child = e.forest.childIn? parent p →
      e.fill parent p child = (.ok none, e)) ∧
    ((e.fill parent p child).1.isOk → child ≠ e.forest.childIn? parent p →
      (e.fill parent p child).1 = .ok (e.forest.childIn? parent p) ∧
        e.forest.Placed (e.fill parent p child).2.forest parent p child
          (e.forest.childIn? parent p) child.toList) := by
  have h := he.sound
  have hok := isOk_fill_iff h parent p child
  refine ⟨hok, fun hslotOf heq => ?_, fun hsuccess hne => ?_⟩
  · obtain ⟨hslot, hshape⟩ := hasSlotOf_iff.1 hslotOf
    exact fill_of_childIn? hslot hshape heq
  · obtain ⟨hslotOf, hchild⟩ := hok.1 hsuccess
    obtain ⟨hslot, hshape⟩ := hasSlotOf_iff.1 hslotOf
    have hattachable := (h.forall_attachable_iff hslot).2 (hchild.resolve_left hne)
    obtain ⟨hanswer, hforest⟩ := fill_of_attachable h hslot hshape hne hattachable
    rw [hforest]
    exact ⟨hanswer, h.linked.placed child (h.linked.exchanges_fill hslot hshape hne fun c hc =>
      (hattachable c hc).mem hslot)⟩

/-- The first statement of a block that is the body of a loop becomes the body itself, and the block
with the others is left behind as a root. -/
theorem filling_places_child_from_below_occupant :
    ((start ⟨.detach, .error⟩).run Edit.loopOverBlock).Reachable ∧
    (((start ⟨.detach, .error⟩).run Edit.loopOverBlock).fill ⟨5⟩ .body (some ⟨1⟩)).1 =
      .ok (some ⟨4⟩) ∧
    ((start ⟨.detach, .error⟩).run Edit.loopOverBlock).forest.Placed
      (((start ⟨.detach, .error⟩).run Edit.loopOverBlock).fill ⟨5⟩ .body (some ⟨1⟩)).2.forest
      ⟨5⟩ .body (some ⟨1⟩) (some ⟨4⟩) [⟨1⟩] := by
  have he := reachable_run ⟨.detach, .error⟩ (by decide : Edit.loopOverBlock.length < 2 ^ 32)
  exact ⟨he, (he.filling_places_child ⟨5⟩ .body (some ⟨1⟩)).2.2 (by decide) (by decide)⟩

/-- In every reachable forest a child, or none, can be appended to a slot exactly if the slot exists,
is a list, and the child may be placed there, or there is none. With none nothing happens. Otherwise
the child is placed behind the other children of the slot, which keep their order, also if it was
one of them before, and nobody loses a place. -/
theorem Reachable.appending_places_child {e : Editor} (he : e.Reachable) (parent : NodeId)
    (p : Property) (child : Option NodeId) :
    ((e.append parent p child).1.isOk ↔
      e.forest.HasSlotOf parent p .list ∧
        (child = none ∨ ∃ x, child = some x ∧ e.forest.Placeable parent p x)) ∧
    (child = none → (e.append parent p child).2 = e) ∧
    ∀ x, child = some x → (e.append parent p child).1.isOk →
      e.forest.Placed (e.append parent p child).2.forest parent p child none
        ((e.forest.childrenIn parent p).erase x ++ [x]) := by
  have h := he.sound
  have hok := isOk_append_iff h parent p child
  refine ⟨hok, ?_, ?_⟩
  · rintro rfl
    unfold append
    cases e.forest.checkSlot parent p .list <;> rfl
  · rintro x rfl hsuccess
    obtain ⟨hslotOf, hchild⟩ := hok.1 hsuccess
    obtain ⟨hslot, hshape⟩ := hasSlotOf_iff.1 hslotOf
    have hattachable := (h.forall_attachable_iff hslot).2 hchild x rfl
    have hexchanges := h.linked.exchanges_append hslot hshape (hattachable.mem hslot)
    obtain ⟨-, hforest⟩ := append_of_attachable h hslot hshape hattachable
    rw [hforest, ← h.linked.childrenIn_pluck]
    exact h.linked.placed (some x) hexchanges

/-- The first of three statements in a block is appended to the block and comes to stand behind the
two others. -/
theorem appending_places_child_in_its_own_list :
    ((start ⟨.detach, .error⟩).run Edit.loopOverBlock).Reachable ∧
    (((start ⟨.detach, .error⟩).run Edit.loopOverBlock).append ⟨4⟩ .nestedStatement
      (some ⟨1⟩)).1.isOk ∧
    ((start ⟨.detach, .error⟩).run Edit.loopOverBlock).forest.Placed
      (((start ⟨.detach, .error⟩).run Edit.loopOverBlock).append ⟨4⟩ .nestedStatement
        (some ⟨1⟩)).2.forest
      ⟨4⟩ .nestedStatement (some ⟨1⟩) none [⟨2⟩, ⟨3⟩, ⟨1⟩] := by
  have he := reachable_run ⟨.detach, .error⟩ (by decide : Edit.loopOverBlock.length < 2 ^ 32)
  obtain ⟨-, -, hplaced⟩ := he.appending_places_child ⟨4⟩ .nestedStatement (some ⟨1⟩)
  have hok : (((start ⟨.detach, .error⟩).run Edit.loopOverBlock).append ⟨4⟩ .nestedStatement
      (some ⟨1⟩)).1.isOk := by
    decide
  exact ⟨he, hok, hplaced ⟨1⟩ rfl hok⟩

/-- In every reachable forest a new child can be put in the place of an old one below a parent
exactly if the parent exists and does not hold the old one, which the policy overlooks, or holds it
and is to keep it, or holds it where the new one may be placed. In the first two cases the forest
stays as it is. In the third one the new child is placed in the slot of the old one: it is what a
single slot holds afterwards, and in a list slot it gets the position that the old one has when the
new one has left. -/
theorem Reachable.substituting_places_child {e : Editor} (he : e.Reachable)
    (parent old new : NodeId) :
    ((e.substitute parent old new).1.isOk ↔
      parent ∈ e.forest ∧
        (old ∉ e.forest.children parent ∧ e.forest.policy.missingChild = .ignore ∨
          old ∈ e.forest.children parent ∧ new = old ∨
          ∃ p, e.forest.Supplants parent p old new)) ∧
    ((e.substitute parent old new).1.isOk → old ∉ e.forest.children parent ∨ new = old →
      (e.substitute parent old new).2.forest = e.forest) ∧
    ∀ p, e.forest.Supplants parent p old new →
      (e.substitute parent old new).1 = .ok () ∧
      (p.shape = .single →
        (e.substitute parent old new).2.forest.childIn? parent p = some new) ∧
      ∃ left right, (e.forest.childrenIn parent p).erase new = left ++ old :: right ∧
        e.forest.Placed (e.substitute parent old new).2.forest parent p (some new) (some old)
          (left ++ new :: right) := by
  have h := he.sound
  have hok := isOk_substitute_iff h parent old new
  refine ⟨hok, fun hsuccess hkept => ?_, fun p hsupplants => ?_⟩
  · obtain ⟨hparent, ⟨hnot, hpolicy⟩ | ⟨hin, rfl⟩ | ⟨p, hsupplants⟩⟩ := hok.1 hsuccess
    · rw [substitute_of_notMem hparent hnot hpolicy]
      rfl
    · rw [substitute_self h (h.linked.mem_children_iff_parent?.1 hin)]
    · have hheld := mem_children_iff.2 ⟨p, hsupplants.child⟩
      exact absurd hkept (not_or.2 ⟨not_not_intro hheld, hsupplants.ne⟩)
  · obtain ⟨hanswer, left, right, hslot, hplaced⟩ := placed_substitute h hsupplants
    refine ⟨hanswer, fun hshape => (mem_childrenIn_iff_childIn? hshape).1 ?_, left, right, hslot,
      hplaced⟩
    rw [hplaced.slot_eq]
    exact List.mem_append_right _ List.mem_cons_self

/-- The first of three statements in a block takes the place of the last one, which comes forward by
one position when the first one leaves. -/
theorem substituting_places_child_in_shared_list :
    ((start ⟨.detach, .error⟩).run Edit.loopOverBlock).Reachable ∧
    ((start ⟨.detach, .error⟩).run Edit.loopOverBlock).forest.Supplants ⟨4⟩ .nestedStatement ⟨3⟩
      ⟨1⟩ ∧
    ∃ left right,
      (((start ⟨.detach, .error⟩).run Edit.loopOverBlock).forest.childrenIn ⟨4⟩
        .nestedStatement).erase ⟨1⟩ = left ++ ⟨3⟩ :: right ∧
      ((start ⟨.detach, .error⟩).run Edit.loopOverBlock).forest.Placed
        (((start ⟨.detach, .error⟩).run Edit.loopOverBlock).substitute ⟨4⟩ ⟨3⟩ ⟨1⟩).2.forest
        ⟨4⟩ .nestedStatement (some ⟨1⟩) (some ⟨3⟩) (left ++ ⟨1⟩ :: right) := by
  have he := reachable_run ⟨.detach, .error⟩ (by decide : Edit.loopOverBlock.length < 2 ^ 32)
  obtain ⟨hok, -, hplaced⟩ := he.substituting_places_child ⟨4⟩ ⟨3⟩ ⟨1⟩
  have hsupplants : ((start ⟨.detach, .error⟩).run Edit.loopOverBlock).forest.Supplants ⟨4⟩
      .nestedStatement ⟨3⟩ ⟨1⟩ := by
    rcases (hok.1 (by decide)).2 with ⟨hnot, -⟩ | ⟨-, heq⟩ | ⟨p, hsupplants⟩
    · exact absurd (by decide) hnot
    · exact absurd heq (by decide)
    · obtain ⟨-, rfl⟩ := he.sound.linked.eq_of_mem_childrenIn hsupplants.child (by decide :
        ⟨3⟩ ∈ ((start ⟨.detach, .error⟩).run Edit.loopOverBlock).forest.childrenIn ⟨4⟩
          .nestedStatement)
      exact hsupplants
  exact ⟨he, hsupplants, (hplaced _ hsupplants).2.2⟩

end Editor

end SyntaxForest
