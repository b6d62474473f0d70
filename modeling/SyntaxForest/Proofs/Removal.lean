import Mathlib.Data.Set.Card
import SyntaxForest.Proofs.Moves
import SyntaxForest.Proofs.Placement
import SyntaxForest.Proofs.Reattachment

/-!
# Pruning

Pruning takes a node out of its slot and drops what is pending, first the node and then, for every
node that is dropped, its children. `Forest.Pruned` says what is left of a forest in terms of the
forest before: the nodes that the pruned one does not span, each with what it had, but for the slot
that has lost the pruned node. Since the other nodes are neither above what has gone nor below it,
nothing that is left refers to it (`Forest.Sound.pruned`).
-/

namespace SyntaxForest

namespace Forest

/-- Of two forests the second one is the first one without a node and all that stands below it. -/
structure Pruned (f g : Forest) (id : NodeId) : Prop where
  /-- Gone are the nodes that the pruned one spans. -/
  mem : ∀ x, x ∈ g ↔ x ∈ f ∧ ¬ f.Spans id x
  /-- Their routes are gone with them. -/
  routed : ∀ x, (g.route? x).isSome ↔ (f.route? x).isSome ∧ ¬ f.Spans id x
  /-- The slot of the pruned node is left, and holds the others in their order. -/
  former : ∀ parent p, f.link? id = some ⟨parent, p⟩ →
    parent ∈ g ∧ g.childrenIn parent p = (f.childrenIn parent p).erase id
  /-- Every other slot that is left holds what it held. -/
  slots : ∀ x ∈ g, ∀ q, f.link? id ≠ some ⟨x, q⟩ → g.childrenIn x q = f.childrenIn x q
  /-- Nothing else about the nodes that are left has changed. -/
  header : ∀ x ∈ g, g.header? x = f.header? x
  /-- The nodes that are left have the routes they had. -/
  routes : ∀ x ∈ g, g.route? x = f.route? x
  /-- What stands in a slot that is left is left as well. -/
  children : ∀ x ∈ g, ∀ child ∈ g.children x, child ∈ g
  /-- The parents of the nodes that are left are left as well. -/
  parents : ∀ x ∈ g, ∀ parent, g.parent? x = some parent → parent ∈ g
  lastId : g.lastId = f.lastId
  policy : g.policy = f.policy

namespace Sound

variable {f : Forest} (h : f.Sound) {id : NodeId} (hid : id ∈ f)

include h hid

/-- What is dropped is what the node has spanned before it was taken out of its slot. -/
lemma mem_subtree_pluck_iff {x : NodeId} : x ∈ (f.pluck id).subtree id ↔ f.Spans id x := by
  have hplucked := h.pluck id
  rw [mem_subtree_iff hplucked.linked hplucked.grounded (mem_pluck.2 hid),
    h.reflTransGen_pluck_iff, spans_iff h.linked]

/-- As many nodes are dropped as the node spans. -/
lemma length_subtree_pluck : ((f.pluck id).subtree id).length = {x | f.Spans id x}.ncard := by
  have hplucked := h.pluck id
  have hnodup := nodup_subtree hplucked.linked hplucked.grounded id
  have hset : {x | f.Spans id x} = (((f.pluck id).subtree id).toFinset : Set NodeId) := by
    ext x
    simp [h.mem_subtree_pluck_iff hid]
  rw [hset, Set.ncard_coe_finset, List.toFinset_card_of_nodup hnodup]

/-- The nodes that are left and those that are dropped make up the forest. -/
lemma size_uproot_add : (f.uproot id).size + ((f.pluck id).subtree id).length = f.size := by
  have hplucked := h.pluck id
  have hdrop := dropSubtree_eq hplucked.linked hplucked.grounded (mem_pluck.2 hid)
  have hsize := (dropPending_spec (f.pluck id).size [id] (f.pluck id)).1
  rw [← dropSubtree, hdrop, size_congr fun x => mem_pluck (x := x)] at hsize
  rw [Nat.add_comm]
  exact hsize

/-- Taking a node out of its slot and dropping it with all that stands below it prunes it. -/
theorem pruned : f.Pruned (f.uproot id) id := by
  have hlinked := (h.uproot hid).linked
  have hmem : ∀ x, x ∈ f.uproot id ↔ x ∈ f ∧ ¬ f.Spans id x := fun x => by
    rw [Forest.uproot, mem_eraseAll, mem_pluck, h.mem_subtree_pluck_iff hid]
  have hkept : ∀ x ∈ f.uproot id, x ∉ (f.pluck id).subtree id := fun x hx =>
    mt (h.mem_subtree_pluck_iff hid).1 ((hmem x).1 hx).2
  have hchildren : ∀ x ∈ f.uproot id, ∀ q,
      (f.uproot id).childrenIn x q = (f.childrenIn x q).erase id := fun x hx q => by
    rw [Forest.uproot, childrenIn_eraseAll, if_neg (hkept x hx), h.linked.childrenIn_pluck]
  refine ⟨hmem, fun x => ?_, fun parent p hlink => ?_, fun x hx q hother => ?_, fun x hx => ?_,
    fun x hx => ?_, fun x _ child hchild => ?_, fun x _ parent hparent => ?_, ?_, ?_⟩
  · rw [hlinked.routed, h.linked.routed, hmem]
  · -- The parent does not stand below its own child, so it does not go with it.
    have hparent : parent ∈ f.uproot id := by
      refine (hmem parent).2 ⟨h.linked.mem_of_parent? (above_of_link? hlink), fun hspans => ?_⟩
      have hup := (spans_iff h.linked).1 hspans
      exact h.grounded.not_transGen_self id (.tail' hup (above_of_link? hlink))
    exact ⟨hparent, hchildren parent hparent p⟩
  · rw [hchildren x hx, List.erase_of_not_mem]
    exact mt (h.linked.link_iff id x q).2 hother
  · rw [← header?_pluck f id x, Forest.uproot, header?, node?_eraseAll, if_neg (hkept x hx), header?]
  · have hne : x ≠ id := by
      rintro rfl
      exact ((hmem x).1 hx).2 .refl
    apply h.linked.route?_congr hlinked (iff_of_true hx ((hmem x).1 hx).1)
    rw [Forest.uproot, link?_eraseAll, if_neg (hkept x hx), h.linked.link?_pluck, if_neg hne]
  · exact hlinked.mem_of_above (hlinked.mem_children_iff_parent?.1 hchild)
  · exact hlinked.mem_of_parent? hparent
  · rw [Forest.uproot, lastId_eraseAll, lastId_pluck]
  · rw [Forest.uproot, policy_eraseAll, policy_pluck]

end Sound

end Forest

namespace Editor

open Forest

/-- A node can be pruned exactly if it exists and can be spared. -/
lemma isOk_prune_iff {e : Editor} (h : e.forest.Sound) (id : NodeId) :
    (e.prune id).1.isOk ↔ id ∈ e.forest ∧ e.forest.Spareable id := by
  rw [isOk_iff_change h (.prune id) rfl, h.linked.spareable_iff]
  constructor
  · rintro ⟨_, _, hchange⟩
    cases hchange with
    | prune hid hdetachable => exact ⟨hid, hdetachable⟩
  · rintro ⟨hid, hdetachable⟩
    exact ⟨_, _, .prune hid hdetachable⟩

/-- In every reachable forest a node can be pruned exactly if it exists and no ambiguity with fewer
than three alternatives has it among them. The number that is answered is that of the nodes at and
below the pruned one, by which the forest gets smaller. These nodes are gone, and nothing else has
changed than the slot that has lost the pruned node. -/
theorem Reachable.pruning_drops_subtree {e : Editor} (he : e.Reachable) (id : NodeId) :
    ((e.prune id).1.isOk ↔ id ∈ e.forest ∧ e.forest.Spareable id) ∧
    ∀ count, (e.prune id).1 = .ok count →
      count = {x | e.forest.Spans id x}.ncard ∧
      (e.prune id).2.forest.size + count = e.forest.size ∧
      e.forest.Pruned (e.prune id).2.forest id := by
  have h := he.sound
  have hok := isOk_prune_iff h id
  refine ⟨hok, fun count hcount => ?_⟩
  obtain ⟨hid, hspareable⟩ := hok.1 (isOk_of_eq_ok hcount)
  obtain ⟨hanswer, hforest⟩ := prune_of_detachable h hid (h.linked.spareable_iff.1 hspareable)
  obtain rfl := Except.ok.inj (hanswer.symm.trans hcount)
  rw [hforest]
  exact ⟨h.length_subtree_pluck hid, h.size_uproot_add hid, h.pruned hid⟩

/-- An ambiguity that is the only statement of a block is pruned with its two alternatives, of which
the first one is an ambiguity itself, and the block is left alone. -/
theorem pruning_drops_subtree_of_ambiguity :
    ((start .strict).run Edit.nestedAmbiguities).Reachable ∧
    (((start .strict).run Edit.nestedAmbiguities).prune ⟨5⟩).1 = .ok 5 ∧
    5 = {x | ((start .strict).run Edit.nestedAmbiguities).forest.Spans ⟨5⟩ x}.ncard ∧
    ((start .strict).run Edit.nestedAmbiguities).forest.Pruned
      (((start .strict).run Edit.nestedAmbiguities).prune ⟨5⟩).2.forest ⟨5⟩ := by
  have he := reachable_run .strict (by decide : Edit.nestedAmbiguities.length < 2 ^ 32)
  have hanswer : (((start .strict).run Edit.nestedAmbiguities).prune ⟨5⟩).1 = .ok 5 := rfl
  obtain ⟨hcount, -, hpruned⟩ := (he.pruning_drops_subtree ⟨5⟩).2 5 hanswer
  exact ⟨he, hanswer, hcount, hpruned⟩

end Editor

end SyntaxForest
