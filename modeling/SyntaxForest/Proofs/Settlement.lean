import SyntaxForest.Proofs.ResolutionOrder

/-!
# What a resolution leaves

A resolution succeeds exactly if it names an ambiguity and the index of one of its alternatives,
whatever the policies are. `Forest.Settled` says what it makes of a forest, in terms of the forest
before and without the steps in between: which nodes are gone, where the alternative stands, and
that nothing else has changed (`Editor.Reachable.resolution_settles_ambiguity`).
-/

namespace SyntaxForest

open Relation

namespace Forest

/-- Of two forests the second one is what is left of the first one when an alternative has taken the
place of its ambiguity, which has gone with all its other alternatives. -/
structure Settled (f g : Forest) (a : NodeId) (index : ℕ) (w : NodeId) : Prop where
  /-- Gone are the ambiguity and the subtrees of the other alternatives. -/
  mem : ∀ x, x ∈ g ↔ x ∈ f ∧ x ≠ a ∧ x ∉ f.losers a index
  /-- The alternative has the route that the ambiguity had, from its own identifier on: the parent
  and the property of the ambiguity, or none. -/
  winner : g.route? w = (f.route? a).map fun r => { r with id := w }
  /-- In the slot of the ambiguity, the alternative stands at its position, and the others where they
  stood. -/
  position : ∀ parent p, f.link? a = some ⟨parent, p⟩ →
    ∃ left right, f.childrenIn parent p = left ++ a :: right ∧
      g.childrenIn parent p = left ++ w :: right
  /-- The other slots of the parent hold what they held. -/
  slots : ∀ parent p, f.link? a = some ⟨parent, p⟩ → ∀ q, q ≠ p →
    g.childrenIn parent q = f.childrenIn parent q
  /-- Nothing else about the parent has changed. -/
  header : ∀ parent, f.parent? a = some parent → g.header? parent = f.header? parent
  /-- Every other node that is left is what it was. -/
  nodes : ∀ x ∈ g, f.parent? a ≠ some x → g.node? x = f.node? x
  /-- Every other node that is left has the route it had. -/
  routes : ∀ x ∈ g, x ≠ w → g.route? x = f.route? x
  lastId : g.lastId = f.lastId
  policy : g.policy = f.policy

variable {f : Forest} {a w : NodeId}

namespace Sound

variable (h : f.Sound)

include h

/-- The parent of an ambiguity does not go with it. -/
lemma not_falls_of_above {parent : NodeId} (hparent : f.Above parent a) : ¬ f.Falls a w parent :=
  fun hfalls => h.grounded.not_transGen_self a (.tail' hfalls.1 hparent)

/-- An alternative that takes the place of its ambiguity settles the ambiguity. -/
theorem settled {index : ℕ} (hindex : (f.alternatives a)[index]? = some w) :
    f.Settled (f.settle a w) a index w := by
  have hw := h.linked.link?_of_getElem? hindex
  have hlinked := (h.settle hw).linked
  have hmem : ∀ x, x ∈ f.settle a w ↔ x ∈ f ∧ ¬ f.Falls a w x := fun x => h.mem_settle_iff hw
  have hwinner : w ∈ f.settle a w :=
    (hmem w).2 ⟨h.linked.mem_of_link? hw, fun hfalls => hfalls.2 .refl⟩
  refine ⟨fun x => ?_, ?_, fun parent p ha => ?_, fun parent p ha q hq => ?_, fun parent ha => ?_,
    fun x hx ha => ?_, fun x hx hxw => ?_, lastId_settle f a w, policy_settle f a w⟩
  · rw [hmem, h.falls_iff_mem_losers hindex, not_or]
  · rw [hlinked.route?_eq_some hwinner, h.link?_settle hw ((hmem w).1 hwinner).2, if_pos rfl,
      h.linked.route?_eq_some (h.mem_of_alternative hw)]
    rfl
  · rw [h.childrenIn_settle hw (h.not_falls_of_above (above_of_link? ha)),
      ← replace_eq_map (h.linked.nodup parent p)]
    exact exists_replace_eq ((h.linked.link_iff a parent p).1 ha) w
  · -- The names of the children are changed in all slots, but the ambiguity stands in one only.
    have hnot : a ∉ f.childrenIn parent q := fun hin =>
      hq (h.linked.eq_of_mem_childrenIn hin ((h.linked.link_iff a parent p).1 ha)).2
    rw [h.childrenIn_settle hw (h.not_falls_of_above (above_of_link? ha)),
      ← replace_eq_map (h.linked.nodup parent q), List.replace_of_not_mem hnot]
  · rw [header?, h.node?_settle hw (h.not_falls_of_above ha), Option.map_map]
    rfl
  · have hnot : a ∉ f.children x := fun hin => ha (h.linked.mem_children_iff_parent?.1 hin)
    rw [h.node?_settle hw ((hmem x).1 hx).2]
    exact (node?_eq_map_rename hnot w).symm
  · obtain ⟨hexists, hstays⟩ := (hmem x).1 hx
    rw [hlinked.route?_eq_some hx, h.linked.route?_eq_some hexists, h.link?_settle hw hstays,
      if_neg hxw]

end Sound

end Forest

namespace Editor

open Forest

/-- A resolution answers the alternative that an index of an ambiguity names, and is refused where
there is none. -/
lemma resolve_eq_ok_iff {e : Editor} (h : e.forest.Sound) {a w : NodeId} {index : ℕ} :
    (e.resolve a index).1 = .ok w ↔
      e.forest.IsAmbiguity a ∧ (e.forest.alternatives a)[index]? = some w := by
  have hcheck : e.forest.checkAlternative a index = .ok w ↔
      e.forest.IsAmbiguity a ∧ (e.forest.alternatives a)[index]? = some w := by
    rw [checkAlternative_eq_ok_iff]
    constructor
    · rintro ⟨n, hn, hambiguity, hindex⟩
      exact ⟨⟨n, hn, hambiguity⟩, by rwa [alternatives_of_node? hn]⟩
    · rintro ⟨⟨n, hn, hambiguity⟩, hindex⟩
      exact ⟨n, hn, hambiguity, by rwa [alternatives_of_node? hn] at hindex⟩
  rw [← hcheck]
  cases hfound : e.forest.checkAlternative a index with
  | error reason => simp [resolve, hfound]
  | ok winner => rw [(resolve_of_checkAlternative h hfound).1]

/-- In every reachable forest a resolution succeeds exactly if it names an ambiguity and the index of
one of its alternatives. It answers this alternative, which takes exactly the place of the ambiguity.
The ambiguity goes with the subtrees of all its other alternatives, and nothing else changes. -/
theorem Reachable.resolution_settles_ambiguity {e : Editor} (he : e.Reachable) (a : NodeId)
    (index : ℕ) :
    ((e.resolve a index).1.isOk ↔
      e.forest.IsAmbiguity a ∧ index < (e.forest.alternatives a).length) ∧
    ∀ w, (e.resolve a index).1 = .ok w →
      (e.forest.alternatives a)[index]? = some w ∧
        e.forest.Settled (e.resolve a index).2.forest a index w := by
  have h := he.sound
  constructor
  · have hok : (e.resolve a index).1.isOk ↔ ∃ w, (e.resolve a index).1 = .ok w := by
      cases (e.resolve a index).1 <;> simp [Except.isOk, Except.toBool]
    simp only [hok, resolve_eq_ok_iff h, exists_and_left, ← Option.isSome_iff_exists,
      isSome_getElem?]
  · intro w hanswer
    obtain ⟨hambiguity, hindex⟩ := (resolve_eq_ok_iff h).1 hanswer
    have hforest : (e.resolve a index).2.forest = e.forest.settle a w :=
      (perform_resolve h hambiguity hindex).2
    rw [hforest]
    exact ⟨hindex, h.settled hindex⟩

/-- The second alternative of an ambiguity that is itself the first alternative of another one takes
its place there. -/
theorem resolution_settles_nested_ambiguity :
    ((start .strict).run Edit.nestedAmbiguities).Reachable ∧
    (((start .strict).run Edit.nestedAmbiguities).resolve ⟨3⟩ 1).1 = .ok ⟨2⟩ ∧
    ((start .strict).run Edit.nestedAmbiguities).forest.Settled
      (((start .strict).run Edit.nestedAmbiguities).resolve ⟨3⟩ 1).2.forest ⟨3⟩ 1 ⟨2⟩ := by
  have he := reachable_run .strict (by decide : Edit.nestedAmbiguities.length < 2 ^ 32)
  have hanswer : (((start .strict).run Edit.nestedAmbiguities).resolve ⟨3⟩ 1).1 = .ok ⟨2⟩ := rfl
  exact ⟨he, hanswer, ((he.resolution_settles_ambiguity ⟨3⟩ 1).2 ⟨2⟩ hanswer).2⟩

end Editor

end SyntaxForest
