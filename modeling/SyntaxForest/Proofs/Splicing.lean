import SyntaxForest.Proofs.Outcomes
import SyntaxForest.Proofs.Resolution

/-!
# Splices

A new node takes the place of an old one when it is substituted for it, and when an ambiguity is
resolved to it. Both leave a forest in which the nodes that stay have the children they had, with
the new node in the place of the old one (`Forest.Splice`).

What is computed from below is therefore the same as before at every node that stays and is not
above the old one (`Forest.Splice.value_eq`). In the listing of a node above the old one, the
listing of the old one gives way to that of the new one, and nothing else changes
(`Forest.Splice.exists_block`).
-/

namespace SyntaxForest

open Relation

namespace Forest

/-- The second forest is the first one with a new node where an old one stood, as far as the nodes
go that stay. The new node stays, all nodes above the old one stay, and the children of a node stay
with it, except for the old one. -/
structure Splice (f g : Forest) (old new : NodeId) (Stays : NodeId → Prop) : Prop where
  before : f.Sound
  after : g.Sound
  node? : ∀ x, Stays x →
    g.node? x = (f.node? x).map fun n => n.mapChildren (NodeId.rename old new)
  above : ∀ x, TransGen f.Above x old → Stays x
  child : ∀ x y, Stays x → f.Above x y → y ≠ old → Stays y
  stays : Stays new
  below : ¬ ReflTransGen f.Above new old

/-- In the listings of the parent of the old node and of all nodes above it, the listing of the old
node has given way to the one that the new node had. All other nodes have the listings they had,
except the old node itself. -/
def ListsInstead (f g : Forest) (parent old new : NodeId) : Prop :=
  (∀ x, x = parent ∨ x ∈ f.ancestors parent →
    ∃ left right, f.subtree x = left ++ f.subtree old ++ right ∧
      g.subtree x = left ++ f.subtree new ++ right) ∧
  ∀ x ∈ g, x ≠ old → x ≠ parent → x ∉ f.ancestors parent → g.subtree x = f.subtree x

variable {f g : Forest} {old new : NodeId} {Stays : NodeId → Prop}

namespace Splice

variable (h : f.Splice g old new Stays)

include h

/-- A node that stays and does not have the old one as a child is as it was. -/
lemma node?_eq_self {x : NodeId} (hx : Stays x) (hnot : ¬ f.Above x old) :
    g.node? x = f.node? x := by
  rw [h.node? x hx]
  refine (node?_eq_map_rename (fun hmem => hnot ?_) new).symm
  exact h.before.linked.mem_children_iff_parent?.1 hmem

/-- What is computed from below is as it was, at a node that stays and is neither the old one nor
above it. -/
theorem value_eq {α : Type} {u v : ℕ → NodeId → α} {combine : NodeId → Node → (NodeId → α) → α}
    (hu : f.Descends u combine) (hv : g.Descends v combine) (hzero : ∀ x, v 0 x = u 0 x)
    {x : NodeId} (hx : Stays x) (hnot : ¬ ReflTransGen f.Above x old) :
    v g.size x = u f.size x := by
  have hstays : ∀ y, ReflTransGen f.Above x y → Stays y := by
    intro y hxy
    induction hxy with
    | refl => exact hx
    | @tail z y hxz hzy ih =>
      have hne : y ≠ old := fun heq => hnot (heq ▸ hxz.tail hzy)
      exact h.child z y ih hzy hne
  refine hu.eq_of_agree h.before.linked h.before.grounded h.after.linked h.after.grounded hv hzero
    fun y hxy => ?_
  exact h.node?_eq_self (hstays y hxy) fun habove => hnot (hxy.tail habove)

/-! ### Listings -/

/-- A node that stays and is neither the old one nor above it has the listing it had. -/
lemma subtree_eq_self {x : NodeId} (hx : Stays x) (hnot : ¬ ReflTransGen f.Above x old) :
    g.subtree x = f.subtree x :=
  h.value_eq f.descends_subtreeWithin g.descends_subtreeWithin (fun _ => rfl) hx hnot

/-- A node that stays is listed with the children it had, under their names of now. -/
lemma subtree_eq_flatMap {x : NodeId} {n : Node} (hx : Stays x) (hn : f.node? x = some n) :
    g.subtree x = x :: n.children.flatMap fun y => g.subtree (NodeId.rename old new y) := by
  have hnode : g.node? x = some (n.mapChildren (NodeId.rename old new)) := by
    rw [h.node? x hx, hn]
    rfl
  rw [subtree_eq h.after.linked h.after.grounded hnode, Node.children_mapChildren,
    List.flatMap_map]

/-- Beside a node at or above the old one, its siblings have the listings they had. -/
lemma subtree_rename_of_sibling {x c y : NodeId} (hxc : f.Above x c)
    (hc : ReflTransGen f.Above c old) (hxy : f.Above x y) (hne : y ≠ c) :
    g.subtree (NodeId.rename old new y) = f.subtree y := by
  have hf := h.before.linked
  have hg := h.before.grounded
  -- Two nodes of one level cannot both be at or above the old one.
  have hdepth : f.depth y = f.depth c := by
    rw [depth_of_parent? hf hg hxy, depth_of_parent? hf hg hxc]
  have hnot : ¬ ReflTransGen f.Above y old := fun hpath =>
    hne (eq_of_depth_eq hf hg hpath hc hdepth)
  have hold : y ≠ old := fun heq => hnot (heq ▸ .refl)
  rw [NodeId.rename_of_ne hold]
  exact h.subtree_eq_self (h.child x y (h.above x (TransGen.head' hxc hc)) hxy hold) hnot

/-- In the listing of a node above the old one, and of the old one itself, there is the listing of
the new one instead. -/
theorem exists_block {x : NodeId} (hx : ReflTransGen f.Above x old) :
    ∃ left right, f.subtree x = left ++ f.subtree old ++ right ∧
      g.subtree (NodeId.rename old new x) = left ++ f.subtree new ++ right := by
  have hf := h.before.linked
  have hg := h.before.grounded
  induction hx using ReflTransGen.head_induction_on with
  | refl =>
    refine ⟨[], [], by simp, ?_⟩
    rw [NodeId.rename_self, h.subtree_eq_self h.stays h.below]
    simp
  | @head x c hxc hc ih =>
    obtain ⟨left, right, hbefore, hafter⟩ := ih
    obtain ⟨n, hn⟩ := mem_iff_exists_node?.1 (hf.mem_of_parent? hxc)
    have habove : TransGen f.Above x old := TransGen.head' hxc hc
    have hne : x ≠ old := by
      rintro rfl
      exact hg.not_transGen_self x habove
    have hchildren : ∀ y, y ∈ n.children ↔ f.Above x y := by
      intro y
      rw [← children_of_node? hn]
      exact hf.mem_children_iff_parent?
    -- Among the children only the one that is at or above the old node has another listing.
    obtain ⟨first, last, hsplit⟩ := List.append_of_mem ((hchildren c).2 hxc)
    have hnot : c ∉ first ++ last := by
      have hnodup := hf.nodup_children hn
      rw [hsplit] at hnodup
      exact (List.nodup_middle.1 hnodup).notMem
    have hsame : ∀ l : List NodeId, (∀ y ∈ l, y ∈ first ++ last) →
        l.flatMap (fun y => g.subtree (NodeId.rename old new y)) = l.flatMap f.subtree := by
      intro l hl
      refine List.flatMap_congr fun y hy => ?_
      have hyc : y ≠ c := fun heq => hnot (heq ▸ hl y hy)
      refine h.subtree_rename_of_sibling hxc hc ((hchildren y).1 ?_) hyc
      rw [hsplit]
      rcases List.mem_append.1 (hl y hy) with hmem | hmem
      · exact List.mem_append_left _ hmem
      · exact List.mem_append_right _ (List.mem_cons_of_mem c hmem)
    refine ⟨x :: first.flatMap f.subtree ++ left, right ++ last.flatMap f.subtree, ?_, ?_⟩
    · rw [subtree_eq hf hg hn, hsplit, List.flatMap_append, List.flatMap_cons, hbefore]
      simp
    · rw [NodeId.rename_of_ne hne, h.subtree_eq_flatMap (h.above x habove) hn, hsplit,
        List.flatMap_append, List.flatMap_cons, hafter,
        hsame first fun y hy => List.mem_append_left _ hy,
        hsame last fun y hy => List.mem_append_right _ hy]
      simp

/-- The listings after a splice, if the old node has a parent and every node there but the old one
stays. -/
theorem listsInstead {parent : NodeId} (hparent : f.parent? old = some parent)
    (hstays : ∀ x ∈ g, x ≠ old → Stays x) : f.ListsInstead g parent old new := by
  have hf := h.before.linked
  have hg := h.before.grounded
  have habove : ∀ x, x = parent ∨ x ∈ f.ancestors parent ↔ TransGen f.Above x old := by
    intro x
    rw [← mem_ancestors_iff hf hg, ancestors_of_parent? hf hg hparent, List.mem_cons]
  constructor
  · intro x hx
    rw [habove] at hx
    have hne : x ≠ old := by
      rintro rfl
      exact hg.not_transGen_self x hx
    obtain ⟨left, right, hbefore, hafter⟩ := h.exists_block hx.to_reflTransGen
    rw [NodeId.rename_of_ne hne] at hafter
    exact ⟨left, right, hbefore, hafter⟩
  · intro x hx hold hxparent hxabove
    refine h.subtree_eq_self (hstays x hx hold) fun hpath => ?_
    rcases reflTransGen_iff_eq_or_transGen.1 hpath with heq | htrans
    · exact hold heq.symm
    · exact ((habove x).2 htrans).elim hxparent hxabove

end Splice

/-! ### Replacements and resolutions are splices -/

namespace Sound

variable (h : f.Sound)

include h

/-- A replacement by a root or by a child of the old node is a splice. -/
theorem splice_graft {parent : NodeId} {p : Property} (hold : f.link? old = some ⟨parent, p⟩)
    (hne : old ≠ new) (hreplaceable : f.Replaceable parent p old new)
    (hnew : f.parent? new = none ∨ f.parent? new = some old) :
    f.Splice (f.graft parent p old new) old new (· ≠ old) where
  before := h
  after := h.graft hold hne hreplaceable
  node? _ hx := h.node?_graft hold hnew hx
  above x hx := by
    rintro rfl
    exact h.grounded.not_transGen_self x hx
  child _ _ _ _ hy := hy
  stays := hne.symm
  below hpath := by
    rcases ReflTransGen.cases_tail hpath with heq | ⟨z, hz, hzold⟩
    · exact hne heq
    · obtain rfl : z = parent := Option.some.inj (hzold.symm.trans (above_of_link? hold))
      exact hreplaceable.below hz

/-- A resolution is a splice of the nodes that do not go. -/
theorem splice_settle {a w : NodeId} (hw : f.link? w = some ⟨a, .alternative⟩) :
    f.Splice (f.settle a w) a w fun x => ¬ f.Falls a w x where
  before := h
  after := h.settle hw
  node? _ hx := h.node?_settle hw hx
  above x hx hfalls := h.grounded.not_transGen_self a (TransGen.trans_right hfalls.1 hx)
  child x y hx hxy hy hfalls := by
    obtain ⟨hay, hwy⟩ := hfalls
    rcases ReflTransGen.cases_tail hay with heq | ⟨z, haz, hzy⟩
    · exact hy heq
    · obtain rfl : z = x := Option.some.inj (hzy.symm.trans hxy)
      exact hx ⟨haz, fun hwz => hwy (hwz.tail hzy)⟩
  stays hfalls := hfalls.2 .refl
  below := (h.falls_self hw).2

end Sound

end Forest

namespace Editor

open Forest

/-- In every reachable forest, a substitution by a root or by a child of the old node that is not
refused puts the listing of the new node in the place of that of the old one, wherever this is
listed, and changes no other listing. So does a resolution of an ambiguity that has a parent, for
the nodes that are left. -/
theorem Reachable.replacements_splice_listings {e : Editor} (he : e.Reachable) :
    (∀ parent old new, (e.perform (.substitute parent old new)).1.isOk →
      old ∈ e.forest.children parent → new ≠ old →
      (e.forest.parent? new = none ∨ new ∈ e.forest.children old) →
      e.forest.ListsInstead (e.perform (.substitute parent old new)).2.forest parent old new) ∧
    ∀ parent a w index, (e.perform (.resolve a index)).1 = .ok (.node w) →
      e.forest.parent? a = some parent →
      e.forest.ListsInstead (e.perform (.resolve a index)).2.forest parent a w := by
  have h := he.sound
  constructor
  · intro parent old new hok hold hne hnew
    rw [h.linked.mem_children_iff_parent?] at hnew
    obtain ⟨answer, hchange⟩ := exists_change_of_isOk h hok
    generalize (e.perform (.substitute parent old new)).2.forest = g at hchange ⊢
    cases hchange with
    | overlooked _ hnot _ => exact absurd hold hnot
    | stay _ => exact absurd rfl hne
    | substitute hlink _ hreplaceable =>
      have hsplice := h.splice_graft hlink hne.symm hreplaceable hnew
      exact hsplice.listsInstead (above_of_link? hlink) fun _ _ hx => hx
  · intro parent a w index hok hparent
    have hchange := (perform_iff_change h).1 ⟨hok, rfl⟩
    generalize (e.perform (.resolve a index)).2.forest = g at hchange ⊢
    cases hchange with
    | resolve hn _ hwinner =>
      rw [← alternatives_of_node? hn] at hwinner
      have hw := h.linked.link?_of_getElem? hwinner
      refine (h.splice_settle hw).listsInstead hparent fun x hx _ => ?_
      exact ((h.mem_settle_iff hw).1 hx).2

/-- In a block with an ambiguity that is an alternative of another one, the first alternative of the
inner one can take its place, and the inner one can be resolved to the second. -/
theorem replacements_splice_listings_in_nested_ambiguities :
    ((start .strict).run Edit.nestedAmbiguities).Reachable ∧
    (((start .strict).run Edit.nestedAmbiguities).perform (.substitute ⟨5⟩ ⟨3⟩ ⟨1⟩)).1 =
      .ok .done ∧
    ((start .strict).run Edit.nestedAmbiguities).forest.ListsInstead
      (((start .strict).run Edit.nestedAmbiguities).perform (.substitute ⟨5⟩ ⟨3⟩ ⟨1⟩)).2.forest
      ⟨5⟩ ⟨3⟩ ⟨1⟩ ∧
    (((start .strict).run Edit.nestedAmbiguities).perform (.resolve ⟨3⟩ 1)).1 =
      .ok (.node ⟨2⟩) ∧
    ((start .strict).run Edit.nestedAmbiguities).forest.ListsInstead
      (((start .strict).run Edit.nestedAmbiguities).perform (.resolve ⟨3⟩ 1)).2.forest
      ⟨5⟩ ⟨3⟩ ⟨2⟩ := by
  have he := reachable_run .strict (by decide : Edit.nestedAmbiguities.length < 2 ^ 32)
  have hsubstitute : (((start .strict).run Edit.nestedAmbiguities).perform
      (.substitute ⟨5⟩ ⟨3⟩ ⟨1⟩)).1 = .ok .done := by rfl
  have hresolve : (((start .strict).run Edit.nestedAmbiguities).perform (.resolve ⟨3⟩ 1)).1 =
      .ok (.node ⟨2⟩) := by rfl
  refine ⟨he, hsubstitute, ?_, hresolve, ?_⟩
  · refine he.replacements_splice_listings.1 ⟨5⟩ ⟨3⟩ ⟨1⟩ ?_ (by decide) (by decide)
      (.inr (by decide))
    rw [hsubstitute]
    rfl
  · exact he.replacements_splice_listings.2 ⟨5⟩ ⟨3⟩ ⟨2⟩ 1 hresolve (by decide)

end Editor

end SyntaxForest
