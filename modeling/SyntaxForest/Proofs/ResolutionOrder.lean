import SyntaxForest.Proofs.Resolution

/-!
# The order of resolutions

Two ambiguities may be resolved in either order, unless one of them goes when the other is resolved
(`Forest.losers`). Then it does not matter whether it is resolved before.

Resolving `a` to `w` and then `b` drops what falls with either of them, and every node that is left
has its children under the names `w` for `a` and `v` for `b`, where `v` wins over `b`. If `a` is
itself the winner `v`, then `w` has taken its place, and so the second name is the renamed `v`. This
description is the same from both sides, and since the links follow from the slots, the forests are
the same.
-/

namespace SyntaxForest

open Relation

/-- Two names may be given up in either order, if the new names are updated. -/
lemma NodeId.rename_comp_rename {a b w v : NodeId} (hab : a ≠ b) (hcross : w = b → v ≠ a) :
    rename b (rename a w v) ∘ rename a w = rename a (rename b v w) ∘ rename b v := by
  funext x
  by_cases hxa : x = a
  · subst hxa
    by_cases hw : w = b
    · subst hw
      simp [rename_of_ne hab, rename_of_ne (hcross rfl)]
    · simp [rename_of_ne hab, rename_of_ne hw]
  · by_cases hxb : x = b
    · subst hxb
      by_cases hv : v = a
      · subst hv
        have hw : w ≠ x := fun heq => hcross heq rfl
        simp [rename_of_ne hxa, rename_of_ne hw]
      · simp [rename_of_ne hxa, rename_of_ne hv]
    · simp [rename_of_ne hxa, rename_of_ne hxb]

namespace Forest

/-- The nodes at or below the alternatives of an ambiguity that lose if the one with the given index
wins. -/
def losers (f : Forest) (a : NodeId) (index : ℕ) : List NodeId :=
  ((f.alternatives a).eraseIdx index).flatMap f.subtree

variable {f : Forest}

namespace Sound

/-! ### One resolution after another -/

section

variable {a w b v : NodeId} (h : f.Sound) (hw : f.link? w = some ⟨a, .alternative⟩)
  (hv : f.link? v = some ⟨b, .alternative⟩) (hb : ¬ f.Falls a w b)

include h hw hv hb

/-- The alternative that wins later is still an alternative, under its new name. -/
lemma link?_settle_rename :
    (f.settle a w).link? (NodeId.rename a w v) = some ⟨b, .alternative⟩ := by
  rw [(h.settle hw).linked.link_iff, ← alternatives_eq_childrenIn, h.alternatives_settle hw hb]
  exact List.mem_map_of_mem ((h.linked.link_iff v b .alternative).1 hv)

/-- What is left after the first resolution falls with the second one exactly if it would have
fallen with it before. -/
lemma falls_settle_iff {x : NodeId} (hx : ¬ f.Falls a w x) :
    (f.settle a w).Falls b (NodeId.rename a w v) x ↔ f.Falls b v x := by
  have hlink := link?_settle_rename h hw hv hb
  have hmem := (h.mem_settle_iff hw).1 ((h.settle hw).linked.mem_of_link? hlink)
  rw [Falls, Falls, h.reflTransGen_settle_iff hw hb hx, h.reflTransGen_settle_iff hw hmem.2 hx]
  by_cases hva : v = a
  · -- The first ambiguity wins over the second one, and its alternative stands for it now.
    subst hva
    rw [NodeId.rename_self, (not_falls_iff (above_of_link? hw)).1 hx]
  · rw [NodeId.rename_of_ne hva]

/-- After both resolutions the nodes that fall with one of them are not there. -/
lemma node?_settle_settle_of_falls {x : NodeId} (hx : f.Falls a w x ∨ f.Falls b v x) :
    ((f.settle a w).settle b (NodeId.rename a w v)).node? x = none := by
  have hlink := link?_settle_rename h hw hv hb
  rw [node?_eq_none_iff, (h.settle hw).mem_settle_iff hlink, h.mem_settle_iff hw]
  rintro ⟨⟨-, hfirst⟩, hsecond⟩
  rw [falls_settle_iff h hw hv hb hfirst] at hsecond
  exact hx.elim hfirst hsecond

/-- After both resolutions the nodes that fall with neither of them have their children under two
new names. -/
lemma node?_settle_settle {x : NodeId} (hx : ¬ f.Falls a w x) (hx' : ¬ f.Falls b v x) :
    ((f.settle a w).settle b (NodeId.rename a w v)).node? x =
      (f.node? x).map fun n =>
        n.mapChildren (NodeId.rename b (NodeId.rename a w v) ∘ NodeId.rename a w) := by
  rw [← falls_settle_iff h hw hv hb hx] at hx'
  rw [(h.settle hw).node?_settle (link?_settle_rename h hw hv hb) hx', h.node?_settle hw hx,
    Option.map_map]
  simp only [Function.comp_def, Node.mapChildren_mapChildren]

/-- Two resolutions of which neither drops the other ambiguity lead to the same forest in either
order. -/
theorem settle_comm (hab : a ≠ b) (ha : ¬ f.Falls b v a) :
    (f.settle a w).settle b (NodeId.rename a w v) =
      (f.settle b v).settle a (NodeId.rename b v w) := by
  have hfirst := (h.settle hw).settle (link?_settle_rename h hw hv hb)
  have hsecond := (h.settle hv).settle (link?_settle_rename h hv hw ha)
  have hcross : w = b → v ≠ a := by
    rintro rfl rfl
    exact h.grounded.not_transGen_self v (.tail (.single (above_of_link? hw)) (above_of_link? hv))
  refine hfirst.linked.eq_of_node? hsecond.linked (fun x => ?_) (by simp) (by simp)
  by_cases hx : f.Falls a w x ∨ f.Falls b v x
  · rw [node?_settle_settle_of_falls h hw hv hb hx,
      node?_settle_settle_of_falls h hv hw ha hx.symm]
  · rw [not_or] at hx
    rw [node?_settle_settle h hw hv hb hx.1 hx.2, node?_settle_settle h hv hw ha hx.2 hx.1,
      NodeId.rename_comp_rename hab hcross]

end

section

variable {a w b v : NodeId} (h : f.Sound) (hw : f.link? w = some ⟨a, .alternative⟩)
  (hv : f.link? v = some ⟨b, .alternative⟩) (hab : a ≠ b) (ha : f.Falls b v a)

include h hab ha

/-- An ambiguity does not fall with one that falls with it. -/
lemma not_above_of_falls : ¬ ReflTransGen f.Above a b := by
  intro hpath
  rcases reflTransGen_iff_eq_or_transGen.1 hpath with heq | htrans
  · exact hab heq.symm
  · exact h.grounded.not_transGen_self b (TransGen.trans_right ha.1 htrans)

/-- An ambiguity that falls stands in no slot of a node that does not fall. -/
lemma notMem_children_of_falls {x : NodeId} (hx : ¬ f.Falls b v x) : a ∉ f.children x := by
  intro hmem
  have hxa : f.Above x a := h.linked.mem_children_iff_parent?.1 hmem
  refine hx ⟨?_, fun hvx => ha.2 (hvx.tail hxa)⟩
  rcases ReflTransGen.cases_tail ha.1 with heq | ⟨z, hbz, hza⟩
  · exact absurd heq hab
  · obtain rfl : z = x := Option.some.inj (hza.symm.trans hxa)
    exact hbz

include hv

/-- What falls with the first ambiguity falls with the second one, if the first one does. -/
lemma falls_of_falls {x : NodeId} (hx : f.Falls a w x) : f.Falls b v x := by
  refine ⟨ha.1.trans hx.1, fun hvx => ?_⟩
  rcases above_total hvx hx.1 with hva | hav
  · exact ha.2 hva
  · -- Above the alternative comes its own ambiguity, which is not below the first one.
    rcases ReflTransGen.cases_tail hav with heq | ⟨z, haz, hzv⟩
    · exact ha.2 (heq ▸ .refl)
    · obtain rfl : z = b := Option.some.inj (hzv.symm.trans (above_of_link? hv))
      exact not_above_of_falls h hab ha haz

include hw

/-- If an ambiguity falls with another one, it does not matter whether it is resolved before. -/
theorem settle_settle_of_falls : (f.settle a w).settle b v = f.settle b v := by
  have hb : ¬ f.Falls a w b := fun hfalls => not_above_of_falls h hab ha hfalls.1
  have hva : v ≠ a := fun heq => ha.2 (heq ▸ .refl)
  have hname : NodeId.rename a w v = v := NodeId.rename_of_ne hva
  have hlink := link?_settle_rename h hw hv hb
  have hnone := fun x => node?_settle_settle_of_falls h hw hv hb (x := x)
  have hnode := fun x => node?_settle_settle h hw hv hb (x := x)
  rw [hname] at hlink hnone hnode
  refine ((h.settle hw).settle hlink).linked.eq_of_node? (h.settle hv).linked (fun x => ?_)
    (by simp) (by simp)
  by_cases hx : f.Falls b v x
  · rw [hnone x (.inr hx), h.node?_settle_of_falls hv hx]
  · rw [hnode x (mt (falls_of_falls h hv hab ha) hx) hx, h.node?_settle hv hx]
    refine Option.map_congr fun n hn => Node.mapChildren_congr fun child hchild => ?_
    have hchild' : child ≠ a := by
      rintro rfl
      refine notMem_children_of_falls h hab ha hx ?_
      rwa [children_of_node? hn]
    rw [Function.comp, NodeId.rename_of_ne hchild']

end

/-! ### Losing alternatives -/

/-- With an ambiguity go the ambiguity itself and all that stands at or below an alternative that
loses. -/
theorem falls_iff_mem_losers (h : f.Sound) {a w x : NodeId} {index : ℕ}
    (hindex : (f.alternatives a)[index]? = some w) :
    f.Falls a w x ↔ x = a ∨ x ∈ f.losers a index := by
  have hlink : ∀ k l, (f.alternatives a)[k]? = some l → f.link? l = some ⟨a, .alternative⟩ :=
    fun k l => h.linked.link?_of_getElem?
  have hsubtree : ∀ k l, (f.alternatives a)[k]? = some l →
      (x ∈ f.subtree l ↔ ReflTransGen f.Above l x) := fun k l hl =>
    mem_subtree_iff h.linked h.grounded (h.linked.mem_of_link? (hlink k l hl))
  simp only [losers, List.mem_flatMap, List.mem_eraseIdx_iff_getElem?]
  constructor
  · rintro ⟨hpath, hnot⟩
    rcases ReflTransGen.cases_head hpath with heq | ⟨l, hal, hlx⟩
    · exact .inl heq.symm
    · right
      obtain ⟨n, hn, hambiguity⟩ := h.exists_node?_of_alternative (hlink index w hindex)
      have hchild : l ∈ f.alternatives a := by
        have hmem := h.linked.mem_children_iff_parent?.2 hal
        rwa [children_of_node? hn, Node.children_eq_alternatives hambiguity,
          ← alternatives_of_node? hn] at hmem
      obtain ⟨k, hl⟩ := List.mem_iff_getElem?.1 hchild
      refine ⟨l, ⟨k, ?_, hl⟩, (hsubtree k l hl).2 hlx⟩
      rintro rfl
      obtain rfl : w = l := Option.some.inj (hindex.symm.trans hl)
      exact hnot hlx
  · rintro (rfl | ⟨l, ⟨k, hk, hl⟩, hx⟩)
    · exact h.falls_self (hlink index w hindex)
    · rw [hsubtree k l hl] at hx
      refine ⟨.head (above_of_link? (hlink k l hl)) hx, fun hwx => hk ?_⟩
      -- Two alternatives above the same node are the same one, and it has one index only.
      have hdepth : f.depth w = f.depth l := by
        rw [depth_of_parent? h.linked h.grounded (above_of_link? (hlink index w hindex)),
          depth_of_parent? h.linked h.grounded (above_of_link? (hlink k l hl))]
      obtain rfl : w = l := eq_of_depth_eq h.linked h.grounded hwx hx hdepth
      have hlt : k < (f.alternatives a).length := (List.getElem?_eq_some_iff.1 hl).1
      exact (List.getElem?_inj hlt (h.linked.nodup a .alternative)).1 (hl.trans hindex.symm)

end Sound

end Forest

namespace Editor

open Forest

variable {e : Editor}

/-- Two resolutions are not refused if the first one does not drop the second ambiguity: the index
of the second alternative still names it. -/
lemma run_resolve_resolve (h : e.forest.Sound) {a b w v : NodeId} {i j : ℕ}
    (ha : e.forest.IsAmbiguity a) (hb : e.forest.IsAmbiguity b)
    (hi : (e.forest.alternatives a)[i]? = some w) (hj : (e.forest.alternatives b)[j]? = some v)
    (hfalls : ¬ e.forest.Falls a w b) :
    e.accepts [.resolve a i, .resolve b j] ∧
      (e.run [.resolve a i, .resolve b j]).forest =
        (e.forest.settle a w).settle b (NodeId.rename a w v) := by
  have hlink := h.linked.link?_of_getElem? hi
  obtain ⟨hanswer, hforest⟩ := perform_resolve h ha hi
  have hsound : (e.perform (.resolve a i)).2.forest.Sound := by
    rw [hforest]
    exact h.settle hlink
  have hb' : (e.perform (.resolve a i)).2.forest.IsAmbiguity b := by
    rw [hforest, h.isAmbiguity_settle_iff hlink]
    exact ⟨hb, hfalls⟩
  have hj' : ((e.perform (.resolve a i)).2.forest.alternatives b)[j]? =
      some (NodeId.rename a w v) := by
    rw [hforest, h.alternatives_settle hlink hfalls, List.getElem?_map, hj]
    rfl
  obtain ⟨hanswer', hforest'⟩ := perform_resolve hsound hb' hj'
  rw [hforest] at hforest'
  refine ⟨?_, hforest'⟩
  simp [accepts, hanswer, hanswer', Except.isOk, Except.toBool]

/-- Two ambiguities of a reachable forest may be resolved in either order. If neither stands at or
below an alternative of the other one that loses, both orders succeed and lead to the same forest.
If the first one stands at or below an alternative of the second one that loses, then resolving it
before makes no difference. -/
theorem Reachable.resolutions_commute {e : Editor} (he : e.Reachable) {a b : NodeId} (hab : a ≠ b)
    (ha : a ∈ e.forest.ambiguities) (hb : b ∈ e.forest.ambiguities) {i j : ℕ}
    (hi : i < (e.forest.alternatives a).length) (hj : j < (e.forest.alternatives b).length) :
    (a ∉ e.forest.losers b j → b ∉ e.forest.losers a i →
      e.accepts [.resolve a i, .resolve b j] ∧ e.accepts [.resolve b j, .resolve a i] ∧
      (e.run [.resolve a i, .resolve b j]).forest =
        (e.run [.resolve b j, .resolve a i]).forest) ∧
    (a ∈ e.forest.losers b j →
      e.accepts [.resolve a i, .resolve b j] ∧ e.accepts [.resolve b j] ∧
      (e.run [.resolve a i, .resolve b j]).forest = (e.run [.resolve b j]).forest) := by
  have h := he.sound
  rw [mem_ambiguities_iff] at ha hb
  have hi' := List.getElem?_eq_getElem hi
  have hj' := List.getElem?_eq_getElem hj
  generalize (e.forest.alternatives a)[i] = w at hi'
  generalize (e.forest.alternatives b)[j] = v at hj'
  have hw := h.linked.link?_of_getElem? hi'
  have hv := h.linked.link?_of_getElem? hj'
  constructor
  · intro hla hlb
    have hfa : ¬ e.forest.Falls b v a := by
      rw [h.falls_iff_mem_losers hj']
      exact not_or.2 ⟨hab, hla⟩
    have hfb : ¬ e.forest.Falls a w b := by
      rw [h.falls_iff_mem_losers hi']
      exact not_or.2 ⟨hab.symm, hlb⟩
    obtain ⟨haccepts, hforest⟩ := run_resolve_resolve h ha hb hi' hj' hfb
    obtain ⟨haccepts', hforest'⟩ := run_resolve_resolve h hb ha hj' hi' hfa
    refine ⟨haccepts, haccepts', ?_⟩
    rw [hforest, hforest', h.settle_comm hw hv hfb hab hfa]
  · intro hla
    have hfa : e.forest.Falls b v a := (h.falls_iff_mem_losers hj').2 (.inr hla)
    have hfb : ¬ e.forest.Falls a w b := fun hfalls => h.not_above_of_falls hab hfa hfalls.1
    have hname : NodeId.rename a w v = v := NodeId.rename_of_ne fun heq => hfa.2 (heq ▸ .refl)
    obtain ⟨haccepts, hforest⟩ := run_resolve_resolve h ha hb hi' hj' hfb
    obtain ⟨hanswer, hsingle⟩ := perform_resolve h hb hj'
    refine ⟨haccepts, ?_, ?_⟩
    · simp [accepts, hanswer, Except.isOk, Except.toBool]
    · rw [hforest, hname, h.settle_settle_of_falls hw hv hab hfa]
      exact hsingle.symm

/-- Where an ambiguity is an alternative of another one, the two are resolved in either order if it
wins, and it need not be resolved at all if it loses. -/
theorem resolutions_commute_in_nested_ambiguities :
    ((start .strict).run Edit.nestedAmbiguities).Reachable ∧
    (((start .strict).run Edit.nestedAmbiguities).run [.resolve ⟨3⟩ 1, .resolve ⟨5⟩ 0]).forest =
      (((start .strict).run Edit.nestedAmbiguities).run [.resolve ⟨5⟩ 0, .resolve ⟨3⟩ 1]).forest ∧
    (((start .strict).run Edit.nestedAmbiguities).run [.resolve ⟨3⟩ 1, .resolve ⟨5⟩ 1]).forest =
      (((start .strict).run Edit.nestedAmbiguities).run [.resolve ⟨5⟩ 1]).forest := by
  have he := reachable_run .strict (by decide : Edit.nestedAmbiguities.length < 2 ^ 32)
  have hwins := he.resolutions_commute (a := ⟨3⟩) (b := ⟨5⟩) (by decide) (by decide) (by decide)
    (i := 1) (j := 0) (by decide) (by decide)
  have hloses := he.resolutions_commute (a := ⟨3⟩) (b := ⟨5⟩) (by decide) (by decide) (by decide)
    (i := 1) (j := 1) (by decide) (by decide)
  exact ⟨he, (hwins.1 (by decide) (by decide)).2.2, (hloses.2 (by decide)).2.2⟩

end Editor

end SyntaxForest
