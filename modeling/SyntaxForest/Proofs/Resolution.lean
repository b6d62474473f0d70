import SyntaxForest.Proofs.Ambiguities

/-!
# Resolved ambiguities

When an ambiguity is resolved, one of its alternatives takes its place, and the ambiguity goes with
all the others. `Forest.settle` is the forest afterwards. It is described in terms of the forest
before:

* gone are the nodes that stand at or below the ambiguity but not at or below the alternative
  (`Forest.Falls`),
* every node that is left has the children it had, except that the ambiguity goes by the name of the
  alternative (`Forest.Sound.node?_settle`),
* of the nodes that are left, one is above another exactly if it was so before
  (`Forest.Sound.reflTransGen_settle_iff`).
-/

namespace SyntaxForest

open Relation

namespace Forest

/-- The forest in which an alternative has taken the place of its ambiguity, which has gone with all
its other alternatives. -/
def settle (f : Forest) (a w : NodeId) : Forest := (f.lift a w).uproot a

/-- A node goes when an alternative takes the place of its ambiguity: it stands at or below the
ambiguity, but not at or below the alternative. -/
def Falls (f : Forest) (a w x : NodeId) : Prop :=
  ReflTransGen f.Above a x ∧ ¬ ReflTransGen f.Above w x

variable {f : Forest}

lemma lift_of_root {a : NodeId} (h : f.link? a = none) (w : NodeId) : f.lift a w = f.pluck w := by
  rw [lift, h]

lemma lift_of_link? {a parent : NodeId} {p : Property} (h : f.link? a = some ⟨parent, p⟩)
    (w : NodeId) : f.lift a w = f.graft parent p a w := by
  rw [lift, h]

@[simp] lemma policy_lift (f : Forest) (a w : NodeId) : (f.lift a w).policy = f.policy := by
  unfold lift
  split
  · exact policy_pluck f w
  · rw [graft, policy_refill, policy_pluck]

@[simp] lemma lastId_settle (f : Forest) (a w : NodeId) : (f.settle a w).lastId = f.lastId := by
  rw [settle, uproot, lastId_eraseAll, lastId_pluck, lastId_lift]

@[simp] lemma policy_settle (f : Forest) (a w : NodeId) : (f.settle a w).policy = f.policy := by
  rw [settle, uproot, policy_eraseAll, policy_pluck, policy_lift]

/-- Taking a node out of its slot changes no node but its parent. -/
lemma node?_pluck_of_ne {child parent x : NodeId} {p : Property}
    (hlink : f.link? child = some ⟨parent, p⟩) (hx : x ≠ parent) :
    (f.pluck child).node? x = f.node? x := by
  rw [pluck_of_link? hlink, node?_refill, if_neg hx]

/-- A node keeps its children where another one is renamed that is none of them. -/
lemma node?_eq_map_rename {old x : NodeId} (hold : old ∉ f.children x) (new : NodeId) :
    f.node? x = (f.node? x).map fun n => n.mapChildren (NodeId.rename old new) := by
  cases hn : f.node? x with
  | none => rfl
  | some n =>
    rw [children_of_node? hn] at hold
    have hself : n.mapChildren (NodeId.rename old new) = n :=
      Node.mapChildren_eq_self fun child hchild =>
        NodeId.rename_of_ne fun heq => hold (heq ▸ hchild)
    rw [Option.map_some, hself]

/-- After a replacement by a root or by one of its own children, every node but the old one has the
children it had, with the new one in the place of the old one. -/
lemma Sound.node?_graft (h : f.Sound) {parent old new x : NodeId} {p : Property}
    (hold : f.link? old = some ⟨parent, p⟩)
    (hnew : f.parent? new = none ∨ f.parent? new = some old) (hx : x ≠ old) :
    (f.graft parent p old new).node? x =
      (f.node? x).map fun n => n.mapChildren (NodeId.rename old new) := by
  have hplucked : (f.pluck new).node? x = f.node? x := by
    rcases hnew with hroot | hchild
    · rw [pluck_of_link?_none (h.linked.parent?_eq_none_iff.1 hroot)]
    · obtain ⟨q, hlink⟩ := h.linked.exists_link? hchild
      exact node?_pluck_of_ne hlink hx
  have hslot : (f.pluck new).childrenIn parent p = f.childrenIn parent p := by
    rw [h.linked.childrenIn_pluck, List.erase_of_not_mem]
    intro hmem
    have hparent := above_of_link? ((h.linked.link_iff new parent p).2 hmem)
    rcases hnew with hroot | hchild
    · cases hroot.symm.trans hparent
    · exact h.ne_of_link? hold (Option.some.inj (hparent.symm.trans hchild))
  have hmem : old ∈ f.childrenIn parent p := (h.linked.link_iff old parent p).1 hold
  rw [Forest.graft, node?_refill, hslot, hplucked]
  by_cases hparent : x = parent
  · subst hparent
    rw [if_pos rfl]
    refine Option.map_congr fun n hn => ?_
    rw [childrenIn_of_node? hn] at hmem ⊢
    exact Node.refill_replace_eq_mapChildren (h.linked.nodup_children hn) hmem new
  · rw [if_neg hparent]
    refine node?_eq_map_rename (fun hin => hparent ?_) new
    rw [h.linked.mem_children_iff_parent?, above_of_link? hold] at hin
    exact (Option.some.inj hin).symm

/-- Of what stands at or below the ambiguity, the nodes at or below the alternative stay. -/
lemma not_falls_iff {a w x : NodeId} (haw : f.Above a w) :
    ¬ f.Falls a w x ↔ (ReflTransGen f.Above a x ↔ ReflTransGen f.Above w x) := by
  have hdown : ReflTransGen f.Above w x → ReflTransGen f.Above a x := ReflTransGen.head haw
  rw [Falls, not_and_not_right]
  exact ⟨fun hup => ⟨hup, hdown⟩, Iff.mp⟩

/-- A node that goes takes along all its children but the alternative. -/
lemma Falls.of_above {a w x y : NodeId} (hx : f.Falls a w x) (hxy : f.Above x y) (hy : y ≠ w) :
    f.Falls a w y := by
  refine ⟨hx.1.tail hxy, fun hwy => hx.2 ?_⟩
  rcases ReflTransGen.cases_tail hwy with heq | ⟨z, hz, hzy⟩
  · exact absurd heq hy
  · obtain rfl : z = x := Option.some.inj (hzy.symm.trans hxy)
    exact hz

namespace Sound

variable {a w : NodeId} (h : f.Sound) (hw : f.link? w = some ⟨a, .alternative⟩)

include h hw

/-! ### The alternative in the place of the ambiguity -/

/-- A node that has an alternative is an ambiguity. -/
lemma exists_node?_of_alternative : ∃ n, f.node? a = some n ∧ n.isAmbiguity := by
  obtain ⟨n, hn, hmem⟩ := mem_childrenIn_iff.1 ((h.linked.link_iff w a .alternative).1 hw)
  exact ⟨n, hn, Node.isAmbiguity_of_mem_alternatives hmem⟩

/-- Lifting an alternative into the place of its ambiguity keeps a forest sound. -/
lemma lift_alternative : (f.lift a w).Sound := by
  obtain ⟨n, hn, hambiguity⟩ := exists_node?_of_alternative h hw
  exact h.lift hw hn hambiguity

/-- Where the ambiguity has a parent, the slot there holds it without the alternative. -/
lemma childrenIn_pluck_of_link? {parent : NodeId} {p : Property}
    (ha : f.link? a = some ⟨parent, p⟩) :
    (f.pluck w).childrenIn parent p = f.childrenIn parent p := by
  rw [h.linked.childrenIn_pluck, List.erase_of_not_mem]
  intro hmem
  have hslot := h.linked.eq_of_mem_childrenIn hmem ((h.linked.link_iff w a .alternative).1 hw)
  exact h.ne_of_link? ha hslot.1

/-- The alternative gets the link of the ambiguity, the ambiguity loses it, and all other links stay
as they are. -/
lemma link?_lift_eq (x : NodeId) :
    (f.lift a w).link? x = if x = w then f.link? a else if x = a then none else f.link? x := by
  have hne : a ≠ w := h.ne_of_link? hw
  by_cases hxa : x = a
  · rw [hxa, h.link?_lift hw, if_neg hne, if_pos rfl]
  · rw [if_neg hxa]
    cases ha : f.link? a with
    | none => rw [lift_of_root ha, h.linked.link?_pluck]
    | some link =>
      obtain ⟨parent, p⟩ := link
      have hadmits := h.linked.admits_graft ha hne (h.linked.mem_of_link? hw)
      have hslot := childrenIn_pluck_of_link? h hw ha
      have ham : a ∈ f.childrenIn parent p := (h.linked.link_iff a parent p).1 ha
      have hin : x ∈ (f.childrenIn parent p).replace a w ↔ x = w ∨ x ∈ f.childrenIn parent p := by
        rw [mem_replace_iff (h.linked.nodup parent p) ham]
        simp [hxa]
      rw [lift_of_link? ha, Forest.graft, (h.linked.pluck w).link?_refill hadmits, hslot,
        h.linked.link?_pluck]
      simp only [hin]
      by_cases hxw : x = w
      · simp [hxw]
      · by_cases hmem : x ∈ f.childrenIn parent p
        · simp [hxw, hmem, (h.linked.link_iff x parent p).2 hmem]
        · simp [hxw, hmem]

/-- The parents after the alternative has come into the place of the ambiguity. -/
lemma parent?_lift_eq (x : NodeId) :
    (f.lift a w).parent? x =
      if x = w then f.parent? a else if x = a then none else f.parent? x := by
  rw [(lift_alternative h hw).linked.parent?_eq, link?_lift_eq h hw, h.linked.parent?_eq,
    h.linked.parent?_eq]
  split
  · rfl
  · split <;> rfl

/-- A node other than the ambiguity has the children it had, with the alternative in the place of
the ambiguity. -/
lemma node?_lift {x : NodeId} (hx : x ≠ a) :
    (f.lift a w).node? x = (f.node? x).map fun n => n.mapChildren (NodeId.rename a w) := by
  cases ha : f.link? a with
  | none =>
    rw [lift_of_root ha, node?_pluck_of_ne hw hx]
    refine node?_eq_map_rename (fun hmem => ?_) w
    rw [h.linked.mem_children_iff_parent?, h.linked.parent?_eq_none_iff.2 ha] at hmem
    cases hmem
  | some link =>
    rw [lift_of_link? ha]
    exact h.node?_graft ha (.inr (above_of_link? hw)) hx

/-! ### What goes -/

/-- The ambiguity itself goes. -/
lemma falls_self : f.Falls a w a := by
  refine ⟨.refl, fun hwa => ?_⟩
  exact h.grounded.not_transGen_self a (.head' (above_of_link? hw) hwa)

/-- What stands at or below the ambiguity after the alternative has left is what goes. -/
lemma reflTransGen_lift_iff {x : NodeId} :
    ReflTransGen (f.lift a w).Above a x ↔ f.Falls a w x := by
  have hparent := parent?_lift_eq h hw
  constructor
  · intro hpath
    induction hpath with
    | refl => exact falls_self h hw
    | @tail z x _ hzx ih =>
      rw [Above, hparent] at hzx
      split at hzx
      · -- The parent of the ambiguity is not below it.
        exact absurd (TransGen.tail' ih.1 hzx) (h.grounded.not_transGen_self a)
      · next hxw =>
        split at hzx
        · cases hzx
        · exact ih.of_above hzx hxw
  · rintro ⟨hpath, hnot⟩
    induction hpath with
    | refl => exact .refl
    | @tail z x hz hzx ih =>
      have hxw : x ≠ w := fun heq => hnot (heq ▸ .refl)
      have hxa : x ≠ a := fun heq =>
        h.grounded.not_transGen_self a (TransGen.tail' hz (heq ▸ hzx))
      refine (ih fun hwz => hnot (hwz.tail hzx)).tail ?_
      rw [Above, hparent, if_neg hxw, if_neg hxa]
      exact hzx

/-! ### The forest afterwards -/

/-- The ambiguity exists. -/
lemma mem_of_alternative : a ∈ f := by
  obtain ⟨n, hn, -⟩ := exists_node?_of_alternative h hw
  exact mem_of_node? hn

/-- The forest afterwards is sound. -/
theorem settle : (f.settle a w).Sound :=
  (lift_alternative h hw).uproot (mem_lift.2 (mem_of_alternative h hw))

/-- The nodes that go are dropped in the end. -/
lemma settle_eq_eraseAll :
    f.settle a w = (f.lift a w).eraseAll ((f.lift a w).subtree a) := by
  rw [Forest.settle, Forest.uproot, pluck_of_link?_none (h.link?_lift hw)]

/-- The listing of what is dropped has exactly the nodes that go. -/
lemma mem_subtree_lift_iff {x : NodeId} : x ∈ (f.lift a w).subtree a ↔ f.Falls a w x := by
  have hlift := lift_alternative h hw
  rw [mem_subtree_iff hlift.linked hlift.grounded (mem_lift.2 (mem_of_alternative h hw)),
    reflTransGen_lift_iff h hw]

/-- The nodes that go are not there. -/
lemma node?_settle_of_falls {x : NodeId} (hx : f.Falls a w x) : (f.settle a w).node? x = none := by
  rw [settle_eq_eraseAll h hw, node?_eraseAll, if_pos ((mem_subtree_lift_iff h hw).2 hx)]

/-- The nodes that stay have the children they had, with the alternative in the place of the
ambiguity. -/
theorem node?_settle {x : NodeId} (hx : ¬ f.Falls a w x) :
    (f.settle a w).node? x = (f.node? x).map fun n => n.mapChildren (NodeId.rename a w) := by
  have hxa : x ≠ a := by
    rintro rfl
    exact hx (falls_self h hw)
  rw [settle_eq_eraseAll h hw, node?_eraseAll, if_neg (mt (mem_subtree_lift_iff h hw).1 hx),
    node?_lift h hw hxa]

/-- The nodes that are there are those that do not go. -/
theorem mem_settle_iff {x : NodeId} : x ∈ f.settle a w ↔ x ∈ f ∧ ¬ f.Falls a w x := by
  by_cases hx : f.Falls a w x
  · refine iff_of_false ?_ fun hmem => hmem.2 hx
    rw [← node?_eq_none_iff]
    exact node?_settle_of_falls h hw hx
  · rw [mem_iff_isSome_node?, mem_iff_isSome_node?, node?_settle h hw hx, Option.isSome_map]
    exact ⟨fun hmem => ⟨hmem, hx⟩, And.left⟩

/-- A node that is there has its old link, and the alternative has that of the ambiguity. -/
lemma link?_settle {x : NodeId} (hx : ¬ f.Falls a w x) :
    (f.settle a w).link? x = if x = w then f.link? a else f.link? x := by
  have hxa : x ≠ a := by
    rintro rfl
    exact hx (falls_self h hw)
  rw [settle_eq_eraseAll h hw, link?_eraseAll, if_neg (mt (mem_subtree_lift_iff h hw).1 hx),
    link?_lift_eq h hw, if_neg hxa]

/-- A node that is there has its old parent, and the alternative has that of the ambiguity. -/
lemma parent?_settle {x : NodeId} (hx : ¬ f.Falls a w x) :
    (f.settle a w).parent? x = if x = w then f.parent? a else f.parent? x := by
  rw [(settle h hw).linked.parent?_eq, link?_settle h hw hx, h.linked.parent?_eq,
    h.linked.parent?_eq]
  split <;> rfl

/-- The slots of a node that is there hold what they held, with the alternative in the place of the
resolved ambiguity. -/
lemma childrenIn_settle {x : NodeId} (hx : ¬ f.Falls a w x) (p : Property) :
    (f.settle a w).childrenIn x p = (f.childrenIn x p).map (NodeId.rename a w) := by
  rw [childrenIn, node?_settle h hw hx]
  cases hn : f.node? x with
  | none => simp [childrenIn, hn]
  | some n => simp [childrenIn_of_node? hn]

/-- The alternatives of an ambiguity that is there are the old ones, with the alternative in the
place of the resolved ambiguity. -/
lemma alternatives_settle {x : NodeId} (hx : ¬ f.Falls a w x) :
    (f.settle a w).alternatives x = (f.alternatives x).map (NodeId.rename a w) :=
  childrenIn_settle h hw hx .alternative

/-- The ambiguities that are there are those that do not go. -/
theorem isAmbiguity_settle_iff {x : NodeId} :
    (f.settle a w).IsAmbiguity x ↔ f.IsAmbiguity x ∧ ¬ f.Falls a w x := by
  by_cases hx : f.Falls a w x
  · refine iff_of_false ?_ fun hmem => hmem.2 hx
    rintro ⟨n, hn, -⟩
    rw [node?_settle_of_falls h hw hx] at hn
    cases hn
  · rw [IsAmbiguity, node?_settle h hw hx]
    simp [IsAmbiguity, hx]

/-! ### Lines of ancestors afterwards -/

/-- What is above a node afterwards was above it before. -/
lemma reflTransGen_of_settle {x y : NodeId} (hpath : ReflTransGen (f.settle a w).Above x y) :
    ReflTransGen f.Above x y := by
  induction hpath with
  | refl => exact .refl
  | @tail z y _ hzy ih =>
    have hy : ¬ f.Falls a w y := by
      intro hfalls
      have hmem := (settle h hw).linked.mem_of_above hzy
      exact ((mem_settle_iff h hw).1 hmem).2 hfalls
    rw [Above, parent?_settle h hw hy] at hzy
    split at hzy
    · next hyw =>
      rw [hyw]
      exact (ih.tail hzy).tail (above_of_link? hw)
    · exact ih.tail hzy

/-- Of the nodes that are there, one is above another exactly if it was so before. -/
theorem reflTransGen_settle_iff {x y : NodeId} (hx : ¬ f.Falls a w x) (hy : ¬ f.Falls a w y) :
    ReflTransGen (f.settle a w).Above x y ↔ ReflTransGen f.Above x y := by
  refine ⟨reflTransGen_of_settle h hw, fun hpath => ?_⟩
  -- Going up, the ambiguity is left out: its parent comes right after the alternative.
  induction y using h.grounded.transGen.induction with
  | _ y ih =>
    rcases ReflTransGen.cases_tail hpath with rfl | ⟨z, hxz, hzy⟩
    · exact .refl
    · by_cases hyw : y = w
      · subst hyw
        obtain rfl : z = a := Option.some.inj (hzy.symm.trans (above_of_link? hw))
        have hxa : x ≠ z := by
          rintro rfl
          exact hx (falls_self h hw)
        rcases ReflTransGen.cases_tail hxz with heq | ⟨q, hxq, hqz⟩
        · exact absurd heq.symm hxa
        · have hq : ¬ f.Falls z y q := fun hfalls =>
            h.grounded.not_transGen_self z (.tail' hfalls.1 hqz)
          refine (ih q (.tail (.single hqz) hzy) hq hxq).tail ?_
          rw [Above, parent?_settle h hw hy, if_pos rfl]
          exact hqz
      · have hz : ¬ f.Falls a w z := fun hfalls => hy (hfalls.of_above hzy hyw)
        refine (ih z (.single hzy) hz hxz).tail ?_
        rw [Above, parent?_settle h hw hy, if_neg hyw]
        exact hzy

end Sound

end Forest

namespace Editor

open Forest

/-- A resolution that names an ambiguity and one of its alternatives is not refused. -/
theorem perform_resolve {e : Editor} (h : e.forest.Sound) {a w : NodeId} {index : ℕ}
    (ha : e.forest.IsAmbiguity a) (hindex : (e.forest.alternatives a)[index]? = some w) :
    (e.perform (.resolve a index)).1 = .ok (.node w) ∧
      (e.perform (.resolve a index)).2.forest = e.forest.settle a w := by
  obtain ⟨n, hn, hambiguity⟩ := ha
  rw [alternatives_of_node? hn] at hindex
  have hcheck : e.forest.checkAlternative a index = .ok w :=
    checkAlternative_eq_ok_iff.2 ⟨n, hn, hambiguity, hindex⟩
  obtain ⟨hanswer, hforest⟩ := resolve_of_checkAlternative h hcheck
  refine ⟨?_, hforest⟩
  rw [perform, Outcome.map, hanswer]
  rfl

end Editor

end SyntaxForest
