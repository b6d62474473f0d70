import SyntaxForest.Forest.Text
import SyntaxForest.Proofs.Splicing

/-!
# Texts

The text of a node is the one that its location records, or else it is rendered from the texts of
its children (`Forest.sourceText_eq`). Nothing else about the children matters: neither the texts of
other nodes (`Node.render_congr`) nor the names of the children (`Node.render_mapChildren`).

So where a new node takes the place of an old one that reads the same, every node that stays reads
as before (`Forest.Splice.sourceText_eq_self`). An ambiguity without a recorded text reads as its
first alternative (`Forest.Sound.sourceText_eq_first`).
-/

namespace SyntaxForest

open Relation

/-! ### Rendering -/

namespace Node

/-- The child in a slot is a child. -/
lemma mem_children_of_childIn? {n : Node} {p : Property} {child : NodeId}
    (h : n.childIn? p = some child) : child ∈ n.children :=
  mem_children.2 ⟨p, List.mem_of_head? h⟩

section

variable {n : Node} {first second : NodeId → String}
  (h : ∀ child ∈ n.children, first child = second child)

include h

lemma map_childIn?_congr (p : Property) : (n.childIn? p).map first = (n.childIn? p).map second :=
  Option.map_congr fun child hchild => h child (mem_children_of_childIn? hchild)

/-- The text of a single slot depends on the text of the child there. -/
lemma textIn_congr (p : Property) : n.textIn first p = n.textIn second p := by
  unfold textIn
  cases hchild : n.childIn? p with
  | none => rfl
  | some child => exact h child (mem_children_of_childIn? hchild)

/-- The text of a list slot depends on the texts of the children there. -/
lemma textsIn_congr (separator : String) (p : Property) :
    n.textsIn first separator p = n.textsIn second separator p := by
  unfold textsIn
  rw [List.map_congr_left fun child hchild => h child (mem_children.2 ⟨p, hchild⟩)]

/-- The text of a node depends on the texts of its children. -/
theorem render_congr : n.render first = n.render second := by
  unfold render
  simp only [textIn_congr h, textsIn_congr h, map_childIn?_congr h]

end

/-- The child in a slot under another name. -/
lemma childIn?_mapChildren (n : Node) (rename : NodeId → NodeId) (p : Property) :
    (n.mapChildren rename).childIn? p = (n.childIn? p).map rename := by
  rw [childIn?, childrenIn_mapChildren, List.head?_map]
  rfl

/-- It does not matter how children are named that read the same. -/
theorem render_mapChildren (n : Node) (rename : NodeId → NodeId) (text : NodeId → String) :
    (n.mapChildren rename).render text = n.render fun child => text (rename child) := by
  have hone : ∀ p, (n.mapChildren rename).textIn text p =
      n.textIn (fun child => text (rename child)) p := by
    intro p
    unfold textIn
    rw [childIn?_mapChildren]
    cases n.childIn? p <;> rfl
  have hoptional : ∀ p, ((n.mapChildren rename).childIn? p).map text =
      (n.childIn? p).map fun child => text (rename child) := by
    intro p
    rw [childIn?_mapChildren, Option.map_map]
    rfl
  have hmany : ∀ separator p, (n.mapChildren rename).textsIn text separator p =
      n.textsIn (fun child => text (rename child)) separator p := by
    intro separator p
    unfold textsIn
    rw [childrenIn_mapChildren, List.map_map]
    rfl
  unfold render
  simp only [hone, hoptional, hmany, content_mapChildren, childrenIn_mapChildren,
    List.isEmpty_map]

end Node

namespace Forest

variable {f : Forest}

/-! ### The text of a node -/

lemma descends_sourceTextWithin (f : Forest) :
    f.Descends f.sourceTextWithin fun _ n text =>
      if n.location.source.isEmpty then n.render text else n.location.source where
  absent levels id hn := by cases levels <;> simp [sourceTextWithin, hn]
  succ levels id n hn := by rw [sourceTextWithin, hn]
  congr id n first second h := by rw [Node.render_congr h]

/-- The text of a node is the one that is recorded, or else is rendered from the texts of its
children. -/
theorem sourceText_eq (hf : f.Linked) (hg : f.Grounded) {id : NodeId} {n : Node}
    (hn : f.node? id = some n) :
    f.sourceText id =
      if n.location.source.isEmpty then n.render f.sourceText else n.location.source :=
  f.descends_sourceTextWithin.size_eq hf hg hn

/-- What does not exist has no text. -/
lemma sourceText_eq_empty {id : NodeId} (hn : f.node? id = none) : f.sourceText id = "" :=
  f.descends_sourceTextWithin.absent f.size id hn

namespace Splice

variable {g : Forest} {old new : NodeId} {Stays : NodeId → Prop} (h : f.Splice g old new Stays)

include h

/-- If the new node reads as the old one, every node that stays reads as before. -/
theorem sourceText_eq_self (htext : f.sourceText new = f.sourceText old) {x : NodeId}
    (hx : Stays x) : g.sourceText x = f.sourceText x := by
  have hf := h.before.linked
  have hg := h.before.grounded
  -- The new node is not above the old one, and so its own text has not changed.
  have hnew : g.sourceText new = f.sourceText new :=
    h.value_eq f.descends_sourceTextWithin g.descends_sourceTextWithin (fun _ => rfl) h.stays
      h.below
  induction x using child_induction hf hg with
  | step x ih =>
    have hnode := h.node? x hx
    cases hn : f.node? x with
    | none =>
      rw [hn] at hnode
      rw [sourceText_eq_empty hnode, sourceText_eq_empty hn]
    | some n =>
      rw [hn, Option.map_some] at hnode
      have hrender : (n.mapChildren (NodeId.rename old new)).render g.sourceText =
          n.render f.sourceText := by
        rw [Node.render_mapChildren]
        refine Node.render_congr fun child hchild => ?_
        rw [← children_of_node? hn] at hchild
        by_cases hold : child = old
        · rw [hold, NodeId.rename_self, hnew, htext]
        · have habove : f.Above x child := hf.mem_children_iff_parent?.1 hchild
          rw [NodeId.rename_of_ne hold]
          exact ih child hchild (h.child x child hx habove hold)
      rw [sourceText_eq h.after.linked h.after.grounded hnode, sourceText_eq hf hg hn, hrender]
      rfl

end Splice

/-- An ambiguity without a recorded text reads as its first alternative. -/
lemma Sound.sourceText_eq_first (h : f.Sound) {a w : NodeId} {n : Node}
    (hn : f.node? a = some n) (hambiguity : n.isAmbiguity) (hsource : n.location.source = "")
    (hfirst : (f.alternatives a)[0]? = some w) : f.sourceText w = f.sourceText a := by
  obtain ⟨family, hcontent⟩ := Node.exists_content_eq_ambiguity hambiguity
  have hchild : n.childIn? .alternative = some w := by
    rw [alternatives_of_node? hn] at hfirst
    rw [Node.childIn?, List.head?_eq_getElem?]
    exact hfirst
  have hempty : n.location.source.isEmpty := by
    rw [hsource]
    rfl
  rw [sourceText_eq h.linked h.grounded hn, if_pos hempty, Node.render, hcontent]
  simp only [Node.textIn, hchild, Option.elim_some]

end Forest

namespace Editor

open Forest

/-- In every reachable forest an ambiguity can be resolved to any of its alternatives that reads as
the ambiguity itself, and then all nodes that are left read as before. If no text is recorded for
the ambiguity, its first alternative reads so. -/
theorem Reachable.resolution_keeps_texts {e : Editor} (he : e.Reachable) {a : NodeId}
    (ha : a ∈ e.forest.ambiguities) :
    (∀ index w, (e.forest.alternatives a)[index]? = some w →
      e.forest.sourceText w = e.forest.sourceText a →
      (e.perform (.resolve a index)).1 = .ok (.node w) ∧
      ∀ x ∈ (e.perform (.resolve a index)).2.forest,
        (e.perform (.resolve a index)).2.forest.sourceText x = e.forest.sourceText x) ∧
    ∀ n w, e.forest.node? a = some n → n.location.source = "" →
      (e.forest.alternatives a)[0]? = some w →
      e.forest.sourceText w = e.forest.sourceText a := by
  have h := he.sound
  rw [mem_ambiguities_iff] at ha
  constructor
  · intro index w hindex htext
    have hw := h.linked.link?_of_getElem? hindex
    obtain ⟨hanswer, hforest⟩ := perform_resolve h ha hindex
    refine ⟨hanswer, fun x hx => ?_⟩
    rw [hforest] at hx ⊢
    exact (h.splice_settle hw).sourceText_eq_self htext ((h.mem_settle_iff hw).1 hx).2
  · intro n w hn hsource hfirst
    obtain ⟨m, hm, hambiguity⟩ := ha
    obtain rfl := Option.some.inj (hn.symm.trans hm)
    exact h.sourceText_eq_first hn hambiguity hsource hfirst

/-- In a block with an ambiguity that is an alternative of another one, both alternatives of the
inner one read alike, and the block reads the same after it was resolved to the second one. -/
theorem resolution_keeps_texts_in_nested_ambiguities :
    ((start .strict).run Edit.nestedAmbiguities).Reachable ∧
    ⟨3⟩ ∈ ((start .strict).run Edit.nestedAmbiguities).forest.ambiguities ∧
    (((start .strict).run Edit.nestedAmbiguities).forest.alternatives ⟨3⟩)[1]? = some ⟨2⟩ ∧
    ((start .strict).run Edit.nestedAmbiguities).forest.sourceText ⟨2⟩ =
      ((start .strict).run Edit.nestedAmbiguities).forest.sourceText ⟨3⟩ ∧
    (((start .strict).run Edit.nestedAmbiguities).perform (.resolve ⟨3⟩ 1)).2.forest.sourceText
        ⟨6⟩ = ((start .strict).run Edit.nestedAmbiguities).forest.sourceText ⟨6⟩ := by
  have he := reachable_run .strict (by decide : Edit.nestedAmbiguities.length < 2 ^ 32)
  have ha : ⟨3⟩ ∈ ((start .strict).run Edit.nestedAmbiguities).forest.ambiguities := by decide
  have hindex : (((start .strict).run Edit.nestedAmbiguities).forest.alternatives ⟨3⟩)[1]? =
      some ⟨2⟩ := by decide
  have htext : ((start .strict).run Edit.nestedAmbiguities).forest.sourceText ⟨2⟩ =
      ((start .strict).run Edit.nestedAmbiguities).forest.sourceText ⟨3⟩ := by rfl
  have hkept := ((he.resolution_keeps_texts ha).1 1 ⟨2⟩ hindex htext).2
  exact ⟨he, ha, hindex, htext, hkept ⟨6⟩ (by decide)⟩

end Editor

end SyntaxForest
