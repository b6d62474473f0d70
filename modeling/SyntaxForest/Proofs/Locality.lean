import SyntaxForest.Forest.Role
import SyntaxForest.Proofs.Texts

/-!
# The reach of an edit

An edit writes the slots of few nodes (`Forest.written`): the parent it names, the parents of the
nodes it moves, and with an ambiguity that is resolved the parent of this. All other nodes that
are there before and after the edit have the slots they had (`Forest.Change.node?_eq_self`).

Below a node that is neither written nor above one that is, nothing is written. So nothing below it
goes, and every node there is as it was (`Forest.Change.agree_below`). What can be read off its
subtree, its text, its listing and the roles of the names in it, is the same as before, even if the
node itself has been moved.
-/

namespace SyntaxForest

open Relation

namespace Forest

/-- The nodes whose slots an edit writes. -/
def written (f : Forest) : Edit → List NodeId
  | .insert n => n.children.filterMap f.parent?
  | .fill parent _ child => parent :: (child.bind f.parent?).toList
  | .append parent _ child => parent :: (child.bind f.parent?).toList
  | .detach id => (f.parent? id).toList
  | .substitute parent _ new => parent :: (f.parent? new).toList
  | .resolve id _ => id :: (f.parent? id).toList
  | .prune id => (f.parent? id).toList

variable {f g : Forest} {x : NodeId}

/-- Taking a node out of its slot changes no node but its parent. -/
lemma node?_pluck_of_parent?_ne {child : NodeId} (h : f.parent? child ≠ some x) :
    (f.pluck child).node? x = f.node? x := by
  cases hlink : f.link? child with
  | none => rw [pluck_of_link?_none hlink]
  | some link =>
    refine node?_pluck_of_ne hlink fun heq => h ?_
    rw [heq]
    exact above_of_link? hlink

/-- Taking nodes out of their slots changes no node but their parents. -/
lemma Linked.node?_foldl_pluck (hf : f.Linked) {l : List NodeId}
    (h : ∀ child ∈ l, f.parent? child ≠ some x) :
    (l.foldl Forest.pluck f).node? x = f.node? x := by
  induction l generalizing f with
  | nil => rfl
  | cons child l ih =>
    have hrest : ∀ other ∈ l, (f.pluck child).parent? other ≠ some x := fun other hother hparent =>
      h other (List.mem_cons_of_mem child hother) (hf.above_of_above_pluck hparent)
    rw [List.foldl_cons, ih (hf.pluck child) hrest,
      node?_pluck_of_parent?_ne (h child List.mem_cons_self)]

/-- A node that is left when another one was dropped, and was not its parent, is as it was. -/
lemma node?_uproot {id : NodeId} (hx : x ∈ f.uproot id) (h : f.parent? id ≠ some x) :
    (f.uproot id).node? x = f.node? x := by
  rw [uproot, mem_eraseAll] at hx
  rw [uproot, node?_eraseAll, if_neg hx.2, node?_pluck_of_parent?_ne h]

namespace Change

variable {edit : Edit} {answer : Answer} (hchange : f.Change edit answer g) (h : f.Sound)

include hchange h

/-- The links of a forest agree after every change, and the way up from every node ends. -/
lemma linked_grounded : g.Linked ∧ g.Grounded := by
  cases hedit : edit.isInsert with
  | false =>
    have hsound := hchange.sound h fun n hn => by
      rw [hn] at hedit
      cases hedit
    exact ⟨hsound.linked, hsound.grounded⟩
  | true =>
    cases hchange with
    | @insert n hn =>
      have hplucked := h.foldl_pluck n.children
      have hnew : f.lastId.next ∉ n.children.foldl pluck f := by
        have hnext := Sound.next_notMem hplucked.numbered
        rwa [lastId_foldl_pluck] at hnext
      have hfree := hn.free h.linked
      exact ⟨hplucked.linked.plant hnew hn.nodup hfree,
        hplucked.grounded.plant hplucked.linked hnew hn.nodup hfree⟩
    | _ => cases hedit

/-- A node that is there before and after a change and is not written is as it was. -/
theorem node?_eq_self (hx : x ∈ f) (hxg : x ∈ g) (hwritten : x ∉ f.written edit) :
    g.node? x = f.node? x := by
  cases hchange with
  | @insert n hn =>
    have hne : x ≠ f.lastId.next := fun heq => Sound.next_notMem h.numbered (heq ▸ hx)
    rw [node?_plant, if_neg hne]
    refine h.linked.node?_foldl_pluck fun child hchild hparent => hwritten ?_
    exact List.mem_filterMap.2 ⟨child, hchild, hparent⟩
  | @fill parent p child _ _ _ _ =>
    simp only [written, List.mem_cons, not_or] at hwritten
    rw [node?_refill, if_neg hwritten.1]
    cases child with
    | none => rfl
    | some child => exact node?_pluck_of_parent?_ne (by simpa using hwritten.2)
  | append _ _ _ =>
    simp only [written, List.mem_cons, not_or] at hwritten
    rw [node?_refill, if_neg hwritten.1]
    exact node?_pluck_of_parent?_ne (by simpa using hwritten.2)
  | detach _ _ => exact node?_pluck_of_parent?_ne (by simpa [written] using hwritten)
  | substitute _ _ _ =>
    simp only [written, List.mem_cons, not_or] at hwritten
    rw [graft, node?_refill, if_neg hwritten.1]
    exact node?_pluck_of_parent?_ne (by simpa using hwritten.2)
  | @resolve id winner index n hn hambiguity hwinner =>
    rw [← alternatives_of_node? hn] at hwinner
    have hw := h.linked.link?_of_getElem? hwinner
    have hstays := ((h.mem_settle_iff hw).1 hxg).2
    -- The ambiguity is no child of this node, so its new name is not seen here.
    have hnot : id ∉ f.children x := by
      intro hmem
      have hparent := h.linked.mem_children_iff_parent?.1 hmem
      exact hwritten (by simp [written, hparent])
    exact (h.node?_settle hw hstays).trans (node?_eq_map_rename hnot winner).symm
  | prune _ _ => exact node?_uproot hxg (by simpa [written] using hwritten)
  | _ => rfl

/-- Below a node that is there before and after a change and has nothing at or below it written,
every node is as it was. -/
theorem agree_below (hx : x ∈ f) (hxg : x ∈ g)
    (hfar : ∀ y ∈ f.written edit, ¬ ReflTransGen f.Above x y) {y : NodeId}
    (hy : ReflTransGen f.Above x y) : g.node? y = f.node? y := by
  -- On the way down no node can go: its parent, which is as it was, still holds it.
  suffices hstays : y ∈ g from
    hchange.node?_eq_self h (mem_of_reflTransGen h.linked hx hy) hstays fun hmem => hfar y hmem hy
  induction hy with
  | refl => exact hxg
  | @tail z y hz hzy ih =>
    have hzf := mem_of_reflTransGen h.linked hx hz
    have hnode := hchange.node?_eq_self h hzf ih fun hmem => hfar z hmem hz
    have hchild : y ∈ g.children z := by
      rw [children, hnode]
      exact h.linked.mem_children_iff_parent?.2 hzy
    have hlinked := (hchange.linked_grounded h).1
    exact hlinked.mem_of_above (hlinked.mem_children_iff_parent?.1 hchild)

end Change

end Forest

namespace Edit

/-- Brings in a node that has a child in its first slot, if this is a single one. -/
def insertAbove (content : Content) (child : Option NodeId) : Edit :=
  .insert (.make .unknown content fun _ => .single child)

/-- A name becomes an expression, which is negated, and a second negation has no operand yet. -/
def negatedName : List Edit :=
  [insertAbove (.name "x") none, insertAbove .idExpression (some ⟨1⟩),
    insertAbove (.unaryExpression .minus) (some ⟨2⟩), insertAbove (.unaryExpression .minus) none]

end Edit

namespace Editor

open Forest

/-- In every reachable forest an edit that is not refused leaves everything as it was below a node
that is there before and after the edit and is neither a node whose slots are written nor above
one, wherever it may have been moved: the text of the node, the listing of its subtree, and the
roles of the names in it. -/
theorem Reachable.edits_are_local {e : Editor} (he : e.Reachable) {edit : Edit}
    (hok : (e.perform edit).1.isOk) {x : NodeId} (hx : x ∈ e.forest)
    (hxg : x ∈ (e.perform edit).2.forest)
    (hfar : ∀ y ∈ e.forest.written edit, x ≠ y ∧ x ∉ e.forest.ancestors y) :
    (e.perform edit).2.forest.sourceText x = e.forest.sourceText x ∧
    (e.perform edit).2.forest.subtree x = e.forest.subtree x ∧
    ∀ m ∈ e.forest.subtree x, ∀ n ∈ e.forest.subtree x,
      (e.perform edit).2.forest.role m n = e.forest.role m n := by
  have h := he.sound
  have hf := h.linked
  have hg := h.grounded
  obtain ⟨answer, hchange⟩ := exists_change_of_isOk h hok
  obtain ⟨hf', hg'⟩ := hchange.linked_grounded h
  have hdown : ∀ y ∈ e.forest.written edit, ¬ ReflTransGen e.forest.Above x y := by
    intro y hy hpath
    obtain ⟨hne, hnot⟩ := hfar y hy
    rw [mem_ancestors_iff hf hg] at hnot
    rcases reflTransGen_iff_eq_or_transGen.1 hpath with heq | htrans
    · exact hne heq.symm
    · exact hnot htrans
  have hagree : ∀ y, ReflTransGen e.forest.Above x y →
      (e.perform edit).2.forest.node? y = e.forest.node? y := fun y hy =>
    hchange.agree_below h hx hxg hdown hy
  have hlisted : ∀ y ∈ e.forest.subtree x,
      (e.perform edit).2.forest.node? y = e.forest.node? y := fun y hy =>
    hagree y ((mem_subtree_iff hf hg hx).1 hy)
  refine ⟨?_, ?_, fun m hm n hn => role_congr (hlisted m hm) (hlisted n hn)⟩
  · exact (descends_sourceTextWithin _).eq_of_agree hf hg hf' hg' (descends_sourceTextWithin _)
      (fun _ => rfl) hagree
  · exact (descends_subtreeWithin _).eq_of_agree hf hg hf' hg' (descends_subtreeWithin _)
      (fun _ => rfl) hagree

/-- Where the policy lets one negation take the operand of another one away, the operand still reads
as its name, and the name is still a reference. -/
theorem edits_are_local_of_moved_operand :
    ((start ⟨.detach, .error⟩).run Edit.negatedName).Reachable ∧
    (((start ⟨.detach, .error⟩).run Edit.negatedName).perform (.fill ⟨4⟩ .operand (some ⟨2⟩))).1 =
      .ok (.former none) ∧
    ((start ⟨.detach, .error⟩).run Edit.negatedName).forest.written
      (.fill ⟨4⟩ .operand (some ⟨2⟩)) = [⟨4⟩, ⟨3⟩] ∧
    (((start ⟨.detach, .error⟩).run Edit.negatedName).perform
      (.fill ⟨4⟩ .operand (some ⟨2⟩))).2.forest.sourceText ⟨2⟩ = "x" ∧
    (((start ⟨.detach, .error⟩).run Edit.negatedName).perform
      (.fill ⟨4⟩ .operand (some ⟨2⟩))).2.forest.subtree ⟨2⟩ = [⟨2⟩, ⟨1⟩] ∧
    (((start ⟨.detach, .error⟩).run Edit.negatedName).perform
      (.fill ⟨4⟩ .operand (some ⟨2⟩))).2.forest.role ⟨2⟩ ⟨1⟩ = .reference := by
  have he := reachable_run ⟨.detach, .error⟩ (by decide : Edit.negatedName.length < 2 ^ 32)
  have hanswer : (((start ⟨.detach, .error⟩).run Edit.negatedName).perform
      (.fill ⟨4⟩ .operand (some ⟨2⟩))).1 = .ok (.former none) := by rfl
  have hok : (((start ⟨.detach, .error⟩).run Edit.negatedName).perform
      (.fill ⟨4⟩ .operand (some ⟨2⟩))).1.isOk := by
    rw [hanswer]
    rfl
  obtain ⟨htext, hlisting, hroles⟩ :=
    he.edits_are_local hok (x := ⟨2⟩) (by decide) (by decide) (by decide)
  refine ⟨he, hanswer, by decide, htext.trans ?_, hlisting.trans (by decide), ?_⟩
  · rfl
  · exact hroles ⟨2⟩ (by decide) ⟨1⟩ (by decide)

end Editor

end SyntaxForest
