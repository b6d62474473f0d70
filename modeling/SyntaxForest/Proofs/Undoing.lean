import SyntaxForest.Proofs.Ambiguities
import SyntaxForest.Proofs.Outcomes

/-!
# Undoing an attachment

A root that comes into a slot changes this slot only, and the slot can be given back the children it
had (`Forest.Linked.refill_refill`). So the forest before the attachment comes back, if the edit
that would bring it back passes the checks in the forest where it is made:

* a child that has lost its place to the new one fits there as before, is a root, and does not stand
  above the place, so it may come back (`Forest.Sound.attachable_former`),
* the new child may leave an ambiguity that had two alternatives without it
  (`Forest.Sound.change_detach_former`).
-/

namespace SyntaxForest

open Relation

namespace Forest

variable {f : Forest} {parent x : NodeId} {p : Property} {l : List NodeId}

/-- A child that has lost its place in a refill is a root. -/
lemma Linked.link?_of_lost (hf : f.Linked) (ha : f.Admits parent p l) {child : NodeId}
    (hchild : child ∈ f.childrenIn parent p) (hlost : child ∉ l) :
    (f.refill parent p l).link? child = none := by
  rw [hf.link?_refill ha, if_neg hlost, if_pos hchild]

/-- What is above the node of a slot after a refill was so before, if nothing came in that was. -/
lemma Linked.reflTransGen_of_refill (hf : f.Linked) (ha : f.Admits parent p l)
    (hbelow : ∀ child ∈ l, ¬ ReflTransGen f.Above child parent) {z : NodeId}
    (hz : ReflTransGen (f.refill parent p l).Above z parent) : ReflTransGen f.Above z parent := by
  induction hz using ReflTransGen.head_induction_on with
  | refl => exact .refl
  | @head z y hzy _ ih =>
    -- The way leads through no node that came in, and so each step of it was there before.
    have hnot : y ∉ l := fun hy => hbelow y hy ih
    rw [Above, hf.parent?_refill ha, if_neg hnot] at hzy
    split at hzy
    · cases hzy
    · exact .head hzy ih

/-- A replacement by something new is taken back by the opposite one. -/
lemma replace_replace {l : List NodeId} {old new : NodeId} (hold : old ∈ l) (hnew : new ∉ l) :
    (l.replace old new).replace new old = l := by
  obtain ⟨left, right, rfl, heq⟩ := exists_replace_eq hold new
  have hleft : new ∉ left := fun hmem => hnew (List.mem_append_left _ hmem)
  rw [heq, List.replace_append_right hleft, List.replace_cons_self]

namespace Sound

variable (h : f.Sound)

include h

/-- A child in a slot of a node is not above the node. -/
lemma not_above_of_mem_childrenIn {child : NodeId} (hchild : child ∈ f.childrenIn parent p) :
    ¬ ReflTransGen f.Above child parent := by
  intro hpath
  have habove := above_of_link? ((h.linked.link_iff child parent p).2 hchild)
  exact h.grounded.not_transGen_self parent (.head' habove hpath)

/-- A child that has lost its place in a refill may come back to it. -/
lemma attachable_former (ha : f.Admits parent p l)
    (hbelow : ∀ child ∈ l, ¬ ReflTransGen f.Above child parent) {child : NodeId}
    (hchild : child ∈ f.childrenIn parent p) (hlost : child ∉ l) :
    (f.refill parent p l).Attachable parent p child := by
  have hroot := h.linked.link?_of_lost ha hchild hlost
  have hparent := (h.linked.refill ha).parent?_eq_none_iff.2 hroot
  refine ⟨fun content hcontent => ?_, .inl hparent, ?_, fun hpath => ?_⟩
  · rw [content?_refill] at hcontent
    exact (h.typed parent content p child hcontent hchild).of_content? (content?_refill child)
  · rw [detachable_singleton_iff, hroot]
    exact fun a hlink => nomatch hlink
  · exact h.not_above_of_mem_childrenIn hchild (h.linked.reflTransGen_of_refill ha hbelow hpath)

/-! ### The edits that lead back -/

variable (hroot : f.link? x = none)

include hroot

/-- A single slot that was filled with a root can be filled with what it held before. -/
theorem change_fill_former (hslot : f.HasSlot parent p) (hshape : p.shape = .single)
    (hx : f.Attachable parent p x) :
    (f.refill parent p [x]).Change (.fill parent p (f.childIn? parent p)) (.former (some x)) f := by
  have ha : f.Admits parent p [x] := by
    have hadmits := h.linked.admits_fill hslot fun c hc => (Option.some.inj hc) ▸ hx.mem hslot
    rwa [Option.elim_some, pluck_of_link?_none hroot] at hadmits
  have hformer : f.childrenIn parent p = (f.childIn? parent p).toList :=
    childrenIn_eq_toList f parent hshape
  have hnow : (f.refill parent p [x]).childIn? parent p = some x := by
    rw [childIn?_eq_head?, childrenIn_refill ha.slot ha.room, if_pos ⟨rfl, rfl⟩]
    rfl
  have hlost : ∀ d, f.childIn? parent p = some d → d ∈ f.childrenIn parent p ∧ d ∉ [x] := by
    intro d hd
    have hmem := (mem_childrenIn_iff_childIn? hshape).2 hd
    refine ⟨hmem, fun hin => h.linked.notMem_childrenIn hroot parent p ?_⟩
    rwa [List.mem_singleton.1 hin] at hmem
  have hne : f.childIn? parent p ≠ (f.refill parent p [x]).childIn? parent p := by
    rw [hnow]
    exact fun heq => (hlost x heq).2 List.mem_cons_self
  have hplucked : (f.childIn? parent p).elim (f.refill parent p [x]) (f.refill parent p [x]).pluck =
      f.refill parent p [x] := by
    cases hd : f.childIn? parent p with
    | none => rfl
    | some d =>
      exact pluck_of_link?_none (h.linked.link?_of_lost ha (hlost d hd).1 (hlost d hd).2)
  have hchange := Change.fill (ha.slot.of_content? (content?_refill parent)) hshape hne
    fun d hd => h.attachable_former ha (by simpa using hx.below) (hlost d hd).1 (hlost d hd).2
  rwa [hnow, hplucked, ← hformer, h.linked.refill_refill ha] at hchange

/-- A root that was added to a list slot can be detached, unless the slot belongs to an ambiguity
that had fewer than two alternatives. -/
theorem change_detach_former (hslot : f.HasSlot parent p) (hshape : p.shape = .list)
    (hx : f.Attachable parent p x) (hplural : f.Plural parent) :
    (f.refill parent p (f.childrenIn parent p ++ [x])).Change (.detach x) (.former (some parent))
      f := by
  have ha : f.Admits parent p (f.childrenIn parent p ++ [x]) := by
    have hadmits := h.linked.admits_append hslot hshape (hx.mem hslot)
    rwa [pluck_of_link?_none hroot] at hadmits
  have hlink : (f.refill parent p (f.childrenIn parent p ++ [x])).link? x = some ⟨parent, p⟩ := by
    rw [h.linked.link?_refill ha, if_pos (by simp)]
  have hdetachable : (f.refill parent p (f.childrenIn parent p ++ [x])).Detachable [x] := by
    rw [detachable_singleton_iff, hlink]
    intro a heq
    obtain ⟨rfl, rfl⟩ := Link.mk.inj (Option.some.inj heq)
    obtain ⟨n, hn, hp⟩ := hslot
    have htwo := plural_iff_childrenIn.1 hplural ⟨n, hn, Node.isAmbiguity_of_mem_properties hp⟩
    rw [alternatives_eq_childrenIn, childrenIn_refill ha.slot ha.room, if_pos ⟨rfl, rfl⟩,
      List.length_append, List.length_singleton]
    omega
  have hpluck : (f.refill parent p (f.childrenIn parent p ++ [x])).pluck x = f := by
    rw [pluck_of_link? hlink, childrenIn_refill ha.slot ha.room, if_pos ⟨rfl, rfl⟩,
      List.erase_append_right _ (h.linked.notMem_childrenIn hroot parent p), List.erase_cons_head,
      List.append_nil, h.linked.refill_refill ha]
  have hchange := Change.detach ((mem_refill ..).2 (hx.mem hslot)) hdetachable
  rwa [hpluck, above_of_link? hlink] at hchange

/-- A child that a root has taken the place of can take its place back. -/
theorem change_substitute_former {old : NodeId} (hold : f.link? old = some ⟨parent, p⟩)
    (hx : f.Replaceable parent p old x) :
    (f.refill parent p ((f.childrenIn parent p).replace old x)).Change (.substitute parent x old)
      .done f := by
  have hmem : old ∈ f.childrenIn parent p := (h.linked.link_iff old parent p).1 hold
  have hnot : x ∉ f.childrenIn parent p := h.linked.notMem_childrenIn hroot parent p
  have hne : old ≠ x := fun heq => hnot (heq ▸ hmem)
  have ha : f.Admits parent p ((f.childrenIn parent p).replace old x) := by
    have hadmits := h.linked.admits_graft hold hne (hx.mem (h.linked.hasSlot_of_link? hold))
    rwa [pluck_of_link?_none hroot] at hadmits
  have hin : ∀ c, c ∈ (f.childrenIn parent p).replace old x ↔
      c = x ∨ c ∈ f.childrenIn parent p ∧ c ≠ old :=
    fun c => mem_replace_iff (h.linked.nodup parent p) hmem
  have hlost : old ∉ (f.childrenIn parent p).replace old x := by simp [hin, hne]
  have hbelow : ∀ c ∈ (f.childrenIn parent p).replace old x, ¬ ReflTransGen f.Above c parent := by
    intro c hc
    rcases (hin c).1 hc with rfl | ⟨hc, -⟩
    · exact hx.below
    · exact h.not_above_of_mem_childrenIn hc
  have hback := h.attachable_former ha hbelow hmem hlost
  have hlink : (f.refill parent p ((f.childrenIn parent p).replace old x)).link? x =
      some ⟨parent, p⟩ := by
    rw [h.linked.link?_refill ha, if_pos ((hin x).2 (.inl rfl))]
  have hloose := h.linked.link?_of_lost ha hmem hlost
  have hchange := Change.substitute hlink hne.symm
    ⟨hback.fits, .inr ⟨hback.takable, hback.detachable⟩, hback.below⟩
  rwa [Forest.graft, pluck_of_link?_none hloose, childrenIn_refill ha.slot ha.room,
    if_pos ⟨rfl, rfl⟩, replace_replace hmem hnot, h.linked.refill_refill ha] at hchange

end Sound

end Forest

namespace Edit

/-- A block of an ambiguous statement, a statement that stands alone, and a loop with a body. -/
def blockBesideLoop : List Edit :=
  ambiguousBlock ++ [insertOver .nullStatement [], insertOver .nullStatement [],
    insertOver .whileStatement [], .fill ⟨7⟩ .body (some ⟨6⟩)]

end Edit

namespace Editor

open Forest

/-- After an edit another one succeeds with a given answer, and leads back to the forest before the
first. -/
def Undoes (e : Editor) (edit back : Edit) (answer : Answer) : Prop :=
  ((e.perform edit).2.perform back).1 = .ok answer ∧
    ((e.perform edit).2.perform back).2.forest = e.forest

/-- A change that leads back undoes the edit. -/
lemma undoes_of_change {e : Editor} (h : e.forest.Sound) {edit back : Edit}
    {answer answer' : Answer} {g : Forest} (hedit : edit.isInsert = false)
    (hchange : e.forest.Change edit answer g) (hback : g.Change back answer' e.forest) :
    e.Undoes edit back answer' := by
  obtain ⟨-, rfl⟩ := (perform_iff_change h).2 hchange
  have hsound := hchange.sound h fun n hn => by
    rw [hn] at hedit
    cases hedit
  exact (perform_iff_change hsound).2 hback

/-- In every reachable forest the attachment of a root can be undone. A single slot that it was put
into can be given back what the edit answered. Where it was added to a list slot, it can be
detached, if the node there is no ambiguity that had fewer than two alternatives. Where it has taken
the place of a child, the child can take its place back. Each time the forest is the one before. -/
theorem Reachable.attachments_can_be_undone {e : Editor} (he : e.Reachable) {x : NodeId}
    (hx : e.forest.parent? x = none) :
    (∀ parent p d, (e.perform (.fill parent p (some x))).1 = .ok (.former d) →
      e.Undoes (.fill parent p (some x)) (.fill parent p d) (.former (some x))) ∧
    (∀ parent p, (e.perform (.append parent p (some x))).1.isOk → e.forest.Plural parent →
      e.Undoes (.append parent p (some x)) (.detach x) (.former (some parent))) ∧
    ∀ parent old, old ∈ e.forest.children parent →
      (e.perform (.substitute parent old x)).1.isOk →
      e.Undoes (.substitute parent old x) (.substitute parent x old) .done := by
  have h := he.sound
  have hroot := h.linked.parent?_eq_none_iff.1 hx
  refine ⟨fun parent p d hok => ?_, fun parent p hok hplural => ?_, fun parent old hold hok => ?_⟩
  · have hchange := (perform_iff_change h).1 ⟨hok, rfl⟩
    refine undoes_of_change h rfl hchange ?_
    generalize (e.perform (.fill parent p (some x))).2.forest = g at hchange ⊢
    cases hchange with
    | settled _ hshape heq =>
      have hmem := (mem_childrenIn_iff_childIn? hshape).2 heq.symm
      exact absurd hmem (h.linked.notMem_childrenIn hroot parent p)
    | fill hslot hshape _ hattachable =>
      rw [Option.elim_some, pluck_of_link?_none hroot]
      exact h.change_fill_former hroot hslot hshape (hattachable x rfl)
  · obtain ⟨answer, hchange⟩ := exists_change_of_isOk h hok
    refine undoes_of_change h rfl hchange ?_
    generalize (e.perform (.append parent p (some x))).2.forest = g at hchange ⊢
    cases hchange with
    | append hslot hshape hattachable =>
      rw [pluck_of_link?_none hroot]
      exact h.change_detach_former hroot hslot hshape hattachable hplural
  · obtain ⟨answer, hchange⟩ := exists_change_of_isOk h hok
    refine undoes_of_change h rfl hchange ?_
    generalize (e.perform (.substitute parent old x)).2.forest = g at hchange ⊢
    cases hchange with
    | overlooked _ hnot _ => exact absurd hold hnot
    | stay hparent => cases hx.symm.trans hparent
    | substitute hlink _ hreplaceable =>
      rw [graft, pluck_of_link?_none hroot]
      exact h.change_substitute_former hroot hlink hreplaceable

/-- A statement that stands alone can come into a loop, into an ambiguity with two alternatives, and
into the place of the ambiguity, and leave again. -/
theorem attachments_can_be_undone_beside_loop :
    ((start .strict).run Edit.blockBesideLoop).Reachable ∧
    ((start .strict).run Edit.blockBesideLoop).forest.parent? ⟨5⟩ = none ∧
    (((start .strict).run Edit.blockBesideLoop).perform (.fill ⟨7⟩ .body (some ⟨5⟩))).1 =
      .ok (.former (some ⟨6⟩)) ∧
    ((start .strict).run Edit.blockBesideLoop).Undoes (.fill ⟨7⟩ .body (some ⟨5⟩))
      (.fill ⟨7⟩ .body (some ⟨6⟩)) (.former (some ⟨5⟩)) ∧
    ((start .strict).run Edit.blockBesideLoop).Undoes (.append ⟨3⟩ .alternative (some ⟨5⟩))
      (.detach ⟨5⟩) (.former (some ⟨3⟩)) ∧
    ((start .strict).run Edit.blockBesideLoop).Undoes (.substitute ⟨4⟩ ⟨3⟩ ⟨5⟩)
      (.substitute ⟨4⟩ ⟨5⟩ ⟨3⟩) .done := by
  have he := reachable_run .strict (by decide : Edit.blockBesideLoop.length < 2 ^ 32)
  have hx : ((start .strict).run Edit.blockBesideLoop).forest.parent? ⟨5⟩ = none := by decide
  have hfill : (((start .strict).run Edit.blockBesideLoop).perform
      (.fill ⟨7⟩ .body (some ⟨5⟩))).1 = .ok (.former (some ⟨6⟩)) := by rfl
  have hplural : ((start .strict).run Edit.blockBesideLoop).forest.Plural ⟨3⟩ :=
    plural_iff_childrenIn.2 fun _ => by decide
  obtain ⟨hfilled, happended, hsubstituted⟩ := he.attachments_can_be_undone hx
  exact ⟨he, hx, hfill, hfilled ⟨7⟩ .body (some ⟨6⟩) hfill,
    happended ⟨3⟩ .alternative (by decide) hplural, hsubstituted ⟨4⟩ ⟨3⟩ (by decide) (by decide)⟩

end Editor

end SyntaxForest
