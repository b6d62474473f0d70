import SyntaxForest.Proofs.Change

/-!
# Edits make changes

An edit of a sound forest either is refused, and then the editor is the one from before with its
log, or it makes one of the changes of `Forest.Change` (`Editor.performed_perform`). This is where
the elementary writes of the edits are followed one by one.

Resolving an ambiguity is the only edit that is made of others. It checks nothing but the index of
the alternative, so what remains to be seen is that neither of its two parts can be refused after
the first one has written something: the forest is sound, and so the alternative fits where its
ambiguity stands and is not above it, and the ambiguity is a root when it is dropped.
-/

namespace SyntaxForest

namespace Editor

open Forest

/-- The outcome of an edit is a refusal that changed nothing, or one of the changes. -/
def Performed (e : Editor) (edit : Edit) (o : Outcome Answer) : Prop :=
  (∃ reason, o = (.error reason, e)) ∨
    ∃ answer, o.1 = .ok answer ∧ e.forest.Change edit answer o.2.forest

variable {e : Editor}

/-- An edit that gives the same editor back with an error was refused. -/
lemma Performed.of_error {α : Type} {form : α → Answer} {edit : Edit} {o : Outcome α}
    {reason : Error} (ho : o = (.error reason, e)) : e.Performed edit (Outcome.map form o) := by
  refine .inl ⟨reason, ?_⟩
  rw [ho]
  rfl

/-- An edit that succeeds with one of the changes made it. -/
lemma Performed.of_ok {α : Type} {form : α → Answer} {edit : Edit} {o : Outcome α} {a : α}
    (ho : o.1 = .ok a) (hchange : e.forest.Change edit (form a) o.2.forest) :
    e.Performed edit (Outcome.map form o) := by
  refine .inr ⟨form a, ?_, hchange⟩
  unfold Outcome.map
  rw [ho]
  rfl

variable (h : e.forest.Sound)

include h

/-! ### Insertion -/

omit h in
/-- A new node passes its check exactly if it may come in. -/
lemma checkInsert_iff_insertable {n : Node} :
    e.forest.checkInsert n = .ok () ↔ e.forest.Insertable n := by
  rw [checkInsert_eq_ok_iff]
  constructor
  · rintro ⟨hplural, hnodup, hentries, hdetachable⟩
    refine ⟨hplural, hnodup, fun p child hc => (hentries p child hc).1, fun child hc => ?_,
      hdetachable⟩
    obtain ⟨p, hp⟩ := Node.mem_children.1 hc
    exact (hentries p child hp).2
  · intro hn
    refine ⟨hn.plural, hn.nodup, fun p child hc => ⟨hn.fits p child hc, ?_⟩, hn.detachable⟩
    exact hn.takable child (Node.mem_children.2 ⟨p, hc⟩)

/-- A new node that may come in gets the next identifier and is planted above its children, which
have left their slots. -/
lemma insert_of_insertable {n : Node} (hn : e.forest.Insertable n) :
    (e.insert n).1 = .ok e.forest.lastId.next ∧
      (e.insert n).2.forest =
        (n.children.foldl pluck e.forest).plant e.forest.lastId.next n := by
  rw [plant, ← forest_foldl_unlink h.linked, ← forest_foldl_attach]
  unfold insert
  rw [checkInsert_iff_insertable.2 hn]
  exact ⟨rfl, rfl⟩

/-- An insertion is refused, or it plants the new node. -/
lemma performed_insert (n : Node) : e.Performed (.insert n) (e.perform (.insert n)) := by
  cases hcheck : e.forest.checkInsert n with
  | error reason => exact .of_error (by rw [insert, hcheck])
  | ok _ =>
    have hinsertable := checkInsert_iff_insertable.1 hcheck
    obtain ⟨hanswer, hforest⟩ := insert_of_insertable h hinsertable
    refine .of_ok hanswer ?_
    rw [hforest]
    exact .insert hinsertable

/-! ### Filling a single slot -/

/-- A child that passes the check for a slot may come into it. -/
lemma attachable_of_checkAttach {parent child : NodeId} {p : Property} {n : Node}
    (hn : e.forest.node? parent = some n)
    (hcheck : e.forest.checkAttach parent p (n.content.accepts p) child = .ok ()) :
    e.forest.Attachable parent p child := by
  obtain ⟨hfits, htakable, hdetachable, hbelow⟩ :=
    (checkAttach_eq_ok_iff h.linked h.grounded).1 hcheck
  refine ⟨fun content hcontent => ?_, htakable, hdetachable, hbelow⟩
  obtain rfl := Option.some.inj ((content?_of_node? hn).symm.trans hcontent)
  exact hfits

/-- Writing a single slot, with the child that loses it and the one that gets it, is a refill. -/
lemma exchange_fill {parent : NodeId} {p : Property} {child : Option NodeId}
    (hslot : e.forest.HasSlot parent p) (hshape : p.shape = .single)
    (hne : child ≠ e.forest.childIn? parent p) (hmem : ∀ c, child = some c → c ∈ e.forest) :
    (child.elim e.forest e.forest.pluck).exchange parent p (fun n => n.setSlot p (.single child))
        (e.forest.childIn? parent p) child =
      (child.elim e.forest e.forest.pluck).refill parent p child.toList := by
  refine (h.linked.freed child).exchange_eq_refill
    (h.linked.exchanges_fill hslot hshape hne hmem) fun n _ => ?_
  exact Node.setSlot_single_eq_refill n hshape child

/-- A child that may come into a slot passes the check for it. -/
lemma checkAttach_of_attachable {parent child : NodeId} {p : Property} {n : Node}
    (hn : e.forest.node? parent = some n) (hchild : e.forest.Attachable parent p child) :
    e.forest.checkAttach parent p (n.content.accepts p) child = .ok () := by
  rw [checkAttach_eq_ok_iff h.linked h.grounded]
  exact ⟨hchild.fits n.content (content?_of_node? hn), hchild.takable, hchild.detachable,
    hchild.below⟩

/-- A child that may come into a single slot, or none, gets it, and what was there is answered. -/
lemma fill_of_attachable {parent : NodeId} {p : Property} {child : Option NodeId}
    (hslot : e.forest.HasSlot parent p) (hshape : p.shape = .single)
    (hne : child ≠ e.forest.childIn? parent p)
    (hchild : ∀ c, child = some c → e.forest.Attachable parent p c) :
    (e.fill parent p child).1 = .ok (e.forest.childIn? parent p) ∧
      (e.fill parent p child).2.forest =
        (child.elim e.forest e.forest.pluck).refill parent p child.toList := by
  have hmem : ∀ c, child = some c → c ∈ e.forest := fun c hc => (hchild c hc).mem hslot
  have hfreed : (child.elim e e.unlink).forest = child.elim e.forest e.forest.pluck := by
    cases child with
    | none => rfl
    | some c => exact forest_unlink h.linked c
  rw [← exchange_fill h hslot hshape hne hmem, ← hfreed]
  obtain ⟨n, hn, hp⟩ := hslot
  have hcheck : child.forM (e.forest.checkAttach parent p (n.content.accepts p)) = .ok () := by
    cases child with
    | none => rfl
    | some c => exact checkAttach_of_attachable h hn (hchild c rfl)
  unfold fill
  rw [checkSlot_eq_ok_iff.2 ⟨n, hn, hp, hshape, rfl⟩]
  simp only [if_neg hne, hcheck, true_and]
  cases child <;> cases e.forest.childIn? parent p <;> rfl

omit h in
/-- Nothing is done where a single slot holds the right child already. -/
lemma fill_of_childIn? {parent : NodeId} {p : Property} {child : Option NodeId}
    (hslot : e.forest.HasSlot parent p) (hshape : p.shape = .single)
    (heq : child = e.forest.childIn? parent p) : e.fill parent p child = (.ok none, e) := by
  obtain ⟨n, hn, hp⟩ := hslot
  unfold fill
  rw [checkSlot_eq_ok_iff.2 ⟨n, hn, hp, hshape, rfl⟩]
  exact if_pos heq

/-- Filling a slot is refused, changes nothing, or puts the child there. -/
lemma performed_fill (parent : NodeId) (p : Property) (child : Option NodeId) :
    e.Performed (.fill parent p child) (e.perform (.fill parent p child)) := by
  cases hcheckSlot : e.forest.checkSlot parent p .single with
  | error reason => exact .of_error (by rw [fill, hcheckSlot])
  | ok c =>
    obtain ⟨n, hn, hp, hshape, rfl⟩ := checkSlot_eq_ok_iff.1 hcheckSlot
    have hslot : e.forest.HasSlot parent p := ⟨n, hn, hp⟩
    by_cases heq : child = e.forest.childIn? parent p
    · have hfill := fill_of_childIn? hslot hshape heq
      refine .of_ok (by rw [hfill]) ?_
      rw [hfill]
      exact .settled hslot hshape heq
    · cases hcheck : child.forM (e.forest.checkAttach parent p (n.content.accepts p)) with
      | error reason =>
        have hrefused : e.fill parent p child = (.error reason, e) := by
          unfold fill
          rw [hcheckSlot]
          simp only [if_neg heq, hcheck]
        exact .of_error hrefused
      | ok _ =>
        have hattachable : ∀ c, child = some c → e.forest.Attachable parent p c := by
          rintro c rfl
          exact attachable_of_checkAttach h hn hcheck
        obtain ⟨hanswer, hforest⟩ := fill_of_attachable h hslot hshape heq hattachable
        refine .of_ok hanswer ?_
        rw [hforest]
        exact .fill hslot hshape heq hattachable

/-! ### Appending to a list slot -/

/-- Appending a child is a refill once the child has left its own slot. -/
lemma exchange_append {parent child : NodeId} {p : Property} (hslot : e.forest.HasSlot parent p)
    (hshape : p.shape = .list) (hmem : child ∈ e.forest) :
    (e.forest.pluck child).exchange parent p (fun n => n.appendChild p child) none (some child) =
      (e.forest.pluck child).refill parent p
        ((e.forest.pluck child).childrenIn parent p ++ [child]) := by
  refine (h.linked.pluck child).exchange_eq_refill (h.linked.exchanges_append hslot hshape hmem)
    fun n hn => ?_
  rw [Node.appendChild_eq_refill n hshape, childrenIn_of_node? hn]

omit h in
/-- Nothing is done where no child is appended. -/
lemma append_none {parent : NodeId} {p : Property} (hslot : e.forest.HasSlot parent p)
    (hshape : p.shape = .list) : e.append parent p none = (.ok (), e) := by
  obtain ⟨n, hn, hp⟩ := hslot
  rw [append, checkSlot_eq_ok_iff.2 ⟨n, hn, hp, hshape, rfl⟩]

/-- A child that may come into a list slot is put at its end. -/
lemma append_of_attachable {parent child : NodeId} {p : Property}
    (hslot : e.forest.HasSlot parent p) (hshape : p.shape = .list)
    (hchild : e.forest.Attachable parent p child) :
    (e.append parent p (some child)).1 = .ok () ∧
      (e.append parent p (some child)).2.forest = (e.forest.pluck child).refill parent p
        ((e.forest.pluck child).childrenIn parent p ++ [child]) := by
  rw [← exchange_append h hslot hshape (hchild.mem hslot), ← forest_unlink h.linked]
  obtain ⟨n, hn, hp⟩ := hslot
  unfold append
  rw [checkSlot_eq_ok_iff.2 ⟨n, hn, hp, hshape, rfl⟩]
  simp only [checkAttach_of_attachable h hn hchild, true_and]
  rfl

/-- Appending is refused, changes nothing, or puts the child at the end of the slot. -/
lemma performed_append (parent : NodeId) (p : Property) (child : Option NodeId) :
    e.Performed (.append parent p child) (e.perform (.append parent p child)) := by
  cases hcheckSlot : e.forest.checkSlot parent p .list with
  | error reason => exact .of_error (by rw [append, hcheckSlot])
  | ok c =>
    obtain ⟨n, hn, hp, hshape, rfl⟩ := checkSlot_eq_ok_iff.1 hcheckSlot
    have hslot : e.forest.HasSlot parent p := ⟨n, hn, hp⟩
    cases child with
    | none =>
      have happend := append_none hslot hshape
      refine .of_ok (by rw [happend]) ?_
      rw [happend]
      exact .appendNone hslot hshape
    | some child =>
      cases hcheck : e.forest.checkAttach parent p (n.content.accepts p) child with
      | error reason =>
        have hrefused : e.append parent p (some child) = (.error reason, e) := by
          unfold append
          rw [hcheckSlot]
          simp only [hcheck]
        exact .of_error hrefused
      | ok _ =>
        have hattachable := attachable_of_checkAttach h hn hcheck
        obtain ⟨hanswer, hforest⟩ := append_of_attachable h hslot hshape hattachable
        refine .of_ok hanswer ?_
        rw [hforest]
        exact .append hslot hshape hattachable

/-! ### Detaching and pruning -/

omit h in
/-- A node that starves no ambiguity is taken out of its slot. -/
lemma detach_of_detachable {id : NodeId} (hid : id ∈ e.forest)
    (hdetachable : e.forest.Detachable [id]) :
    e.detach id = (.ok (e.forest.parent? id), e.unlink id) := by
  obtain ⟨n, hn⟩ := mem_iff_exists_node?.1 hid
  have hcheck : e.forest.checkDetachable [id] = .ok () := checkDetachable_eq_ok_iff.2 hdetachable
  unfold detach
  rw [require_eq_ok_iff.2 hn, hcheck]

omit h in
/-- Detaching is refused, or the node exists and starves no ambiguity. -/
lemma detach_cases (e : Editor) (id : NodeId) :
    (∃ reason, e.detach id = (.error reason, e)) ∨
      id ∈ e.forest ∧ e.forest.Detachable [id] := by
  cases hrequire : e.forest.require id with
  | error reason =>
    left
    exact ⟨reason, by rw [detach, hrequire]⟩
  | ok n =>
    cases hcheck : e.forest.checkDetachable [id] with
    | error reason =>
      left
      exact ⟨reason, by rw [detach, hrequire, hcheck]⟩
    | ok _ =>
      right
      exact ⟨mem_of_node? (require_eq_ok_iff.1 hrequire), checkDetachable_eq_ok_iff.1 hcheck⟩

/-- Detaching is refused, or it takes the node out of its slot. -/
lemma performed_detach (id : NodeId) : e.Performed (.detach id) (e.perform (.detach id)) := by
  rcases detach_cases e id with ⟨reason, hrefused⟩ | ⟨hid, hdetachable⟩
  · exact .of_error hrefused
  · have hdetach := detach_of_detachable hid hdetachable
    refine .of_ok (by rw [hdetach]) ?_
    rw [hdetach, forest_unlink h.linked]
    exact .detach hid hdetachable

/-- A node that starves no ambiguity is dropped with everything below it. -/
lemma prune_of_detachable {id : NodeId} (hid : id ∈ e.forest)
    (hdetachable : e.forest.Detachable [id]) :
    (e.prune id).1 = .ok ((e.forest.pluck id).subtree id).length ∧
      (e.prune id).2.forest = e.forest.uproot id := by
  have hplucked := h.pluck id
  have hdrop := dropSubtree_eq hplucked.linked hplucked.grounded (mem_pluck.2 hid)
  unfold prune
  rw [detach_of_detachable hid hdetachable]
  simp only [forest_unlink h.linked, hdrop, true_and]
  rfl

/-- Pruning is refused, or it drops the subtree of the node. -/
lemma performed_prune (id : NodeId) : e.Performed (.prune id) (e.perform (.prune id)) := by
  rcases detach_cases e id with ⟨reason, hrefused⟩ | ⟨hid, hdetachable⟩
  · exact .of_error (by rw [prune, hrefused])
  · obtain ⟨hanswer, hforest⟩ := prune_of_detachable h hid hdetachable
    refine .of_ok hanswer ?_
    rw [hforest]
    exact .prune hid hdetachable

/-! ### Substitution -/

/-- Writing a new child over an old one is a refill once the new child has left its own slot. -/
lemma exchange_graft {parent old new : NodeId} {p : Property}
    (hlink : e.forest.link? old = some ⟨parent, p⟩) (hne : old ≠ new) (hnew : new ∈ e.forest) :
    (e.forest.pluck new).exchange parent p (fun n => n.replaceChild p old new) (some old)
      (some new) = e.forest.graft parent p old new := by
  refine (h.linked.pluck new).exchange_eq_refill (h.linked.exchanges_graft hlink hne hnew)
    fun n hn => ?_
  rw [Node.replaceChild_eq_refill, childrenIn_of_node? hn]

omit h in
/-- A substitution of what is no child does nothing if the policy overlooks it. -/
lemma substitute_of_notMem {parent old : NodeId} (hparent : parent ∈ e.forest)
    (hold : old ∉ e.forest.children parent) (hpolicy : e.forest.policy.missingChild = .ignore)
    (new : NodeId) : e.substitute parent old new = (.ok (), e.note (.overlooked parent old)) := by
  obtain ⟨n, hn⟩ := mem_iff_exists_node?.1 hparent
  rw [children_of_node? hn] at hold
  unfold substitute
  rw [require_eq_ok_iff.2 hn]
  simp only [Node.locate?_eq_none_iff.2 hold, hpolicy]

/-- A child may take its own place, and nothing is done. -/
lemma substitute_self {parent child : NodeId} (hparent : e.forest.parent? child = some parent) :
    e.substitute parent child child = (.ok (), e) := by
  obtain ⟨p, hlink⟩ := h.linked.exists_link? hparent
  obtain ⟨n, hn, -⟩ := h.linked.hasSlot_of_link? hlink
  obtain ⟨position, hlocate⟩ := h.linked.locate?_of_link? hn hlink
  unfold substitute
  rw [require_eq_ok_iff.2 hn]
  simp only [hlocate, if_true]

/-- A child that may come into the place of another one takes it. -/
lemma substitute_of_replaceable {parent old new : NodeId} {p : Property}
    (hlink : e.forest.link? old = some ⟨parent, p⟩) (hne : old ≠ new)
    (hnew : e.forest.Replaceable parent p old new) :
    (e.substitute parent old new).1 = .ok () ∧
      (e.substitute parent old new).2.forest = e.forest.graft parent p old new := by
  have hmem : new ∈ e.forest := hnew.mem (h.linked.hasSlot_of_link? hlink)
  obtain ⟨n, hn, hp⟩ := h.linked.hasSlot_of_link? hlink
  obtain ⟨position, hlocate⟩ := h.linked.locate?_of_link? hn hlink
  have hcheck : e.forest.checkSubstitute parent n p old new = .ok () := by
    rw [checkSubstitute_eq_ok_iff h.linked h.grounded hp]
    exact ⟨hnew.fits n.content (content?_of_node? hn), hnew.loose, hnew.below⟩
  unfold substitute
  rw [require_eq_ok_iff.2 hn]
  simp only [hlocate, if_neg hne, hcheck, true_and]
  rw [← exchange_graft h hlink hne hmem, ← forest_unlink h.linked]
  rfl

/-- A child that passes the check for the place of another one may come into it. -/
lemma replaceable_of_checkSubstitute {parent old new : NodeId} {p : Property} {n : Node}
    (hn : e.forest.node? parent = some n) (hp : p ∈ n.kind.properties)
    (hcheck : e.forest.checkSubstitute parent n p old new = .ok ()) :
    e.forest.Replaceable parent p old new := by
  obtain ⟨hfits, hloose, hbelow⟩ := (checkSubstitute_eq_ok_iff h.linked h.grounded hp).1 hcheck
  refine ⟨fun content hcontent => ?_, hloose, hbelow⟩
  obtain rfl := Option.some.inj ((content?_of_node? hn).symm.trans hcontent)
  exact hfits

/-- A substitution is refused, changes nothing, or puts the new child in the place of the old
one. -/
lemma performed_substitute (parent old new : NodeId) :
    e.Performed (.substitute parent old new) (e.perform (.substitute parent old new)) := by
  cases hrequire : e.forest.require parent with
  | error reason => exact .of_error (by rw [substitute, hrequire])
  | ok n =>
    have hn : e.forest.node? parent = some n := require_eq_ok_iff.1 hrequire
    cases hlocate : n.locate? old with
    | none =>
      cases hpolicy : e.forest.policy.missingChild with
      | error =>
        have hrefused : e.substitute parent old new = (.error (.notAChild parent old), e) := by
          unfold substitute
          rw [hrequire]
          simp only [hlocate, hpolicy]
        exact .of_error hrefused
      | ignore =>
        have hold : old ∉ e.forest.children parent := by
          rw [children_of_node? hn]
          exact Node.locate?_eq_none_iff.1 hlocate
        have hignored := substitute_of_notMem (mem_of_node? hn) hold hpolicy new
        refine .of_ok (by rw [hignored]) ?_
        rw [hignored]
        exact .overlooked (mem_of_node? hn) hold hpolicy
    | some place =>
      obtain ⟨p, position⟩ := place
      have hmem : old ∈ n.childrenIn p := Node.mem_childrenIn_of_locate? hlocate
      have hlink : e.forest.link? old = some ⟨parent, p⟩ := by
        rw [h.linked.link_iff, childrenIn_of_node? hn]
        exact hmem
      by_cases heq : old = new
      · subst heq
        have hparent := above_of_link? hlink
        have hsame := substitute_self h hparent
        refine .of_ok (by rw [hsame]) ?_
        rw [hsame]
        exact .stay hparent
      · cases hcheck : e.forest.checkSubstitute parent n p old new with
        | error reason =>
          have hrefused : e.substitute parent old new = (.error reason, e) := by
            unfold substitute
            rw [hrequire]
            simp only [hlocate, if_neg heq, hcheck]
          exact .of_error hrefused
        | ok _ =>
          have hp := Node.mem_properties_of_mem_childrenIn hmem
          have hreplaceable := replaceable_of_checkSubstitute h hn hp hcheck
          obtain ⟨hanswer, hforest⟩ := substitute_of_replaceable h hlink heq hreplaceable
          refine .of_ok hanswer ?_
          rw [hforest]
          exact .substitute hlink heq hreplaceable

/-! ### Resolution -/

/-- The first part of a resolution cannot be refused: the alternative is lifted into the place of
its ambiguity, and the resolution succeeds if the ambiguity can be pruned then. -/
lemma exists_lifted {id winner : NodeId} {index : ℕ} {n : Node}
    (hcheck : e.forest.checkAlternative id index = .ok winner) (hn : e.forest.node? id = some n)
    (hambiguity : n.isAmbiguity) (hwinner : e.forest.link? winner = some ⟨id, .alternative⟩) :
    ∃ lifted : Editor, lifted.forest = e.forest.lift id winner ∧
      ∀ reclaimed pruned, lifted.prune id = (.ok reclaimed, pruned) →
        e.resolve id index = (.ok winner, pruned.note (.resolved id winner reclaimed)) := by
  cases hparent : e.forest.parent? id with
  | none =>
    refine ⟨e.unlink winner, ?_, fun reclaimed pruned hprune => ?_⟩
    · rw [forest_unlink h.linked, lift, h.linked.parent?_eq_none_iff.1 hparent]
    · rw [resolve, hcheck]
      simp only [hparent, hprune]
  | some parent =>
    obtain ⟨p, hlink⟩ := h.linked.exists_link? hparent
    have hreplaceable := h.replaceable_alternative hn hambiguity hwinner hlink
    have hne : id ≠ winner := h.ne_of_link? hwinner
    obtain ⟨hanswer, hforest⟩ := substitute_of_replaceable h hlink hne hreplaceable
    have hsubstitute : e.substitute parent id winner =
        (.ok (), (e.substitute parent id winner).2) := Prod.ext hanswer rfl
    refine ⟨(e.substitute parent id winner).2, ?_, fun reclaimed pruned hprune => ?_⟩
    · rw [hforest, lift, hlink]
    · rw [resolve, hcheck]
      simp only [hparent]
      rw [hsubstitute]
      simp only [hprune]

/-- An alternative that exists is put in the place of its ambiguity, and the rest is dropped. -/
lemma resolve_of_checkAlternative {id winner : NodeId} {index : ℕ}
    (hcheck : e.forest.checkAlternative id index = .ok winner) :
    (e.resolve id index).1 = .ok winner ∧
      (e.resolve id index).2.forest = (e.forest.lift id winner).uproot id := by
  obtain ⟨n, hn, hambiguity, hindex⟩ := checkAlternative_eq_ok_iff.1 hcheck
  rw [← alternatives_of_node? hn] at hindex
  have hwinner := h.linked.link?_of_getElem? hindex
  obtain ⟨lifted, hlifted, hresolve⟩ := exists_lifted h hcheck hn hambiguity hwinner
  have hsound : lifted.forest.Sound := by
    rw [hlifted]
    exact h.lift hwinner hn hambiguity
  have hid : id ∈ lifted.forest := by
    rw [hlifted]
    exact mem_lift.2 (mem_of_node? hn)
  -- The ambiguity is a root now, and so it is no alternative of another one.
  have hdetachable : lifted.forest.Detachable [id] := by
    rw [detachable_singleton_iff, hlifted, h.link?_lift hwinner]
    intro a ha
    cases ha
  obtain ⟨hanswer, hforest⟩ := prune_of_detachable hsound hid hdetachable
  have houtcome := hresolve _ (lifted.prune id).2 (Prod.ext hanswer rfl)
  rw [houtcome, ← hlifted, ← hforest]
  exact ⟨rfl, rfl⟩

/-- A resolution is refused, or it puts the alternative in the place of its ambiguity and drops the
rest. -/
lemma performed_resolve (id : NodeId) (index : ℕ) :
    e.Performed (.resolve id index) (e.perform (.resolve id index)) := by
  cases hcheck : e.forest.checkAlternative id index with
  | error reason => exact .of_error (by rw [resolve, hcheck])
  | ok winner =>
    obtain ⟨n, hn, hambiguity, hindex⟩ := checkAlternative_eq_ok_iff.1 hcheck
    obtain ⟨hanswer, hforest⟩ := resolve_of_checkAlternative h hcheck
    refine .of_ok hanswer ?_
    rw [hforest]
    exact .resolve hn hambiguity hindex

/-! ### All edits -/

/-- An edit of a sound forest is refused and changes nothing, or it makes one of the changes. -/
theorem performed_perform (edit : Edit) : e.Performed edit (e.perform edit) := by
  cases edit with
  | insert n => exact performed_insert h n
  | fill parent p child => exact performed_fill h parent p child
  | append parent p child => exact performed_append h parent p child
  | detach id => exact performed_detach h id
  | substitute parent old new => exact performed_substitute h parent old new
  | resolve id index => exact performed_resolve h id index
  | prune id => exact performed_prune h id

end Editor

end SyntaxForest
