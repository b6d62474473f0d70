import SyntaxForest.Proofs.Reachable

/-!
# Ambiguities keep two alternatives

An ambiguity comes in with at least two alternatives, and the checks do not let any of them go if
fewer than two would be left. One way out is not checked: a child of the old node may always come
into its place, and so a substitution can lift an alternative out of an ambiguity that has only
two, without dropping the ambiguity as a resolution does. The ambiguity stays behind as a root with
one alternative.

A substitution of this kind *starves* the ambiguity (`Forest.Starves`). It is the only edit that
does: a change takes an ambiguity with two alternatives or more below two exactly if it starves it
(`Forest.Change.plural_iff`).
-/

namespace SyntaxForest

namespace Forest

/-- A node is an ambiguity. -/
def IsAmbiguity (f : Forest) (a : NodeId) : Prop := ∃ n, f.node? a = some n ∧ n.isAmbiguity

/-- If a node is an ambiguity, it has at least two alternatives. -/
def Plural (f : Forest) (a : NodeId) : Prop :=
  ∀ n, f.node? a = some n → n.isAmbiguity → 2 ≤ n.alternatives.length

/-- An edit puts one of the two alternatives of an ambiguity into the place of the ambiguity, and
leaves the other one alone with it. -/
def Starves (f : Forest) (a : NodeId) : Edit → Prop
  | .substitute parent old new =>
    old = a ∧ f.parent? a = some parent ∧ f.IsAmbiguity a ∧ new ∈ f.alternatives a ∧
      (f.alternatives a).length = 2
  | _ => False

variable {f : Forest} {a : NodeId}

/-! ### Counting alternatives -/

/-- Taking nodes out of a list takes away no more than those of them that are there. -/
lemma length_le_length_diff_add (l taken : List NodeId) :
    l.length ≤ (l.diff taken).length + taken.countP fun x => x ∈ l := by
  induction taken generalizing l with
  | nil => exact Nat.le_add_right _ _
  | cons x taken ih =>
    have hrest := ih (l.erase x)
    have hfewer : (taken.countP fun y => y ∈ l.erase x) ≤ taken.countP fun y => y ∈ l := by
      refine List.countP_mono_left fun y _ hy => ?_
      simp only [decide_eq_true_eq] at hy ⊢
      exact List.mem_of_mem_erase hy
    rw [List.diff_cons, List.countP_cons]
    by_cases hx : x ∈ l
    · have hlength := List.length_erase_of_mem hx
      simp only [hx, decide_true, if_true]
      omega
    · rw [List.erase_of_not_mem hx] at hrest hfewer ⊢
      simp only [hx, decide_false]
      omega

/-- Whether a node is an ambiguity depends on its contents only. -/
lemma isAmbiguity_iff : f.IsAmbiguity a ↔ ∃ family, f.content? a = some (.ambiguity family) := by
  constructor
  · rintro ⟨n, hn, hambiguity⟩
    obtain ⟨family, hfamily⟩ := Node.exists_content_eq_ambiguity hambiguity
    exact ⟨family, by rw [content?_of_node? hn, hfamily]⟩
  · rintro ⟨family, hfamily⟩
    obtain ⟨n, hn, hcontent⟩ := Option.map_eq_some_iff.1 hfamily
    refine ⟨n, hn, ?_⟩
    rw [Node.isAmbiguity, Node.kind, hcontent]
    rfl

/-- The ambiguities that are listed are the nodes that are ambiguities. -/
lemma mem_ambiguities_iff : a ∈ f.ambiguities ↔ f.IsAmbiguity a := by
  rw [ambiguities, idsWhere, List.mem_filter, mem_ids, Option.any_eq_true]
  exact ⟨And.right, fun h => ⟨mem_iff_exists_node?.2 (h.imp fun _ => And.left), h⟩⟩

/-- An ambiguity is plural if it has two children in its slot. -/
lemma plural_iff_childrenIn :
    f.Plural a ↔ (f.IsAmbiguity a → 2 ≤ (f.childrenIn a .alternative).length) := by
  constructor
  · rintro h ⟨n, hn, hambiguity⟩
    rw [childrenIn_of_node? hn]
    exact h n hn hambiguity
  · intro h n hn hambiguity
    have hlength := h ⟨n, hn, hambiguity⟩
    rw [childrenIn_of_node? hn] at hlength
    exact hlength

/-! ### Elementary changes -/

/-- A plural ambiguity stays so if its contents stay and its alternatives do not become fewer than
two. -/
lemma Plural.of_content? {g : Forest} (h : f.Plural a) (hcontent : g.content? a = f.content? a)
    (hlength : 2 ≤ (f.childrenIn a .alternative).length →
      2 ≤ (g.childrenIn a .alternative).length) : g.Plural a := by
  rw [plural_iff_childrenIn] at h ⊢
  intro hambiguity
  rw [isAmbiguity_iff, hcontent, ← isAmbiguity_iff] at hambiguity
  exact hlength (h hambiguity)

/-- Taking a node out of its slot leaves an ambiguity plural unless the node is one of two
alternatives of it. -/
lemma Plural.pluck_iff (h : f.Plural a) (hf : f.Linked) (child : NodeId) :
    (f.pluck child).Plural a ↔
      ¬ (f.IsAmbiguity a ∧ child ∈ f.alternatives a ∧ (f.alternatives a).length = 2) := by
  have hsame : (f.pluck child).IsAmbiguity a ↔ f.IsAmbiguity a := by
    rw [isAmbiguity_iff, isAmbiguity_iff, content?_pluck]
  rw [plural_iff_childrenIn] at h
  rw [plural_iff_childrenIn, hsame, hf.childrenIn_pluck, alternatives_eq_childrenIn, not_and]
  refine imp_congr_right fun hambiguity => ?_
  have htwo := h hambiguity
  by_cases hchild : child ∈ f.childrenIn a .alternative
  · have hlength := List.length_erase_of_mem hchild
    rw [not_and]
    constructor
    · intro hle _ heq
      omega
    · intro hne
      have := hne hchild
      omega
  · rw [List.erase_of_not_mem hchild]
    exact iff_of_true htwo fun hpair => hchild hpair.1

/-- Taking a node out of its slot leaves an ambiguity plural if the check allows it. -/
lemma Plural.pluck (h : f.Plural a) (hf : f.Linked) {child : NodeId}
    (hdetachable : f.Detachable [child]) : (f.pluck child).Plural a := by
  rw [h.pluck_iff hf]
  rintro ⟨-, hchild, hlength⟩
  have hlink : f.link? child = some ⟨a, .alternative⟩ := (hf.link_iff child a .alternative).2 hchild
  have hthree := detachable_singleton_iff.1 hdetachable a hlink
  omega

/-- Taking several nodes out of their slots leaves an ambiguity plural if the check allows it. -/
lemma Plural.foldl_pluck (h : f.Plural a) (hf : f.Linked) {taken : List NodeId}
    (hdetachable : f.Detachable taken) : (taken.foldl Forest.pluck f).Plural a := by
  refine h.of_content? (content?_foldl_pluck taken a) fun htwo => ?_
  rw [hf.childrenIn_foldl_pluck]
  have hover : ∀ child, child ∈ f.childrenIn a .alternative ↔ f.ambiguityOver? child = some a := by
    intro child
    rw [ambiguityOver?_eq_some_iff, hf.link_iff]
  have hdiff := length_le_length_diff_add (f.childrenIn a .alternative) taken
  by_cases hnone : ∃ child ∈ taken, child ∈ f.childrenIn a .alternative
  · obtain ⟨child, htaken, hchild⟩ := hnone
    have hleft := hdetachable child htaken a ((hf.link_iff child a .alternative).2 hchild)
    rw [alternativesWithout, alternatives_eq_childrenIn] at hleft
    simp only [hover] at hdiff
    omega
  · have hzero : (taken.countP fun child => child ∈ f.childrenIn a .alternative) = 0 := by
      rw [List.countP_eq_zero]
      intro child htaken hchild
      exact hnone ⟨child, htaken, by simpa using hchild⟩
    omega

/-- A refill leaves an ambiguity plural unless it is its slot that is refilled with fewer than
two. -/
lemma Plural.refill (h : f.Plural a) {id : NodeId} {p : Property} {l : List NodeId}
    (hslot : f.HasSlot id p) (hroom : p.shape = .single → l.length ≤ 1)
    (hlength : p = .alternative → 2 ≤ (f.childrenIn id p).length → 2 ≤ l.length) :
    (f.refill id p l).Plural a := by
  refine h.of_content? (content?_refill a) fun htwo => ?_
  rw [childrenIn_refill hslot hroom]
  split
  · next heq =>
    obtain ⟨rfl, rfl⟩ := heq
    exact hlength rfl htwo
  · exact htwo

/-- Dropping nodes leaves the other ambiguities plural. -/
lemma Plural.eraseAll (h : f.Plural a) (ids : List NodeId) : (f.eraseAll ids).Plural a := by
  intro n hn hambiguity
  rw [node?_eraseAll] at hn
  split at hn
  · cases hn
  · exact h n hn hambiguity

/-- A new node is plural if it comes in so, and leaves the others plural. -/
lemma Plural.plant (h : f.Plural a) (id : NodeId) {n : Node}
    (hplural : n.isAmbiguity → 2 ≤ n.alternatives.length) : (f.plant id n).Plural a := by
  intro m hm hambiguity
  rw [node?_plant] at hm
  split at hm
  · obtain rfl := Option.some.inj hm
    exact hplural hambiguity
  · exact h m hm hambiguity

/-! ### Compound changes -/

/-- Putting a node into the place of another one leaves an ambiguity plural exactly if taking the
node out of its slot does. -/
lemma plural_graft_iff (hf : f.Linked) {parent old new : NodeId} {p : Property}
    (hlink : f.link? old = some ⟨parent, p⟩) (hne : old ≠ new) (hnew : new ∈ f) :
    (f.graft parent p old new).Plural a ↔ (f.pluck new).Plural a := by
  have hadmits := hf.admits_graft hlink hne hnew
  have hcontent : (f.graft parent p old new).content? a = (f.pluck new).content? a :=
    content?_refill a
  have hlength : ((f.graft parent p old new).childrenIn a .alternative).length =
      ((f.pluck new).childrenIn a .alternative).length := by
    unfold graft
    rw [childrenIn_refill hadmits.slot hadmits.room]
    split
    · next heq =>
      obtain ⟨rfl, rfl⟩ := heq
      exact List.length_replace
    · rfl
  constructor
  · intro h
    exact h.of_content? hcontent.symm (by rw [hlength]; exact id)
  · intro h
    exact h.of_content? hcontent (by rw [hlength]; exact id)

/-- Lifting an alternative leaves every ambiguity plural but its own. -/
lemma Plural.lift (h : f.Plural a) (hs : f.Sound) {id winner : NodeId}
    (hwinner : f.link? winner = some ⟨id, .alternative⟩) (hne : a ≠ id) :
    (f.lift id winner).Plural a := by
  have hpluck : (f.pluck winner).Plural a := by
    rw [h.pluck_iff hs.linked]
    rintro ⟨-, hmem, -⟩
    have hin := (hs.linked.link_iff winner id .alternative).1 hwinner
    exact hne (hs.linked.eq_of_mem_childrenIn hmem hin).1
  unfold Forest.lift
  split
  · exact hpluck
  · next parent p hlink =>
    have hmem := hs.linked.mem_of_link? hwinner
    exact (plural_graft_iff hs.linked hlink (hs.ne_of_link? hwinner) hmem).2 hpluck

/-- A node that was dropped is not in the forest. -/
lemma notMem_uproot (hs : f.Sound) {id : NodeId} (hid : id ∈ f) : id ∉ f.uproot id := by
  have hplucked := hs.pluck id
  have hmem : id ∈ f.pluck id := mem_pluck.2 hid
  unfold uproot
  rw [mem_eraseAll, mem_subtree_iff hplucked.linked hplucked.grounded hmem]
  exact fun hgone => hgone.2 .refl

namespace Change

variable {edit : Edit} {answer : Answer} {g : Forest}

/-- A substitution that is made leaves an ambiguity plural exactly if it does not starve it. -/
lemma plural_substitute_iff (h : f.Plural a) (hs : f.Sound) {parent old new : NodeId}
    {p : Property} (hlink : f.link? old = some ⟨parent, p⟩) (hne : old ≠ new)
    (hnew : f.Replaceable parent p old new) :
    (f.graft parent p old new).Plural a ↔ ¬ f.Starves a (.substitute parent old new) := by
  have hmem : new ∈ f := hnew.mem (hs.linked.hasSlot_of_link? hlink)
  rw [plural_graft_iff hs.linked hlink hne hmem, h.pluck_iff hs.linked, not_iff_not]
  constructor
  · rintro ⟨hambiguity, halternative, hlength⟩
    have hlinkNew : f.link? new = some ⟨a, .alternative⟩ :=
      (hs.linked.link_iff new a .alternative).2 halternative
    -- The check of the alternatives can only have been left out because the ambiguity is replaced.
    have hold : old = a := by
      rcases hnew.loose with hparent | ⟨-, hdetachable⟩
      · rw [above_of_link? hlinkNew] at hparent
        exact (Option.some.inj hparent).symm
      · have hthree := detachable_singleton_iff.1 hdetachable a hlinkNew
        omega
    subst hold
    exact ⟨rfl, above_of_link? hlink, hambiguity, halternative, hlength⟩
  · rintro ⟨-, -, hstarves⟩
    exact hstarves

/-- A change leaves an ambiguity plural exactly if the edit does not starve it. -/
theorem plural_iff (hchange : f.Change edit answer g) (hs : f.Sound) (h : f.Plural a) :
    g.Plural a ↔ ¬ f.Starves a edit := by
  cases hchange with
  | insert hn =>
    refine iff_of_true ?_ not_false
    exact (h.foldl_pluck hs.linked hn.detachable).plant _ hn.plural
  | settled _ _ _ => exact iff_of_true h not_false
  | @fill parent p child hslot hshape _ hchild =>
    refine iff_of_true ?_ not_false
    have hfreed : (child.elim f f.pluck).Plural a := by
      cases child with
      | none => exact h
      | some c => exact h.pluck hs.linked (hchild c rfl).detachable
    have hadmits := hs.linked.admits_fill hslot fun c hc => (hchild c hc).mem hslot
    refine hfreed.refill hadmits.slot hadmits.room fun hp => ?_
    -- The slot of the alternatives is a list.
    rw [hp] at hshape
    cases hshape
  | appendNone _ _ => exact iff_of_true h not_false
  | append hslot hshape hchild =>
    refine iff_of_true ?_ not_false
    have hadmits := hs.linked.admits_append hslot hshape (hchild.mem hslot)
    refine (h.pluck hs.linked hchild.detachable).refill hadmits.slot hadmits.room fun _ htwo => ?_
    rw [List.length_append]
    omega
  | detach _ hdetachable => exact iff_of_true (h.pluck hs.linked hdetachable) not_false
  | overlooked _ hold _ =>
    refine iff_of_true h ?_
    rintro ⟨rfl, hparent, -⟩
    exact hold (hs.linked.mem_children_iff_parent?.2 hparent)
  | stay _ =>
    refine iff_of_true h ?_
    rintro ⟨rfl, -, -, hself, -⟩
    exact hs.ne_of_link? ((hs.linked.link_iff ..).2 hself) rfl
  | substitute hlink hne hnew => exact plural_substitute_iff h hs hlink hne hnew
  | @resolve id winner index n hn hambiguity hindex =>
    refine iff_of_true ?_ not_false
    rw [← alternatives_of_node? hn] at hindex
    have hwinner := hs.linked.link?_of_getElem? hindex
    have hlift := hs.lift hwinner hn hambiguity
    by_cases ha : a = id
    · subst ha
      intro m hm _
      exact absurd (mem_of_node? hm) (notMem_uproot hlift (mem_lift.2 (mem_of_node? hn)))
    · have hroot : (f.lift id winner).link? id = none := hs.link?_lift hwinner
      unfold uproot
      rw [pluck_of_link?_none hroot]
      exact (h.lift hs hwinner ha).eraseAll _
  | prune _ hdetachable =>
    refine iff_of_true ?_ not_false
    exact (h.pluck hs.linked hdetachable).eraseAll _

end Change

end Forest

namespace Editor

open Forest

variable {e : Editor} {a : NodeId}

/-! ### Runs -/

/-- An edit that starves an ambiguity is not refused. -/
lemma exists_ok_of_starves (h : e.forest.Sound) {edit : Edit} (hstarves : e.forest.Starves a edit) :
    ∃ answer, (e.perform edit).1 = .ok answer := by
  cases edit with
  | substitute parent old new =>
    obtain ⟨rfl, hparent, ⟨n, hn, hambiguity⟩, hnew, -⟩ := hstarves
    obtain ⟨p, hlink⟩ := h.linked.exists_link? hparent
    have hwinner : e.forest.link? new = some ⟨old, .alternative⟩ :=
      (h.linked.link_iff new old .alternative).2 hnew
    have hreplaceable := h.replaceable_alternative hn hambiguity hwinner hlink
    have hok := (substitute_of_replaceable h hlink (h.ne_of_link? hwinner) hreplaceable).1
    have hanswer : (e.perform (.substitute parent old new)).1 =
        (e.substitute parent old new).1.map fun _ => .done := rfl
    refine ⟨.done, ?_⟩
    rw [hanswer, hok]
    rfl
  | _ => exact hstarves.elim

/-- An edit leaves an ambiguity plural exactly if it does not starve it. -/
theorem plural_perform_iff (h : e.forest.Sound) (ha : e.forest.Plural a) (edit : Edit) :
    (e.perform edit).2.forest.Plural a ↔ ¬ e.forest.Starves a edit := by
  rcases performed_perform h edit with ⟨reason, hrefused⟩ | ⟨answer, -, hchange⟩
  · rw [hrefused]
    refine iff_of_true ha fun hstarves => ?_
    obtain ⟨answer, hok⟩ := exists_ok_of_starves h hstarves
    rw [hrefused] at hok
    cases hok
  · exact hchange.plural_iff h ha

/-- An ambiguity is plural all along a run exactly if no edit of the run starves it. -/
theorem plural_run_iff (h : e.forest.Sound) (ha : e.forest.Plural a) {edits : List Edit}
    (hroom : e.forest.lastId.raw.toNat + e.insertions edits < 2 ^ 32) :
    (∀ before, before <+: edits → (e.run before).forest.Plural a) ↔
      ∀ before edit, before ++ [edit] <+: edits → ¬ (e.run before).forest.Starves a edit := by
  induction edits generalizing e with
  | nil =>
    refine iff_of_true (fun before hbefore => ?_) fun before edit hbefore => ?_
    · rw [List.prefix_nil.1 hbefore]
      exact ha
    · exact absurd (List.prefix_nil.1 hbefore) (by simp)
  | cons first edits ih =>
    rw [insertions] at hroom
    obtain ⟨hsound, hlast⟩ := sound_perform h first (by omega)
    have hstep := plural_perform_iff h ha first
    constructor
    · intro hall before edit hbefore
      have hfirst : (e.perform first).2.forest.Plural a :=
        hall [first] (List.cons_prefix_cons.2 ⟨rfl, List.nil_prefix⟩)
      cases before with
      | nil =>
        obtain ⟨rfl, -⟩ := List.cons_prefix_cons.1 hbefore
        exact hstep.1 hfirst
      | cons b before =>
        obtain ⟨rfl, hrest⟩ := List.cons_prefix_cons.1 hbefore
        refine (ih hsound hfirst (by omega)).1 (fun rest hprefix => ?_) before edit hrest
        exact hall (b :: rest) (List.cons_prefix_cons.2 ⟨rfl, hprefix⟩)
    · intro hnone before hbefore
      have hfirst : (e.perform first).2.forest.Plural a :=
        hstep.2 (hnone [] first (List.cons_prefix_cons.2 ⟨rfl, List.nil_prefix⟩))
      cases before with
      | nil => exact ha
      | cons b before =>
        obtain ⟨rfl, hrest⟩ := List.cons_prefix_cons.1 hbefore
        refine (ih hsound hfirst (by omega)).2 (fun rest edit hprefix => ?_) before hrest
        exact hnone (b :: rest) edit (List.cons_prefix_cons.2 ⟨rfl, hprefix⟩)

/-- In a run from a forest without nodes, an ambiguity has at least two alternatives as long as it
exists exactly if no edit of the run puts one of its only two alternatives into its place. -/
theorem two_alternatives_iff_no_edit_starves (policy : Policy) {edits : List Edit}
    (hroom : (start policy).insertions edits < 2 ^ 32) (a : NodeId) :
    (∀ before, before <+: edits → ((start policy).run before).forest.Plural a) ↔
      ∀ before edit, before ++ [edit] <+: edits →
        ¬ ((start policy).run before).forest.Starves a edit := by
  have hstart : (start policy).forest.Sound := .empty policy
  have hzero : (start policy).forest.lastId.raw.toNat = 0 := rfl
  have ha : (start policy).forest.Plural a := by
    intro n hn
    cases (node?_empty policy a).symm.trans hn
  exact plural_run_iff hstart ha (by omega)

/-- The run that lifts one of two alternatives starves the ambiguity, and so the ambiguity does not
keep two alternatives. -/
theorem two_alternatives_lost_by_lift :
    (start .strict).insertions Edit.liftedBlock < 2 ^ 32 ∧
    ¬ ∀ before, before <+: Edit.liftedBlock →
      ((start .strict).run before).forest.Plural ⟨3⟩ := by
  have hroom : (start .strict).insertions Edit.liftedBlock < 2 ^ 32 :=
    lt_of_le_of_lt (insertions_le_length _ Edit.liftedBlock) (by decide)
  have hstarves : ((start .strict).run Edit.ambiguousBlock).forest.Starves ⟨3⟩
      (.substitute ⟨4⟩ ⟨3⟩ ⟨1⟩) :=
    ⟨rfl, by decide, ⟨_, rfl, by decide⟩, by decide, by decide⟩
  refine ⟨hroom, fun hall => ?_⟩
  exact (two_alternatives_iff_no_edit_starves .strict hroom ⟨3⟩).1 hall Edit.ambiguousBlock
    (.substitute ⟨4⟩ ⟨3⟩ ⟨1⟩) List.prefix_rfl hstarves

/-- After an alternative was lifted out of its ambiguity by a substitution, the ambiguity is still
there, with one alternative. -/
theorem one_alternative_after_lift :
    ((start .strict).run Edit.liftedBlock).Reachable ∧
    ∃ n, ((start .strict).run Edit.liftedBlock).forest.node? ⟨3⟩ = some n ∧
      n.isAmbiguity ∧ n.alternatives = [⟨2⟩] :=
  ⟨reachable_run .strict (by decide), _, rfl, by decide, by decide⟩

end Editor

end SyntaxForest
