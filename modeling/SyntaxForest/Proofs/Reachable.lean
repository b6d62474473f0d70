import SyntaxForest.Proofs.Edits

/-!
# Reachable forests

An editor is reachable (`Editor.Reachable`) if some run of edits leads to it from a forest without
nodes. The edits may be of any kind, with any arguments, and may be refused; the policies are
arbitrary. Identifiers are 32-bit words, so fewer than `2 ^ 32` of the insertions may succeed.

Every edit keeps a forest sound, and so the forest of every reachable editor is sound
(`Editor.Reachable.sound`). In particular

* the links agree in both directions, and every node stands in at most one place,
* the forest is one: the way up from every node ends in a root, what is above a node by the links
  is above it by the slots, and the listings of the roots have every node exactly once,
* an edit that is refused has changed nothing.
-/

namespace SyntaxForest

open Relation

namespace Editor

/-! ### Runs -/

/-- How many identifiers an edit takes: one if it brings in a new node, and is not refused. -/
def taken (e : Editor) (edit : Edit) : ℕ :=
  if edit.isInsert ∧ (e.perform edit).1.isOk then 1 else 0

/-- How many insertions succeed when edits are made one after the other. -/
def insertions (e : Editor) : List Edit → ℕ
  | [] => 0
  | edit :: edits => e.taken edit + (e.perform edit).2.insertions edits

/-- Some run of edits leads to the editor from a forest without nodes. -/
def Reachable (e : Editor) : Prop :=
  ∃ policy edits, (start policy).insertions edits < 2 ^ 32 ∧ (start policy).run edits = e

/-- A run makes its first edit and goes on from there. -/
lemma run_cons (e : Editor) (edit : Edit) (edits : List Edit) :
    e.run (edit :: edits) = (e.perform edit).2.run edits := rfl

/-- Whether no edit is refused when edits are made one after the other. -/
def accepts (e : Editor) : List Edit → Bool
  | [] => true
  | edit :: edits => (e.perform edit).1.isOk && (e.perform edit).2.accepts edits

/-- Edits are made one after the other. -/
lemma run_append (e : Editor) (edits edits' : List Edit) :
    e.run (edits ++ edits') = (e.run edits).run edits' :=
  List.foldl_append

/-- No edit is refused if none of the first ones is, and none of the others after them. -/
lemma accepts_append (e : Editor) (edits edits' : List Edit) :
    e.accepts (edits ++ edits') = (e.accepts edits && (e.run edits).accepts edits') := by
  induction edits generalizing e with
  | nil => rfl
  | cons edit edits ih =>
    rw [List.cons_append, accepts, accepts, ih, run_cons, Bool.and_assoc]

/-- The insertions that succeed are those among the first edits, and among the others after them. -/
lemma insertions_append (e : Editor) (edits edits' : List Edit) :
    e.insertions (edits ++ edits') = e.insertions edits + (e.run edits).insertions edits' := by
  induction edits generalizing e with
  | nil => exact (Nat.zero_add _).symm
  | cons edit edits ih =>
    rw [List.cons_append, insertions, insertions, ih, run_cons, Nat.add_assoc]

/-- No more insertions succeed than edits are made. -/
lemma insertions_le_length (e : Editor) (edits : List Edit) :
    e.insertions edits ≤ edits.length := by
  induction edits generalizing e with
  | nil => exact Nat.zero_le _
  | cons edit edits ih =>
    have hrest := ih (e.perform edit).2
    have hfirst : e.taken edit ≤ 1 := by
      unfold taken
      split <;> omega
    rw [insertions, List.length_cons]
    omega

/-- Every run of fewer than `2 ^ 32` edits leads to a reachable editor. -/
lemma reachable_run (policy : Policy) {edits : List Edit} (h : edits.length < 2 ^ 32) :
    ((start policy).run edits).Reachable :=
  ⟨policy, edits, lt_of_le_of_lt (insertions_le_length _ edits) h, rfl⟩

/-! ### Runs keep forests sound -/

section

variable {e : Editor} (h : e.forest.Sound)

include h

/-- One edit keeps a forest sound and counts the identifier that it takes. -/
theorem sound_perform (edit : Edit)
    (hroom : e.forest.lastId.raw.toNat + e.taken edit < 2 ^ 32) :
    (e.perform edit).2.forest.Sound ∧
      (e.perform edit).2.forest.lastId.raw.toNat =
        e.forest.lastId.raw.toNat + e.taken edit := by
  rcases performed_perform h edit with ⟨reason, hrefused⟩ | ⟨answer, hanswer, hchange⟩
  · have htaken : e.taken edit = 0 := by
      unfold taken
      rw [hrefused]
      simp [Except.isOk, Except.toBool]
    rw [htaken, hrefused]
    exact ⟨h, rfl⟩
  · have htaken : e.taken edit = if edit.isInsert then 1 else 0 := by
      unfold taken
      rw [hanswer]
      simp [Except.isOk, Except.toBool]
    rw [htaken] at hroom ⊢
    have hlast := hchange.lastId_eq
    refine ⟨hchange.sound h fun n hn => ?_, ?_⟩
    · subst hn
      exact hroom
    · rw [hlast]
      cases hinsert : edit.isInsert with
      | false => simp
      | true =>
        rw [hinsert] at hroom
        rw [if_pos rfl, if_pos rfl]
        exact NodeId.toNat_next hroom

/-- A run keeps a forest sound and counts the identifiers that it takes. -/
theorem sound_run (edits : List Edit)
    (hroom : e.forest.lastId.raw.toNat + e.insertions edits < 2 ^ 32) :
    (e.run edits).forest.Sound ∧
      (e.run edits).forest.lastId.raw.toNat =
        e.forest.lastId.raw.toNat + e.insertions edits := by
  induction edits generalizing e with
  | nil => exact ⟨h, rfl⟩
  | cons edit edits ih =>
    rw [insertions] at hroom
    obtain ⟨hsound, hlast⟩ := sound_perform h edit (by omega)
    obtain ⟨hrun, hcount⟩ := ih hsound (by omega)
    rw [run_cons, insertions]
    exact ⟨hrun, by omega⟩

end

/-- As long as the words last, a run from the start leads to a sound forest, and the last identifier
is the number of insertions that were not refused. -/
lemma sound_run_start {policy : Policy} {edits : List Edit}
    (hroom : (start policy).insertions edits < 2 ^ 32) :
    ((start policy).run edits).forest.Sound ∧
      ((start policy).run edits).forest.lastId.raw.toNat = (start policy).insertions edits := by
  have hstart : (start policy).forest.Sound := .empty policy
  have hzero : (start policy).forest.lastId.raw.toNat = 0 := rfl
  obtain ⟨hsound, hlast⟩ := sound_run hstart edits (by omega)
  exact ⟨hsound, by omega⟩

/-- The forest of every reachable editor is sound. -/
theorem Reachable.sound {e : Editor} (he : e.Reachable) : e.forest.Sound := by
  obtain ⟨policy, edits, hroom, rfl⟩ := he
  exact (sound_run_start hroom).1

/-- What survives every change survives a run. -/
lemma invariant_run {P : Forest → Prop}
    (hchange : ∀ f edit answer g, f.Sound → P f → f.Change edit answer g → P g) {e : Editor}
    (h : e.forest.Sound) (hP : P e.forest) (edits : List Edit)
    (hroom : e.forest.lastId.raw.toNat + e.insertions edits < 2 ^ 32) :
    P (e.run edits).forest := by
  induction edits generalizing e with
  | nil => exact hP
  | cons edit edits ih =>
    rw [insertions] at hroom
    obtain ⟨hsound, hlast⟩ := sound_perform h edit (by omega)
    rw [run_cons]
    refine ih hsound ?_ (by omega)
    rcases performed_perform h edit with ⟨reason, hrefused⟩ | ⟨answer, -, hmade⟩
    · rw [hrefused]
      exact hP
    · exact hchange _ edit answer _ h hP hmade

/-- What holds of a forest without nodes and survives every change holds of every reachable
forest. -/
theorem Reachable.invariant {P : Forest → Prop} (hempty : ∀ policy, P (.empty policy))
    (hchange : ∀ f edit answer g, f.Sound → P f → f.Change edit answer g → P g) {e : Editor}
    (he : e.Reachable) : P e.forest := by
  obtain ⟨policy, edits, hroom, rfl⟩ := he
  have hzero : (start policy).forest.lastId.raw.toNat = 0 := rfl
  exact invariant_run hchange (.empty policy) (hempty policy) edits (by omega)

end Editor

/-! ### A small session -/

namespace Edit

/-- Brings in a node that has the listed children in its first list slot. -/
def insertOver (content : Content) (children : List NodeId) : Edit :=
  .insert (.make .unknown content fun _ => .list children)

/-- Two statements become the alternatives of an ambiguity, and the ambiguity becomes the only
statement of a block. -/
def ambiguousBlock : List Edit :=
  [insertOver .nullStatement [], insertOver .nullStatement [],
    insertOver (.ambiguity .statements) [⟨1⟩, ⟨2⟩], insertOver .compoundStatement [⟨3⟩]]

/-- The same, and then the first alternative takes the place of the ambiguity in the block. -/
def liftedBlock : List Edit := ambiguousBlock ++ [.substitute ⟨4⟩ ⟨3⟩ ⟨1⟩]

/-- An ambiguity between two statements is one of the two alternatives of another one, and that one
becomes the only statement of a block. -/
def nestedAmbiguities : List Edit :=
  [insertOver .nullStatement [], insertOver .nullStatement [],
    insertOver (.ambiguity .statements) [⟨1⟩, ⟨2⟩], insertOver .nullStatement [],
    insertOver (.ambiguity .statements) [⟨3⟩, ⟨4⟩], insertOver .compoundStatement [⟨5⟩]]

end Edit

namespace Editor

/-! ### Links in both directions -/

/-- In every reachable forest the nodes and the routes have the same identifiers, every node and
every route knows its own one, and a route has a parent exactly if it has a property. The route of a
node leads to a slot exactly if the node stands in this slot of a node that exists. What stands in a
slot exists, and no node stands in two places. -/
theorem Reachable.links_agree {e : Editor} (he : e.Reachable) :
    (∀ id, id ∈ e.forest.routes ↔ id ∈ e.forest.nodes) ∧
    (∀ id n, e.forest.node? id = some n → n.id = id) ∧
    (∀ id r, e.forest.route? id = some r → r.id = id ∧ (r.parent.isSome ↔ r.property.isSome)) ∧
    (∀ id, (e.forest.parent? id).isSome ↔ (e.forest.property? id).isSome) ∧
    (∀ child ∈ e.forest, ∀ parent p,
      e.forest.route? child = some ⟨child, some parent, some p⟩ ↔
      ∃ n, e.forest.node? parent = some n ∧ child ∈ n.childrenIn p) ∧
    (∀ id n, e.forest.node? id = some n → ∀ child ∈ n.children, child ∈ e.forest) ∧
    (e.forest.ids.flatMap e.forest.children).Nodup := by
  have hlinked := he.sound.linked
  refine ⟨fun id => ?_, hlinked.named, hlinked.upright, fun id => ?_,
    fun child hchild parent p => ?_, fun id n hn child hchild => ?_,
    hlinked.nodup_flatMap_children⟩
  · exact Std.ExtTreeMap.mem_iff_isSome_getElem?.trans (hlinked.routed id)
  · rw [hlinked.parent?_eq, hlinked.property?_eq, Option.isSome_map, Option.isSome_map]
  · rw [hlinked.route?_eq_some_iff hchild, hlinked.link_iff]
    exact Forest.mem_childrenIn_iff
  · obtain ⟨p, hp⟩ := Node.mem_children.1 hchild
    rw [← Forest.childrenIn_of_node? hn] at hp
    exact hlinked.mem_of_mem_childrenIn hp

/-- The links agree where an alternative has been lifted out of its ambiguity: the alternative
stands in the block that its route leads to. -/
theorem links_agree_after_lift :
    ((start .strict).run Edit.liftedBlock).Reachable ∧
    ((start .strict).run Edit.liftedBlock).forest.route? ⟨1⟩ =
      some ⟨⟨1⟩, some ⟨4⟩, some .nestedStatement⟩ ∧
    ∃ n, ((start .strict).run Edit.liftedBlock).forest.node? ⟨4⟩ = some n ∧
      ⟨1⟩ ∈ n.childrenIn .nestedStatement := by
  have he := reachable_run .strict (by decide : Edit.liftedBlock.length < 2 ^ 32)
  have hroute : ((start .strict).run Edit.liftedBlock).forest.route? ⟨1⟩ =
      some ⟨⟨1⟩, some ⟨4⟩, some .nestedStatement⟩ := by decide
  have hslot := he.links_agree.2.2.2.2.1 ⟨1⟩ (by decide) ⟨4⟩ .nestedStatement
  exact ⟨he, hroute, hslot.1 hroute⟩

/-! ### Up and down -/

/-- In every reachable forest the ancestors of a node are a finite line without repetition that
does not come back to the node and ends in a root. They are the nodes from which the node is
reached through one or more children. The listing of a subtree is its node followed by the listings
of its children, and the listings of the roots together have every node exactly once and nothing
else. -/
theorem Reachable.nodes_form_disjoint_trees {e : Editor} (he : e.Reachable) :
    (∀ id, (e.forest.ancestors id).Nodup ∧ id ∉ e.forest.ancestors id ∧
      (∀ steps, e.forest.size ≤ steps →
        e.forest.ancestorsWithin steps id = e.forest.ancestors id) ∧
      ∀ r, (e.forest.ancestors id).getLast? = some r → r ∈ e.forest.roots) ∧
    (∀ x y, x ∈ e.forest.ancestors y ↔
      TransGen (fun parent child => child ∈ e.forest.children parent) x y) ∧
    (∀ id ∈ e.forest, e.forest.subtree id =
      id :: (e.forest.children id).flatMap e.forest.subtree) ∧
    (e.forest.roots.flatMap e.forest.subtree).Nodup ∧
    ∀ id, id ∈ e.forest.roots.flatMap e.forest.subtree ↔ id ∈ e.forest := by
  have hf := he.sound.linked
  have hg := he.sound.grounded
  refine ⟨fun id => ⟨?_, ?_, ?_, ?_⟩, fun x y => ?_, fun id hid => ?_,
    Forest.nodup_flatMap_roots hf hg, fun id => Forest.mem_flatMap_roots hf hg⟩
  · exact (Forest.line_ancestors hf hg id).nodup hg
  · intro hself
    exact hg.not_transGen_self id ((Forest.mem_ancestors_iff hf hg).1 hself)
  · intro steps hsteps
    exact Forest.ancestorsWithin_eq_ancestors hf hg hsteps id
  · intro r hr
    have hline := Forest.line_ancestors hf hg id
    have hmem : r ∈ e.forest := hline.mem hf (List.mem_of_getLast? hr)
    exact Forest.mem_roots_iff.2 ⟨hmem, hline.parent?_getLast hr⟩
  · have hchildren : (fun parent child => child ∈ e.forest.children parent) = e.forest.Above := by
      funext parent child
      exact propext hf.mem_children_iff_parent?
    rw [hchildren]
    exact Forest.mem_ancestors_iff hf hg
  · obtain ⟨n, hn⟩ := Forest.mem_iff_exists_node?.1 hid
    rw [Forest.children_of_node? hn]
    exact Forest.subtree_eq hf hg hn

/-- Above an alternative stand its ambiguity and the block, and from the block one comes down to
the alternative again. -/
theorem nodes_form_disjoint_trees_of_alternative :
    ((start .strict).run Edit.ambiguousBlock).Reachable ∧
    ⟨4⟩ ∈ ((start .strict).run Edit.ambiguousBlock).forest.ancestors ⟨1⟩ ∧
    TransGen (fun parent child =>
      child ∈ ((start .strict).run Edit.ambiguousBlock).forest.children parent) ⟨4⟩ ⟨1⟩ := by
  have he := reachable_run .strict (by decide : Edit.ambiguousBlock.length < 2 ^ 32)
  refine ⟨he, by decide, ?_⟩
  exact (he.nodes_form_disjoint_trees.2.1 ⟨4⟩ ⟨1⟩).1 (by decide)

/-! ### Refused edits -/

/-- An edit of a reachable forest that is refused gives back the editor it was made on: the nodes,
the routes, the last identifier, the policies and the log are what they were. -/
theorem Reachable.unchanged_of_error {e : Editor} (he : e.Reachable) {edit : Edit}
    {reason : Error} (h : (e.perform edit).1 = .error reason) : (e.perform edit).2 = e := by
  rcases performed_perform he.sound edit with ⟨_, hrefused⟩ | ⟨answer, hanswer, -⟩
  · rw [hrefused]
  · rw [hanswer] at h
    cases h

/-- One of two alternatives cannot be detached, and nothing changes. -/
theorem unchanged_of_starving_detach :
    ((start .strict).run Edit.ambiguousBlock).Reachable ∧
    (((start .strict).run Edit.ambiguousBlock).perform (.detach ⟨1⟩)).1 =
      .error (.degenerateAmbiguity 1) ∧
    (((start .strict).run Edit.ambiguousBlock).perform (.detach ⟨1⟩)).2 =
      (start .strict).run Edit.ambiguousBlock := by
  have he := reachable_run .strict (by decide : Edit.ambiguousBlock.length < 2 ^ 32)
  have herror : (((start .strict).run Edit.ambiguousBlock).perform (.detach ⟨1⟩)).1 =
      .error (.degenerateAmbiguity 1) := rfl
  exact ⟨he, herror, he.unchanged_of_error herror⟩

end Editor

end SyntaxForest
