import SyntaxForest.Proofs.Locality
import SyntaxForest.Proofs.Settlement
import SyntaxForest.Proofs.Traversal

/-!
# Names

The role of a name is found by searching the slots of the node that is asked about. In a linked
forest the link of the name tells the same (`Forest.Linked.role_eq_of_link?`): the search comes to
nothing unless the node is the parent of the name, and then it ends in the slot that the link leads
to. So a name has a role in at most one node, and an alternative that takes the place of its
ambiguity has the role that goes with this place (`Editor.Reachable.roles_follow_links`).

The visitor that collects names is called for names only, but it is led through all other nodes as
well. What it has in the end are the names of the listing of the subtree, in their order
(`Forest.walk_names`, `Editor.Reachable.name_search_is_exact`).
-/

namespace SyntaxForest

namespace Content

/-- Only names are of the kind of names. -/
lemma kind_eq_name_iff {c : Content} : c.kind = .name ↔ ∃ text, c = .name text := by
  cases c <;> simp [kind]

/-- Only names have the text of a name. -/
lemma nameText?_eq_some_iff {c : Content} {text : String} :
    c.nameText? = some text ↔ c = .name text := by
  cases c <;> simp [nameText?]

end Content

namespace Forest

/-- A node is a name. -/
def IsName (f : Forest) (id : NodeId) : Prop := ∃ text, f.content? id = some (.name text)

/-- The text of a name; other nodes have none. -/
def nameText? (f : Forest) (id : NodeId) : Option String :=
  (f.content? id).bind Content.nameText?

variable {f : Forest}

lemma isName_iff_of_node? {id : NodeId} {n : Node} (hn : f.node? id = some n) :
    f.IsName id ↔ n.kind = .name := by
  rw [IsName, content?_of_node? hn, Node.kind, Content.kind_eq_name_iff]
  simp only [Option.some.injEq]

lemma nameText?_of_node? {id : NodeId} {n : Node} (hn : f.node? id = some n) :
    f.nameText? id = n.content.nameText? := by
  rw [nameText?, content?_of_node? hn, Option.bind_some]

lemma nameText?_eq_some_iff {id : NodeId} {text : String} :
    f.nameText? id = some text ↔ f.content? id = some (.name text) := by
  rw [nameText?, Option.bind_eq_some_iff]
  simp only [Content.nameText?_eq_some_iff, exists_eq_right]

/-- The names are the nodes that have the text of one. -/
lemma isSome_nameText?_iff {id : NodeId} : (f.nameText? id).isSome ↔ f.IsName id := by
  rw [Option.isSome_iff_exists, IsName]
  simp only [nameText?_eq_some_iff]

/-! ### Roles -/

namespace Linked

variable (hf : f.Linked) {owner name : NodeId}

include hf

/-- A name has the role that goes with the slot it is linked to. -/
theorem role_eq_of_link? {p : Property} (hname : f.IsName name)
    (hlink : f.link? name = some ⟨owner, p⟩) : f.role owner name = p.role := by
  obtain ⟨holder, howner, -⟩ := hf.hasSlot_of_link? hlink
  obtain ⟨n, hn⟩ := mem_iff_exists_node?.1 (hf.mem_of_link? hlink)
  obtain ⟨position, hlocate⟩ := hf.locate?_of_link? howner hlink
  exact role_of_locate? howner hn ((isName_iff_of_node? hn).1 hname) hlocate

/-- What is no name, or does not stand in the node that is asked about, has no clear role there. -/
theorem role_eq_unclear (h : ¬ (f.IsName name ∧ f.parent? name = some owner)) :
    f.role owner name = .unclear := by
  cases howner : f.node? owner with
  | none => exact role_eq_unclear_of_node? howner
  | some holder =>
    by_cases hparent : f.parent? name = some owner
    · refine role_eq_unclear_of_kind fun n hn hkind => ?_
      exact h ⟨(isName_iff_of_node? hn).2 hkind, hparent⟩
    · refine role_eq_unclear_of_locate? howner ?_
      rw [Node.locate?_eq_none_iff, ← children_of_node? howner, hf.mem_children_iff_parent?]
      exact hparent

/-- Where a name has a clear role, the node is its parent. -/
lemma parent?_of_role (h : f.role owner name ≠ .unclear) : f.parent? name = some owner := by
  by_contra hparent
  exact h (hf.role_eq_unclear fun hname => hparent hname.2)

end Linked

/-- A node that stays when an ambiguity is resolved has the contents it had. -/
lemma Sound.content?_settle (h : f.Sound) {a w x : NodeId}
    (hw : f.link? w = some ⟨a, .alternative⟩) (hx : ¬ f.Falls a w x) :
    (f.settle a w).content? x = f.content? x := by
  rw [content?, h.node?_settle hw hx, Option.map_map]
  rfl

/-! ### Collecting names -/

/-- A name has the text that is asked for, if one is asked for at all. -/
def asksFor (text : Option String) (name : String) : Bool := text.all fun text => text == name

/-- The names among some identifiers, or only those with a given text. -/
def namesIn (f : Forest) (text : Option String) (ids : List NodeId) : List NodeId :=
  ids.filter fun id => (f.nameText? id).any (asksFor text)

/-- The category of names has only names. -/
lemma contains_category_eq_isSome (n : Node) :
    (Interest.only [.names]).contains n.category = n.content.nameText?.isSome := by
  rw [Node.category, Node.kind]
  cases n.content <;> rfl

/-- The visitor that collects names always proceeds, and adds a name that has the right text. -/
lemma visit_names (text : Option String) (n : Node) (found : List NodeId) :
    (Visitor.names text).visit n found =
      (.proceed, found ++ if n.content.nameText?.any (asksFor text) then [n.id] else []) := by
  simp only [Visitor.names]
  cases n.content.nameText? with
  | none => simp only [Option.any_none, Bool.false_eq_true, if_false, List.append_nil]
  | some name =>
    change (Verdict.proceed, if asksFor text name then found ++ [n.id] else found) =
      (Verdict.proceed, found ++ if asksFor text name then [n.id] else [])
    split
    · rfl
    · rw [List.append_nil]

/-- If each step adds what is listed for its node, the steps together add what is listed for all of
them. -/
lemma walkEach_append {step : NodeId → List NodeId → Bool × List NodeId}
    {listing : NodeId → List NodeId} {ids : List NodeId}
    (h : ∀ id ∈ ids, ∀ found, step id found = (true, found ++ listing id)) (found : List NodeId) :
    walkEach step ids found = (true, found ++ ids.flatMap listing) := by
  induction ids generalizing found with
  | nil => rw [walkEach, List.flatMap_nil, List.append_nil]
  | cons id ids ih =>
    have hrest := ih fun x hx => h x (List.mem_cons_of_mem id hx)
    rw [walkEach, h id List.mem_cons_self]
    dsimp only
    rw [hrest, List.append_assoc, List.flatMap_cons]

/-- The names of a listing: the node itself, if it is one that is asked for, and those below it. -/
lemma namesIn_subtree (hf : f.Linked) (hg : f.Grounded) (text : Option String) {id : NodeId}
    {n : Node} (hn : f.node? id = some n) :
    f.namesIn text (f.subtree id) =
      (if n.content.nameText?.any (asksFor text) then [id] else []) ++
        n.children.flatMap fun child => f.namesIn text (f.subtree child) := by
  rw [subtree_eq hf hg hn, namesIn, List.filter_cons, nameText?_of_node? hn, List.filter_flatMap]
  split <;> rfl

/-- The visitor that collects names finds the names of the listing, in their order. -/
theorem walk_names (hf : f.Linked) (hg : f.Grounded) (text : Option String) (id : NodeId)
    (found : List NodeId) :
    f.walk (.names text) id found = (true, found ++ f.namesIn text (f.subtree id)) := by
  induction id using child_induction hf hg generalizing found with
  | step id ih =>
    cases hn : f.node? id with
    | none =>
      rw [walk_of_node?_eq_none hn, subtree_eq_nil hn, namesIn, List.filter_nil, List.append_nil]
    | some n =>
      rw [children_of_node? hn] at ih
      have hbelow := walkEach_append ih
      rw [walk_eq hf hg (.names text) hn, walkNode_apply, visit_names, hf.named id n hn,
        namesIn_subtree hf hg text hn]
      change (if (Interest.only [.names]).contains n.category then _ else _) = _
      rw [contains_category_eq_isSome]
      cases n.content.nameText? with
      | none => exact hbelow found
      | some name =>
        dsimp only [Option.isSome_some, Option.any_some]
        rw [if_pos rfl, hbelow, List.append_assoc]
        rfl

/-- The names with a given text are those among all names that have it. -/
lemma namesIn_some (f : Forest) (text : String) (ids : List NodeId) :
    f.namesIn (some text) ids =
      (f.namesIn none ids).filter fun id => f.nameText? id = some text := by
  rw [namesIn, namesIn, List.filter_filter]
  refine List.filter_congr fun id _ => ?_
  cases f.nameText? id with
  | none => rfl
  | some name =>
    simp only [asksFor, Option.any_some, Option.all_some, Option.all_none, Option.some.injEq,
      Bool.and_true]
    rw [beq_eq_decide, decide_eq_decide, eq_comm]

lemma namesIn_none (f : Forest) (ids : List NodeId) :
    f.namesIn none ids = ids.filter fun id => (f.nameText? id).isSome := by
  rw [namesIn]
  refine List.filter_congr fun id _ => ?_
  cases f.nameText? id <;> rfl

end Forest

namespace Edit

/-- Two names become the alternatives of an ambiguity, and the ambiguity becomes the name of an
expression. -/
def ambiguousName : List Edit :=
  [insertOver (.name "x") [], insertOver (.name "y") [],
    insertOver (.ambiguity .names) [⟨1⟩, ⟨2⟩], insertAbove .idExpression (some ⟨3⟩)]

end Edit

namespace Editor

open Forest

/-- A property alone fixes the role of a name. In every reachable forest a name has the role of its
property in its parent, and no clear role in any other node; what is no name has no clear role at
all. So there is at most one node in which a name has a clear role. When an ambiguity that has a
parent is resolved to a name, the name has the role there that goes with the property which the
ambiguity had. -/
theorem Reachable.roles_follow_links {e : Editor} (he : e.Reachable) :
    (∀ p : Property,
      (p.role = .definition ↔ p = .enumerationName ∨ p = .enumeratorName) ∧
      (p.role = .declaration ↔ p = .declaratorName ∨ p = .parameterName) ∧
      (p.role = .reference ↔ p = .idName ∨ p = .namedTypeName)) ∧
    (∀ owner name,
      (e.forest.IsName name → e.forest.parent? name = some owner →
        ∃ p, e.forest.property? name = some p ∧ e.forest.role owner name = p.role) ∧
      (¬ (e.forest.IsName name ∧ e.forest.parent? name = some owner) →
        e.forest.role owner name = .unclear)) ∧
    (∀ name owner owner', e.forest.role owner name ≠ .unclear →
      e.forest.role owner' name ≠ .unclear → owner = owner') ∧
    ∀ a index w parent p, e.forest.link? a = some ⟨parent, p⟩ → (e.resolve a index).1 = .ok w →
      e.forest.IsName w →
        (e.resolve a index).2.forest.parent? w = some parent ∧
        (e.resolve a index).2.forest.role parent w = p.role := by
  have h := he.sound
  have hf := h.linked
  refine ⟨fun p => ?_, fun owner name => ⟨fun hname hparent => ?_, hf.role_eq_unclear⟩,
    fun name owner owner' hrole hrole' => ?_, fun a index w parent p ha hanswer hname => ?_⟩
  · cases p <;> decide
  · obtain ⟨p, hlink⟩ := hf.exists_link? hparent
    exact ⟨p, property?_of_link? hlink, hf.role_eq_of_link? hname hlink⟩
  · have hparent := hf.parent?_of_role hrole
    rw [hf.parent?_of_role hrole'] at hparent
    exact (Option.some.inj hparent).symm
  · obtain ⟨hambiguity, hindex⟩ := (resolve_eq_ok_iff h).1 hanswer
    have hw := hf.link?_of_getElem? hindex
    have hforest : (e.resolve a index).2.forest = e.forest.settle a w :=
      (perform_resolve h hambiguity hindex).2
    have hstays : ¬ e.forest.Falls a w w := fun hfalls => hfalls.2 .refl
    have hlink : (e.forest.settle a w).link? w = some ⟨parent, p⟩ := by
      rw [h.link?_settle hw hstays, if_pos rfl, ha]
    have hsettled : (e.forest.settle a w).IsName w := by
      rw [IsName, h.content?_settle hw hstays]
      exact hname
    rw [hforest]
    exact ⟨above_of_link? hlink, (h.settle hw).linked.role_eq_of_link? hsettled hlink⟩

/-- A name that takes the place of an ambiguity in an expression is a reference there. -/
theorem roles_follow_links_of_ambiguous_name :
    ((start .strict).run Edit.ambiguousName).Reachable ∧
    ((start .strict).run Edit.ambiguousName).forest.role ⟨4⟩ ⟨2⟩ = .unclear ∧
    (((start .strict).run Edit.ambiguousName).resolve ⟨3⟩ 1).1 = .ok ⟨2⟩ ∧
    (((start .strict).run Edit.ambiguousName).resolve ⟨3⟩ 1).2.forest.role ⟨4⟩ ⟨2⟩ =
      .reference := by
  have he := reachable_run .strict (by decide : Edit.ambiguousName.length < 2 ^ 32)
  obtain ⟨-, hroles, -, hresolved⟩ := he.roles_follow_links
  have hanswer : (((start .strict).run Edit.ambiguousName).resolve ⟨3⟩ 1).1 = .ok ⟨2⟩ := rfl
  refine ⟨he, (hroles ⟨4⟩ ⟨2⟩).2 fun hname => absurd hname.2 (by decide), hanswer, ?_⟩
  exact (hresolved ⟨3⟩ 1 ⟨2⟩ ⟨4⟩ .idName (by decide) hanswer ⟨"y", by decide⟩).2

/-- In every reachable forest the visitor that collects names is led through a whole subtree and
then has its names, each of them once and in the order of the preorder listing, those below
ambiguities included. The one that asks for a text has those of them that read so, in the same
order. -/
theorem Reachable.name_search_is_exact {e : Editor} (he : e.Reachable) {r : NodeId}
    (hr : r ∈ e.forest) :
    (∀ id ∈ e.forest, e.forest.subtree id =
      id :: (e.forest.children id).flatMap e.forest.subtree) ∧
    (e.forest.walk (.names none) r []).1 = true ∧
    (e.forest.walk (.names none) r []).2 =
      (e.forest.subtree r).filter (fun x => (e.forest.nameText? x).isSome) ∧
    (e.forest.walk (.names none) r []).2.Nodup ∧
    (∀ x, x ∈ (e.forest.walk (.names none) r []).2 ↔ e.forest.Spans r x ∧ e.forest.IsName x) ∧
    ∀ text, (e.forest.walk (.names (some text)) r []).1 = true ∧
      (e.forest.walk (.names (some text)) r []).2 =
        (e.forest.walk (.names none) r []).2.filter (fun x => e.forest.nameText? x = some text) ∧
      ∀ x, x ∈ (e.forest.walk (.names (some text)) r []).2 ↔
        e.forest.Spans r x ∧ e.forest.content? x = some (.name text) := by
  have hf := he.sound.linked
  have hg := he.sound.grounded
  have hwalk : ∀ text, e.forest.walk (.names text) r [] =
      (true, e.forest.namesIn text (e.forest.subtree r)) := fun text => walk_names hf hg text r []
  simp only [hwalk, namesIn_some, namesIn_none]
  refine ⟨fun id hid => ?_, trivial, trivial, (nodup_subtree hf hg r).filter _, fun x => ?_,
    fun text => ⟨trivial, trivial, fun x => ?_⟩⟩
  · obtain ⟨n, hn⟩ := mem_iff_exists_node?.1 hid
    rw [children_of_node? hn]
    exact subtree_eq hf hg hn
  · rw [List.mem_filter, mem_subtree_iff_spans hf hg hr, isSome_nameText?_iff]
  · rw [List.mem_filter, List.mem_filter, mem_subtree_iff_spans hf hg hr, isSome_nameText?_iff,
      decide_eq_true_iff, nameText?_eq_some_iff, and_assoc]
    exact and_congr_right fun _ => and_iff_right_of_imp fun hname => ⟨text, hname⟩

/-- Both alternatives of an ambiguity in the place of a name are collected, and one of them if its
text is asked for. -/
theorem name_search_is_exact_in_ambiguous_name :
    ((start .strict).run Edit.ambiguousName).Reachable ∧
    ⟨4⟩ ∈ ((start .strict).run Edit.ambiguousName).forest ∧
    (((start .strict).run Edit.ambiguousName).forest.walk (.names none) ⟨4⟩ []).2 = [⟨1⟩, ⟨2⟩] ∧
    (((start .strict).run Edit.ambiguousName).forest.walk (.names (some "y")) ⟨4⟩ []).2 =
      [⟨2⟩] := by
  have he := reachable_run .strict (by decide : Edit.ambiguousName.length < 2 ^ 32)
  have hr : ⟨4⟩ ∈ ((start .strict).run Edit.ambiguousName).forest := by decide
  obtain ⟨-, -, hall, -, -, hmatching⟩ := he.name_search_is_exact hr
  refine ⟨he, hr, hall.trans (by decide), ?_⟩
  rw [(hmatching "y").2.1, hall]
  decide

end Editor

end SyntaxForest
