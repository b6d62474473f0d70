import SyntaxForest.Proofs.Ambiguities
import SyntaxForest.Visitor.Search

/-!
# Walks

A walk is bounded by the number of nodes, and in a sound forest the bound cuts nothing off: a
visitor is led through a node and then, by walks of the same kind, through its children
(`Forest.walk_eq`).

The visitor that stops at the first ambiguity finds the first one in the listing of the subtree
(`Forest.walk_firstAmbiguity`). So the check for ambiguities fails with this one, and passes exactly
if there is none (`Editor.Reachable.resolved_check_is_exact`). Every node stands below a root, and
the checks of the roots together are a check of the forest.
-/

namespace SyntaxForest

namespace Forest

variable {f : Forest} {σ : Type}

/-! ### The walk without its bound -/

/-- The way through a node, without names for what each call gives. -/
lemma walkNode_apply (v : Visitor σ) (n : Node) (walkChild : NodeId → σ → Bool × σ) (s : σ) :
    walkNode v n walkChild s =
      if (v.interest s).1.contains n.category then
        match v.visit n (v.interest s).2 with
        | (.abort, s) => (false, s)
        | (.skip, s) => (true, s)
        | (.proceed, s) =>
          match walkEach walkChild n.children s with
          | (false, s) => (false, s)
          | (true, s) => ((v.leave n s).1 != .abort, (v.leave n s).2)
      else walkEach walkChild n.children (v.interest s).2 :=
  rfl

lemma walkWithin_succ {id : NodeId} {n : Node} (hn : f.node? id = some n) (v : Visitor σ)
    (levels : ℕ) : f.walkWithin v (levels + 1) id = walkNode v n (f.walkWithin v levels) := by
  funext s
  rw [walkWithin, hn]

/-- A walk does not go where there is no node. -/
lemma walkWithin_of_node?_eq_none {id : NodeId} (hn : f.node? id = none) (v : Visitor σ)
    (levels : ℕ) : f.walkWithin v levels id = fun s => (true, s) := by
  funext s
  cases levels with
  | zero => rfl
  | succ levels => rw [walkWithin, hn]

/-- Only the way through the listed nodes matters. -/
lemma walkEach_congr {first second : NodeId → σ → Bool × σ} {ids : List NodeId}
    (h : ∀ id ∈ ids, first id = second id) : walkEach first ids = walkEach second ids := by
  induction ids with
  | nil => rfl
  | cons id ids ih =>
    funext s
    rw [walkEach, walkEach, h id List.mem_cons_self]
    rw [ih fun x hx => h x (List.mem_cons_of_mem id hx)]

/-- Only the way through the children matters. -/
lemma walkNode_congr (v : Visitor σ) {n : Node} {first second : NodeId → σ → Bool × σ}
    (h : ∀ id ∈ n.children, first id = second id) : walkNode v n first = walkNode v n second := by
  unfold walkNode
  rw [walkEach_congr h]

lemma descends_walkWithin (f : Forest) (v : Visitor σ) :
    f.Descends (f.walkWithin v) fun _ n walkChild => walkNode v n walkChild where
  absent levels id hn := by rw [walkWithin_of_node?_eq_none hn, walkWithin_of_node?_eq_none hn]
  succ levels id n hn := walkWithin_succ hn v levels
  congr id n first second h := walkNode_congr v h

/-- A walk leads a visitor through a node and, by the same walk, through its children. -/
theorem walk_eq (hf : f.Linked) (hg : f.Grounded) (v : Visitor σ) {id : NodeId} {n : Node}
    (hn : f.node? id = some n) : f.walk v id = walkNode v n (f.walk v) :=
  (f.descends_walkWithin v).size_eq hf hg hn

/-- A walk through what does not exist comes to its end at once. -/
lemma walk_of_node?_eq_none {id : NodeId} (hn : f.node? id = none) (v : Visitor σ) (s : σ) :
    f.walk v id s = (true, s) := by
  rw [walk, walkWithin_of_node?_eq_none hn]

/-! ### The first ambiguity -/

/-- The category of ambiguities has only ambiguities. -/
lemma contains_category_eq_isAmbiguity (n : Node) :
    (Interest.only [.ambiguities]).contains n.category = n.isAmbiguity := by
  have hkinds : ∀ k : Kind,
      (Interest.only [.ambiguities]).contains k.category = (k == .ambiguity) := by
    intro k
    cases k <;> decide
  exact hkinds n.kind

/-- The first ambiguity among some identifiers. -/
def firstAmbiguityIn? (f : Forest) (ids : List NodeId) : Option NodeId :=
  ids.find? fun id => (f.node? id).any Node.isAmbiguity

/-- If each step stops at the first ambiguity of a list, the steps together stop at the first one of
all lists. -/
lemma walkEach_firstAmbiguity {step : NodeId → Option NodeId → Bool × Option NodeId}
    {listing : NodeId → List NodeId} {ids : List NodeId}
    (h : ∀ id ∈ ids, ∀ found, step id found =
      (f.firstAmbiguityIn? (listing id)).elim (true, found) fun a => (false, some a))
    (found : Option NodeId) :
    walkEach step ids found =
      (f.firstAmbiguityIn? (ids.flatMap listing)).elim (true, found) fun a => (false, some a) := by
  induction ids with
  | nil => rfl
  | cons id ids ih =>
    have hrest := ih fun x hx => h x (List.mem_cons_of_mem id hx)
    have hsplit : f.firstAmbiguityIn? ((id :: ids).flatMap listing) =
        (f.firstAmbiguityIn? (listing id)).or (f.firstAmbiguityIn? (ids.flatMap listing)) := by
      rw [firstAmbiguityIn?, List.flatMap_cons, List.find?_append]
      rfl
    rw [walkEach, h id List.mem_cons_self, hsplit]
    cases f.firstAmbiguityIn? (listing id) with
    | none => exact hrest
    | some a => rfl

/-- The visitor that stops at the first ambiguity finds the first one of the listing. -/
theorem walk_firstAmbiguity (hf : f.Linked) (hg : f.Grounded) (id : NodeId)
    (found : Option NodeId) :
    f.walk .firstAmbiguity id found =
      (f.firstAmbiguityIn? (f.subtree id)).elim (true, found) fun a => (false, some a) := by
  induction id using child_induction hf hg generalizing found with
  | step id ih =>
    cases hn : f.node? id with
    | none =>
      rw [walk_of_node?_eq_none hn, subtree_eq_nil hn]
      rfl
    | some n =>
      rw [children_of_node? hn] at ih
      rw [walk_eq hf hg .firstAmbiguity hn, subtree_eq hf hg hn, firstAmbiguityIn?,
        List.find?_cons, hn, Option.any_some]
      change (if (Interest.only [.ambiguities]).contains n.category then (false, some n.id)
        else walkEach (f.walk .firstAmbiguity) n.children found) = _
      rw [contains_category_eq_isAmbiguity, hf.named id n hn]
      cases n.isAmbiguity with
      | true => rfl
      | false => exact walkEach_firstAmbiguity ih found

lemma any_isAmbiguity_iff {x : NodeId} : (f.node? x).any Node.isAmbiguity ↔ f.IsAmbiguity x := by
  rw [Option.any_eq_true]
  rfl

/-- There is no first ambiguity exactly if there is none. -/
lemma firstAmbiguityIn?_eq_none_iff {ids : List NodeId} :
    f.firstAmbiguityIn? ids = none ↔ ∀ x ∈ ids, ¬ f.IsAmbiguity x := by
  rw [firstAmbiguityIn?, List.find?_eq_none]
  exact forall₂_congr fun x _ => not_congr any_isAmbiguity_iff

/-- The first ambiguity is the one before which there is none. -/
lemma firstAmbiguityIn?_eq_some_iff {ids : List NodeId} {a : NodeId} :
    f.firstAmbiguityIn? ids = some a ↔
      ∃ before after, ids = before ++ a :: after ∧ f.IsAmbiguity a ∧
        ∀ x ∈ before, ¬ f.IsAmbiguity x := by
  rw [firstAmbiguityIn?, List.find?_eq_some_iff_append, any_isAmbiguity_iff]
  simp only [Bool.not_eq_true', Bool.eq_false_iff, ne_eq, any_isAmbiguity_iff]
  constructor
  · rintro ⟨ha, before, after, hids, hbefore⟩
    exact ⟨before, after, hids, ha, hbefore⟩
  · rintro ⟨before, after, hids, ha, hbefore⟩
    exact ⟨ha, before, after, hids, hbefore⟩

section

variable (hf : f.Linked) (hg : f.Grounded) {id : NodeId}

include hf hg

/-- The check for ambiguities gives the first one of the subtree as the reason to fail. -/
theorem checkResolved_eq (hid : id ∈ f) :
    f.checkResolved id =
      (f.firstAmbiguityIn? (f.subtree id)).elim (.ok ()) fun a => .error (.unresolvedAmbiguity a) := by
  obtain ⟨n, hn⟩ := mem_iff_exists_node?.1 hid
  rw [checkResolved, require_eq_ok_iff.2 hn, walk_firstAmbiguity hf hg]
  cases f.firstAmbiguityIn? (f.subtree id) <;> rfl

/-- A subtree passes the check for ambiguities exactly if its node exists and it has none. -/
theorem checkResolved_eq_ok_iff :
    f.checkResolved id = .ok () ↔ id ∈ f ∧ ∀ x ∈ f.subtree id, ¬ f.IsAmbiguity x := by
  by_cases hid : id ∈ f
  · rw [checkResolved_eq hf hg hid, and_iff_right hid, ← firstAmbiguityIn?_eq_none_iff]
    cases f.firstAmbiguityIn? (f.subtree id) <;> simp
  · refine iff_of_false (fun hok => ?_) fun h => hid h.1
    obtain ⟨n, hn, -⟩ := bind_eq_ok_iff.1 hok
    exact hid (mem_of_node? (require_eq_ok_iff.1 hn))

/-- The check for ambiguities fails with the first one of the subtree, and only with this. -/
theorem checkResolved_eq_error_iff (hid : id ∈ f) {a : NodeId} :
    f.checkResolved id = .error (.unresolvedAmbiguity a) ↔
      ∃ before after, f.subtree id = before ++ a :: after ∧ f.IsAmbiguity a ∧
        ∀ x ∈ before, ¬ f.IsAmbiguity x := by
  rw [checkResolved_eq hf hg hid, ← firstAmbiguityIn?_eq_some_iff]
  cases f.firstAmbiguityIn? (f.subtree id) <;> simp

/-- The check for ambiguities fails with an ambiguity unless it passes. -/
lemma exists_checkResolved_eq_error_iff (hid : id ∈ f) :
    (∃ a, f.checkResolved id = .error (.unresolvedAmbiguity a)) ↔ f.checkResolved id ≠ .ok () := by
  rw [checkResolved_eq hf hg hid]
  cases f.firstAmbiguityIn? (f.subtree id) <;> simp

/-- The whole forest has no ambiguity exactly if no subtree of a root has one. -/
theorem ambiguities_eq_nil_iff :
    f.ambiguities = [] ↔ ∀ r ∈ f.roots, f.checkResolved r = .ok () := by
  rw [List.eq_nil_iff_forall_not_mem]
  simp only [mem_ambiguities_iff]
  constructor
  · intro hnone r hr
    exact (checkResolved_eq_ok_iff hf hg).2 ⟨(mem_roots_iff.1 hr).1, fun x _ => hnone x⟩
  · rintro hroots x ⟨n, hn, hambiguity⟩
    obtain ⟨r, hr, hx⟩ := List.mem_flatMap.1 ((mem_flatMap_roots hf hg).2 (mem_of_node? hn))
    exact ((checkResolved_eq_ok_iff hf hg).1 (hroots r hr)).2 x hx ⟨n, hn, hambiguity⟩

end

end Forest

namespace Editor

open Forest

/-- In every reachable forest the check for ambiguities below a node fails with an ambiguity exactly
if the node spans one, and it is the first one in the preorder listing of the subtree. Otherwise the
check passes. So there is no ambiguity at all exactly if the check passes for every root. -/
theorem Reachable.resolved_check_is_exact {e : Editor} (he : e.Reachable) :
    (∀ id ∈ e.forest,
      ((∃ a, e.forest.checkResolved id = .error (.unresolvedAmbiguity a)) ↔
        ∃ x, e.forest.Spans id x ∧ e.forest.IsAmbiguity x) ∧
      (e.forest.subtree id = id :: (e.forest.children id).flatMap e.forest.subtree ∧
        ∀ a, e.forest.checkResolved id = .error (.unresolvedAmbiguity a) ↔
          ∃ before after, e.forest.subtree id = before ++ a :: after ∧ e.forest.IsAmbiguity a ∧
            ∀ x ∈ before, ¬ e.forest.IsAmbiguity x) ∧
      (e.forest.checkResolved id = .ok () ↔
        ∀ x, e.forest.Spans id x → ¬ e.forest.IsAmbiguity x)) ∧
    (e.forest.ambiguities = [] ↔
      ∀ r ∈ e.forest.roots, e.forest.checkResolved r = .ok ()) := by
  have hf := he.sound.linked
  have hg := he.sound.grounded
  refine ⟨fun id hid => ?_, ambiguities_eq_nil_iff hf hg⟩
  have hok : e.forest.checkResolved id = .ok () ↔
      ∀ x, e.forest.Spans id x → ¬ e.forest.IsAmbiguity x := by
    simp only [checkResolved_eq_ok_iff hf hg, and_iff_right hid, mem_subtree_iff_spans hf hg hid]
  obtain ⟨n, hn⟩ := mem_iff_exists_node?.1 hid
  refine ⟨?_, ⟨?_, fun a => checkResolved_eq_error_iff hf hg hid⟩, hok⟩
  · rw [exists_checkResolved_eq_error_iff hf hg hid, ne_eq, hok]
    simp only [not_forall, not_not, exists_prop]
  · rw [subtree_eq hf hg hn, children_of_node? hn]

/-- Of two nested ambiguities in a block, the check of the block fails with the outer one. -/
theorem resolved_check_is_exact_in_nested_ambiguities :
    ((start .strict).run Edit.nestedAmbiguities).Reachable ∧
    ((start .strict).run Edit.nestedAmbiguities).forest.checkResolved ⟨6⟩ =
      .error (.unresolvedAmbiguity ⟨5⟩) := by
  have he := reachable_run .strict (by decide : Edit.nestedAmbiguities.length < 2 ^ 32)
  obtain ⟨-, ⟨-, hfirst⟩, -⟩ := he.resolved_check_is_exact.1 ⟨6⟩ (by decide)
  refine ⟨he, (hfirst ⟨5⟩).2 ⟨[⟨6⟩], [⟨3⟩, ⟨1⟩, ⟨2⟩, ⟨4⟩], by decide, ⟨_, rfl, rfl⟩, ?_⟩⟩
  rintro x hx ⟨n, hn, hambiguity⟩
  obtain rfl := List.mem_singleton.1 hx
  obtain rfl := Option.some.inj hn
  cases hambiguity

end Editor

end SyntaxForest
