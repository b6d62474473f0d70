import SyntaxForest.Proofs.Categories
import SyntaxForest.Proofs.Resolution
import SyntaxForest.Proofs.Traversal

/-!
# Disambiguation

Ambiguities are resolved one after the other, in any order and each to any of its alternatives
(`Editor.Offers`), until none is left. A resolution drops an ambiguity and brings in none, and those
that stay keep as many alternatives as they had. So the number of ambiguities bounds the number of
resolutions, and as long as an ambiguity is left there is a resolution to be made
(`Editor.Offers.invariant`).

In a forest without ambiguities every node counts as one of its own category, and so stands in a
slot that accepts this very category (`Forest.Sound.category_eq_accepts`).
-/

namespace SyntaxForest

namespace Forest

/-- Every ambiguity has an alternative to resolve it to. -/
def Choosable (f : Forest) : Prop := ∀ a ∈ f.ambiguities, 0 < (f.alternatives a).length

variable {f : Forest}

/-- Ambiguities are listed once. -/
lemma nodup_ambiguities (f : Forest) : f.ambiguities.Nodup := f.nodup_ids.filter _

namespace Sound

/-! ### One resolution -/

section

variable {a w : NodeId} (h : f.Sound) (hw : f.link? w = some ⟨a, .alternative⟩)

include h hw

lemma mem_ambiguities_settle_iff {x : NodeId} :
    x ∈ (f.settle a w).ambiguities ↔ x ∈ f.ambiguities ∧ ¬ f.Falls a w x := by
  rw [mem_ambiguities_iff, mem_ambiguities_iff, h.isAmbiguity_settle_iff hw]

/-- No ambiguity comes in. -/
lemma ambiguities_settle_subset : (f.settle a w).ambiguities ⊆ f.ambiguities := by
  intro x hx
  exact ((mem_ambiguities_settle_iff h hw).1 hx).1

/-- The resolved ambiguity is missing afterwards. -/
lemma length_ambiguities_settle_lt :
    (f.settle a w).ambiguities.length < f.ambiguities.length := by
  have hgone : a ∉ (f.settle a w).ambiguities := by
    intro ha
    exact ((mem_ambiguities_settle_iff h hw).1 ha).2 (h.falls_self hw)
  -- With the resolved ambiguity put back in front, the list still fits into the old one.
  have hnodup : (a :: (f.settle a w).ambiguities).Nodup :=
    List.nodup_cons.2 ⟨hgone, nodup_ambiguities _⟩
  have hsubset : a :: (f.settle a w).ambiguities ⊆ f.ambiguities := by
    refine List.cons_subset.2 ⟨?_, ambiguities_settle_subset h hw⟩
    exact mem_ambiguities_iff.2 (h.exists_node?_of_alternative hw)
  exact (List.subperm_of_subset hnodup hsubset).length_le

/-- The ambiguities that stay keep their choice. -/
lemma choosable_settle (hchoosable : f.Choosable) : (f.settle a w).Choosable := by
  intro x hx
  obtain ⟨hold, hstays⟩ := (mem_ambiguities_settle_iff h hw).1 hx
  rw [h.alternatives_settle hw hstays, List.length_map]
  exact hchoosable x hold

end

/-! ### Forests without ambiguities -/

section

variable (h : f.Sound) (hnone : f.ambiguities = [])

include h hnone

omit h in
lemma not_isAmbiguity (id : NodeId) : ¬ f.IsAmbiguity id := by
  rw [← mem_ambiguities_iff, hnone]
  exact List.not_mem_nil

/-- Every subtree passes the check for ambiguities. -/
theorem checkResolved_eq_ok {id : NodeId} (hid : id ∈ f) : f.checkResolved id = .ok () := by
  rw [checkResolved_eq_ok_iff h.linked h.grounded]
  exact ⟨hid, fun x _ => not_isAmbiguity hnone x⟩

/-- Every child is of the category that belongs to the property of its slot. -/
theorem category_eq_accepts {id child : NodeId} {n : Node} {p : Property}
    (hn : f.node? id = some n) (hentry : (p, child) ∈ n.entries) :
    ∃ m, f.node? child = some m ∧ m.category = p.accepts := by
  have hslot : child ∈ f.childrenIn id p := by
    rw [childrenIn_of_node? hn]
    exact Node.mem_entries.1 hentry
  obtain ⟨m, hm, hcategory⟩ := h.typed id n.content p child (content?_of_node? hn) hslot
  have hplain : ¬ n.isAmbiguity := by
    intro hambiguity
    exact not_isAmbiguity hnone id ⟨n, hn, hambiguity⟩
  have hplain' : ¬ m.isAmbiguity := by
    intro hambiguity
    exact not_isAmbiguity hnone child ⟨m, hm, hambiguity⟩
  rw [Node.slotCategory_eq_category hplain', Node.accepts_eq_accepts hplain] at hcategory
  exact ⟨m, hm, hcategory⟩

end

end Sound

end Forest

namespace Editor

open Forest

/-! ### Resolving one ambiguity after the other -/

/-- Choices that can be made one after the other: each names an ambiguity that is there when its
turn comes, and the index of one of its alternatives. -/
def Offers (e : Editor) : List (NodeId × ℕ) → Prop
  | [] => True
  | (a, index) :: choices =>
    a ∈ e.forest.ambiguities ∧ index < (e.forest.alternatives a).length ∧
      (e.perform (.resolve a index)).2.Offers choices

/-- The editor after choices have been made. -/
def choose (e : Editor) (choices : List (NodeId × ℕ)) : Editor :=
  e.run (choices.map fun choice => .resolve choice.1 choice.2)

lemma choose_cons (e : Editor) (choice : NodeId × ℕ) (choices : List (NodeId × ℕ)) :
    e.choose (choice :: choices) = (e.perform (.resolve choice.1 choice.2)).2.choose choices := rfl

lemma choose_append (e : Editor) (before after : List (NodeId × ℕ)) :
    e.choose (before ++ after) = (e.choose before).choose after := by
  induction before generalizing e with
  | nil => rfl
  | cons choice before ih => rw [List.cons_append, choose_cons, ih, choose_cons]

lemma offers_append_iff {e : Editor} {before after : List (NodeId × ℕ)} :
    e.Offers (before ++ after) ↔ e.Offers before ∧ (e.choose before).Offers after := by
  induction before generalizing e with
  | nil => exact ⟨fun hafter => ⟨trivial, hafter⟩, And.right⟩
  | cons choice before ih =>
    rw [List.cons_append, Offers, Offers, ih, choose_cons, and_assoc, and_assoc]

/-- A choice that is offered is not refused. It takes an ambiguity away and brings in none, and it
leaves a choice for each one that stays. -/
lemma perform_choice {e : Editor} (h : e.forest.Sound) {a : NodeId} {index : ℕ}
    (ha : a ∈ e.forest.ambiguities) (hindex : index < (e.forest.alternatives a).length) :
    (e.perform (.resolve a index)).1.isOk ∧
    (e.perform (.resolve a index)).2.forest.Sound ∧
    (e.perform (.resolve a index)).2.forest.ambiguities ⊆ e.forest.ambiguities ∧
    (e.perform (.resolve a index)).2.forest.ambiguities.length < e.forest.ambiguities.length ∧
    (e.forest.Choosable → (e.perform (.resolve a index)).2.forest.Choosable) := by
  have hget := List.getElem?_eq_getElem hindex
  generalize (e.forest.alternatives a)[index] = w at hget
  have hw := h.linked.link?_of_getElem? hget
  obtain ⟨hanswer, hforest⟩ := perform_resolve h (mem_ambiguities_iff.1 ha) hget
  rw [hanswer, hforest]
  exact ⟨rfl, h.settle hw, h.ambiguities_settle_subset hw, h.length_ambiguities_settle_lt hw,
    h.choosable_settle hw⟩

/-- Choices that are offered keep a forest sound, each of them takes away an ambiguity, and choices
remain for the others. -/
theorem Offers.invariant {e : Editor} {choices : List (NodeId × ℕ)} (hoffers : e.Offers choices)
    (h : e.forest.Sound) :
    (e.choose choices).forest.Sound ∧
    (e.choose choices).forest.ambiguities.length + choices.length ≤
      e.forest.ambiguities.length ∧
    (e.forest.Choosable → (e.choose choices).forest.Choosable) := by
  induction choices generalizing e with
  | nil => exact ⟨h, le_rfl, fun hchoosable => hchoosable⟩
  | cons choice choices ih =>
    obtain ⟨ha, hindex, hrest⟩ := hoffers
    obtain ⟨-, hsound, -, hlt, hkeeps⟩ := perform_choice h ha hindex
    obtain ⟨hsound', hle, hkeeps'⟩ := ih hrest hsound
    refine ⟨hsound', ?_, fun hchoosable => hkeeps' (hkeeps hchoosable)⟩
    rw [choose_cons, List.length_cons]
    omega

/-- Ambiguities of a reachable forest, each with an alternative, are resolved one after the other,
in any order and to any alternatives. Every resolution succeeds, takes an ambiguity away and brings
in none, so there are not more resolutions than there were ambiguities. As long as an ambiguity is
left, there is another resolution to be made. When none is left, every subtree passes the check for
ambiguities, and every child is of the category that belongs to the property of its slot. -/
theorem Reachable.disambiguation_finishes {e : Editor} (he : e.Reachable)
    (hchoosable : e.forest.Choosable) {choices : List (NodeId × ℕ)} (hoffers : e.Offers choices) :
    (∀ before a index, before ++ [(a, index)] <+: choices →
      ((e.choose before).perform (.resolve a index)).1.isOk ∧
      (e.choose (before ++ [(a, index)])).forest.ambiguities ⊆
        (e.choose before).forest.ambiguities ∧
      (e.choose (before ++ [(a, index)])).forest.ambiguities.length <
        (e.choose before).forest.ambiguities.length) ∧
    choices.length ≤ e.forest.ambiguities.length ∧
    ((e.choose choices).forest.ambiguities ≠ [] → ∃ choice, e.Offers (choices ++ [choice])) ∧
    ((e.choose choices).forest.ambiguities = [] →
      (∀ id ∈ (e.choose choices).forest, (e.choose choices).forest.checkResolved id = .ok ()) ∧
      ∀ id n, (e.choose choices).forest.node? id = some n → ∀ p child, (p, child) ∈ n.entries →
        ∃ m, (e.choose choices).forest.node? child = some m ∧ m.category = p.accepts) := by
  obtain ⟨hsound, hlength, hkeeps⟩ := hoffers.invariant he.sound
  refine ⟨?_, by omega, ?_, ?_⟩
  · rintro before a index ⟨after, rfl⟩
    obtain ⟨hbefore, ha, hindex, -⟩ := offers_append_iff.1 (offers_append_iff.1 hoffers).1
    have hsound' := (hbefore.invariant he.sound).1
    obtain ⟨hok, -, hsubset, hlt, -⟩ := perform_choice hsound' ha hindex
    rw [choose_append]
    exact ⟨hok, hsubset, hlt⟩
  · intro hleft
    obtain ⟨a, ha⟩ := List.exists_mem_of_ne_nil _ hleft
    exact ⟨(a, 0), offers_append_iff.2 ⟨hoffers, ha, hkeeps hchoosable a ha, trivial⟩⟩
  · intro hnone
    refine ⟨?_, ?_⟩
    · intro id hid
      exact hsound.checkResolved_eq_ok hnone hid
    · intro id n hn p child hentry
      exact hsound.category_eq_accepts hnone hn hentry

/-- An ambiguity that is an alternative of another one is resolved first. Then only one choice is
left, and after it the block stands without ambiguities. -/
theorem disambiguation_finishes_in_nested_ambiguities :
    ((start .strict).run Edit.nestedAmbiguities).Reachable ∧
    ((start .strict).run Edit.nestedAmbiguities).forest.Choosable ∧
    ((start .strict).run Edit.nestedAmbiguities).Offers [(⟨3⟩, 1), (⟨5⟩, 0)] ∧
    (((start .strict).run Edit.nestedAmbiguities).choose [(⟨3⟩, 1), (⟨5⟩, 0)]).forest.checkResolved
      ⟨6⟩ = .ok () := by
  have he := reachable_run .strict (by decide : Edit.nestedAmbiguities.length < 2 ^ 32)
  have hchoosable : ((start .strict).run Edit.nestedAmbiguities).forest.Choosable := by
    unfold Choosable
    decide
  have hoffers : ((start .strict).run Edit.nestedAmbiguities).Offers [(⟨3⟩, 1), (⟨5⟩, 0)] :=
    ⟨by decide, by decide, by decide, by decide, trivial⟩
  have hdone := (he.disambiguation_finishes hchoosable hoffers).2.2.2 (by decide)
  exact ⟨he, hchoosable, hoffers, hdone.1 ⟨6⟩ (by decide)⟩

end Editor

end SyntaxForest
