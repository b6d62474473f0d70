import SyntaxForest.Proofs.Lineage

/-!
# When checks pass

For every check that an edit makes, the exact condition under which it passes, in terms of the
nodes and links of the forest. Edits are taken apart along these equivalences, and the checks are
not opened again.
-/

namespace SyntaxForest

/-- A sequence of two computations succeeds if the first one does and the second one after it. -/
lemma bind_eq_ok_iff {α β : Type} {x : Except Error α} {g : α → Except Error β} {b : β} :
    (x >>= g) = .ok b ↔ ∃ a, x = .ok a ∧ g a = .ok b := by
  cases x with
  | error reason =>
    refine iff_of_false ?_ ?_
    · intro h
      cases h
    · rintro ⟨a, h, -⟩
      cases h
  | ok a =>
    constructor
    · intro h
      exact ⟨a, rfl, h⟩
    · rintro ⟨a', h, hb⟩
      cases h
      exact hb

/-- A check followed by something else succeeds if both do. -/
lemma check_bind_eq_ok_iff {β : Type} {x : Except Error Unit} {g : Unit → Except Error β} {b : β} :
    (x >>= g) = .ok b ↔ x = .ok () ∧ g () = .ok b := by
  rw [bind_eq_ok_iff]
  constructor
  · rintro ⟨⟨⟩, hx, hg⟩
    exact ⟨hx, hg⟩
  · rintro ⟨hx, hg⟩
    exact ⟨(), hx, hg⟩

/-- A choice between success and an error succeeds under its condition. -/
lemma ite_eq_ok_iff {α : Type} {c : Prop} [Decidable c] {a b : α} {reason : Error} :
    (if c then Except.ok a else .error reason) = .ok b ↔ c ∧ a = b := by
  by_cases h : c <;> simp [h]

/-- A slot of the node has a category that it accepts. -/
lemma Node.accepts?_of_mem {n : Node} {p : Property} (h : p ∈ n.kind.properties) :
    n.accepts? p = some (n.content.accepts p) :=
  accepts?_eq_some_iff.2 ⟨h, rfl⟩

/-- The category that a slot of the node accepts can be asked for. -/
lemma Node.expects_of_mem {n : Node} {p : Property} (h : p ∈ n.kind.properties) :
    n.expects p = .ok (n.content.accepts p) := by
  rw [expects, accepts?_of_mem h]

namespace Forest

open Relation

/-- A node exists and counts as one of a category. -/
def Fits (f : Forest) (child : NodeId) (c : Category) : Prop :=
  ∃ n, f.node? child = some n ∧ n.slotCategory = c

/-- A node has no parent, or the policy allows to take it away. -/
def Takable (f : Forest) (child : NodeId) : Prop :=
  f.parent? child = none ∨ f.policy.reattach = .detach

/-- Every ambiguity keeps two alternatives when the listed nodes are taken away. -/
def Detachable (f : Forest) (taken : List NodeId) : Prop :=
  ∀ child ∈ taken, ∀ a, f.link? child = some ⟨a, .alternative⟩ → 2 ≤ f.alternativesWithout taken a

variable {f : Forest}

/-! ### Single conditions -/

lemma require_eq_ok_iff {id : NodeId} {n : Node} : f.require id = .ok n ↔ f.node? id = some n := by
  rw [require]
  cases f.node? id <;> simp

/-- The check of a slot passes if the slot exists and has the shape asked for. -/
lemma checkSlot_eq_ok_iff {parent : NodeId} {p : Property} {shape : Shape} {c : Category} :
    f.checkSlot parent p shape = .ok c ↔
      ∃ n, f.node? parent = some n ∧ p ∈ n.kind.properties ∧ p.shape = shape ∧
        n.content.accepts p = c := by
  rw [checkSlot, bind_eq_ok_iff]
  refine exists_congr fun n => ?_
  rw [require_eq_ok_iff]
  refine and_congr_right fun _ => ?_
  cases hs : n.slot? p with
  | none =>
    have hp : p ∉ n.kind.properties := by
      rw [← Node.isSome_slot?_iff, hs]
      simp
    simp [hp]
  | some s =>
    have hp : p ∈ n.kind.properties := by
      rw [← Node.isSome_slot?_iff, hs]
      rfl
    rw [← Node.shape_of_slot? hs, Node.expects_of_mem hp]
    simp [hp, ite_eq_ok_iff]

lemma checkCategory_eq_ok_iff {child : NodeId} {p : Property} {expected : Category} :
    f.checkCategory child p expected = .ok () ↔ f.Fits child expected := by
  rw [checkCategory, bind_eq_ok_iff]
  refine exists_congr fun n => ?_
  rw [require_eq_ok_iff, ite_eq_ok_iff]
  simp

lemma checkFree_eq_ok_iff {child : NodeId} : f.checkFree child = .ok () ↔ f.Takable child := by
  rw [checkFree, Takable]
  cases f.parent? child <;> cases f.policy.reattach <;> simp

lemma ambiguityOver?_eq_some_iff {child a : NodeId} :
    f.ambiguityOver? child = some a ↔ f.link? child = some ⟨a, .alternative⟩ := by
  rw [ambiguityOver?]
  cases f.link? child with
  | none => simp
  | some link =>
    obtain ⟨parent, p⟩ := link
    by_cases hp : p = .alternative <;> simp [hp]

lemma checkDetachable_eq_ok_iff {taken : List NodeId} :
    f.checkDetachable taken = .ok () ↔ f.Detachable taken := by
  have hnone : f.checkDetachable taken = .ok () ↔
      ((taken.filterMap f.ambiguityOver?).filter
        fun a => f.alternativesWithout taken a < 2) = [] := by
    rw [checkDetachable, ← List.max?_eq_none_iff]
    cases ((taken.filterMap f.ambiguityOver?).filter
      fun a => f.alternativesWithout taken a < 2).max? <;> simp
  rw [hnone, List.filter_eq_nil_iff, Detachable]
  simp only [List.mem_filterMap, ambiguityOver?_eq_some_iff]
  constructor
  · intro h child hchild a ha
    have hlt := h a ⟨child, hchild, ha⟩
    simpa only [decide_eq_true_eq, Nat.not_lt] using hlt
  · rintro h a ⟨child, hchild, ha⟩
    simpa only [decide_eq_true_eq, Nat.not_lt] using h child hchild a ha

/-- Taking a single node away leaves its ambiguity one alternative less. -/
lemma detachable_singleton_iff {child : NodeId} :
    f.Detachable [child] ↔
      ∀ a, f.link? child = some ⟨a, .alternative⟩ → 3 ≤ (f.alternatives a).length := by
  simp only [Detachable, List.mem_singleton, forall_eq]
  refine forall_congr' fun a => imp_congr_right fun hlink => ?_
  rw [alternativesWithout]
  simp only [List.countP_singleton, ambiguityOver?_eq_some_iff, hlink, decide_true, if_true]
  omega

/-! ### Whole edits -/

/-- A child may be attached if it fits, can be taken away, starves no ambiguity, and is not above
its new parent. -/
lemma checkAttach_eq_ok_iff (hf : f.Linked) (hg : f.Grounded) {parent child : NodeId}
    {p : Property} {expected : Category} :
    f.checkAttach parent p expected child = .ok () ↔
      f.Fits child expected ∧ f.Takable child ∧ f.Detachable [child] ∧
        ¬ ReflTransGen f.Above child parent := by
  simp only [checkAttach, check_bind_eq_ok_iff, checkCategory_eq_ok_iff, checkFree_eq_ok_iff,
    checkDetachable_eq_ok_iff, checkAcyclic_eq_ok_iff hf hg]

/-- The entries of a new node pass if the children are different, new to the list of those seen,
fit their slots, and can be taken away. -/
lemma checkEntries_eq_ok_iff {n : Node} {seen : List NodeId}
    {entries : List (Property × NodeId)} (hslots : ∀ e ∈ entries, e.1 ∈ n.kind.properties) :
    f.checkEntries n seen entries = .ok () ↔
      (entries.map Prod.snd).Nodup ∧ (∀ e ∈ entries, e.2 ∉ seen) ∧
        ∀ e ∈ entries, f.Fits e.2 (n.content.accepts e.1) ∧ f.Takable e.2 := by
  induction entries generalizing seen with
  | nil => simp [checkEntries]
  | cons entry entries ih =>
    obtain ⟨p, child⟩ := entry
    rw [List.forall_mem_cons] at hslots
    rw [checkEntries, Node.accepts?_of_mem hslots.1]
    by_cases hseen : child ∈ seen
    · rw [if_pos hseen]
      refine iff_of_false (by simp) ?_
      rintro ⟨-, hnew, -⟩
      exact hnew (p, child) List.mem_cons_self hseen
    · rw [if_neg hseen]
      simp only [Option.forM, check_bind_eq_ok_iff, checkCategory_eq_ok_iff,
        checkFree_eq_ok_iff, ih hslots.2]
      constructor
      · rintro ⟨hfits, htake, hnodup, hnew, hrest⟩
        refine ⟨?_, ?_, ?_⟩
        · rw [List.map_cons, List.nodup_cons]
          refine ⟨fun hmem => ?_, hnodup⟩
          obtain ⟨e, he, heq⟩ := List.mem_map.1 hmem
          exact hnew e he (heq ▸ List.mem_cons_self)
        · intro e he
          rcases List.mem_cons.1 he with rfl | he
          · exact hseen
          · exact fun hmem => hnew e he (List.mem_cons_of_mem _ hmem)
        · intro e he
          rcases List.mem_cons.1 he with rfl | he
          · exact ⟨hfits, htake⟩
          · exact hrest e he
      · rintro ⟨hnodup, hnew, hall⟩
        rw [List.map_cons, List.nodup_cons] at hnodup
        have hhead := hall (p, child) List.mem_cons_self
        refine ⟨hhead.1, hhead.2, hnodup.2, fun e he hmem => ?_, fun e he =>
          hall e (List.mem_cons_of_mem _ he)⟩
        rcases List.mem_cons.1 hmem with heq | hmem
        · exact hnodup.1 (List.mem_map.2 ⟨e, he, heq⟩)
        · exact hnew e (List.mem_cons_of_mem _ he) hmem

/-- A new node may come in if it is no ambiguity with fewer than two alternatives, its children are
different, fit their slots and can be taken away, and no ambiguity starves. -/
lemma checkInsert_eq_ok_iff {n : Node} :
    f.checkInsert n = .ok () ↔
      (n.isAmbiguity → 2 ≤ n.alternatives.length) ∧ n.children.Nodup ∧
        (∀ p, ∀ child ∈ n.childrenIn p, f.Fits child (n.content.accepts p) ∧ f.Takable child) ∧
        f.Detachable n.children := by
  rw [checkInsert]
  by_cases hamb : n.isAmbiguity ∧ n.alternatives.length < 2
  · rw [if_pos hamb]
    refine iff_of_false (by simp) ?_
    rintro ⟨htwo, -⟩
    have := htwo hamb.1
    omega
  · rw [if_neg hamb]
    have htwo : n.isAmbiguity → 2 ≤ n.alternatives.length := by
      intro h
      by_contra hlt
      exact hamb ⟨h, by omega⟩
    have hentries : (∀ e ∈ n.entries, f.Fits e.2 (n.content.accepts e.1) ∧ f.Takable e.2) ↔
        ∀ p, ∀ child ∈ n.childrenIn p,
          f.Fits child (n.content.accepts p) ∧ f.Takable child := by
      simp only [Prod.forall, Node.mem_entries]
    have hslots : ∀ e ∈ n.entries, e.1 ∈ n.kind.properties := fun e he =>
      Node.mem_properties_of_mem_childrenIn (Node.mem_entries.1 he)
    simp only [check_bind_eq_ok_iff, checkEntries_eq_ok_iff hslots, checkDetachable_eq_ok_iff,
      hentries, List.not_mem_nil, not_false_eq_true, implies_true, true_and, and_assoc]
    exact ⟨fun h => ⟨htwo, h⟩, And.right⟩

/-- A new child may take the place of an old one if it fits, is not above the parent, and either
comes from the old one or can be taken away and starves no ambiguity. -/
lemma checkSubstitute_eq_ok_iff (hf : f.Linked) (hg : f.Grounded) {parent old new : NodeId}
    {n : Node} {p : Property} (hp : p ∈ n.kind.properties) :
    f.checkSubstitute parent n p old new = .ok () ↔
      f.Fits new (n.content.accepts p) ∧
        (f.parent? new = some old ∨ f.Takable new ∧ f.Detachable [new]) ∧
        ¬ ReflTransGen f.Above new parent := by
  rw [checkSubstitute, Node.expects_of_mem hp]
  change (f.checkCategory new p (n.content.accepts p) >>= fun _ => _) = _ ↔ _
  by_cases hold : f.parent? new = some old
  · simp [hold, check_bind_eq_ok_iff, checkCategory_eq_ok_iff, checkAcyclic_eq_ok_iff hf hg]
  · simp [hold, check_bind_eq_ok_iff, checkCategory_eq_ok_iff, checkFree_eq_ok_iff,
      checkDetachable_eq_ok_iff, checkAcyclic_eq_ok_iff hf hg, and_assoc]

/-- An alternative is found if the node is an ambiguity and the index is in range. -/
lemma checkAlternative_eq_ok_iff {id winner : NodeId} {index : ℕ} :
    f.checkAlternative id index = .ok winner ↔
      ∃ n, f.node? id = some n ∧ n.isAmbiguity ∧ n.alternatives[index]? = some winner := by
  rw [checkAlternative, bind_eq_ok_iff]
  refine exists_congr fun n => ?_
  rw [require_eq_ok_iff]
  refine and_congr_right fun _ => ?_
  by_cases hamb : n.isAmbiguity
  · cases n.alternatives[index]? <;> simp [hamb]
  · simp [hamb]

end Forest

end SyntaxForest
