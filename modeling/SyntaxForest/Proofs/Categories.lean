import SyntaxForest.Proofs.Reachable

/-!
# Categories

Every child counts as one of the category that its slot accepts; this is part of the soundness of a
forest (`Forest.Typed`). Along a chain of alternatives the category stays the same, since an
ambiguity counts as what it asks of its alternatives (`Forest.Typed.fits_of_alternatives`).

Nothing checks the family of a new ambiguity. That no ambiguity stands for ambiguities
(`Forest.Classified`) holds because the alternatives of a new one have to be there before it: the
first ambiguity of this family would need alternatives that count as ambiguities, and there are
none.
-/

namespace SyntaxForest

open Relation

namespace Content

/-- Only an ambiguity that stands for ambiguities counts as one. -/
lemma slotCategory_eq_ambiguities_iff {c : Content} :
    c.slotCategory = .ambiguities ↔ c = .ambiguity .ambiguities := by
  cases c <;> simp [slotCategory, family?, kind, Kind.category]

end Content

namespace Node

/-- Only ambiguities have a family. -/
lemma family?_eq_none {n : Node} (h : ¬ n.isAmbiguity) : n.content.family? = none := by
  have hkind : n.content.kind ≠ .ambiguity := fun heq => h (beq_iff_eq.2 heq)
  cases hcontent : n.content with
  | ambiguity family =>
    rw [hcontent] at hkind
    exact absurd rfl hkind
  | _ => rfl

/-- A node that is no ambiguity counts as one of its own category. -/
lemma slotCategory_eq_category {n : Node} (h : ¬ n.isAmbiguity) : n.slotCategory = n.category := by
  rw [slotCategory, Content.slotCategory, family?_eq_none h]
  rfl

/-- The slots of a node that is no ambiguity go by their properties. -/
lemma accepts_eq_accepts {n : Node} (h : ¬ n.isAmbiguity) (p : Property) :
    n.content.accepts p = p.accepts := by
  rw [Content.accepts, family?_eq_none h]
  rfl

end Node

namespace Forest

variable {f : Forest}

/-- No node counts as an ambiguity where it stands in a slot. -/
def Classified (f : Forest) : Prop :=
  ∀ id content, f.content? id = some content → content.slotCategory ≠ .ambiguities

/-- All that is reached from a node through alternatives counts as what the node counts as. -/
lemma Typed.fits_of_alternatives (h : f.Typed) {a x : NodeId} {c : Category} (ha : f.Fits a c)
    (hpath : ReflTransGen (fun y z => z ∈ f.alternatives y) a x) : f.Fits x c := by
  induction hpath with
  | refl => exact ha
  | @tail y z _ hz ih =>
    obtain ⟨n, hn, rfl⟩ := ih
    have hfits := h y n.content .alternative z (content?_of_node? hn) hz
    have halternative : z ∈ n.alternatives := by
      rw [← alternatives_of_node? hn]
      exact hz
    have hambiguity := Node.isAmbiguity_of_mem_alternatives halternative
    rwa [Node.accepts_eq_slotCategory hambiguity] at hfits

/-- A new node does not stand for ambiguities if no node does. -/
lemma Classified.of_insertable (h : f.Classified) {n : Node} (hn : f.Insertable n) :
    n.slotCategory ≠ .ambiguities := by
  intro hcategory
  have hcontent : n.content = .ambiguity .ambiguities :=
    Content.slotCategory_eq_ambiguities_iff.1 hcategory
  have hambiguity : n.isAmbiguity := by
    rw [Node.isAmbiguity, Node.kind, hcontent]
    rfl
  obtain ⟨child, hchild⟩ : ∃ child, child ∈ n.alternatives := by
    have htwo := hn.plural hambiguity
    exact List.exists_mem_of_length_pos (by omega)
  have hfits := hn.fits .alternative child hchild
  rw [Node.accepts_eq_slotCategory hambiguity, hcategory, fits_iff_content?] at hfits
  obtain ⟨content, hchildContent, hsame⟩ := hfits
  exact h child content hchildContent hsame

/-- No change brings in a node that counts as an ambiguity. -/
theorem Change.classified {edit : Edit} {answer : Answer} {g : Forest}
    (hchange : f.Change edit answer g) (h : f.Classified) : g.Classified := by
  intro id content hcontent
  rcases hchange.content?_cases hcontent with hold | ⟨n, -, hn, rfl⟩
  · exact h id content hold
  · exact h.of_insertable hn

end Forest

namespace Editor

open Forest

/-- No node of a reachable forest counts as an ambiguity where it stands in a slot. -/
theorem Reachable.classified {e : Editor} (he : e.Reachable) : e.forest.Classified := by
  refine he.invariant (fun policy id content h => ?_) fun f edit answer g _ hf hchange =>
    hchange.classified hf
  simp [content?] at h

/-- In every reachable forest, each child of a node counts as one of the category that its slot
accepts, which is the family if the node is an ambiguity. What is reached from an ambiguity through
alternatives alone, and is no ambiguity itself, is of the family of the ambiguity. No ambiguity
stands for ambiguities, and so no node counts as one. -/
theorem Reachable.categories_agree {e : Editor} (he : e.Reachable) :
    (∀ id n, e.forest.node? id = some n → ∀ p child, (p, child) ∈ n.entries →
      ∃ m, e.forest.node? child = some m ∧ n.accepts? p = some m.slotCategory ∧
        ∀ family, n.content = .ambiguity family → m.slotCategory = family) ∧
    (∀ a n family, e.forest.node? a = some n → n.content = .ambiguity family → ∀ x m,
      ReflTransGen (fun y z => z ∈ e.forest.alternatives y) a x → e.forest.node? x = some m →
        ¬ m.isAmbiguity → m.category = family) ∧
    ∀ id n, e.forest.node? id = some n →
      n.content ≠ .ambiguity .ambiguities ∧ n.slotCategory ≠ .ambiguities := by
  have htyped := he.sound.typed
  refine ⟨fun id n hn p child hentry => ?_, fun a n family hn hfamily x m hpath hm hplain => ?_,
    fun id n hn => ?_⟩
  · have hchild : child ∈ n.childrenIn p := Node.mem_entries.1 hentry
    obtain ⟨m, hm, hcategory⟩ := htyped id n.content p child (content?_of_node? hn)
      (by rwa [childrenIn_of_node? hn])
    refine ⟨m, hm, ?_, fun family hfamily => ?_⟩
    · rw [Node.accepts?_eq_some_iff]
      exact ⟨Node.mem_properties_of_mem_childrenIn hchild, hcategory.symm⟩
    · rw [hcategory, hfamily]
      rfl
  · have hstart : e.forest.Fits a family := ⟨n, hn, by rw [Node.slotCategory, hfamily]; rfl⟩
    obtain ⟨m', hm', hcategory⟩ := htyped.fits_of_alternatives hstart hpath
    obtain rfl : m = m' := Option.some.inj (hm.symm.trans hm')
    rw [← hcategory, Node.slotCategory_eq_category hplain]
  · have hclassified := he.classified id n.content (content?_of_node? hn)
    exact ⟨fun hcontent => hclassified (Content.slotCategory_eq_ambiguities_iff.2 hcontent),
      hclassified⟩

/-- A statement that is an alternative of an alternative is of the family of the outer ambiguity. -/
theorem categories_agree_in_nested_ambiguities :
    ((start .strict).run Edit.nestedAmbiguities).Reachable ∧
    ∃ m, ((start .strict).run Edit.nestedAmbiguities).forest.node? ⟨1⟩ = some m ∧
      ¬ m.isAmbiguity ∧ m.category = .statements := by
  have he := reachable_run .strict (by decide : Edit.nestedAmbiguities.length < 2 ^ 32)
  have hpath : ReflTransGen (fun y z =>
      z ∈ ((start .strict).run Edit.nestedAmbiguities).forest.alternatives y) ⟨5⟩ ⟨1⟩ :=
    .head (b := ⟨3⟩) (by decide) (.single (by decide))
  refine ⟨he, _, rfl, by decide, ?_⟩
  exact he.categories_agree.2.1 ⟨5⟩ _ .statements rfl rfl ⟨1⟩ _ hpath rfl (by decide)

end Editor

end SyntaxForest
