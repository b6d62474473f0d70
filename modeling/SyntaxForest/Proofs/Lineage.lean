import Mathlib.Data.List.Perm.Subperm
import Mathlib.Logic.Relation
import Mathlib.Order.WellFounded
import SyntaxForest.Proofs.Links

/-!
# Lines of ancestors

A forest is grounded (`Forest.Grounded`) if the way up from any node ends. In a grounded forest the
nodes above a node form one finite line (`Forest.Line`), without repetition, from the parent to a
root. `Forest.ancestors` computes this line: it takes at most as many steps as there are nodes, and
the line is shorter than that.

A refill keeps a forest grounded if none of the nodes that come in stands above the slot
(`Forest.Grounded.refill`); planting and dropping always do.
-/

namespace SyntaxForest

namespace Forest

open Relation

/-- The first node is the parent of the second. -/
def Above (f : Forest) (parent child : NodeId) : Prop := f.parent? child = some parent

/-- The way up from every node ends. -/
def Grounded (f : Forest) : Prop := WellFounded f.Above

/-- The nodes above a node, from its parent to the root. -/
inductive Line (f : Forest) : NodeId → List NodeId → Prop
  | root {id : NodeId} (h : f.parent? id = none) : Line f id []
  | step {id parent : NodeId} {l : List NodeId} (h : f.parent? id = some parent)
      (line : Line f parent l) : Line f id (parent :: l)

variable {f : Forest}

/-- The node that another one is linked to is its parent. -/
lemma above_of_link? {child parent : NodeId} {p : Property}
    (h : f.link? child = some ⟨parent, p⟩) : f.Above parent child :=
  parent?_of_link? h

/-- A node that has a parent exists. -/
lemma Linked.mem_of_above (hf : f.Linked) {parent child : NodeId} (h : f.Above parent child) :
    child ∈ f := by
  obtain ⟨p, hlink⟩ := hf.exists_link? h
  exact hf.mem_of_link? hlink

/-- Of two nodes at or above a third one, one is at or above the other. -/
lemma above_total {x y id : NodeId} (hx : ReflTransGen f.Above x id)
    (hy : ReflTransGen f.Above y id) : ReflTransGen f.Above x y ∨ ReflTransGen f.Above y x := by
  induction hx with
  | refl => exact .inr hy
  | @tail z id hxz hz ih =>
    rcases ReflTransGen.cases_tail hy with rfl | ⟨z', hyz, hz'⟩
    · exact .inl (hxz.tail hz)
    · obtain rfl : z = z' := Option.some.inj (hz.symm.trans hz')
      exact ih hyz

/-! ### Lines -/

/-- In a grounded forest every node has a line. -/
lemma Grounded.exists_line (hg : f.Grounded) (id : NodeId) : ∃ l, f.Line id l := by
  induction id using hg.induction with
  | _ id ih =>
    cases hparent : f.parent? id with
    | none => exact ⟨[], .root hparent⟩
    | some parent =>
      obtain ⟨l, hl⟩ := ih parent hparent
      exact ⟨parent :: l, .step hparent hl⟩

/-- No node of a grounded forest is above itself. -/
lemma Grounded.not_transGen_self (hg : f.Grounded) (id : NodeId) : ¬ TransGen f.Above id id :=
  hg.transGen.irrefl.irrefl id

/-- A bounded walk upwards gives the start of the line. -/
lemma Line.ancestorsWithin_eq {id : NodeId} {l : List NodeId} (h : f.Line id l) (steps : ℕ) :
    f.ancestorsWithin steps id = l.take steps := by
  induction h generalizing steps with
  | root hparent =>
    cases steps with
    | zero => rfl
    | succ steps => simp [ancestorsWithin, hparent]
  | step hparent _ ih =>
    cases steps with
    | zero => rfl
    | succ steps => simp [ancestorsWithin, hparent, ih]

/-- The line of a node has exactly the nodes above it. -/
lemma Line.mem_iff {id : NodeId} {l : List NodeId} (h : f.Line id l) {x : NodeId} :
    x ∈ l ↔ TransGen f.Above x id := by
  induction h with
  | root hparent =>
    refine iff_of_false List.not_mem_nil fun htrans => ?_
    obtain ⟨y, -, hy⟩ := TransGen.tail'_iff.1 htrans
    rw [Above, hparent] at hy
    cases hy
  | @step id parent l hparent _ ih =>
    rw [List.mem_cons, ih]
    constructor
    · rintro (rfl | htrans)
      · exact .single hparent
      · exact .tail htrans hparent
    · intro htrans
      obtain ⟨y, hxy, hy⟩ := TransGen.tail'_iff.1 htrans
      obtain rfl : parent = y := Option.some.inj (hparent.symm.trans hy)
      rcases reflTransGen_iff_eq_or_transGen.1 hxy with rfl | h
      · exact .inl rfl
      · exact .inr h

/-- No node occurs twice in a line. -/
lemma Line.nodup (hg : f.Grounded) {id : NodeId} {l : List NodeId} (h : f.Line id l) :
    l.Nodup := by
  induction h with
  | root _ => exact List.nodup_nil
  | step _ hline ih =>
    refine List.nodup_cons.2 ⟨fun hmem => ?_, ih⟩
    exact hg.not_transGen_self _ (hline.mem_iff.1 hmem)

/-- A line ends in a root. -/
lemma Line.parent?_getLast {id r : NodeId} {l : List NodeId} (h : f.Line id l)
    (hlast : l.getLast? = some r) : f.parent? r = none := by
  induction h with
  | root _ => cases hlast
  | @step id parent l _ hline ih =>
    cases hline with
    | root hparent =>
      obtain rfl : parent = r := by simpa using hlast
      exact hparent
    | step _ _ =>
      rw [List.getLast?_cons_cons] at hlast
      exact ih hlast

/-- The nodes of a line exist. -/
lemma Line.mem (hf : f.Linked) {id : NodeId} {l : List NodeId} (h : f.Line id l) {x : NodeId}
    (hx : x ∈ l) : x ∈ f := by
  induction h with
  | root _ => exact absurd hx List.not_mem_nil
  | step hparent _ ih =>
    rcases List.mem_cons.1 hx with rfl | hmem
    · exact hf.mem_of_parent? hparent
    · exact ih hmem

/-- Different nodes of a forest are no more than its size. -/
lemma length_le_size {l : List NodeId} (hnodup : l.Nodup) (hmem : ∀ x ∈ l, x ∈ f) :
    l.length ≤ f.size := by
  have hsub : l ⊆ f.ids := fun x hx => mem_ids.2 (hmem x hx)
  have hlength : f.ids.length = f.size := Std.ExtTreeMap.length_keys
  rw [← hlength]
  exact (hnodup.subperm hsub).length_le

/-- The line of a node of the forest is shorter than the number of nodes. -/
lemma Line.length_lt (hf : f.Linked) (hg : f.Grounded) {id : NodeId} {l : List NodeId}
    (h : f.Line id l) (hid : id ∈ f) : l.length < f.size := by
  have hnodup : (id :: l).Nodup :=
    List.nodup_cons.2 ⟨fun hmem => hg.not_transGen_self id (h.mem_iff.1 hmem), h.nodup hg⟩
  have hmem : ∀ x ∈ id :: l, x ∈ f := by
    intro x hx
    rcases List.mem_cons.1 hx with rfl | hx
    · exact hid
    · exact h.mem hf hx
  exact length_le_size hnodup hmem

/-- The line of any identifier is no longer than the number of nodes. -/
lemma Line.length_le (hf : f.Linked) (hg : f.Grounded) {id : NodeId} {l : List NodeId}
    (h : f.Line id l) : l.length ≤ f.size :=
  length_le_size (h.nodup hg) fun _ hx => h.mem hf hx

/-! ### Ancestors -/

section

variable (hf : f.Linked) (hg : f.Grounded)

include hf hg

/-- The ancestors of a node are its line. -/
theorem line_ancestors (id : NodeId) : f.Line id (f.ancestors id) := by
  obtain ⟨l, hl⟩ := hg.exists_line id
  have heq : f.ancestors id = l := by
    rw [ancestors, hl.ancestorsWithin_eq, List.take_of_length_le (hl.length_le hf hg)]
  rw [heq]
  exact hl

/-- More steps than there are nodes lead no further. -/
theorem ancestorsWithin_eq_ancestors {steps : ℕ} (hsteps : f.size ≤ steps) (id : NodeId) :
    f.ancestorsWithin steps id = f.ancestors id := by
  have hl := line_ancestors hf hg id
  rw [hl.ancestorsWithin_eq, List.take_of_length_le ((hl.length_le hf hg).trans hsteps)]

/-- The ancestors of a node are the nodes above it. -/
theorem mem_ancestors_iff {x id : NodeId} : x ∈ f.ancestors id ↔ TransGen f.Above x id :=
  (line_ancestors hf hg id).mem_iff

/-- The ancestors of a child are its parent and the ancestors of that. -/
lemma ancestors_of_parent? {id parent : NodeId} (h : f.parent? id = some parent) :
    f.ancestors id = parent :: f.ancestors parent := by
  have hline : f.Line id (parent :: f.ancestors parent) := .step h (line_ancestors hf hg parent)
  rw [← ancestorsWithin_eq_ancestors hf hg (le_max_left f.size _) id, hline.ancestorsWithin_eq,
    List.take_of_length_le (le_max_right f.size _)]

end

/-- How many nodes stand above a node. -/
def depth (f : Forest) (id : NodeId) : ℕ := (f.ancestors id).length

section

variable (hf : f.Linked) (hg : f.Grounded)

include hf hg

/-- A child stands one level below its parent. -/
lemma depth_of_parent? {id parent : NodeId} (h : f.parent? id = some parent) :
    f.depth id = f.depth parent + 1 := by
  rw [depth, ancestors_of_parent? hf hg h]
  rfl

/-- A root stands on level zero. -/
lemma depth_of_root {id : NodeId} (h : f.parent? id = none) : f.depth id = 0 := by
  have hline : f.Line id [] := .root h
  rw [depth, ← ancestorsWithin_eq_ancestors hf hg le_rfl, hline.ancestorsWithin_eq, List.take_nil]
  rfl

/-- There are more nodes than levels. -/
lemma depth_lt_size {id : NodeId} (hid : id ∈ f) : f.depth id < f.size :=
  (line_ancestors hf hg id).length_lt hf hg hid

/-- A node stands on a higher level than what is below it. -/
lemma depth_lt_of_transGen {x id : NodeId} (h : TransGen f.Above x id) :
    f.depth x < f.depth id := by
  induction h with
  | single hparent =>
    rw [depth_of_parent? hf hg hparent]
    exact Nat.lt_succ_self _
  | tail _ hparent ih =>
    rw [depth_of_parent? hf hg hparent]
    exact Nat.lt_succ_of_lt ih

/-- On each level at most one node stands above a given node, or is that node. -/
lemma eq_of_depth_eq {x y id : NodeId} (hx : ReflTransGen f.Above x id)
    (hy : ReflTransGen f.Above y id) (hdepth : f.depth x = f.depth y) : x = y := by
  induction hx with
  | refl =>
    rcases reflTransGen_iff_eq_or_transGen.1 hy with heq | htrans
    · exact heq
    · have := depth_lt_of_transGen hf hg htrans
      omega
  | @tail z id hxz hparent ih =>
    rcases ReflTransGen.cases_tail hy with heq | ⟨w, hyw, hw⟩
    · have := depth_lt_of_transGen hf hg (TransGen.tail' hxz hparent)
      rw [← heq] at hdepth
      omega
    · obtain rfl : z = w := Option.some.inj (hparent.symm.trans hw)
      exact ih hyw

/-- The check against cycles passes if the child is neither the parent nor above it. -/
lemma checkAcyclic_eq_ok_iff {parent child : NodeId} :
    f.checkAcyclic parent child = .ok () ↔ ¬ ReflTransGen f.Above child parent := by
  rw [reflTransGen_iff_eq_or_transGen, ← mem_ancestors_iff hf hg, eq_comm (a := parent)]
  unfold checkAcyclic
  split
  · next h => exact iff_of_false (by simp) (not_not_intro h)
  · next h => exact iff_of_true rfl h

end

/-! ### Staying grounded -/

/-- A forest is grounded if it has only links of a grounded one. -/
lemma Grounded.of_le {g : Forest} (hg : f.Grounded)
    (h : ∀ parent child, g.Above parent child → f.Above parent child) : g.Grounded :=
  Subrelation.wf (fun {x y} hxy => h x y hxy) hg

lemma Grounded.empty (policy : Policy) : (Forest.empty policy).Grounded := by
  refine ⟨fun x => ⟨x, fun y hy => ?_⟩⟩
  simp [Above, parent?] at hy

/-- The parents after a refill. -/
lemma Linked.parent?_refill (hf : f.Linked) {id : NodeId} {p : Property} {l : List NodeId}
    (ha : f.Admits id p l) (x : NodeId) :
    (f.refill id p l).parent? x =
      if x ∈ l then some id else if x ∈ f.childrenIn id p then none else f.parent? x := by
  rw [(hf.refill ha).parent?_eq, hf.link?_refill ha, hf.parent?_eq]
  split
  · rfl
  · split <;> rfl

/-- A refill keeps the forest grounded if no node comes in that stands above the slot. -/
theorem Grounded.refill (hg : f.Grounded) (hf : f.Linked) {id : NodeId} {p : Property}
    {l : List NodeId} (ha : f.Admits id p l)
    (hbelow : ∀ child ∈ l, child ∈ f.childrenIn id p ∨ ¬ ReflTransGen f.Above child id) :
    (f.refill id p l).Grounded := by
  have hparent := hf.parent?_refill ha
  -- Above the slot nothing new has come in, so the way up from there is the old one.
  have habove : ∀ y, ReflTransGen f.Above y id → Acc (f.refill id p l).Above y := by
    intro y
    induction y using hg.induction with
    | _ y ih =>
      intro hy
      refine ⟨y, fun z hz => ?_⟩
      rw [Above, hparent] at hz
      by_cases hyl : y ∈ l
      · rcases hbelow y hyl with hmem | hnot
        · have hchild : f.Above id y := above_of_link? ((hf.link_iff y id p).2 hmem)
          exact absurd (TransGen.tail' hy hchild) (hg.not_transGen_self y)
        · exact absurd hy hnot
      · rw [if_neg hyl] at hz
        split at hz
        · cases hz
        · exact ih z hz (ReflTransGen.head hz hy)
  refine ⟨fun x => ?_⟩
  induction x using hg.induction with
  | _ x ih =>
    refine ⟨x, fun z hz => ?_⟩
    rw [Above, hparent] at hz
    split at hz
    · obtain rfl := Option.some.inj hz
      exact habove _ .refl
    · split at hz
      · cases hz
      · exact ih z hz

/-- What is above a node after one was taken out of its slot was so before. -/
lemma Linked.above_of_above_pluck (hf : f.Linked) {child x y : NodeId}
    (h : (f.pluck child).Above x y) : f.Above x y := by
  obtain ⟨p, hlink⟩ := (hf.pluck child).exists_link? h
  rw [hf.link?_pluck] at hlink
  split at hlink
  · cases hlink
  · exact above_of_link? hlink

/-- Planting a new node above roots keeps the forest grounded. -/
theorem Grounded.plant (hg : f.Grounded) (hf : f.Linked) {id : NodeId} {n : Node} (hid : id ∉ f)
    (hnodup : n.children.Nodup)
    (hroots : ∀ child ∈ n.children, child ∈ f ∧ f.link? child = none) :
    (f.plant id n).Grounded := by
  have hplant := hf.plant hid hnodup hroots
  have hroot : (f.plant id n).parent? id = none := by
    rw [parent?, route?_plant_self]
    rfl
  have habove : ∀ x y, (f.plant id n).Above x y → x = id ∨ f.Above x y := by
    intro x y hxy
    obtain ⟨p, hlink⟩ := hplant.exists_link? hxy
    rw [hplant.link_iff, childrenIn_plant] at hlink
    split at hlink
    · next hx => exact .inl hx
    · exact .inr (above_of_link? ((hf.link_iff y x p).2 hlink))
  have hacc : Acc (f.plant id n).Above id := by
    refine ⟨id, fun y hy => ?_⟩
    rw [Above, hroot] at hy
    cases hy
  refine ⟨fun x => ?_⟩
  induction x using hg.induction with
  | _ x ih =>
    refine ⟨x, fun y hy => ?_⟩
    rcases habove y x hy with rfl | hold
    · exact hacc
    · exact ih y hold

/-- Dropping nodes keeps the forest grounded. -/
theorem Grounded.eraseAll (hg : f.Grounded) (ids : List NodeId) : (f.eraseAll ids).Grounded := by
  refine hg.of_le fun x y hxy => ?_
  rw [Above, parent?_eraseAll] at hxy
  split at hxy
  · cases hxy
  · exact hxy

end Forest

end SyntaxForest
