import SyntaxForest.Proofs.Reattachment

/-!
# Bringing in nodes

A new node comes in together with its children, which may be roots or may be taken, all at once,
from wherever they stand: from one list, from several ambiguities, or from below each other.
`Forest.Joinable` says when this is not refused, and `Forest.Joined` what it makes of a forest.

The checks look at the children one by one, and at the ambiguities they are taken from. That the
alternatives an ambiguity keeps are counted right needs the children to be different
(`Forest.Linked.joinable_iff`).
-/

namespace SyntaxForest

namespace Forest

/-- A new node may join a forest. -/
structure Joinable (f : Forest) (n : Node) : Prop where
  /-- An ambiguity has at least two alternatives. -/
  plural : n.isAmbiguity → 2 ≤ n.alternatives.length
  /-- No child stands in two slots of the node, or twice in one. -/
  nodup : n.children.Nodup
  /-- Every child exists and counts as what its slot accepts. -/
  suits : ∀ p child, (p, child) ∈ n.entries →
    ∃ m, f.node? child = some m ∧ n.accepts? p = some m.slotCategory
  /-- Every child is a root, or may be taken from its parent. -/
  takable : ∀ child ∈ n.children, f.parent? child = none ∨ f.policy.reattach = .detach
  /-- Every ambiguity that loses alternatives to the node has two others. -/
  spareable : ∀ a, (∃ child ∈ n.children, child ∈ f.alternatives a) →
    ((f.alternatives a).countP fun x => x ∈ n.children) + 2 ≤ (f.alternatives a).length

/-- Of two forests the second one is the first one with a new node above its children, which have
left the slots where they stood. -/
structure Joined (f g : Forest) (id : NodeId) (n : Node) : Prop where
  /-- The identifier of the new node is new as well. -/
  fresh : id ∉ f
  /-- The new node is the given one with its identifier. -/
  node : g.node? id = some (n.withId id)
  /-- The new node is a root. -/
  root : g.route? id = some (.root id)
  /-- Its children are linked to their slots. -/
  linked : ∀ p child, (p, child) ∈ n.entries → g.route? child = some ⟨child, some id, some p⟩
  /-- A slot that has lost a child to the node has lost all that the node has, and holds the others
  in their order. -/
  former : ∀ child ∈ n.children, ∀ x q, f.link? child = some ⟨x, q⟩ →
    g.childrenIn x q = (f.childrenIn x q).filter fun c => c ∉ n.children
  /-- Every other slot holds what it held. -/
  slots : ∀ x ∈ f, ∀ q, (∀ child ∈ n.children, f.link? child ≠ some ⟨x, q⟩) →
    g.childrenIn x q = f.childrenIn x q
  /-- Every other node has the route it had. -/
  routes : ∀ x, x ≠ id → x ∉ n.children → g.route? x = f.route? x
  /-- No other node has come, and none has gone. -/
  mem : ∀ x, x ∈ g ↔ x = id ∨ x ∈ f
  /-- Nothing else about the other nodes has changed. -/
  header : ∀ x ∈ f, g.header? x = f.header? x
  lastId : g.lastId = id
  policy : g.policy = f.policy

variable {f : Forest} {n : Node}

/-! ### When a node may join -/

/-- What suits a slot of a new node is what fits it. -/
lemma exists_suiting_iff {p : Property} {child : NodeId} (hchild : child ∈ n.childrenIn p) :
    (∃ m, f.node? child = some m ∧ n.accepts? p = some m.slotCategory) ↔
      f.Fits child (n.content.accepts p) := by
  have hp := Node.mem_properties_of_mem_childrenIn hchild
  refine exists_congr fun m => and_congr_right fun _ => ?_
  rw [Node.accepts?_eq_some_iff, and_iff_right hp, eq_comm]

namespace Linked

variable (hf : f.Linked)

include hf

/-- The alternatives that an ambiguity keeps without different nodes and those it loses make up all
it has. -/
lemma alternativesWithout_add_countP {l : List NodeId} (hnodup : l.Nodup) (a : NodeId) :
    f.alternativesWithout l a + ((f.alternatives a).countP fun x => x ∈ l) =
      (f.alternatives a).length := by
  have hdistinct : (f.alternatives a).Nodup := hf.nodup a .alternative
  rw [hf.alternativesWithout_eq hnodup, hdistinct.sdiff_eq_filter, ← List.countP_eq_length_filter,
    Nat.add_comm, List.length_eq_countP_add_countP fun x => decide (x ∈ l)]
  simp

/-- A new node may join a forest exactly if it passes the check for it. -/
theorem joinable_iff : f.Joinable n ↔ f.Insertable n := by
  -- The check counts the children taken from an ambiguity, not the alternatives that it loses.
  constructor
  · rintro ⟨hplural, hnodup, hsuits, htakable, hspareable⟩
    refine ⟨hplural, hnodup, fun p child hchild => ?_, htakable, fun child hchild a hlink => ?_⟩
    · exact (exists_suiting_iff hchild).1 (hsuits p child (Node.mem_entries.2 hchild))
    · have hcount := hf.alternativesWithout_add_countP hnodup a
      have htwo := hspareable a ⟨child, hchild, (hf.link_iff child a .alternative).1 hlink⟩
      omega
  · rintro ⟨hplural, hnodup, hfits, htakable, hdetachable⟩
    refine ⟨hplural, hnodup, fun p child hentry => ?_, htakable, ?_⟩
    · have hchild := Node.mem_entries.1 hentry
      exact (exists_suiting_iff hchild).2 (hfits p child hchild)
    · rintro a ⟨child, hchild, halternative⟩
      have hcount := hf.alternativesWithout_add_countP hnodup a
      have htwo := hdetachable child hchild a ((hf.link_iff child a .alternative).2 halternative)
      omega

/-! ### What joining does -/

/-- A new node that may come in joins the forest when it is planted above its children. -/
theorem joined (hn : f.Insertable n) {id : NodeId} (hid : id ∉ f) :
    f.Joined ((n.children.foldl Forest.pluck f).plant id n) id n := by
  have hplucked := hf.foldl_pluck n.children
  have hnew : id ∉ n.children.foldl Forest.pluck f := mt mem_foldl_pluck.1 hid
  have hfree := hn.free hf
  have hmem : ∀ x, x ∈ (n.children.foldl Forest.pluck f).plant id n ↔ x = id ∨ x ∈ f := fun x => by
    rw [mem_plant, mem_foldl_pluck]
  have hchildren : ∀ x ∈ f, ∀ q, ((n.children.foldl Forest.pluck f).plant id n).childrenIn x q =
      (f.childrenIn x q).filter fun c => c ∉ n.children := fun x hx q => by
    have hne : x ≠ id := fun heq => hid (heq ▸ hx)
    rw [childrenIn_plant, if_neg hne, hf.childrenIn_foldl_pluck, (hf.nodup x q).sdiff_eq_filter]
  refine ⟨hid, ?_, route?_plant_self .., fun p child hentry => ?_, fun child hchild x q hlink => ?_,
    fun x hx q hother => ?_, fun x hne hchild => ?_, hmem, fun x hx => ?_, lastId_plant .., ?_⟩
  · rw [node?_plant, if_pos rfl]
  · exact hplucked.route?_plant hnew hn.nodup hfree (Node.mem_entries.1 hentry)
  · exact hchildren x (hf.mem_of_parent? (above_of_link? hlink)) q
  · rw [hchildren x hx, List.filter_eq_self]
    intro c hc
    rw [decide_eq_true_eq]
    exact fun hchild => hother c hchild ((hf.link_iff c x q).2 hc)
  · rw [route?_plant_of_notMem hne hchild]
    apply hf.route?_congr hplucked mem_foldl_pluck
    rw [hf.link?_foldl_pluck, if_neg hchild]
  · have hne : x ≠ id := fun heq => hid (heq ▸ hx)
    rw [header?, node?_plant, if_neg hne]
    exact header?_foldl_pluck n.children x
  · rw [policy_plant, policy_foldl_pluck]

end Linked

end Forest

/-- A block that has the second and the fourth of four statements. -/
def Node.blockOfTwo : Node := .make .unknown .compoundStatement fun _ => .list [⟨2⟩, ⟨4⟩]

namespace Editor

open Forest

/-- A new node can be brought in exactly if it may join the forest. -/
lemma isOk_insert_iff {e : Editor} (h : e.forest.Sound) (n : Node) :
    (e.insert n).1.isOk ↔ e.forest.Joinable n := by
  rw [isOk_iff_change h (.insert n) rfl, h.linked.joinable_iff]
  constructor
  · rintro ⟨_, _, hchange⟩
    cases hchange with
    | insert hn => exact hn
  · intro hn
    exact ⟨_, _, .insert hn⟩

/-- In every reachable forest that has an identifier left, a new node can be brought in exactly if it
may join the forest. It gets the next identifier and joins the forest under it: it is a root above
its children, which have left their slots with all others in their order, and nothing else has
changed. -/
theorem Reachable.inserting_joins_node {e : Editor} (he : e.Reachable)
    (hroom : e.forest.lastId.raw.toNat < 2 ^ 32 - 1) (n : Node) :
    ((e.insert n).1.isOk ↔ e.forest.Joinable n) ∧
    ∀ id, (e.insert n).1 = .ok id →
      id.raw.toNat = e.forest.lastId.raw.toNat + 1 ∧
      e.forest.Joined (e.insert n).2.forest id n := by
  have h := he.sound
  have hok := isOk_insert_iff h n
  refine ⟨hok, fun id hid => ?_⟩
  have hinsertable := h.linked.joinable_iff.1 (hok.1 (isOk_of_eq_ok hid))
  obtain ⟨hanswer, hforest⟩ := insert_of_insertable h hinsertable
  obtain rfl := Except.ok.inj (hanswer.symm.trans hid)
  rw [hforest]
  exact ⟨NodeId.toNat_next (by omega),
    h.linked.joined hinsertable (Sound.next_notMem h.numbered)⟩

/-- A block takes two of four alternatives out of their ambiguity, which is left with the two
others. -/
theorem inserting_joins_node_over_alternatives :
    fourAlternatives.Reachable ∧ fourAlternatives.forest.lastId.raw.toNat < 2 ^ 32 - 1 ∧
    (fourAlternatives.insert .blockOfTwo).1 = .ok ⟨6⟩ ∧
    fourAlternatives.forest.Joined (fourAlternatives.insert .blockOfTwo).2.forest ⟨6⟩
      .blockOfTwo := by
  have he : fourAlternatives.Reachable := reachable_run _ (by decide)
  have hroom : fourAlternatives.forest.lastId.raw.toNat < 2 ^ 32 - 1 := by decide
  have hanswer : (fourAlternatives.insert .blockOfTwo).1 = .ok ⟨6⟩ := rfl
  exact ⟨he, hroom, hanswer, ((he.inserting_joins_node hroom .blockOfTwo).2 ⟨6⟩ hanswer).2⟩

end Editor

end SyntaxForest
