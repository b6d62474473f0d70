import SyntaxForest.Proofs.Removal
import SyntaxForest.Proofs.Texts
import SyntaxForest.Proofs.Traversal

/-!
# Ends of recursions

What is computed by following identifiers from node to node is bounded by the number of nodes. Here
the same recursions are taken without a bound, as relations between what is asked and what comes
out: `Forest.Ends` for a recursion into the children, `Forest.Line` for the way up, and
`Forest.Pops` for a worklist of nodes to drop, whatever the order in which it is worked off.

In a sound forest they all come to an end, with the outcome of the bounded computation
(`Forest.Descends.ends_iff`, `Forest.line_iff`, `Forest.Draining.run`). Calls that are nested into
each other are about different nodes (`Forest.nodup_of_isChain`), and no node is popped twice.
-/

namespace SyntaxForest

namespace Forest

open Relation

/-- A recursion into the children comes to its end at a node with a value: where there is no node it
has a fixed one, and at a node it combines the values with which it ends at the children. -/
inductive Ends {α : Type} (f : Forest) (base : α) (combine : Node → (NodeId → α) → α) :
    NodeId → α → Prop
  | absent {id : NodeId} (h : f.node? id = none) : Ends f base combine id base
  | present {id : NodeId} {n : Node} (below : NodeId → α) (hn : f.node? id = some n)
      (h : ∀ child ∈ n.children, Ends f base combine child (below child)) :
      Ends f base combine id (combine n below)

/-- A worklist pops some nodes, one after the other. Each of them is erased, and its children become
pending, in an order that does not matter. The other lists are the pending nodes before and after
this. -/
inductive Pops : Forest → List NodeId → List NodeId → Forest → List NodeId → Prop
  | stop {f : Forest} {pending : List NodeId} : Pops f pending [] f pending
  | pop {f left : Forest} {id : NodeId} {pending next popped rest : List NodeId}
      (hnext : next.Perm (f.children id ++ pending)) (h : Pops (f.erase id) next popped left rest) :
      Pops f (id :: pending) (id :: popped) left rest

/-- A worklist that is to drop a subtree has popped the nodes in `gone`: these and what stands at or
below the pending nodes are the listing of the subtree. -/
structure Draining (f : Forest) (top : NodeId) (gone pending : List NodeId) : Prop where
  mem : ∀ x ∈ pending, x ∈ f
  listing : (gone ++ pending.flatMap f.subtree).Perm (f.subtree top)

/-- It does not matter in which order nodes are erased. -/
lemma eraseAll_perm (f : Forest) {first second : List NodeId} (h : first.Perm second) :
    f.eraseAll first = f.eraseAll second := by
  ext1
  · simp only [node?_eraseAll, h.mem_iff]
  · simp only [route?_eraseAll, h.mem_iff]
  · rw [lastId_eraseAll, lastId_eraseAll]
  · rw [policy_eraseAll, policy_eraseAll]

variable {f : Forest} (hf : f.Linked) (hg : f.Grounded)

include hf hg

/-! ### Recursions -/

/-- A recursion into the children ends at every node, with what is computed with as many levels as
there are nodes. -/
theorem Descends.ends_iff {α : Type} {g : ℕ → NodeId → α} {base : α}
    {combine : Node → (NodeId → α) → α} (h : f.Descends g fun _ => combine)
    (hbase : ∀ id, g 0 id = base) {id : NodeId} {value : α} :
    f.Ends base combine id value ↔ value = g f.size id := by
  constructor
  · intro hends
    induction hends with
    | @absent id hn => rw [h.absent f.size id hn, hbase]
    | @present id n below hn _ ih => rw [h.size_eq hf hg hn, h.congr id n _ _ ih]
  · rintro rfl
    induction id using child_induction hf hg with
    | step id ih =>
      cases hn : f.node? id with
      | none =>
        rw [h.absent f.size id hn, hbase]
        exact .absent hn
      | some n =>
        rw [children_of_node? hn] at ih
        rw [h.size_eq hf hg hn]
        exact .present (g f.size) hn ih

/-- The way up from a node ends, with its ancestors. -/
theorem line_iff {id : NodeId} {l : List NodeId} : f.Line id l ↔ l = f.ancestors id := by
  constructor
  · intro hline
    rw [ancestors, hline.ancestorsWithin_eq, List.take_of_length_le (hline.length_le hf hg)]
  · rintro rfl
    exact line_ancestors hf hg id

omit hg in
/-- Every node of a chain of children stands below those before it. -/
lemma pairwise_of_isChain {ids : List NodeId}
    (h : ids.IsChain fun caller callee => callee ∈ f.children caller) :
    ids.Pairwise (TransGen f.Above) := by
  refine List.IsChain.pairwise (h.imp fun caller callee hcall => ?_)
  exact .single (hf.mem_children_iff_parent?.1 hcall)

/-- No node occurs twice in a chain of children. -/
theorem nodup_of_isChain {ids : List NodeId}
    (h : ids.IsChain fun caller callee => callee ∈ f.children caller) : ids.Nodup := by
  refine (pairwise_of_isChain hf h).imp fun {x y} hbelow heq => ?_
  rw [heq] at hbelow
  exact hg.not_transGen_self y hbelow

omit hg in
/-- All nodes of a chain of children exist if the first one does. -/
lemma mem_of_isChain {id : NodeId} {ids : List NodeId} (hid : id ∈ f)
    (h : (id :: ids).IsChain fun caller callee => callee ∈ f.children caller) :
    ∀ x ∈ id :: ids, x ∈ f := by
  intro x hx
  rcases List.mem_cons.1 hx with rfl | hx
  · exact hid
  · have hbelow := (List.pairwise_cons.1 (pairwise_of_isChain hf h)).1 x hx
    exact mem_of_reflTransGen hf hid hbelow.to_reflTransGen

/-! ### The worklist -/

namespace Draining

omit hf hg in
lemma start {id : NodeId} (hid : id ∈ f) : f.Draining id [] [id] where
  mem x hx := by rwa [List.mem_singleton.1 hx]
  listing := by simp

variable {top : NodeId} {gone : List NodeId}

/-- No node is popped twice, nor popped and still to come. -/
lemma nodup {pending : List NodeId} (h : f.Draining top gone pending) :
    (gone ++ pending.flatMap f.subtree).Nodup :=
  h.listing.nodup_iff.2 (nodup_subtree hf hg top)

/-- The worklist goes on to drop the subtree when a node is popped. -/
lemma pop {id : NodeId} {pending next : List NodeId} (h : f.Draining top gone (id :: pending))
    (hnext : next.Perm ((f.eraseAll gone).children id ++ pending)) :
    f.Draining top (gone ++ [id]) next := by
  obtain ⟨n, hn⟩ := mem_iff_exists_node?.1 (h.mem id List.mem_cons_self)
  have hlist : (id :: pending).flatMap f.subtree =
      id :: (f.children id ++ pending).flatMap f.subtree := by
    rw [List.flatMap_cons, subtree_eq hf hg hn, List.flatMap_append, List.cons_append,
      children_of_node? hn]
  have hlisting := h.listing
  have hnodup := h.nodup hf hg
  rw [hlist] at hlisting hnodup
  -- The node has not gone before, so its children are those it has always had.
  have hid : id ∉ gone := fun hgone =>
    (List.nodup_append.1 hnodup).2.2 id hgone id List.mem_cons_self rfl
  have hchildren : (f.eraseAll gone).children id = f.children id := by
    rw [children, node?_eraseAll, if_neg hid, children]
  rw [hchildren] at hnext
  refine ⟨fun x hx => ?_, ?_⟩
  · rcases List.mem_append.1 (hnext.mem_iff.1 hx) with hx | hx
    · exact hf.mem_of_above (hf.mem_children_iff_parent?.1 hx)
    · exact h.mem x (List.mem_cons_of_mem id hx)
  · rw [List.append_assoc, List.singleton_append]
    exact (((hnext.flatMap_right f.subtree).cons id).append_left gone).trans hlisting

/-- The worklist goes on to drop the subtree as long as nodes are popped, and what it leaves of the
forest is what has not been popped. -/
theorem run {f' left : Forest} {pending popped rest : List NodeId}
    (hpops : f'.Pops pending popped left rest) (hf' : f' = f.eraseAll gone)
    (h : f.Draining top gone pending) :
    f.Draining top (gone ++ popped) rest ∧ left = f.eraseAll (gone ++ popped) := by
  induction hpops generalizing gone with
  | stop =>
    rw [List.append_nil]
    exact ⟨h, hf'⟩
  | @pop f' left id pending next popped rest hnext _ ih =>
    subst hf'
    have hrest := ih (erase_eraseAll f gone id) (h.pop hf hg hnext)
    rw [List.append_assoc, List.singleton_append] at hrest
    exact hrest

end Draining

/-- A worklist that starts with one node pops nodes of its subtree only, none of them twice. When
nothing is pending it has popped all of them, and the subtree has gone. -/
theorem Pops.subtree {id : NodeId} {left : Forest} {popped pending : List NodeId}
    (h : f.Pops [id] popped left pending) (hid : id ∈ f) :
    popped.Nodup ∧ (∀ x ∈ popped, x ∈ f.subtree id) ∧
      (pending = [] → left = f.eraseAll (f.subtree id) ∧ ∀ x ∈ f.subtree id, x ∈ popped) := by
  obtain ⟨hdraining, rfl⟩ := Draining.run hf hg h rfl (.start hid)
  rw [List.nil_append] at hdraining ⊢
  refine ⟨(hdraining.nodup hf hg).of_append_left, fun x hx => ?_, ?_⟩
  · exact hdraining.listing.mem_iff.1 (List.mem_append_left _ hx)
  · rintro rfl
    have hall := hdraining.listing
    rw [List.flatMap_nil, List.append_nil] at hall
    exact ⟨f.eraseAll_perm hall, fun x => hall.mem_iff.2⟩

omit hf hg in
/-- Dropping what is pending is working off the list, unless the steps do not suffice. -/
lemma exists_pops_dropPending (f : Forest) (steps : ℕ) (pending : List NodeId) :
    ∃ popped rest, f.Pops pending popped (f.dropPending steps pending).2 rest ∧
      (rest = [] ∨ popped.length = steps) := by
  induction steps generalizing f pending with
  | zero => exact ⟨[], pending, .stop, .inr rfl⟩
  | succ steps ih =>
    cases pending with
    | nil => exact ⟨[], [], .stop, .inl rfl⟩
    | cons id pending =>
      obtain ⟨popped, rest, hpops, hend⟩ := ih (f.erase id) (f.children id ++ pending)
      have hforest : (f.dropPending (steps + 1) (id :: pending)).2 =
          ((f.erase id).dropPending steps (f.children id ++ pending)).2 := by
        rw [dropPending]
        cases hn : f.node? id with
        | none => rw [children, hn, Option.elim_none, List.nil_append]
        | some n => rw [children_of_node? hn]
      rw [hforest]
      refine ⟨id :: popped, rest, .pop (.refl _) hpops, hend.imp_right fun hlength => ?_⟩
      rw [List.length_cons, hlength]

/-- Dropping a subtree is working off the list until nothing is pending. -/
theorem exists_pops_dropSubtree {id : NodeId} (hid : id ∈ f) :
    ∃ popped, f.Pops [id] popped (f.dropSubtree id).2 [] := by
  obtain ⟨popped, rest, hpops, hend⟩ := f.exists_pops_dropPending f.size [id]
  have hrest : rest = [] := by
    refine hend.elim (fun h => h) fun hlength => ?_
    -- As many nodes as there are have been popped, so nothing is left below what is pending.
    have hdraining := (Draining.run hf hg hpops rfl (.start hid)).1
    have hsize := length_le_size (f := f) (hdraining.nodup hf hg) fun x hx =>
      mem_of_reflTransGen hf hid ((mem_subtree_iff hf hg hid).1 (hdraining.listing.mem_iff.1 hx))
    have hnil : rest.flatMap f.subtree = [] := by
      rw [← List.length_eq_zero_iff]
      simp only [List.nil_append, List.length_append] at hsize
      omega
    refine List.eq_nil_iff_forall_not_mem.2 fun x hx => ?_
    obtain ⟨n, hn⟩ := mem_iff_exists_node?.1 (hdraining.mem x hx)
    have hempty := List.flatMap_eq_nil_iff.1 hnil x hx
    rw [subtree_eq hf hg hn] at hempty
    cases hempty
  rw [hrest] at hpops
  exact ⟨popped, hpops⟩

namespace Sound

omit hf hg

variable (h : f.Sound) {id : NodeId} (hid : id ∈ f)

include h hid

/-- The subtree of a node that was taken out of its slot is what goes when the node is pruned. -/
lemma mem_subtree_pluck_iff_gone {x : NodeId} :
    x ∈ (f.pluck id).subtree id ↔ x ∈ f ∧ x ∉ f.uproot id := by
  rw [(h.pruned hid).mem, h.mem_subtree_pluck_iff hid, not_and, not_not]
  constructor
  · intro hspans
    exact ⟨mem_of_reflTransGen h.linked hid ((spans_iff h.linked).1 hspans), fun _ => hspans⟩
  · rintro ⟨hx, hspans⟩
    exact hspans hx

/-- The worklist of a node that was taken out of its slot ends with the forest in which the node is
pruned. -/
theorem exists_pops_pluck : ∃ popped, (f.pluck id).Pops [id] popped (f.uproot id) [] := by
  have hplucked := h.pluck id
  have hmem : id ∈ f.pluck id := mem_pluck.2 hid
  obtain ⟨popped, hpops⟩ := exists_pops_dropSubtree hplucked.linked hplucked.grounded hmem
  rw [dropSubtree_eq hplucked.linked hplucked.grounded hmem] at hpops
  exact ⟨popped, hpops⟩

/-- In every order this worklist pops nodes that go when the node is pruned, none of them twice.
When nothing is pending it has popped all of them. -/
theorem pops_pluck {left : Forest} {popped pending : List NodeId}
    (hpops : (f.pluck id).Pops [id] popped left pending) :
    popped.Nodup ∧ (∀ x ∈ popped, x ∈ f ∧ x ∉ f.uproot id) ∧
      (pending = [] → left = f.uproot id ∧ ∀ x ∈ f, x ∉ f.uproot id → x ∈ popped) := by
  have hplucked := h.pluck id
  obtain ⟨hnodup, hsubtree, hend⟩ :=
    hpops.subtree hplucked.linked hplucked.grounded (mem_pluck.2 hid)
  refine ⟨hnodup, fun x hx => (h.mem_subtree_pluck_iff_gone hid).1 (hsubtree x hx),
    fun hpending => ⟨(hend hpending).1, fun x hx hgone => (hend hpending).2 x ?_⟩⟩
  exact (h.mem_subtree_pluck_iff_gone hid).2 ⟨hx, hgone⟩

end Sound

end Forest

namespace Editor

open Forest

/-- In every reachable forest the recursions that carry no bound of their own come to an end, for
every visitor and every identifier, with what is computed with as many steps as there are nodes:
the walk of a visitor, the text of a node and the way up. A chain of nested calls is about different
nodes, no more than there are, and a call for what does not exist makes no further ones. Fewer nodes
than there are stand above any of them. When a node is pruned, the worklist comes to its end in
every order, and it has popped each node that is dropped once, and no other. -/
theorem Reachable.recursions_end {e : Editor} (he : e.Reachable) :
    (∀ (σ : Type) (v : Visitor σ) id outcome,
      e.forest.Ends (fun s => (true, s)) (walkNode v) id outcome ↔ outcome = e.forest.walk v id) ∧
    (∀ id text,
      e.forest.Ends "" (fun n text =>
        if n.location.source.isEmpty then n.render text else n.location.source) id text ↔
          text = e.forest.sourceText id) ∧
    (∀ id chain, (id :: chain).IsChain (fun caller callee => callee ∈ e.forest.children caller) →
      (id :: chain).Nodup ∧
      (id ∈ e.forest → (∀ x ∈ id :: chain, x ∈ e.forest) ∧
        (id :: chain).length ≤ e.forest.size) ∧
      (id ∉ e.forest → chain = [])) ∧
    (∀ id line, e.forest.Line id line ↔ line = e.forest.ancestors id) ∧
    (∀ id ∈ e.forest, (e.forest.ancestors id).length < e.forest.size) ∧
    ∀ id former e', e.detach id = (.ok former, e') →
      (∃ popped, e'.forest.Pops [id] popped (e.prune id).2.forest []) ∧
      ∀ popped left pending, e'.forest.Pops [id] popped left pending →
        popped.Nodup ∧ popped.length ≤ e.forest.size ∧
        (∀ x ∈ popped, x ∈ e.forest ∧ x ∉ (e.prune id).2.forest) ∧
        (pending = [] → left = (e.prune id).2.forest ∧
          ∀ x ∈ e.forest, x ∉ (e.prune id).2.forest → x ∈ popped) := by
  have h := he.sound
  have hf := h.linked
  have hg := h.grounded
  refine ⟨fun σ v id outcome => (e.forest.descends_walkWithin v).ends_iff hf hg fun _ => rfl,
    fun id text => e.forest.descends_sourceTextWithin.ends_iff hf hg fun _ => rfl,
    fun id chain hchain => ?_, fun id line => line_iff hf hg,
    fun id hid => depth_lt_size hf hg hid, fun id former e' hdetach => ?_⟩
  · have hnodup := nodup_of_isChain hf hg hchain
    refine ⟨hnodup, fun hid => ?_, fun hid => ?_⟩
    · have hmem := mem_of_isChain hf hid hchain
      exact ⟨hmem, length_le_size hnodup hmem⟩
    · cases chain with
      | nil => rfl
      | cons callee chain =>
        have hcall := (List.isChain_cons_cons.1 hchain).1
        exact absurd (hf.mem_of_parent? (hf.mem_children_iff_parent?.1 hcall)) hid
  · rcases detach_cases e id with ⟨reason, hrefused⟩ | ⟨hid, hdetachable⟩
    · rw [hrefused] at hdetach
      cases hdetach
    have hforest : e'.forest = e.forest.pluck id := by
      rw [detach_of_detachable hid hdetachable] at hdetach
      rw [← (Prod.mk.inj hdetach).2, forest_unlink hf]
    rw [hforest, (prune_of_detachable h hid hdetachable).2]
    refine ⟨h.exists_pops_pluck hid, fun popped left pending hpops => ?_⟩
    obtain ⟨hnodup, hgone, hend⟩ := h.pops_pluck hid hpops
    exact ⟨hnodup, length_le_size hnodup fun x hx => (hgone x hx).1, hgone, hend⟩

/-- An ambiguity that has another one among its alternatives is pruned from its block. If the
children that come last are popped first, all five nodes are popped, and the block is left. -/
theorem recursions_end_in_nested_ambiguities :
    ((start .strict).run Edit.nestedAmbiguities).Reachable ∧
    (((start .strict).run Edit.nestedAmbiguities).forest.ancestors ⟨1⟩).length <
      ((start .strict).run Edit.nestedAmbiguities).forest.size ∧
    ∃ left, (((start .strict).run Edit.nestedAmbiguities).detach ⟨5⟩).2.forest.Pops [⟨5⟩]
      [⟨5⟩, ⟨4⟩, ⟨3⟩, ⟨2⟩, ⟨1⟩] left [] ∧
        left = (((start .strict).run Edit.nestedAmbiguities).prune ⟨5⟩).2.forest := by
  have he := reachable_run .strict (by decide : Edit.nestedAmbiguities.length < 2 ^ 32)
  obtain ⟨-, -, -, -, hancestors, hworklist⟩ := he.recursions_end
  refine ⟨he, hancestors ⟨1⟩ (by decide), ?_⟩
  have hpops : (((start .strict).run Edit.nestedAmbiguities).detach ⟨5⟩).2.forest.Pops [⟨5⟩]
      [⟨5⟩, ⟨4⟩, ⟨3⟩, ⟨2⟩, ⟨1⟩] _ [] :=
    .pop (by decide : [⟨4⟩, ⟨3⟩].Perm _) <| .pop (by decide : [⟨3⟩].Perm _) <|
      .pop (by decide : [⟨2⟩, ⟨1⟩].Perm _) <| .pop (by decide : [⟨1⟩].Perm _) <|
      .pop (by decide : [].Perm _) .stop
  exact ⟨_, hpops, (((hworklist ⟨5⟩ (some ⟨6⟩) _ rfl).2 _ _ _ hpops).2.2.2 rfl).1⟩

end Editor

end SyntaxForest
