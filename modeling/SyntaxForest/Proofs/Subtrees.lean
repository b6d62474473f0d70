import SyntaxForest.Proofs.Lineage

/-!
# Subtrees

What is computed level by level from the top of a subtree has as many levels as there are nodes. In
a grounded forest this bound never cuts anything off (`Forest.Descends.size_eq`), and what is
computed for a node depends on the nodes at and below it only (`Forest.Descends.eq_of_agree`).

So the preorder listing of a subtree is its node followed by the listings of its children
(`Forest.subtree_eq`). The listing of a node has exactly the nodes at or below it, which are those
that it spans (`Forest.Spans`), each of them once, and the listings of the roots together have every
node of the forest exactly once (`Forest.nodup_flatMap_roots`, `Forest.mem_flatMap_roots`).

Dropping a node together with everything below it drops exactly its listing
(`Forest.dropSubtree_eq`).
-/

namespace SyntaxForest

namespace Forest

open Relation

/-- A computation that goes down level by level: at a node it combines what it gives for the
children with one level less, and where there is no node it is done. -/
structure Descends {α : Type} (f : Forest) (g : ℕ → NodeId → α)
    (combine : NodeId → Node → (NodeId → α) → α) : Prop where
  absent : ∀ levels id, f.node? id = none → g levels id = g 0 id
  succ : ∀ levels id n, f.node? id = some n → g (levels + 1) id = combine id n (g levels)
  congr : ∀ id n first second, (∀ child ∈ n.children, first child = second child) →
    combine id n first = combine id n second

/-- A node is another one, or is reached from it by going down from parents to children. -/
def Spans (f : Forest) (id x : NodeId) : Prop :=
  ReflTransGen (fun parent child => child ∈ f.children parent) id x

variable {f : Forest} (hf : f.Linked) (hg : f.Grounded)

include hf hg

/-! ### Level by level -/

/-- Induction from the leaves upwards. -/
theorem child_induction {motive : NodeId → Prop}
    (step : ∀ id, (∀ child ∈ f.children id, motive child) → motive id) (id : NodeId) :
    motive id := by
  -- The levels below a node become fewer on the way down.
  induction hlevels : f.size - f.depth id using Nat.strong_induction_on generalizing id with
  | _ levels ih =>
    refine step id fun child hchild => ?_
    have hparent := hf.mem_children_iff_parent?.1 hchild
    have hdepth := depth_of_parent? hf hg hparent
    have hlt := depth_lt_size hf hg (hf.mem_of_above hparent)
    exact ih _ (by omega) child rfl

section

variable {α : Type} {g : ℕ → NodeId → α} {combine : NodeId → Node → (NodeId → α) → α}
  (h : f.Descends g combine)

include h

/-- The number of levels does not matter, once these cover everything below a node. -/
lemma Descends.eq_of_size_le {m k : ℕ} {id : NodeId} (hm : f.size ≤ m + f.depth id)
    (hk : f.size ≤ k + f.depth id) : g m id = g k id := by
  induction id using child_induction hf hg generalizing m k with
  | step id ih =>
    cases hn : f.node? id with
    | none => rw [h.absent m id hn, h.absent k id hn]
    | some n =>
      have hlt := depth_lt_size hf hg (mem_of_node? hn)
      obtain ⟨m, rfl⟩ : ∃ m', m = m' + 1 := ⟨m - 1, by omega⟩
      obtain ⟨k, rfl⟩ : ∃ k', k = k' + 1 := ⟨k - 1, by omega⟩
      rw [h.succ m id n hn, h.succ k id n hn]
      refine h.congr id n _ _ fun child hchild => ?_
      rw [← children_of_node? hn] at hchild
      have hdepth := depth_of_parent? hf hg (hf.mem_children_iff_parent?.1 hchild)
      exact ih child hchild (by omega) (by omega)

/-- With as many levels as there are nodes, a node combines what is computed for its children with
as many levels. -/
theorem Descends.size_eq {id : NodeId} {n : Node} (hn : f.node? id = some n) :
    g f.size id = combine id n (g f.size) := by
  have hlt := depth_lt_size hf hg (mem_of_node? hn)
  obtain ⟨m, hm⟩ : ∃ m, f.size = m + 1 := ⟨f.size - 1, by omega⟩
  have hself : g f.size id = combine id n (g m) := by rw [hm, h.succ m id n hn]
  rw [hself]
  refine h.congr id n _ _ fun child hchild => ?_
  rw [← children_of_node? hn] at hchild
  have hdepth := depth_of_parent? hf hg (hf.mem_children_iff_parent?.1 hchild)
  exact h.eq_of_size_le hf hg (by omega) (by omega)

end

/-- Two forests that have the same nodes at and below a place compute the same for it. -/
theorem Descends.eq_of_agree {α : Type} {u u' : ℕ → NodeId → α}
    {combine : NodeId → Node → (NodeId → α) → α} (h : f.Descends u combine) {f' : Forest}
    (hf' : f'.Linked) (hg' : f'.Grounded) (h' : f'.Descends u' combine)
    (hzero : ∀ x, u' 0 x = u 0 x) {x : NodeId}
    (hagree : ∀ y, ReflTransGen f.Above x y → f'.node? y = f.node? y) :
    u' f'.size x = u f.size x := by
  induction x using child_induction hf hg with
  | step x ih =>
    have hnode := hagree x .refl
    cases hn : f.node? x with
    | none =>
      rw [hn] at hnode
      rw [h'.absent f'.size x hnode, h.absent f.size x hn, hzero]
    | some n =>
      rw [hn] at hnode
      rw [h'.size_eq hf' hg' hnode, h.size_eq hf hg hn]
      refine h.congr x n _ _ fun child hchild => ?_
      rw [← children_of_node? hn] at hchild
      have habove : f.Above x child := hf.mem_children_iff_parent?.1 hchild
      exact ih child hchild fun y hy => hagree y (.head habove hy)

/-! ### The listing of a subtree -/

omit hf hg in
lemma descends_subtreeWithin (f : Forest) :
    f.Descends f.subtreeWithin fun id n listing => id :: n.children.flatMap listing where
  absent levels id hn := by cases levels <;> simp [subtreeWithin, hn]
  succ levels id n hn := by rw [subtreeWithin, hn]
  congr id n first second h := by rw [List.flatMap_congr h]

/-- The listing of a subtree is its node, followed by the listings of its children. -/
theorem subtree_eq {id : NodeId} {n : Node} (hn : f.node? id = some n) :
    f.subtree id = id :: n.children.flatMap f.subtree :=
  f.descends_subtreeWithin.size_eq hf hg hn

omit hf hg in
/-- Nothing stands below what does not exist. -/
lemma subtree_eq_nil {id : NodeId} (hn : f.node? id = none) : f.subtree id = [] := by
  rw [subtree]
  cases f.size with
  | zero => rfl
  | succ m => simp [subtreeWithin, hn]

/-- The listing of a subtree has exactly the nodes at or below its node. -/
theorem mem_subtree_iff {id x : NodeId} (hid : id ∈ f) :
    x ∈ f.subtree id ↔ ReflTransGen f.Above id x := by
  induction id using child_induction hf hg with
  | step id ih =>
    obtain ⟨n, hn⟩ := mem_iff_exists_node?.1 hid
    rw [subtree_eq hf hg hn, List.mem_cons, List.mem_flatMap, ReflTransGen.cases_head_iff]
    refine or_congr eq_comm (exists_congr fun child => ?_)
    rw [← children_of_node? hn]
    constructor
    · rintro ⟨hchild, hx⟩
      have hparent := hf.mem_children_iff_parent?.1 hchild
      exact ⟨hparent, (ih child hchild (hf.mem_of_above hparent)).1 hx⟩
    · rintro ⟨hparent, hx⟩
      have hchild := hf.mem_children_iff_parent?.2 hparent
      exact ⟨hchild, (ih child hchild (hf.mem_of_above hparent)).2 hx⟩

omit hg in
/-- What is reached by going down is what is left behind by going up. -/
lemma spans_iff {id x : NodeId} : f.Spans id x ↔ ReflTransGen f.Above id x := by
  have hdown : (fun parent child => child ∈ f.children parent) = f.Above := by
    funext parent child
    exact propext hf.mem_children_iff_parent?
  rw [Spans, hdown]

/-- The listing of a subtree has exactly the nodes that are reached from its node. -/
lemma mem_subtree_iff_spans {id x : NodeId} (hid : id ∈ f) : x ∈ f.subtree id ↔ f.Spans id x := by
  rw [spans_iff hf, mem_subtree_iff hf hg hid]

/-- Subtrees that start on the same level have no node in common. -/
lemma disjoint_subtree {x y : NodeId} (hx : x ∈ f) (hy : y ∈ f) (hdepth : f.depth x = f.depth y)
    (hne : x ≠ y) : (f.subtree x).Disjoint (f.subtree y) := by
  intro z hzx hzy
  rw [mem_subtree_iff hf hg hx] at hzx
  rw [mem_subtree_iff hf hg hy] at hzy
  exact hne (eq_of_depth_eq hf hg hzx hzy hdepth)

/-- No node is listed twice in a subtree. -/
theorem nodup_subtree (id : NodeId) : (f.subtree id).Nodup := by
  induction id using child_induction hf hg with
  | step id ih =>
    cases hn : f.node? id with
    | none =>
      rw [subtree_eq_nil hn]
      exact List.nodup_nil
    | some n =>
      have hparent : ∀ child ∈ n.children, f.Above id child := by
        intro child hchild
        rw [← children_of_node? hn] at hchild
        exact hf.mem_children_iff_parent?.1 hchild
      have hmem : ∀ child ∈ n.children, child ∈ f :=
        fun child hchild => hf.mem_of_above (hparent child hchild)
      rw [subtree_eq hf hg hn, List.nodup_cons, List.nodup_flatMap]
      refine ⟨fun hself => ?_, fun child hchild => ?_, ?_⟩
      · obtain ⟨child, hchild, hin⟩ := List.mem_flatMap.1 hself
        rw [mem_subtree_iff hf hg (hmem child hchild)] at hin
        exact hg.not_transGen_self id (TransGen.head' (hparent child hchild) hin)
      · exact ih child (by rwa [children_of_node? hn])
      · refine (hf.nodup_children hn).imp_of_mem fun {x y} hx hy hne => ?_
        have hxdepth := depth_of_parent? hf hg (hparent x hx)
        have hydepth := depth_of_parent? hf hg (hparent y hy)
        exact disjoint_subtree hf hg (hmem x hx) (hmem y hy) (by omega) hne

/-! ### Roots -/

omit hf hg in
lemma mem_roots_iff {id : NodeId} : id ∈ f.roots ↔ id ∈ f ∧ f.parent? id = none := by
  rw [roots, List.mem_filter, mem_ids, Option.isNone_iff_eq_none]

omit hg in
/-- What is below a node of the forest is a node of the forest. -/
lemma mem_of_reflTransGen {x y : NodeId} (hx : x ∈ f) (h : ReflTransGen f.Above x y) : y ∈ f := by
  rcases ReflTransGen.cases_tail h with rfl | ⟨z, -, hz⟩
  · exact hx
  · exact hf.mem_of_above hz

/-- Every node is at or below a root. -/
lemma exists_root_above {id : NodeId} (hid : id ∈ f) :
    ∃ r ∈ f.roots, ReflTransGen f.Above r id := by
  induction id using hg.induction with
  | _ id ih =>
    cases hparent : f.parent? id with
    | none => exact ⟨id, mem_roots_iff.2 ⟨hid, hparent⟩, .refl⟩
    | some parent =>
      obtain ⟨r, hr, habove⟩ := ih parent hparent (hf.mem_of_parent? hparent)
      exact ⟨r, hr, habove.tail hparent⟩

/-- No node is listed twice in the subtrees of the roots. -/
theorem nodup_flatMap_roots : (f.roots.flatMap f.subtree).Nodup := by
  rw [List.nodup_flatMap]
  refine ⟨fun r _ => nodup_subtree hf hg r, ?_⟩
  have hroots : f.roots.Nodup := f.nodup_ids.filter _
  refine hroots.imp_of_mem fun {x y} hx hy hne => ?_
  rw [mem_roots_iff] at hx hy
  have hxdepth := depth_of_root hf hg hx.2
  have hydepth := depth_of_root hf hg hy.2
  exact disjoint_subtree hf hg hx.1 hy.1 (by omega) hne

/-- The subtrees of the roots list exactly the nodes of the forest. -/
theorem mem_flatMap_roots {id : NodeId} : id ∈ f.roots.flatMap f.subtree ↔ id ∈ f := by
  rw [List.mem_flatMap]
  constructor
  · rintro ⟨r, hr, hmem⟩
    have hrf := (mem_roots_iff.1 hr).1
    exact mem_of_reflTransGen hf hrf ((mem_subtree_iff hf hg hrf).1 hmem)
  · intro hid
    obtain ⟨r, hr, habove⟩ := exists_root_above hf hg hid
    exact ⟨r, hr, (mem_subtree_iff hf hg (mem_roots_iff.1 hr).1).2 habove⟩

/-! ### Dropping subtrees -/

/-- Dropping the pending nodes one by one drops their listings. The nodes in `gone` have been
dropped before. -/
lemma dropPending_eq {steps : ℕ} {pending gone : List NodeId}
    (hmem : ∀ id ∈ pending, id ∈ f) (hnodup : (pending.flatMap f.subtree).Nodup)
    (hgone : ∀ id ∈ pending.flatMap f.subtree, id ∉ gone)
    (hsteps : (pending.flatMap f.subtree).length ≤ steps) :
    (f.eraseAll gone).dropPending steps pending =
      (pending.flatMap f.subtree, f.eraseAll (gone ++ pending.flatMap f.subtree)) := by
  induction steps generalizing pending gone with
  | zero =>
    have hnil : pending.flatMap f.subtree = [] := List.length_eq_zero_iff.1 (by omega)
    simp [dropPending, hnil]
  | succ steps ih =>
    cases pending with
    | nil => simp [dropPending]
    | cons id pending =>
      obtain ⟨n, hn⟩ := mem_iff_exists_node?.1 (hmem id List.mem_cons_self)
      -- The listing of the first pending node starts with the node itself.
      have hlist : (id :: pending).flatMap f.subtree =
          id :: (n.children ++ pending).flatMap f.subtree := by
        rw [List.flatMap_cons, subtree_eq hf hg hn, List.flatMap_append, List.cons_append]
      rw [hlist] at hnodup hgone hsteps ⊢
      have hnode : (f.eraseAll gone).node? id = some n := by
        rw [node?_eraseAll, if_neg (hgone id List.mem_cons_self), hn]
      have hchildren : ∀ x ∈ n.children ++ pending, x ∈ f := by
        intro x hx
        rcases List.mem_append.1 hx with hx | hx
        · obtain ⟨p, hp⟩ := Node.mem_children.1 hx
          rw [← childrenIn_of_node? hn] at hp
          exact hf.mem_of_mem_childrenIn hp
        · exact hmem x (List.mem_cons_of_mem _ hx)
      have hgone' : ∀ x ∈ (n.children ++ pending).flatMap f.subtree, x ∉ gone ++ [id] := by
        intro x hx hxg
        rcases List.mem_append.1 hxg with hxg | hxg
        · exact hgone x (List.mem_cons_of_mem _ hx) hxg
        · rw [List.mem_singleton.1 hxg] at hx
          exact (List.nodup_cons.1 hnodup).1 hx
      have hrest := ih hchildren (List.nodup_cons.1 hnodup).2 hgone'
        (by rw [List.length_cons] at hsteps; omega)
      simp only [dropPending, hnode, erase_eraseAll, hrest, List.append_assoc, List.singleton_append]

/-- Dropping a node with everything below it drops exactly its listing. -/
theorem dropSubtree_eq {id : NodeId} (hid : id ∈ f) :
    f.dropSubtree id = (f.subtree id, f.eraseAll (f.subtree id)) := by
  have hlist : [id].flatMap f.subtree = f.subtree id := List.flatMap_singleton ..
  have hlength : (f.subtree id).length ≤ f.size :=
    length_le_size (nodup_subtree hf hg id) fun x hx =>
      mem_of_reflTransGen hf hid ((mem_subtree_iff hf hg hid).1 hx)
  rw [← hlist] at hlength
  have h : (f.eraseAll []).dropPending f.size [id] =
      ([id].flatMap f.subtree, f.eraseAll ([] ++ [id].flatMap f.subtree)) :=
    dropPending_eq hf hg (by simpa using hid) (by rw [hlist]; exact nodup_subtree hf hg id)
      (by simp) hlength
  rw [hlist] at h
  exact h

/-- The listing of a root holds a child exactly if it holds the parent of the child. -/
lemma mem_subtree_iff_of_parent? {id : NodeId} (hid : id ∈ f) (hroot : f.link? id = none)
    {child parent : NodeId} (hparent : f.parent? child = some parent) :
    child ∈ f.subtree id ↔ parent ∈ f.subtree id := by
  rw [mem_subtree_iff hf hg hid, mem_subtree_iff hf hg hid]
  constructor
  · intro h
    rcases ReflTransGen.cases_tail h with rfl | ⟨z, hz, hzc⟩
    · rw [hf.parent?_eq_none_iff.2 hroot] at hparent
      cases hparent
    · obtain rfl : z = parent := Option.some.inj (hzc.symm.trans hparent)
      exact hz
  · intro h
    exact h.tail hparent

end Forest

end SyntaxForest
