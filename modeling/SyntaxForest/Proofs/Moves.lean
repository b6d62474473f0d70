import SyntaxForest.Proofs.Reachable

/-!
# Moves

The editor makes an edit step by step, and writes into its log as it goes. Here the steps are said
once. Every edit, refused or not, is made of elementary moves that neither bring in nodes nor drop
any (`Editor.Move`), and of at most one last step that does (`Editor.Ending`). What is seen of the
moves and of the last steps is seen of the edits (`Editor.made_perform`), and this asks nothing of
the forest.
-/

namespace SyntaxForest

open Relation

namespace Forest

variable {f : Forest}

/-! ### Counting nodes -/

/-- Forests with the same identifiers have the same size. -/
lemma size_congr {g : Forest} (h : ∀ x, x ∈ f ↔ x ∈ g) : f.size = g.size := by
  have hf : f.ids.length = f.size := Std.ExtTreeMap.length_keys
  have hg : g.ids.length = g.size := Std.ExtTreeMap.length_keys
  apply Nat.le_antisymm
  · rw [← hf]
    exact length_le_size f.nodup_ids fun x hx => (h x).1 (mem_ids.1 hx)
  · rw [← hg]
    exact length_le_size g.nodup_ids fun x hx => (h x).2 (mem_ids.1 hx)

/-- Changing a node neither makes nor drops nodes. -/
@[simp] lemma mem_modifyNode {id x : NodeId} {change : Node → Node} :
    x ∈ f.modifyNode id change ↔ x ∈ f := by
  rw [mem_iff_isSome_node?, mem_iff_isSome_node?, node?_modifyNode]
  split
  · rw [Option.isSome_map]
  · rfl

lemma size_erase_of_mem {id : NodeId} (h : id ∈ f) : (f.erase id).size + 1 = f.size := by
  have hcontains : f.nodes.contains id := h
  have hsize : (f.erase id).size = f.size - 1 := by
    refine Std.ExtTreeMap.size_erase.trans ?_
    rw [if_pos hcontains]
    rfl
  have hpos : 0 < f.size :=
    length_le_size (List.nodup_singleton id) fun x hx => by rwa [List.mem_singleton.1 hx]
  omega

lemma size_erase_of_notMem {id : NodeId} (h : id ∉ f) : (f.erase id).size = f.size := by
  refine size_congr fun x => ?_
  rw [mem_iff_isSome_node?, node?_erase]
  split
  · next hx =>
    subst hx
    exact iff_of_false (by simp) h
  · exact mem_iff_isSome_node?.symm

/-- What has a route without a node had it before. -/
lemma route?_of_route?_erase {id x : NodeId} {route : Route}
    (h : (f.erase id).route? x = some route) : f.route? x = some route := by
  rw [route?_erase] at h
  split at h
  · cases h
  · exact h

lemma mem_of_mem_erase {id x : NodeId} (h : x ∈ f.erase id) : x ∈ f := by
  rw [mem_iff_isSome_node?, node?_erase] at h
  split at h
  · cases h
  · exact mem_iff_isSome_node?.2 h

/-- As many nodes are dropped as are missing afterwards; the others keep their routes. -/
lemma dropPending_spec (steps : ℕ) (pending : List NodeId) (f : Forest) :
    (f.dropPending steps pending).1.length + (f.dropPending steps pending).2.size = f.size ∧
    (∀ x route, (f.dropPending steps pending).2.route? x = some route → f.route? x = some route) ∧
    (∀ x, x ∈ (f.dropPending steps pending).2 → x ∈ f) ∧
    (f.dropPending steps pending).2.lastId = f.lastId := by
  induction steps generalizing pending f with
  | zero => exact ⟨Nat.zero_add _, fun _ _ h => h, fun _ h => h, rfl⟩
  | succ steps ih =>
    cases pending with
    | nil => exact ⟨Nat.zero_add _, fun _ _ h => h, fun _ h => h, rfl⟩
    | cons id pending =>
      cases hn : f.node? id with
      | none =>
        obtain ⟨hsize, hroutes, hmems, hlast⟩ := ih pending (f.erase id)
        rw [size_erase_of_notMem (node?_eq_none_iff.1 hn)] at hsize
        rw [dropPending, hn]
        exact ⟨hsize, fun x route h => route?_of_route?_erase (hroutes x route h),
          fun x h => mem_of_mem_erase (hmems x h), hlast⟩
      | some n =>
        obtain ⟨hsize, hroutes, hmems, hlast⟩ := ih (n.children ++ pending) (f.erase id)
        have herase := size_erase_of_mem (mem_of_node? hn)
        have hdrop : f.dropPending (steps + 1) (id :: pending) =
            (id :: ((f.erase id).dropPending steps (n.children ++ pending)).1,
              ((f.erase id).dropPending steps (n.children ++ pending)).2) := by
          rw [dropPending, hn]
        rw [hdrop]
        refine ⟨?_, fun x route h => route?_of_route?_erase (hroutes x route h),
          fun x h => mem_of_mem_erase (hmems x h), hlast⟩
        rw [← herase, ← hsize, List.length_cons]
        exact Nat.add_right_comm ..

end Forest

namespace Editor

open Forest

/-! ### The moves of an edit -/

/-- An elementary move of an edit. It neither brings in a node nor drops one. -/
inductive Move : Editor → Editor → Prop
  /-- A node is changed. -/
  | write (e : Editor) (id : NodeId) (change : Node → Node) :
      Move e (e.revise fun f => f.modifyNode id change)
  /-- A child is linked to a slot. -/
  | attach {e : Editor} {child : NodeId} (hchild : child ∈ e.forest) (parent : NodeId)
      (p : Property) : Move e (e.attach child parent p)
  /-- A node leaves its slot. -/
  | unlink (e : Editor) (child : NodeId) : Move e (e.unlink child)
  /-- A node is cut off from its slot. -/
  | displace (e : Editor) (parent : NodeId) (p : Property) (child : NodeId) :
      Move e (e.displace parent p child)
  /-- A node is cut off from its slot, another one is linked to it, and then both is told. -/
  | replace {e : Editor} {old new : NodeId} (hne : old ≠ new) (hnew : new ∈ e.forest)
      (parent : NodeId) (p : Property) (change : Node → Node) :
      Move e (((e.revise fun f => (f.modifyNode parent change).clearLink old).attach new parent
        p).note (.replaced parent old new p))
  /-- It is told that there was nothing to replace. -/
  | overlook (e : Editor) (parent old : NodeId) : Move e (e.note (.overlooked parent old))

/-- The last step of an edit. -/
inductive Ending (e : Editor) : Editor → Prop
  /-- There is none. -/
  | stop : Ending e e
  /-- A new node comes in. -/
  | store {id : NodeId} (hid : id = e.forest.lastId.next) (n : Node) :
      Ending e ((e.revise fun f => f.store id n).note (.added id n.kind))
  /-- A node is dropped with all that stands below it. -/
  | drop (id : NodeId) : Ending e (e.revise fun _ => (e.forest.dropSubtree id).2)
  /-- An ambiguity is dropped with all that stands below it, and this is told. -/
  | resolve (id winner : NodeId) :
      Ending e ((e.revise fun _ => (e.forest.dropSubtree id).2).note
        (.resolved id winner (e.forest.dropSubtree id).1.length))

variable {e e' : Editor}

/-- Taking a node out of its slot neither makes nor drops nodes, and takes no identifier. -/
lemma unlink_spec (e : Editor) (child : NodeId) :
    (∀ x, x ∈ (e.unlink child).forest ↔ x ∈ e.forest) ∧
      (e.unlink child).forest.lastId = e.forest.lastId := by
  unfold unlink
  split
  · exact ⟨fun _ => Iff.rfl, rfl⟩
  · exact ⟨fun _ => mem_modifyNode, rfl⟩

/-- A move neither makes nor drops nodes, and takes no identifier. -/
lemma Move.same_nodes (hmove : Move e e') :
    (∀ x, x ∈ e'.forest ↔ x ∈ e.forest) ∧ e'.forest.lastId = e.forest.lastId := by
  cases hmove with
  | write _ _ => exact ⟨fun _ => mem_modifyNode, rfl⟩
  | attach _ _ _ => exact ⟨fun _ => Iff.rfl, rfl⟩
  | unlink child => exact unlink_spec e child
  | displace _ _ _ => exact ⟨fun _ => Iff.rfl, rfl⟩
  | replace _ _ _ _ _ => exact ⟨fun _ => mem_modifyNode, rfl⟩
  | overlook _ _ => exact ⟨fun _ => Iff.rfl, rfl⟩

/-- Several moves neither make nor drop nodes, and take no identifier. -/
lemma same_nodes_of_moves (hmoves : ReflTransGen Move e e') :
    (∀ x, x ∈ e'.forest ↔ x ∈ e.forest) ∧ e'.forest.lastId = e.forest.lastId := by
  induction hmoves with
  | refl => exact ⟨fun _ => Iff.rfl, rfl⟩
  | tail _ hmove ih =>
    have hstep := hmove.same_nodes
    exact ⟨fun x => (hstep.1 x).trans (ih.1 x), hstep.2.trans ih.2⟩

/-! ### Edits are made of moves -/

/-- Some moves and a last step lead from one editor to the other. -/
def Made (e e' : Editor) : Prop := ∃ m, ReflTransGen Move e m ∧ Ending m e'

lemma Made.of_moves (hmoves : ReflTransGen Move e e') : Made e e' := ⟨e', hmoves, .stop⟩

/-- Taking nodes out of their slots is made of moves. -/
lemma moves_foldl_unlink (l : List NodeId) (e : Editor) :
    ReflTransGen Move e (l.foldl unlink e) := by
  induction l generalizing e with
  | nil => exact .refl
  | cons child l ih => exact .head (.unlink e child) (ih (e.unlink child))

/-- Linking children to their slots is made of moves. -/
lemma moves_foldl_attach (id : NodeId) {entries : List (Property × NodeId)}
    (h : ∀ entry ∈ entries, entry.2 ∈ e.forest) :
    ReflTransGen Move e (entries.foldl (fun e entry => e.attach entry.2 id entry.1) e) := by
  induction entries generalizing e with
  | nil => exact .refl
  | cons entry entries ih =>
    refine .head (.attach (h entry List.mem_cons_self) id entry.1) (ih fun other hother => ?_)
    exact h other (List.mem_cons_of_mem entry hother)

/-- A child that passes the check for a slot exists. -/
lemma mem_of_checkAttach {f : Forest} {parent child : NodeId} {p : Property} {c : Category}
    (h : f.checkAttach parent p c child = .ok ()) : child ∈ f := by
  rw [checkAttach, check_bind_eq_ok_iff, checkCategory_eq_ok_iff] at h
  exact h.1.mem

/-- A child that passes the check for the place of another one exists. -/
lemma mem_of_checkSubstitute {f : Forest} {parent old new : NodeId} {n : Node} {p : Property}
    (h : f.checkSubstitute parent n p old new = .ok ()) : new ∈ f := by
  rw [checkSubstitute, bind_eq_ok_iff] at h
  obtain ⟨c, -, h⟩ := h
  rw [check_bind_eq_ok_iff, checkCategory_eq_ok_iff] at h
  exact h.1.mem

/-- An insertion frees the children of the new node, links them to it, and stores it. -/
lemma made_insert (e : Editor) (n : Node) : Made e (e.insert n).2 := by
  unfold insert
  split
  · exact .of_moves .refl
  · next hcheck =>
    have hfreed := moves_foldl_unlink n.children e
    obtain ⟨-, -, hentries, -⟩ := checkInsert_eq_ok_iff.1 hcheck
    have hmem : ∀ entry ∈ n.entries, entry.2 ∈ (n.children.foldl unlink e).forest := by
      intro entry hentry
      rw [(same_nodes_of_moves hfreed).1]
      exact (hentries entry.1 entry.2 (Node.mem_entries.1 hentry)).1.mem
    have hlinked := hfreed.trans (moves_foldl_attach e.forest.lastId.next hmem)
    exact ⟨_, hlinked, .store (by rw [(same_nodes_of_moves hlinked).2]) n⟩

/-- Writing a single slot is made of moves: a child may leave its slot, a child may lose the slot,
and a child may be linked to it. -/
lemma moves_fill (e : Editor) (parent : NodeId) (p : Property) (child : Option NodeId) :
    ReflTransGen Move e (e.fill parent p child).2 := by
  unfold fill
  split
  · exact .refl
  · dsimp only
    split
    · exact .refl
    · split
      · exact .refl
      · next hcheck =>
        have hfreed : ReflTransGen Move e (child.elim e e.unlink) := by
          cases child with
          | none => exact .refl
          | some c => exact .single (.unlink e c)
        have hwritten := hfreed.tail (.write _ parent fun n => n.setSlot p (.single child))
        have hdisplaced : ∀ (previous : Option NodeId) {m : Editor}, ReflTransGen Move e m →
            ReflTransGen Move e (previous.elim m (m.displace parent p)) := by
          intro previous m hm
          cases previous with
          | none => exact hm
          | some x => exact hm.tail (.displace m parent p x)
        have hcut := hdisplaced (e.forest.childIn? parent p) hwritten
        cases child with
        | none => exact hcut
        | some c =>
          have hc := ((same_nodes_of_moves hcut).1 c).2 (mem_of_checkAttach hcheck)
          exact hcut.tail (.attach hc parent p)

/-- Appending to a list slot is made of moves. -/
lemma moves_append (e : Editor) (parent : NodeId) (p : Property) (child : Option NodeId) :
    ReflTransGen Move e (e.append parent p child).2 := by
  unfold append
  split
  · exact .refl
  · split
    · exact .refl
    · split
      · exact .refl
      · next c _ hcheck =>
        have hwritten := (ReflTransGen.single (Move.unlink e c)).tail
          (.write _ parent fun n => n.appendChild p c)
        have hc := ((same_nodes_of_moves hwritten).1 c).2 (mem_of_checkAttach hcheck)
        exact hwritten.tail (.attach hc parent p)

/-- Detaching is made of moves. -/
lemma moves_detach (e : Editor) (id : NodeId) : ReflTransGen Move e (e.detach id).2 := by
  unfold detach
  split
  · exact .refl
  · exact .refl
  · exact .single (.unlink e id)

/-- A substitution is made of moves: the new node leaves its slot, and then it replaces the old
one. -/
lemma moves_substitute (e : Editor) (parent old new : NodeId) :
    ReflTransGen Move e (e.substitute parent old new).2 := by
  unfold substitute
  split
  · exact .refl
  · split
    · split
      · exact .refl
      · exact .single (.overlook e parent old)
    · next p _ _ =>
      split
      · exact .refl
      · next hne =>
        split
        · exact .refl
        · next hcheck =>
          have hnew : new ∈ (e.unlink new).forest :=
            ((unlink_spec e new).1 new).2 (mem_of_checkSubstitute hcheck)
          exact (ReflTransGen.single (.unlink e new)).tail (.replace hne hnew parent p _)

/-- A node is pruned by taking it out of its slot and dropping it, or not at all. -/
lemma prune_cases (e : Editor) (id : NodeId) :
    (∃ reason, e.prune id = (.error reason, (e.detach id).2)) ∨
      e.prune id = (.ok ((e.detach id).2.forest.dropSubtree id).1.length,
        (e.detach id).2.revise fun _ => ((e.detach id).2.forest.dropSubtree id).2) := by
  unfold prune
  split
  · next reason _ hdetach => exact .inl ⟨reason, by rw [hdetach]⟩
  · next hdetach =>
    right
    rw [hdetach]

/-- Pruning ends with dropping the node. -/
lemma made_prune (e : Editor) (id : NodeId) : Made e (e.prune id).2 := by
  have hdetached := moves_detach e id
  rcases prune_cases e id with ⟨reason, hprune⟩ | hprune
  · rw [hprune]
    exact .of_moves hdetached
  · rw [hprune]
    exact ⟨_, hdetached, .drop id⟩

/-- After some moves, an ambiguity is pruned and this is told, or it is not pruned. -/
lemma made_of_prune (winner : NodeId) {id : NodeId} {lifted pruned : Editor}
    {answer : Except Error ℕ} (hlifted : ReflTransGen Move e lifted)
    (hprune : lifted.prune id = (answer, pruned)) :
    Made e (match answer with
      | .error _ => pruned
      | .ok reclaimed => pruned.note (.resolved id winner reclaimed)) := by
  have hdetached := hlifted.trans (moves_detach lifted id)
  rcases prune_cases lifted id with ⟨reason, hrefused⟩ | hpruned
  · obtain ⟨rfl, rfl⟩ := Prod.mk.inj (hprune.symm.trans hrefused)
    exact .of_moves hdetached
  · obtain ⟨rfl, rfl⟩ := Prod.mk.inj (hprune.symm.trans hpruned)
    exact ⟨_, hdetached, .resolve id winner⟩

/-- A resolution lifts the alternative by a substitution, or takes it out of its slot, and then
prunes the ambiguity. -/
lemma made_resolve (e : Editor) (id : NodeId) (index : ℕ) : Made e (e.resolve id index).2 := by
  unfold resolve
  split
  · exact .of_moves .refl
  · next winner _ =>
    cases hparent : e.forest.parent? id with
    | none =>
      dsimp only
      split
      · next hprune => exact made_of_prune winner (.single (.unlink e winner)) hprune
      · next hprune => exact made_of_prune winner (.single (.unlink e winner)) hprune
    | some parent =>
      dsimp only
      have hlifted := moves_substitute e parent id winner
      split
      · next heq =>
        rw [heq] at hlifted
        exact .of_moves hlifted
      · next heq =>
        rw [heq] at hlifted
        split
        · next hprune => exact made_of_prune winner hlifted hprune
        · next hprune => exact made_of_prune winner hlifted hprune

/-- Every edit is made of moves and a last step. -/
theorem made_perform (e : Editor) (edit : Edit) : Made e (e.perform edit).2 := by
  cases edit with
  | insert n => exact made_insert e n
  | fill parent p child => exact .of_moves (moves_fill e parent p child)
  | append parent p child => exact .of_moves (moves_append e parent p child)
  | detach id => exact .of_moves (moves_detach e id)
  | substitute parent old new => exact .of_moves (moves_substitute e parent old new)
  | resolve id index => exact made_resolve e id index
  | prune id => exact made_prune e id

end Editor

end SyntaxForest
