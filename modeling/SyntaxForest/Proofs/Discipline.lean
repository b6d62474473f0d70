import SyntaxForest.Proofs.Traces

/-!
# The discipline of walks

A visitor is any machine: its interest and its verdicts may depend on a state that every call
changes, so the calls made to it cannot be told from the forest alone. They still follow rules. To
state them, a visitor is led through the forest together with a record of every call and its verdict
(`Visitor.recorded`, `Forest.dialogue`); the record changes neither the answer of the walk nor the
state of the visitor.

The rules are those of `Forest.Orderly`. They hold of the empty record, of records about disjoint
parts of the forest one behind the other (`Forest.Orderly.append`), and of a record put between the
visit and the leave of the node above (`Forest.Orderly.visit`, `Forest.Orderly.leave`). A walk is
made of nothing else (`Forest.documents_walk`).
-/

namespace SyntaxForest

namespace Visitor

variable {σ : Type}

/-- The visitor together with a record of the calls made to it and of its verdicts, the oldest
first. -/
def recorded (v : Visitor σ) : Visitor (σ × List (Call × Verdict)) where
  interest := fun (s, record) => ((v.interest s).1, (v.interest s).2, record)
  visit n := fun (s, record) =>
    ((v.visit n s).1, (v.visit n s).2, record ++ [(.visit n.id, (v.visit n s).1)])
  leave n := fun (s, record) =>
    ((v.leave n s).1, (v.leave n s).2, record ++ [(.leave n.id, (v.leave n s).1)])

@[simp] lemma interest_recorded (v : Visitor σ) (s : σ) (record : List (Call × Verdict)) :
    v.recorded.interest (s, record) = ((v.interest s).1, (v.interest s).2, record) := rfl

@[simp] lemma visit_recorded (v : Visitor σ) (n : Node) (s : σ) (record : List (Call × Verdict)) :
    v.recorded.visit n (s, record) =
      ((v.visit n s).1, (v.visit n s).2, record ++ [(.visit n.id, (v.visit n s).1)]) := rfl

@[simp] lemma leave_recorded (v : Visitor σ) (n : Node) (s : σ) (record : List (Call × Verdict)) :
    v.recorded.leave n (s, record) =
      ((v.leave n s).1, (v.leave n s).2, record ++ [(.leave n.id, (v.leave n s).1)]) := rfl

end Visitor

namespace Forest

open Relation

variable {f : Forest} {σ : Type}

/-- The calls a walk makes to a visitor that starts in a given state, with its verdicts. -/
def dialogue (f : Forest) (v : Visitor σ) (id : NodeId) (s : σ) : List (Call × Verdict) :=
  (f.walk v.recorded id (s, [])).2.2

/-- The rules of a record of calls that are made for the subtrees of some nodes. The truth value is
whether the walk goes on behind them. -/
structure Orderly (f : Forest) (tops : List NodeId) (goesOn : Bool)
    (record : List (Call × Verdict)) : Prop where
  /-- Only nodes of the subtrees are called for. -/
  within : ∀ entry ∈ record, entry.1.id ∈ tops.flatMap f.subtree
  /-- No call is made twice. -/
  once : (record.map Prod.fst).Nodup
  /-- The walk goes on if there is no abort. -/
  passed : goesOn = true → ∀ entry ∈ record, entry.2 ≠ .abort
  /-- The walk stops with the first abort. -/
  stopped : goesOn = false → ∃ earlier call, record = earlier ++ [(call, .abort)] ∧
    ∀ entry ∈ earlier, entry.2 ≠ .abort
  /-- A node is left behind its visit, with calls for nodes below it in between. -/
  nested : ∀ x verdict, (.leave x, verdict) ∈ record → ∃ before between after,
    record = before ++ (.visit x, .proceed) :: between ++ (.leave x, verdict) :: after ∧
      ∀ entry ∈ between, TransGen f.Above x entry.1.id
  /-- Nothing below a skipped node is called for. -/
  skipped : ∀ x, (.visit x, .skip) ∈ record → ∀ entry ∈ record, ¬ TransGen f.Above x entry.1.id

lemma orderly_nil (f : Forest) (tops : List NodeId) : f.Orderly tops true [] where
  within := by simp
  once := List.nodup_nil
  passed := by simp
  stopped := by simp
  nested := by simp
  skipped := by simp

section

variable {tops : List NodeId} {goesOn : Bool} {record : List (Call × Verdict)}
  (h : f.Orderly tops goesOn record)

include h

/-- The rules do not depend on how the subtrees are given. -/
lemma Orderly.mono {tops' : List NodeId}
    (hsub : tops.flatMap f.subtree ⊆ tops'.flatMap f.subtree) : f.Orderly tops' goesOn record :=
  { h with within := fun entry hentry => hsub (h.within entry hentry) }

/-- A walk is given up exactly if a call is answered by an abort. -/
lemma Orderly.goesOn_eq_false_iff : goesOn = false ↔ ∃ call, (call, .abort) ∈ record := by
  constructor
  · intro hstops
    obtain ⟨earlier, call, rfl, -⟩ := h.stopped hstops
    exact ⟨call, List.mem_append_right earlier List.mem_cons_self⟩
  · rintro ⟨call, hcall⟩
    by_contra hgoes
    exact h.passed (Bool.eq_true_of_not_eq_false hgoes) _ hcall rfl

/-- No call follows an abort. -/
lemma Orderly.eq_nil_of_abort {before after : List (Call × Verdict)} {call : Call}
    (hrecord : record = before ++ (call, .abort) :: after) : after = [] := by
  have hcall : (call, .abort) ∈ record := by simp [hrecord]
  obtain ⟨earlier, last, hlast, hearlier⟩ := h.stopped (h.goesOn_eq_false_iff.2 ⟨call, hcall⟩)
  rcases List.eq_nil_or_concat after with hnil | ⟨rest, entry, rfl⟩
  · exact hnil
  · -- Otherwise the abort would stand among the earlier calls.
    have hsplit : earlier ++ [(last, .abort)] = (before ++ (call, .abort) :: rest) ++ [entry] := by
      rw [← hlast, hrecord]
      simp
    have hearlier' := (List.append_inj' hsplit rfl).1
    exact absurd rfl (hearlier (call, .abort) (by simp [hearlier']))

end

section Grounded

variable (hf : f.Linked) (hg : f.Grounded)

include hf hg

/-! ### Records of parts -/

/-- A listing of subtrees has everything below its nodes. -/
lemma mem_flatMap_subtree_of_transGen {tops : List NodeId} {x y : NodeId}
    (hx : x ∈ tops.flatMap f.subtree) (hxy : TransGen f.Above x y) :
    y ∈ tops.flatMap f.subtree := by
  obtain ⟨top, htop, hxtop⟩ := List.mem_flatMap.1 hx
  have hmem : top ∈ f := by
    by_contra hnot
    rw [subtree_eq_nil (node?_eq_none_iff.2 hnot)] at hxtop
    exact List.not_mem_nil hxtop
  refine List.mem_flatMap.2 ⟨top, htop, ?_⟩
  rw [mem_subtree_iff hf hg hmem] at hxtop ⊢
  exact hxtop.trans hxy.to_reflTransGen

/-- Records about disjoint subtrees stand one behind the other. -/
lemma Orderly.append {first second : List NodeId} {goesOn : Bool}
    {record record' : List (Call × Verdict)} (h : f.Orderly first true record)
    (h' : f.Orderly second goesOn record')
    (hdisjoint : (first.flatMap f.subtree).Disjoint (second.flatMap f.subtree)) :
    f.Orderly (first ++ second) goesOn (record ++ record') where
  within entry hentry := by
    rw [List.flatMap_append, List.mem_append]
    exact (List.mem_append.1 hentry).imp (h.within entry) (h'.within entry)
  once := by
    rw [List.map_append, List.nodup_append']
    refine ⟨h.once, h'.once, fun call hcall hcall' => ?_⟩
    obtain ⟨entry, hentry, rfl⟩ := List.mem_map.1 hcall
    obtain ⟨entry', hentry', heq⟩ := List.mem_map.1 hcall'
    have hid' := h'.within entry' hentry'
    rw [heq] at hid'
    exact hdisjoint (h.within entry hentry) hid'
  passed hgoes entry hentry :=
    (List.mem_append.1 hentry).elim (h.passed rfl entry) (h'.passed hgoes entry)
  stopped hstops := by
    obtain ⟨earlier, call, rfl, hearlier⟩ := h'.stopped hstops
    refine ⟨record ++ earlier, call, (List.append_assoc ..).symm, fun entry hentry => ?_⟩
    exact (List.mem_append.1 hentry).elim (h.passed rfl entry) (hearlier entry)
  nested x verdict hleave := by
    rcases List.mem_append.1 hleave with hleave | hleave
    · obtain ⟨before, between, after, hrecord, hbetween⟩ := h.nested x verdict hleave
      exact ⟨before, between, after ++ record', by simp [hrecord], hbetween⟩
    · obtain ⟨before, between, after, hrecord, hbetween⟩ := h'.nested x verdict hleave
      exact ⟨record ++ before, between, after, by simp [hrecord], hbetween⟩
  skipped x hskip entry hentry hbelow := by
    -- What is below a node of one part belongs to this part.
    rcases List.mem_append.1 hskip with hskip | hskip
    · have hpart := mem_flatMap_subtree_of_transGen hf hg (h.within _ hskip) hbelow
      rcases List.mem_append.1 hentry with hentry | hentry
      · exact h.skipped x hskip entry hentry hbelow
      · exact hdisjoint hpart (h'.within entry hentry)
    · have hpart := mem_flatMap_subtree_of_transGen hf hg (h'.within _ hskip) hbelow
      rcases List.mem_append.1 hentry with hentry | hentry
      · exact hdisjoint (h.within entry hentry) hpart
      · exact h'.skipped x hskip entry hentry hbelow

/-- A visit may stand alone. -/
lemma orderly_singleton {id : NodeId} {n : Node} (hn : f.node? id = some n) (verdict : Verdict) :
    f.Orderly [id] (verdict != .abort) [(.visit id, verdict)] where
  within := by simp [Call.id, subtree_eq hf hg hn]
  once := List.nodup_singleton _
  passed hgoes := by simpa using hgoes
  stopped hstops := ⟨[], .visit id, by simpa using hstops, by simp⟩
  nested := by simp
  skipped := by simpa [Call.id] using fun _ => hg.not_transGen_self id

section

variable {id : NodeId} {n : Node} (hn : f.node? id = some n) {goesOn : Bool}
  {record : List (Call × Verdict)} (h : f.Orderly n.children goesOn record)

include hn h

/-- The entries of a record about the children of a node are for nodes below it. -/
lemma Orderly.below {entry : Call × Verdict} (hentry : entry ∈ record) :
    TransGen f.Above id entry.1.id := by
  obtain ⟨child, hchild, hin⟩ := List.mem_flatMap.1 (h.within entry hentry)
  rw [← children_of_node? hn] at hchild
  have habove := hf.mem_children_iff_parent?.1 hchild
  exact .head' habove ((mem_subtree_iff hf hg (hf.mem_of_above habove)).1 hin)

/-- A record about the children of a node has no call for the node. -/
lemma Orderly.ne_id {entry : Call × Verdict} (hentry : entry ∈ record) : entry.1.id ≠ id := by
  intro heq
  have hbelow := h.below hf hg hn hentry
  rw [heq] at hbelow
  exact hg.not_transGen_self id hbelow

/-- The visit of a node stands before the record about its children. -/
lemma Orderly.visit : f.Orderly [id] goesOn ((.visit id, .proceed) :: record) where
  within entry hentry := by
    rw [List.flatMap_singleton, subtree_eq hf hg hn]
    rcases List.mem_cons.1 hentry with rfl | hentry
    · exact List.mem_cons_self
    · exact List.mem_cons_of_mem id (h.within entry hentry)
  once := by
    refine List.nodup_cons.2 ⟨fun hmem => ?_, h.once⟩
    obtain ⟨entry, hentry, hcall⟩ := List.mem_map.1 hmem
    exact h.ne_id hf hg hn hentry (by rw [hcall]; rfl)
  passed hgoes entry hentry := by
    rcases List.mem_cons.1 hentry with rfl | hentry
    · exact Verdict.noConfusion
    · exact h.passed hgoes entry hentry
  stopped hstops := by
    obtain ⟨earlier, call, rfl, hearlier⟩ := h.stopped hstops
    refine ⟨(.visit id, .proceed) :: earlier, call, rfl, fun entry hentry => ?_⟩
    rcases List.mem_cons.1 hentry with rfl | hentry
    · exact Verdict.noConfusion
    · exact hearlier entry hentry
  nested x verdict hleave := by
    obtain ⟨before, between, after, hrecord, hbetween⟩ :=
      h.nested x verdict (by simpa using hleave)
    exact ⟨(.visit id, .proceed) :: before, between, after, by simp [hrecord], hbetween⟩
  skipped x hskip entry hentry hbelow := by
    have hskip : (.visit x, .skip) ∈ record := by simpa using hskip
    rcases List.mem_cons.1 hentry with rfl | hentry
    · -- The skipped node is below this one.
      exact hg.not_transGen_self id ((h.below hf hg hn hskip).trans hbelow)
    · exact h.skipped x hskip entry hentry hbelow

/-- The leave of a node stands behind the record about its children, unless that ends with an
abort. -/
lemma Orderly.leave (hgoes : goesOn = true) (verdict : Verdict) :
    f.Orderly [id] (verdict != .abort)
      ((.visit id, .proceed) :: record ++ [(.leave id, verdict)]) where
  within entry hentry := by
    rcases List.mem_append.1 hentry with hentry | hentry
    · exact (h.visit hf hg hn).within entry hentry
    · obtain rfl := List.mem_singleton.1 hentry
      rw [List.flatMap_singleton, subtree_eq hf hg hn]
      exact List.mem_cons_self
  once := by
    rw [List.map_append, List.map_singleton, List.nodup_append']
    refine ⟨(h.visit hf hg hn).once, List.nodup_singleton _, fun call hcall hleave => ?_⟩
    obtain rfl := List.mem_singleton.1 hleave
    obtain ⟨entry, hentry, hcall⟩ := List.mem_map.1 hcall
    rcases List.mem_cons.1 hentry with rfl | hentry
    · cases hcall
    · exact h.ne_id hf hg hn hentry (by rw [hcall]; rfl)
  passed hpasses entry hentry := by
    rcases List.mem_append.1 hentry with hentry | hentry
    · exact (h.visit hf hg hn).passed hgoes entry hentry
    · obtain rfl := List.mem_singleton.1 hentry
      exact bne_iff_ne.1 hpasses
  stopped hstops := by
    obtain rfl : verdict = .abort := by simpa using hstops
    exact ⟨_, .leave id, rfl, (h.visit hf hg hn).passed hgoes⟩
  nested x verdict' hleave := by
    rcases List.mem_append.1 hleave with hleave | hleave
    · obtain ⟨before, between, after, hrecord, hbetween⟩ :=
        (h.visit hf hg hn).nested x verdict' hleave
      exact ⟨before, between, after ++ [(.leave id, verdict)], by simp [hrecord], hbetween⟩
    · obtain ⟨rfl, rfl⟩ : x = id ∧ verdict' = verdict := by simpa using hleave
      exact ⟨[], record, [], rfl, fun entry hentry => h.below hf hg hn hentry⟩
  skipped x hskip entry hentry hbelow := by
    have hskip : (.visit x, .skip) ∈ record := by simpa using hskip
    rcases List.mem_append.1 hentry with hentry | hentry
    · exact (h.visit hf hg hn).skipped x (List.mem_cons_of_mem _ hskip) entry hentry hbelow
    · obtain rfl := List.mem_singleton.1 hentry
      exact hg.not_transGen_self id ((h.below hf hg hn hskip).trans hbelow)

end

/-! ### Records of walks -/

omit hf hg in
/-- A way to lead a visitor through the subtrees of some nodes, and the same with a record, which
grows by entries that follow the rules. -/
def Documents (f : Forest) (tops : List NodeId) (way : σ → Bool × σ)
    (recordedWay : σ × List (Call × Verdict) → Bool × σ × List (Call × Verdict)) : Prop :=
  ∀ s record, ∃ entries, recordedWay (s, record) = ((way s).1, (way s).2, record ++ entries) ∧
    f.Orderly tops (way s).1 entries

/-- If each step documents the calls for its subtree, the steps together document those for all of
them. -/
lemma documents_walkEach {step : NodeId → σ → Bool × σ}
    {recordedStep : NodeId → σ × List (Call × Verdict) → Bool × σ × List (Call × Verdict)}
    {ids : List NodeId} (hids : (ids.flatMap f.subtree).Nodup)
    (h : ∀ id ∈ ids, f.Documents [id] (step id) (recordedStep id)) :
    f.Documents ids (walkEach step ids) (walkEach recordedStep ids) := by
  induction ids with
  | nil => exact fun s record => ⟨[], by simp [walkEach], f.orderly_nil []⟩
  | cons id ids ih =>
    intro s record
    rw [List.flatMap_cons, List.nodup_append'] at hids
    obtain ⟨entries, hfirst, hentries⟩ := h id List.mem_cons_self s record
    rw [walkEach, walkEach, hfirst]
    rcases hstep : step id s with ⟨goesOn, s'⟩
    rw [hstep] at hentries
    cases goesOn with
    | false => exact ⟨entries, rfl, hentries.mono (by simp)⟩
    | true =>
      obtain ⟨entries', hrest, hentries'⟩ :=
        ih hids.2.1 (fun x hx => h x (List.mem_cons_of_mem id hx)) s' (record ++ entries)
      refine ⟨entries ++ entries', ?_, hentries.append hf hg hentries' ?_⟩
      · rw [← List.append_assoc]
        exact hrest
      · simpa using hids.2.2

/-- If the way through the children of a node is documented, so is the way through the node. -/
lemma documents_walkNode (v : Visitor σ) {id : NodeId} {n : Node} (hn : f.node? id = some n)
    {walkChild : NodeId → σ → Bool × σ}
    {recordedChild : NodeId → σ × List (Call × Verdict) → Bool × σ × List (Call × Verdict)}
    (h : f.Documents n.children (walkEach walkChild n.children)
      (walkEach recordedChild n.children)) :
    f.Documents [id] (walkNode v n walkChild) (walkNode v.recorded n recordedChild) := by
  intro s record
  have hid := hf.named id n hn
  simp only [walkNode_apply, Visitor.interest_recorded, Visitor.visit_recorded, hid]
  rcases v.interest s with ⟨interest, s₁⟩
  dsimp only
  split
  · rcases v.visit n s₁ with ⟨verdict, s₂⟩
    have hlone := orderly_singleton hf hg hn verdict
    cases verdict with
    | abort => exact ⟨_, rfl, hlone⟩
    | skip => exact ⟨_, rfl, hlone⟩
    | proceed =>
      obtain ⟨entries, hway, hentries⟩ := h s₂ (record ++ [(.visit id, .proceed)])
      simp only [hway]
      rcases hbelow : walkEach walkChild n.children s₂ with ⟨goesOn, s₃⟩
      rw [hbelow] at hentries
      cases goesOn with
      | false => exact ⟨_, by simp, hentries.visit hf hg hn⟩
      | true => exact ⟨_, by simp [hid], hentries.leave hf hg hn rfl (v.leave n s₃).1⟩
  · obtain ⟨entries, hway, hentries⟩ := h s₁ record
    exact ⟨entries, hway, hentries.mono (by simp [subtree_eq hf hg hn])⟩

/-- A walk makes orderly calls, and a record of them changes nothing else. -/
theorem documents_walk (v : Visitor σ) (id : NodeId) :
    f.Documents [id] (f.walk v id) (f.walk v.recorded id) := by
  induction id using child_induction hf hg with
  | step id ih =>
    cases hn : f.node? id with
    | none =>
      intro s record
      refine ⟨[], ?_, ?_⟩
      · rw [walk_of_node?_eq_none hn, walk_of_node?_eq_none hn, List.append_nil]
      · rw [walk_of_node?_eq_none hn]
        exact f.orderly_nil [id]
    | some n =>
      rw [children_of_node? hn] at ih
      have hnodup := nodup_subtree hf hg id
      rw [subtree_eq hf hg hn] at hnodup
      rw [walk_eq hf hg v hn, walk_eq hf hg v.recorded hn]
      exact documents_walkNode hf hg v hn (documents_walkEach hf hg hnodup.of_cons ih)

end Grounded

end Forest

/-- A visitor that counts its calls. It loses its interest in all but statements after two calls,
skips the node of its third call and aborts with its fifth. -/
def Visitor.fickle : Visitor ℕ where
  interest calls := (if calls < 2 then .all else .only [.statements], calls)
  visit _ calls := (if calls = 2 then .skip else .proceed, calls + 1)
  leave _ calls := (if calls = 4 then .abort else .proceed, calls + 1)

namespace Editor

open Forest

/-- In every reachable forest a walk comes to its end, whatever the visitor does: more levels change
nothing. The record kept beside the visitor changes neither the answer nor its state, and shows that
the walk is given up exactly if a call is answered by an abort, which is then the last call. No call
is made twice, and only nodes of the subtree are called for. A node is left only behind its visit,
if that was answered by a proceed, and all calls in between are for nodes below it. Nothing below a
skipped node is called for. -/
theorem Reachable.walk_is_orderly {e : Editor} (he : e.Reachable) {σ : Type} (v : Visitor σ)
    (r : NodeId) (s : σ) :
    (∀ levels, e.forest.size ≤ levels →
      e.forest.walkWithin v levels r s = e.forest.walk v r s) ∧
    e.forest.walk v.recorded r (s, []) =
      ((e.forest.walk v r s).1, (e.forest.walk v r s).2, e.forest.dialogue v r s) ∧
    ((e.forest.walk v r s).1 = false ↔ ∃ call, (call, .abort) ∈ e.forest.dialogue v r s) ∧
    (∀ before call after, e.forest.dialogue v r s = before ++ (call, .abort) :: after →
      after = []) ∧
    ((e.forest.dialogue v r s).map Prod.fst).Nodup ∧
    (∀ entry ∈ e.forest.dialogue v r s, entry.1.id ∈ e.forest.subtree r) ∧
    (∀ x verdict, (.leave x, verdict) ∈ e.forest.dialogue v r s → ∃ before between after,
      e.forest.dialogue v r s =
        before ++ (.visit x, .proceed) :: between ++ (.leave x, verdict) :: after ∧
      ∀ entry ∈ between, x ∈ e.forest.ancestors entry.1.id) ∧
    (∀ x, (.visit x, .skip) ∈ e.forest.dialogue v r s →
      ∀ entry ∈ e.forest.dialogue v r s, x ∉ e.forest.ancestors entry.1.id) := by
  have hf := he.sound.linked
  have hg := he.sound.grounded
  obtain ⟨entries, hwalk, horderly⟩ := documents_walk hf hg v r s []
  have hentries : e.forest.dialogue v r s = entries := by rw [dialogue, hwalk, List.nil_append]
  have hend : ∀ levels, e.forest.size ≤ levels →
      e.forest.walkWithin v levels r = e.forest.walk v r := fun levels hlevels =>
    (e.forest.descends_walkWithin v).eq_of_size_le hf hg (by omega) (by omega)
  simp only [hentries, mem_ancestors_iff hf hg]
  refine ⟨fun levels hlevels => congrFun (hend levels hlevels) s, hwalk,
    horderly.goesOn_eq_false_iff, fun before call after => horderly.eq_nil_of_abort,
    horderly.once, ?_, horderly.nested, horderly.skipped⟩
  simpa using horderly.within

/-- The walk of a fickle visitor is given up when the second statement is left. The block and the
ambiguity around it are not left, the ambiguity in between is not called for, and neither is what
comes behind. -/
theorem walk_is_orderly_of_fickle_visitor :
    ((start .strict).run Edit.nestedAmbiguities).Reachable ∧
    ((start .strict).run Edit.nestedAmbiguities).forest.dialogue Visitor.fickle ⟨6⟩ 0 =
      [(.visit ⟨6⟩, .proceed), (.visit ⟨5⟩, .proceed), (.visit ⟨1⟩, .skip), (.visit ⟨2⟩, .proceed),
        (.leave ⟨2⟩, .abort)] ∧
    (((start .strict).run Edit.nestedAmbiguities).forest.walk Visitor.fickle ⟨6⟩ 0).1 = false := by
  have he := reachable_run .strict (by decide : Edit.nestedAmbiguities.length < 2 ^ 32)
  obtain ⟨-, -, hstops, -⟩ := he.walk_is_orderly Visitor.fickle ⟨6⟩ 0
  have hdialogue : ((start .strict).run Edit.nestedAmbiguities).forest.dialogue
      Visitor.fickle ⟨6⟩ 0 = [(.visit ⟨6⟩, .proceed), (.visit ⟨5⟩, .proceed), (.visit ⟨1⟩, .skip),
        (.visit ⟨2⟩, .proceed), (.leave ⟨2⟩, .abort)] := by
    decide
  refine ⟨he, hdialogue, hstops.2 ⟨.leave ⟨2⟩, ?_⟩⟩
  rw [hdialogue]
  decide

end Editor

end SyntaxForest
