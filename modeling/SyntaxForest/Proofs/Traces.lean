import SyntaxForest.Proofs.Traversal
import SyntaxForest.Visitor.Script

/-!
# Traces

The calls made to a visitor whose verdicts depend on the node alone can be told from the forest
without walking. Write down the whole subtree as brackets, a visit that opens and a leave that
closes for each node around what stands below it (`Forest.brackets`). Keep the calls the visitor is
interested in, strike out what lies behind a visit that is answered by a skip up to its closing
leave (`Script.elide`), and stop after the first call that is answered by an abort (`Script.cut`).
What is left is what the walk does (`Forest.walk_scripted`).

The walk is recursive, the other account is about flat lists. They meet in lists whose skips end
within them (`Script.Balanced`): such lists can be struck out one after the other.
-/

namespace SyntaxForest

namespace Call

/-- The node of a call. -/
def id : Call → NodeId
  | visit id => id
  | leave id => id

end Call

namespace Script

/-- The script of a visitor whose interest never changes. -/
def steady (onVisit onLeave : NodeId → Verdict) : Script := ⟨onVisit, onLeave, fun _ => none⟩

/-- The verdict on a call. -/
def verdict (script : Script) : Call → Verdict
  | .visit id => script.onVisit id
  | .leave id => script.onLeave id

/-- The calls without what a skip leaves out: all that follows the skipped visit of a node, up to
and including the leave of this node. The first argument is the node that is being skipped. -/
def elide (script : Script) : Option NodeId → List Call → List Call
  | _, [] => []
  | some id, call :: calls =>
    if call = .leave id then script.elide none calls else script.elide (some id) calls
  | none, .leave id :: calls => .leave id :: script.elide none calls
  | none, .visit id :: calls =>
    .visit id :: script.elide (if script.onVisit id = .skip then some id else none) calls

/-- The calls up to and including the first one that is answered by an abort. -/
def cut (script : Script) : List Call → List Call
  | [] => []
  | call :: calls => if script.verdict call = .abort then [call] else call :: script.cut calls

/-- No call is answered by an abort. -/
def passes (script : Script) (calls : List Call) : Bool :=
  calls.all fun call => script.verdict call != .abort

variable {script : Script}

/-! ### Aborts -/

lemma passes_cons (call : Call) (calls : List Call) :
    script.passes (call :: calls) = (script.verdict call != .abort && script.passes calls) :=
  List.all_cons

lemma passes_append (first second : List Call) :
    script.passes (first ++ second) = (script.passes first && script.passes second) :=
  List.all_append

lemma passes_eq_false_iff {calls : List Call} :
    script.passes calls = false ↔ ∃ call ∈ calls, script.verdict call = .abort := by
  simp [passes]

lemma cut_cons_of_ne {call : Call} (h : script.verdict call ≠ .abort) (calls : List Call) :
    script.cut (call :: calls) = call :: script.cut calls := by
  rw [cut, if_neg h]

@[simp] lemma cut_singleton (call : Call) : script.cut [call] = [call] := by
  rw [cut]
  split <;> rfl

/-- Nothing is cut off without an abort. -/
lemma cut_of_passes {calls : List Call} (h : script.passes calls) : script.cut calls = calls := by
  induction calls with
  | nil => rfl
  | cons call calls ih =>
    rw [passes_cons, Bool.and_eq_true] at h
    rw [cut_cons_of_ne (bne_iff_ne.1 h.1), ih h.2]

/-- Behind an abort everything is cut off. -/
lemma cut_append (first second : List Call) :
    script.cut (first ++ second) =
      if script.passes first then first ++ script.cut second else script.cut first := by
  induction first with
  | nil => rfl
  | cons call calls ih =>
    rw [List.cons_append, cut, cut, ih, passes_cons]
    by_cases hcall : script.verdict call = .abort
    · simp [hcall]
    · rw [if_neg hcall, if_neg hcall, bne_iff_ne.2 hcall, Bool.true_and]
      split <;> rfl

/-- The abort itself is not cut off. -/
lemma passes_cut (calls : List Call) : script.passes (script.cut calls) = script.passes calls := by
  induction calls with
  | nil => rfl
  | cons call calls ih =>
    rw [cut]
    split
    · next hcall => simp [passes, hcall]
    · rw [passes_cons, passes_cons, ih]

/-! ### Skips -/

/-- What is skipped ends with the leave of the skipped node. -/
lemma elide_some_append {id : NodeId} {body : List Call} (h : .leave id ∉ body)
    (rest : List Call) :
    script.elide (some id) (body ++ .leave id :: rest) = script.elide none rest := by
  induction body with
  | nil => rw [List.nil_append, elide, if_pos rfl]
  | cons call body ih =>
    rw [List.mem_cons, not_or] at h
    rw [List.cons_append, elide, if_neg (Ne.symm h.1), ih h.2]

/-- Without skips nothing is left out. -/
lemma elide_eq_self {calls : List Call} (h : ∀ id, .visit id ∈ calls → script.onVisit id ≠ .skip) :
    script.elide none calls = calls := by
  induction calls with
  | nil => rfl
  | cons call calls ih =>
    have hrest := ih fun id hid => h id (List.mem_cons_of_mem call hid)
    cases call with
    | leave id => rw [elide, hrest]
    | visit id => rw [elide, if_neg (h id List.mem_cons_self), hrest]

/-- What is skipped in a list of calls ends within it. -/
def Balanced (script : Script) (calls : List Call) : Prop :=
  ∀ rest, script.elide none (calls ++ rest) = script.elide none calls ++ script.elide none rest

lemma balanced_flatMap {listing : NodeId → List Call} {ids : List NodeId}
    (h : ∀ id ∈ ids, script.Balanced (listing id)) : script.Balanced (ids.flatMap listing) := by
  intro rest
  induction ids with
  | nil => rfl
  | cons id ids ih =>
    have hid := h id List.mem_cons_self
    have hids := ih fun x hx => h x (List.mem_cons_of_mem id hx)
    rw [List.flatMap_cons, List.append_assoc, hid, hids, hid, List.append_assoc]

lemma elide_flatMap {listing : NodeId → List Call} {ids : List NodeId}
    (h : ∀ id ∈ ids, script.Balanced (listing id)) :
    script.elide none (ids.flatMap listing) =
      ids.flatMap fun id => script.elide none (listing id) := by
  induction ids with
  | nil => rfl
  | cons id ids ih =>
    rw [List.flatMap_cons, List.flatMap_cons, h id List.mem_cons_self,
      ih fun x hx => h x (List.mem_cons_of_mem id hx)]

/-- The calls for a node stand around those for what is below it, which go together with the leave
if the node is skipped. -/
lemma elide_bracket_append {id : NodeId} {body : List Call} (hbody : script.Balanced body)
    (hleave : .leave id ∉ body) (rest : List Call) :
    script.elide none (.visit id :: body ++ [.leave id] ++ rest) =
      .visit id :: (if script.onVisit id = .skip then []
        else script.elide none body ++ [.leave id]) ++ script.elide none rest := by
  rw [List.append_assoc, List.singleton_append, List.cons_append, elide]
  split
  · rw [elide_some_append hleave]
    rfl
  · rw [hbody, elide, List.cons_append, List.append_assoc, List.singleton_append]

lemma elide_bracket {id : NodeId} {body : List Call} (hbody : script.Balanced body)
    (hleave : .leave id ∉ body) :
    script.elide none (.visit id :: body ++ [.leave id]) =
      .visit id :: (if script.onVisit id = .skip then []
        else script.elide none body ++ [.leave id]) := by
  have happend := elide_bracket_append hbody hleave []
  rwa [List.append_nil, elide, List.append_nil] at happend

lemma balanced_bracket {id : NodeId} {body : List Call} (hbody : script.Balanced body)
    (hleave : .leave id ∉ body) : script.Balanced (.visit id :: body ++ [.leave id]) := by
  intro rest
  rw [elide_bracket_append hbody hleave, elide_bracket hbody hleave]

end Script

namespace Forest

variable {f : Forest}

/-! ### Brackets -/

/-- The brackets of a subtree, down to a number of levels. -/
def bracketsWithin (f : Forest) : ℕ → NodeId → List Call
  | 0, _ => []
  | levels + 1, id =>
    match f.node? id with
    | none => []
    | some n => .visit id :: n.children.flatMap (f.bracketsWithin levels) ++ [.leave id]

/-- The brackets of a subtree: the visit of its node, the brackets of its children in traversal
order, and the leave of its node. -/
def brackets (f : Forest) (id : NodeId) : List Call := f.bracketsWithin f.size id

/-- The node of a call belongs to a category of an interest. -/
def concerns (f : Forest) (interest : Interest) (call : Call) : Bool :=
  (f.node? call.id).any fun n => interest.contains n.category

/-- The calls of a subtree that are due: the brackets an interest asks for, without what is
skipped. -/
def due (f : Forest) (script : Script) (interest : Interest) (id : NodeId) : List Call :=
  script.elide none ((f.brackets id).filter (f.concerns interest))

/-- The calls made by a walk through a subtree. -/
def trace (f : Forest) (script : Script) (interest : Interest) (id : NodeId) : List Call :=
  (f.walk (.scripted script) id ⟨interest, []⟩).2.calls

/-- There is nothing to write down for what does not exist. -/
lemma bracketsWithin_eq_nil {id : NodeId} (hn : f.node? id = none) (levels : ℕ) :
    f.bracketsWithin levels id = [] := by
  cases levels with
  | zero => rfl
  | succ levels => rw [bracketsWithin, hn]

lemma brackets_eq_nil {id : NodeId} (hn : f.node? id = none) : f.brackets id = [] :=
  bracketsWithin_eq_nil hn f.size

lemma descends_bracketsWithin (f : Forest) :
    f.Descends f.bracketsWithin fun id n brackets =>
      .visit id :: n.children.flatMap brackets ++ [.leave id] where
  absent levels id hn := by rw [bracketsWithin_eq_nil hn, bracketsWithin_eq_nil hn]
  succ levels id n hn := by rw [bracketsWithin, hn]
  congr id n first second h := by rw [List.flatMap_congr h]

section Grounded

variable (hf : f.Linked) (hg : f.Grounded)

include hf hg

/-- The brackets of a node open, hold the brackets of its children and close. -/
theorem brackets_eq {id : NodeId} {n : Node} (hn : f.node? id = some n) :
    f.brackets id = .visit id :: n.children.flatMap f.brackets ++ [.leave id] :=
  f.descends_bracketsWithin.size_eq hf hg hn

/-- Each call stands in the brackets as often as its node stands in the listing. -/
lemma count_brackets (id : NodeId) (call : Call) :
    (f.brackets id).count call = (f.subtree id).count call.id := by
  induction id using child_induction hf hg with
  | step id ih =>
    cases hn : f.node? id with
    | none => rw [brackets_eq_nil hn, subtree_eq_nil hn, List.count_nil, List.count_nil]
    | some n =>
      rw [children_of_node? hn] at ih
      have hchildren : (n.children.flatMap f.brackets).count call =
          (n.children.flatMap f.subtree).count call.id := by
        rw [List.count_flatMap, List.count_flatMap]
        exact congrArg List.sum (List.map_congr_left ih)
      rw [brackets_eq hf hg hn, subtree_eq hf hg hn, List.count_append, List.count_cons, hchildren]
      cases call <;> simp [Call.id, List.count_cons]

/-- The brackets have the calls for the nodes of the listing. -/
lemma mem_brackets_iff {id : NodeId} {call : Call} :
    call ∈ f.brackets id ↔ call.id ∈ f.subtree id := by
  rw [← List.count_pos_iff, count_brackets hf hg, List.count_pos_iff]

/-- Among the calls of interest below a node is none for the node itself. -/
lemma leave_notMem_brackets {id : NodeId} {n : Node} (hn : f.node? id = some n)
    (interest : Interest) :
    .leave id ∉ n.children.flatMap fun child =>
      (f.brackets child).filter (f.concerns interest) := by
  have hnodup := nodup_subtree hf hg id
  rw [subtree_eq hf hg hn, List.nodup_cons] at hnodup
  intro hmem
  obtain ⟨child, hchild, hcall⟩ := List.mem_flatMap.1 hmem
  have hbelow := (mem_brackets_iff hf hg).1 (List.mem_of_mem_filter hcall)
  exact hnodup.1 (List.mem_flatMap.2 ⟨child, hchild, hbelow⟩)

/-! ### Calls that are due -/

variable (script : Script) (interest : Interest)

omit hf hg in
lemma concerns_eq {id : NodeId} {n : Node} (hn : f.node? id = some n) (call : Call)
    (hcall : call.id = id) : f.concerns interest call = interest.contains n.category := by
  rw [concerns, hcall, hn, Option.any_some]

/-- The brackets of interest of a node: a visit and a leave only if the node itself is. -/
lemma filter_brackets {id : NodeId} {n : Node} (hn : f.node? id = some n) :
    (f.brackets id).filter (f.concerns interest) =
      if interest.contains n.category then
        .visit id :: n.children.flatMap (fun child =>
          (f.brackets child).filter (f.concerns interest)) ++ [.leave id]
      else n.children.flatMap fun child => (f.brackets child).filter (f.concerns interest) := by
  have hvisit := concerns_eq interest hn (.visit id) rfl
  have hleave := concerns_eq interest hn (.leave id) rfl
  rw [brackets_eq hf hg hn, List.filter_append, List.filter_cons, List.filter_singleton, hvisit,
    hleave, List.filter_flatMap]
  cases interest.contains n.category with
  | true => rfl
  | false => exact List.append_nil _

/-- What is skipped in a subtree ends within its brackets. -/
lemma balanced_filter_brackets (id : NodeId) :
    script.Balanced ((f.brackets id).filter (f.concerns interest)) := by
  induction id using child_induction hf hg with
  | step id ih =>
    cases hn : f.node? id with
    | none =>
      rw [brackets_eq_nil hn]
      exact fun rest => rfl
    | some n =>
      rw [children_of_node? hn] at ih
      have hbody := Script.balanced_flatMap ih
      rw [filter_brackets hf hg interest hn]
      split
      · exact Script.balanced_bracket hbody (leave_notMem_brackets hf hg hn interest)
      · exact hbody

/-- The calls that are due at a node. -/
theorem due_eq {id : NodeId} {n : Node} (hn : f.node? id = some n) :
    f.due script interest id =
      if interest.contains n.category then
        .visit id :: (if script.onVisit id = .skip then []
          else n.children.flatMap (f.due script interest) ++ [.leave id])
      else n.children.flatMap (f.due script interest) := by
  have hchildren : ∀ child ∈ n.children,
      script.Balanced ((f.brackets child).filter (f.concerns interest)) :=
    fun child _ => balanced_filter_brackets hf hg script interest child
  have hbody := Script.elide_flatMap hchildren
  rw [due, filter_brackets hf hg interest hn]
  split
  · rw [Script.elide_bracket (Script.balanced_flatMap hchildren)
      (leave_notMem_brackets hf hg hn interest), hbody]
    rfl
  · exact hbody

/-! ### The walk -/

omit hf hg in
/-- If each step makes the calls that are due for its node, the steps together make those that are
due for all of them. -/
lemma walkEach_scripted {step : NodeId → Record → Bool × Record} {listing : NodeId → List Call}
    {ids : List NodeId}
    (h : ∀ id ∈ ids, ∀ calls, step id ⟨interest, calls⟩ =
      (script.passes (listing id), ⟨interest, calls ++ script.cut (listing id)⟩))
    (calls : List Call) :
    walkEach step ids ⟨interest, calls⟩ =
      (script.passes (ids.flatMap listing),
        ⟨interest, calls ++ script.cut (ids.flatMap listing)⟩) := by
  induction ids generalizing calls with
  | nil => simp [walkEach, Script.passes, Script.cut]
  | cons id ids ih =>
    have hrest := ih fun x hx => h x (List.mem_cons_of_mem id hx)
    rw [walkEach, h id List.mem_cons_self, List.flatMap_cons, Script.passes_append,
      Script.cut_append]
    cases hid : script.passes (listing id) with
    | false => rfl
    | true =>
      rw [Script.cut_of_passes hid, Bool.true_and, if_pos rfl, ← List.append_assoc]
      exact hrest _

omit hf hg in
/-- If the way through the children makes the calls of a list, the way through the node makes these
calls within its own. -/
lemma walkNode_scripted {script : Script} (hsteady : script.refocus = fun _ => none) {n : Node}
    {walkChild : NodeId → Record → Bool × Record} {body : List Call}
    (hbody : ∀ calls, walkEach walkChild n.children ⟨interest, calls⟩ =
      (script.passes body, ⟨interest, calls ++ script.cut body⟩))
    {calls dues : List Call}
    (hdues : dues = if interest.contains n.category then
      .visit n.id :: (if script.onVisit n.id = .skip then [] else body ++ [.leave n.id])
      else body) :
    walkNode (.scripted script) n walkChild ⟨interest, calls⟩ =
      (script.passes dues, ⟨interest, calls ++ script.cut dues⟩) := by
  subst hdues
  have hstate : (script.refocus n.id).getD interest = interest := by
    rw [hsteady]
    rfl
  unfold walkNode Visitor.scripted
  simp only [hstate]
  cases hinterest : interest.contains n.category with
  | false => exact hbody calls
  | true =>
    cases hvisit : script.onVisit n.id with
    | abort => simp [Script.passes, Script.cut, Script.verdict, hvisit]
    | skip => simp [Script.passes, Script.verdict, hvisit]
    | proceed =>
      -- The visit passes, so only an abort below the node keeps it from being left.
      have hgoes : script.verdict (.visit n.id) ≠ .abort := by simp [Script.verdict, hvisit]
      simp only [hbody, if_true, reduceCtorEq, if_false, Script.cut_cons_of_ne hgoes,
        Script.passes_cons, Script.passes_append, Script.cut_append, bne_iff_ne.2 hgoes,
        Bool.true_and]
      cases hpasses : script.passes body with
      | false => simp
      | true => simp [Script.cut_of_passes hpasses, Script.passes, Script.verdict]

/-- A walk makes the calls that are due, up to the first one that is answered by an abort. -/
theorem walk_scripted {script : Script} (hsteady : script.refocus = fun _ => none)
    (interest : Interest) (id : NodeId) (calls : List Call) :
    f.walk (.scripted script) id ⟨interest, calls⟩ =
      (script.passes (f.due script interest id),
        ⟨interest, calls ++ script.cut (f.due script interest id)⟩) := by
  induction id using child_induction hf hg generalizing calls with
  | step id ih =>
    cases hn : f.node? id with
    | none =>
      rw [walk_of_node?_eq_none hn, due, brackets_eq_nil hn]
      simp [Script.elide, Script.passes, Script.cut]
    | some n =>
      rw [children_of_node? hn] at ih
      have hbody := walkEach_scripted script interest ih
      have hdues := due_eq hf hg script interest hn
      rw [← hf.named id n hn] at hdues ⊢
      rw [walk_eq hf hg _ (by rwa [hf.named id n hn])]
      exact walkNode_scripted interest hsteady hbody hdues

/-- The calls made by a walk are those that are due, up to the first abort. -/
lemma trace_eq (hsteady : script.refocus = fun _ => none) (id : NodeId) :
    f.trace script interest id = script.cut (f.due script interest id) := by
  rw [trace, walk_scripted hf hg hsteady, List.nil_append]

/-- If nothing in a subtree is answered by a skip or an abort, all brackets of interest are due, and
none of them is answered by an abort. -/
lemma due_of_proceed {id : NodeId} (hvisit : ∀ x ∈ f.subtree id, script.onVisit x = .proceed)
    (hleave : ∀ x ∈ f.subtree id, script.onLeave x ≠ .abort) :
    f.due script interest id = (f.brackets id).filter (f.concerns interest) ∧
      script.passes (f.due script interest id) := by
  have hdue : f.due script interest id = (f.brackets id).filter (f.concerns interest) := by
    apply Script.elide_eq_self
    intro x hx
    have hmem := (mem_brackets_iff hf hg).1 (List.mem_of_mem_filter hx)
    rw [hvisit x hmem]
    decide
  refine ⟨hdue, ?_⟩
  rw [hdue, Script.passes, List.all_eq_true]
  intro call hcall
  have hmem := (mem_brackets_iff hf hg).1 (List.mem_of_mem_filter hcall)
  rw [bne_iff_ne]
  cases call with
  | visit x =>
    rw [Script.verdict, hvisit x hmem]
    decide
  | leave x => exact hleave x hmem

omit hf hg in
/-- A call that concerns some interest concerns the interest in everything. -/
lemma filter_concerns_all (calls : List Call) :
    (calls.filter (f.concerns .all)).filter (f.concerns interest) =
      calls.filter (f.concerns interest) := by
  rw [List.filter_filter]
  apply List.filter_congr
  intro call _
  unfold concerns
  cases f.node? call.id <;> simp [Interest.all]

end Grounded

end Forest

namespace Editor

open Forest

/-- In every reachable forest the calls made to a visitor with a fixed interest, whose verdicts
depend on the node alone, are the brackets of the subtree that are of interest, without what is
skipped, up to and including the first call that is answered by an abort. The walk comes to its end
exactly if there is no such call. If nothing is skipped or aborted, every node of interest is
visited once and left once, and the calls are those among the calls for everything that are of
interest. -/
theorem Reachable.trace_is_cut_brackets {e : Editor} (he : e.Reachable) (r : NodeId)
    (interest : Interest) (onVisit onLeave : NodeId → Verdict) :
    (∀ id ∈ e.forest, e.forest.brackets id =
      .visit id :: (e.forest.children id).flatMap e.forest.brackets ++ [.leave id]) ∧
    e.forest.trace (.steady onVisit onLeave) interest r =
      (Script.steady onVisit onLeave).cut ((Script.steady onVisit onLeave).elide none
        ((e.forest.brackets r).filter (e.forest.concerns interest))) ∧
    ((e.forest.walk (.scripted (.steady onVisit onLeave)) r ⟨interest, []⟩).1 = false ↔
      ∃ call ∈ e.forest.trace (.steady onVisit onLeave) interest r,
        (Script.steady onVisit onLeave).verdict call = .abort) ∧
    ((∀ x ∈ e.forest.subtree r, onVisit x = .proceed) →
      (∀ x ∈ e.forest.subtree r, onLeave x ≠ .abort) →
      (∀ x ∈ e.forest.subtree r, ∀ n, e.forest.node? x = some n → interest.contains n.category →
        (e.forest.trace (.steady onVisit onLeave) interest r).count (.visit x) = 1 ∧
        (e.forest.trace (.steady onVisit onLeave) interest r).count (.leave x) = 1) ∧
      e.forest.trace (.steady onVisit onLeave) interest r =
        (e.forest.trace (.steady onVisit onLeave) .all r).filter (e.forest.concerns interest)) := by
  have hf := he.sound.linked
  have hg := he.sound.grounded
  have htrace : ∀ i, e.forest.trace (.steady onVisit onLeave) i r =
      (Script.steady onVisit onLeave).cut (e.forest.due (.steady onVisit onLeave) i r) :=
    fun i => trace_eq hf hg _ i rfl r
  refine ⟨?_, htrace interest, ?_, ?_⟩
  · intro id hid
    obtain ⟨n, hn⟩ := mem_iff_exists_node?.1 hid
    rw [children_of_node? hn]
    exact brackets_eq hf hg hn
  · rw [← Script.passes_eq_false_iff, htrace, Script.passes_cut, walk_scripted hf hg rfl]
  · intro hvisit hleave
    have hall : ∀ i, e.forest.trace (.steady onVisit onLeave) i r =
        (e.forest.brackets r).filter (e.forest.concerns i) := by
      intro i
      obtain ⟨hdue, hpasses⟩ := due_of_proceed hf hg (.steady onVisit onLeave) i hvisit hleave
      rw [htrace, Script.cut_of_passes hpasses, hdue]
    refine ⟨?_, ?_⟩
    · intro x hx n hn hcategory
      have hcount : ∀ call : Call, call.id = x →
          (e.forest.trace (.steady onVisit onLeave) interest r).count call = 1 := by
        intro call hcall
        have hconcerns : e.forest.concerns interest call := by
          rw [concerns_eq interest hn call hcall, hcategory]
        rw [hall, List.count_filter hconcerns, count_brackets hf hg, hcall]
        exact List.count_eq_one_of_mem (nodup_subtree hf hg r) hx
      exact ⟨hcount _ rfl, hcount _ rfl⟩
    · rw [hall, hall, filter_concerns_all]

/-- A visitor of statements passes through the ambiguities without a call. It skips the first
statement, which is not left then, and its abort at the last one keeps the block from being left.
Without the skip and the abort the block is visited once and left once. -/
theorem trace_is_cut_brackets_in_nested_ambiguities :
    ((start .strict).run Edit.nestedAmbiguities).Reachable ∧
    ((start .strict).run Edit.nestedAmbiguities).forest.trace
        (.steady (fun id => if id = ⟨1⟩ then .skip else if id = ⟨4⟩ then .abort else .proceed)
          fun _ => .proceed) (.only [.statements]) ⟨6⟩ =
      [.visit ⟨6⟩, .visit ⟨1⟩, .visit ⟨2⟩, .leave ⟨2⟩, .visit ⟨4⟩] ∧
    (((start .strict).run Edit.nestedAmbiguities).forest.trace
        (.steady (fun _ => .proceed) fun _ => .proceed) (.only [.statements]) ⟨6⟩).count
      (.leave ⟨6⟩) = 1 := by
  have he := reachable_run .strict (by decide : Edit.nestedAmbiguities.length < 2 ^ 32)
  refine ⟨he, ?_, ?_⟩
  · rw [(he.trace_is_cut_brackets ⟨6⟩ _ _ _).2.1]
    decide
  · have hcounts := (he.trace_is_cut_brackets ⟨6⟩ (.only [.statements]) (fun _ => .proceed)
      fun _ => .proceed).2.2.2 (fun _ _ => rfl) (fun _ _ => by decide)
    exact (hcounts.1 ⟨6⟩ (by decide) _ rfl rfl).2

end Editor

end SyntaxForest
