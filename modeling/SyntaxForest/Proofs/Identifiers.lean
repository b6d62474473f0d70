import SyntaxForest.Proofs.Reachable

/-!
# Identifiers

Identifiers are counted up, one for each insertion that is not refused. As long as the words last,
an identifier that was given out is not given out again: a node that is gone stays away
(`Editor.notMem_run`), whatever edits follow. So an identifier that a caller has kept names the same
node for ever, or none.
-/

namespace SyntaxForest

namespace Edit

/-- After an insertion that is refused, an ambiguity is resolved to its first alternative. -/
def settling : List Edit := [insertOver .compoundStatement [⟨9⟩], .resolve ⟨3⟩ 0]

/-- A new statement comes in, and the block goes. -/
def clearing : List Edit := [insertOver .nullStatement [], .prune ⟨4⟩]

end Edit

namespace Editor

open Forest

/-! ### What an edit does to the identifiers -/

/-- An insertion that is not refused answers the next identifier. -/
lemma answer_of_insert {e : Editor} (h : e.forest.Sound) {n : Node} {answer : Answer}
    (hok : (e.perform (.insert n)).1 = .ok answer) : answer = .node e.forest.lastId.next := by
  rcases performed_perform h (.insert n) with ⟨reason, hrefused⟩ | ⟨answer', hanswer, hchange⟩
  · rw [hrefused] at hok
    cases hok
  · obtain rfl := Except.ok.inj (hok.symm.trans hanswer)
    generalize (e.perform (.insert n)).2.forest = g at hchange
    cases hchange
    rfl

/-- An insertion that is not refused takes one identifier. -/
lemma taken_of_isInsert {e : Editor} {edit : Edit} {answer : Answer} (hinsert : edit.isInsert)
    (hok : (e.perform edit).1 = .ok answer) : e.taken edit = 1 := by
  rw [taken, hok]
  exact if_pos ⟨hinsert, rfl⟩

/-- What does not exist cannot be detached. -/
lemma perform_detach_of_notMem {e : Editor} {id : NodeId} (hid : id ∉ e.forest) :
    (e.perform (.detach id)).1 = .error (.unknownNode id) := by
  have hrequire : e.forest.require id = .error (.unknownNode id) := by
    rw [require, node?_eq_none_iff.2 hid]
  have hdetach : e.detach id = (.error (.unknownNode id), e) := by rw [detach, hrequire]
  rw [perform, hdetach]
  rfl

/-! ### Nodes that are gone -/

section

variable {e : Editor} (h : e.forest.Sound) {x : NodeId} (hx : x ∉ e.forest)
  (hgiven : x.raw.toNat ≤ e.forest.lastId.raw.toNat)

include h hx hgiven

/-- An edit does not bring back an identifier that was given out. -/
theorem notMem_perform (edit : Edit) (hroom : e.forest.lastId.raw.toNat + e.taken edit < 2 ^ 32) :
    x ∉ (e.perform edit).2.forest := by
  rcases performed_perform h edit with ⟨reason, hrefused⟩ | ⟨answer, hanswer, hchange⟩
  · rw [hrefused]
    exact hx
  · intro hmem
    rcases hchange.mem_cases hmem with hold | ⟨hinsert, hnew⟩
    · exact hx hold
    · -- The next identifier is greater than all that were given out.
      rw [taken_of_isInsert hinsert hanswer] at hroom
      rw [hnew, NodeId.toNat_next hroom] at hgiven
      omega

/-- No run of edits brings back an identifier that was given out. -/
theorem notMem_run (edits : List Edit)
    (hroom : e.forest.lastId.raw.toNat + e.insertions edits < 2 ^ 32) :
    x ∉ (e.run edits).forest := by
  induction edits generalizing e with
  | nil => exact hx
  | cons edit edits ih =>
    rw [insertions] at hroom
    obtain ⟨hsound, hlast⟩ := sound_perform h edit (by omega)
    rw [run_cons]
    exact ih hsound (notMem_perform h hx hgiven edit (by omega)) (by omega) (by omega)

end

/-- In every run that starts from a forest without nodes and in which fewer than `2 ^ 32` insertions
succeed, the successful insertions answer the identifiers one, two, three and so on, and an
insertion that is refused takes none. No node has the identifier zero or one beyond the last one
given out. An identifier that has had a node and has lost it never gets one again: it is not in the
forest, names no node, and cannot be detached. -/
theorem identifiers_are_never_reused {policy : Policy} {edits : List Edit}
    (hroom : (start policy).insertions edits < 2 ^ 32) :
    (∀ before n, before ++ [.insert n] <+: edits →
      (∀ answer, (((start policy).run before).perform (.insert n)).1 = .ok answer →
        ∃ id, answer = .node id ∧ id.raw.toNat = (start policy).insertions before + 1) ∧
      ∀ reason, (((start policy).run before).perform (.insert n)).1 = .error reason →
        (((start policy).run before).perform (.insert n)).2.forest.lastId =
          ((start policy).run before).forest.lastId) ∧
    (∀ before, before <+: edits → ⟨0⟩ ∉ ((start policy).run before).forest ∧
      ∀ id ∈ ((start policy).run before).forest,
        id.raw.toNat ≤ ((start policy).run before).forest.lastId.raw.toNat) ∧
    ∀ first second third id, first ++ second ++ third <+: edits →
      id ∈ ((start policy).run first).forest →
      id ∉ ((start policy).run (first ++ second)).forest →
      id ∉ ((start policy).run (first ++ second ++ third)).forest ∧
      ((start policy).run (first ++ second ++ third)).forest.node? id = none ∧
      (((start policy).run (first ++ second ++ third)).perform (.detach id)).1 =
        .error (.unknownNode id) := by
  have hwords : ∀ {before : List Edit}, before <+: edits →
      (start policy).insertions before < 2 ^ 32 := by
    rintro before ⟨after, rfl⟩
    rw [insertions_append] at hroom
    omega
  refine ⟨fun before n hall => ?_, fun before hall => ?_,
    fun first second third id hall hlive hgone => ?_⟩
  · obtain ⟨h, hlast⟩ := sound_run_start (hwords ((List.prefix_append before _).trans hall))
    refine ⟨fun answer hok => ⟨_, answer_of_insert h hok, ?_⟩, fun reason herror => ?_⟩
    · have hnext := hwords hall
      rw [insertions_append, insertions, insertions, taken_of_isInsert rfl hok, ← hlast] at hnext
      rw [NodeId.toNat_next hnext, hlast]
    · rcases performed_perform h (.insert n) with ⟨_, hrefused⟩ | ⟨answer, hanswer, -⟩
      · rw [hrefused]
      · cases hanswer.symm.trans herror
  · have h := (sound_run_start (hwords hall)).1
    exact ⟨fun hzero => absurd (h.numbered _ hzero).1 (by decide), fun id hid =>
      (h.numbered id hid).2⟩
  · have hearly : first ++ second <+: edits := (List.prefix_append _ third).trans hall
    obtain ⟨hfirst, hcount⟩ :=
      sound_run_start (hwords ((List.prefix_append first second).trans hearly))
    obtain ⟨h, hlast⟩ := sound_run_start (hwords hearly)
    have hgiven : id.raw.toNat ≤
        ((start policy).run (first ++ second)).forest.lastId.raw.toNat := by
      have hid := (hfirst.numbered id hlive).2
      rw [insertions_append] at hlast
      omega
    have hlater := hwords hall
    rw [insertions_append, ← hlast] at hlater
    have hnot : id ∉ ((start policy).run (first ++ second ++ third)).forest := by
      rw [run_append]
      exact notMem_run h hgone hgiven third hlater
    exact ⟨hnot, node?_eq_none_iff.2 hnot, perform_detach_of_notMem hnot⟩

/-- Where the second alternative has gone with its ambiguity, the statement that comes in afterwards
is the fifth node, and the alternative stays unknown. -/
theorem identifiers_are_never_reused_after_resolution :
    (start .strict).insertions (Edit.ambiguousBlock ++ Edit.settling ++ Edit.clearing) < 2 ^ 32 ∧
    (((start .strict).run (Edit.ambiguousBlock ++ Edit.settling)).perform
      (Edit.insertOver .nullStatement [])).1 = .ok (.node ⟨5⟩) ∧
    (⟨5⟩ : NodeId).raw.toNat =
      (start .strict).insertions (Edit.ambiguousBlock ++ Edit.settling) + 1 ∧
    ⟨2⟩ ∈ ((start .strict).run Edit.ambiguousBlock).forest ∧
    ⟨2⟩ ∉ ((start .strict).run (Edit.ambiguousBlock ++ Edit.settling)).forest ∧
    (((start .strict).run (Edit.ambiguousBlock ++ Edit.settling ++ Edit.clearing)).perform
      (.detach ⟨2⟩)).1 = .error (.unknownNode ⟨2⟩) := by
  have hroom : (start .strict).insertions
      (Edit.ambiguousBlock ++ Edit.settling ++ Edit.clearing) < 2 ^ 32 := by decide
  have hanswer : (((start .strict).run (Edit.ambiguousBlock ++ Edit.settling)).perform
      (Edit.insertOver .nullStatement [])).1 = .ok (.node ⟨5⟩) := by rfl
  have hlive : ⟨2⟩ ∈ ((start .strict).run Edit.ambiguousBlock).forest := by decide
  have hgone : ⟨2⟩ ∉ ((start .strict).run (Edit.ambiguousBlock ++ Edit.settling)).forest := by
    decide
  obtain ⟨hinsertions, -, hremoved⟩ := identifiers_are_never_reused hroom
  have hearly : Edit.ambiguousBlock ++ Edit.settling ++ [Edit.insertOver .nullStatement []] <+:
      Edit.ambiguousBlock ++ Edit.settling ++ Edit.clearing :=
    ⟨[.prune ⟨4⟩], by simp [Edit.clearing]⟩
  obtain ⟨id, hid, hcount⟩ := (hinsertions _ _ hearly).1 _ hanswer
  cases hid
  have hlater := hremoved _ _ _ ⟨2⟩ (List.prefix_refl _) hlive hgone
  exact ⟨hroom, hanswer, hcount, hlive, hgone, hlater.2.2⟩

end Editor

end SyntaxForest
