import SyntaxForest.Proofs.Reachable

/-!
# Outcomes

`Forest.Change` says what an edit that is not refused does. Here it is shown to be the whole truth:
a forest allows at most one change for an edit (`Forest.Change.unique`), and if it allows one, the
edit is not refused (`Editor.exists_ok_of_change`). So an edit of a sound forest succeeds with an
answer and a forest exactly if these make a change (`Editor.perform_iff_change`), and to compare two
edits it is enough to compare what the forests allow.
-/

namespace SyntaxForest

namespace Forest

variable {f : Forest}

/-- A forest allows at most one change for an edit. -/
theorem Change.unique (hf : f.Linked) {edit : Edit} {answer answer' : Answer} {g g' : Forest}
    (h : f.Change edit answer g) (h' : f.Change edit answer' g') : answer = answer' ∧ g = g' := by
  cases h with
  | insert _ =>
    cases h'
    exact ⟨rfl, rfl⟩
  | settled _ _ heq =>
    cases h' with
    | settled _ _ _ => exact ⟨rfl, rfl⟩
    | fill _ _ hne _ => exact absurd heq hne
  | fill _ _ hne _ =>
    cases h' with
    | settled _ _ heq => exact absurd heq hne
    | fill _ _ _ _ => exact ⟨rfl, rfl⟩
  | appendNone _ _ =>
    cases h'
    exact ⟨rfl, rfl⟩
  | append _ _ _ =>
    cases h'
    exact ⟨rfl, rfl⟩
  | detach _ _ =>
    cases h'
    exact ⟨rfl, rfl⟩
  | overlooked _ hold _ =>
    cases h' with
    | overlooked _ _ _ => exact ⟨rfl, rfl⟩
    | stay hparent => exact absurd (hf.mem_children_iff_parent?.2 hparent) hold
    | substitute hlink _ _ =>
      exact absurd (hf.mem_children_iff_parent?.2 (above_of_link? hlink)) hold
  | stay hparent =>
    cases h' with
    | overlooked _ hold _ => exact absurd (hf.mem_children_iff_parent?.2 hparent) hold
    | stay _ => exact ⟨rfl, rfl⟩
    | substitute _ hne _ => exact absurd rfl hne
  | substitute hlink hne _ =>
    cases h' with
    | overlooked _ hold _ =>
      exact absurd (hf.mem_children_iff_parent?.2 (above_of_link? hlink)) hold
    | stay _ => exact absurd rfl hne
    | substitute hlink' _ _ =>
      obtain ⟨-, rfl⟩ := Link.mk.inj (Option.some.inj (hlink.symm.trans hlink'))
      exact ⟨rfl, rfl⟩
  | resolve hn _ hwinner =>
    cases h' with
    | resolve hn' _ hwinner' =>
      obtain rfl := Option.some.inj (hn.symm.trans hn')
      obtain rfl := Option.some.inj (hwinner.symm.trans hwinner')
      exact ⟨rfl, rfl⟩
  | prune _ _ =>
    cases h'
    exact ⟨rfl, rfl⟩

end Forest

namespace Editor

open Forest

variable {e : Editor}

/-! ### What is allowed is not refused -/

/-- An outcome with an answer is a success. -/
lemma isOk_of_eq_ok {α : Type} {o : Outcome α} {a : α} (ho : o.1 = .ok a) : o.1.isOk := by
  rw [ho]
  rfl

/-- An outcome that is no refusal stays so when its answer is put into another form. -/
lemma exists_ok_map {α : Type} {form : α → Answer} {o : Outcome α} {a : α} (ho : o.1 = .ok a) :
    ∃ answer, (Outcome.map form o).1 = .ok answer := by
  refine ⟨form a, ?_⟩
  unfold Outcome.map
  rw [ho]
  rfl

variable (h : e.forest.Sound)

include h

/-- An edit is not refused if the forest allows a change for it. -/
theorem exists_ok_of_change {edit : Edit} {answer : Answer} {g : Forest}
    (hchange : e.forest.Change edit answer g) : ∃ answer', (e.perform edit).1 = .ok answer' := by
  cases hchange with
  | insert hn => exact exists_ok_map (insert_of_insertable h hn).1
  | settled hslot hshape heq => exact exists_ok_map (by rw [fill_of_childIn? hslot hshape heq])
  | fill hslot hshape hne hchild =>
    exact exists_ok_map (fill_of_attachable h hslot hshape hne hchild).1
  | appendNone hslot hshape => exact exists_ok_map (by rw [append_none hslot hshape])
  | append hslot hshape hchild =>
    exact exists_ok_map (append_of_attachable h hslot hshape hchild).1
  | detach hid hdetachable =>
    exact exists_ok_map (by rw [detach_of_detachable hid hdetachable])
  | overlooked hparent hold hpolicy =>
    exact exists_ok_map (by rw [substitute_of_notMem hparent hold hpolicy])
  | stay hparent => exact exists_ok_map (by rw [substitute_self h hparent])
  | substitute hlink hne hnew =>
    exact exists_ok_map (substitute_of_replaceable h hlink hne hnew).1
  | @resolve id winner index n hn hambiguity hwinner =>
    have hcheck := checkAlternative_eq_ok_iff.2 ⟨n, hn, hambiguity, hwinner⟩
    exact exists_ok_map (resolve_of_checkAlternative h hcheck).1
  | prune hid hdetachable => exact exists_ok_map (prune_of_detachable h hid hdetachable).1

/-- An edit of a sound forest succeeds with an answer and a forest exactly if these make a change
that the forest allows. -/
theorem perform_iff_change {edit : Edit} {answer : Answer} {g : Forest} :
    (e.perform edit).1 = .ok answer ∧ (e.perform edit).2.forest = g ↔
      e.forest.Change edit answer g := by
  constructor
  · rintro ⟨hanswer, rfl⟩
    rcases performed_perform h edit with ⟨reason, hrefused⟩ | ⟨answer', hanswer', hchange⟩
    · rw [hrefused] at hanswer
      cases hanswer
    · rw [hanswer] at hanswer'
      obtain rfl := Except.ok.inj hanswer'
      exact hchange
  · intro hchange
    obtain ⟨answer', hok⟩ := exists_ok_of_change h hchange
    rcases performed_perform h edit with ⟨reason, hrefused⟩ | ⟨answer'', hanswer, hmade⟩
    · rw [hrefused] at hok
      cases hok
    · obtain ⟨rfl, rfl⟩ := hchange.unique h.linked hmade
      exact ⟨hanswer, rfl⟩

/-- An edit that succeeds makes a change that the forest allows. -/
lemma exists_change_of_isOk {edit : Edit} (hok : (e.perform edit).1.isOk) :
    ∃ answer, e.forest.Change edit answer (e.perform edit).2.forest := by
  rcases performed_perform h edit with ⟨reason, hrefused⟩ | ⟨answer, -, hchange⟩
  · rw [hrefused] at hok
    cases hok
  · exact ⟨answer, hchange⟩

/-- An edit of a sound forest succeeds exactly if the forest allows a change for it. -/
theorem isOk_perform_iff {edit : Edit} :
    (e.perform edit).1.isOk ↔ ∃ answer g, e.forest.Change edit answer g := by
  constructor
  · intro hok
    obtain ⟨answer, hchange⟩ := exists_change_of_isOk h hok
    exact ⟨answer, _, hchange⟩
  · rintro ⟨answer, g, hchange⟩
    exact isOk_of_eq_ok ((perform_iff_change h).2 hchange).1

omit h in
/-- An outcome is a success whatever form its answer is put into. -/
lemma isOk_map {α : Type} (form : α → Answer) (o : Outcome α) :
    (Outcome.map form o).1.isOk = o.1.isOk := by
  obtain ⟨answer, e⟩ := o
  cases answer <;> rfl

/-- What an edit comes to before its answer is put into form succeeds exactly if the forest allows a
change for the edit. -/
lemma isOk_iff_change {α : Type} {form : α → Answer} {o : Outcome α} (edit : Edit)
    (ho : e.perform edit = Outcome.map form o) :
    o.1.isOk ↔ ∃ answer g, e.forest.Change edit answer g := by
  rw [← isOk_perform_iff h, ho, isOk_map]

end Editor

end SyntaxForest
