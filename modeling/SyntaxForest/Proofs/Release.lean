import SyntaxForest.Proofs.Outcomes

/-!
# Taking several nodes out of their slots

Nodes are taken out of their slots one by one, by as many edits. The order does not matter
(`Forest.Linked.foldl_pluck_congr`), and none of the edits is refused exactly if every ambiguity
keeps two alternatives without all of the nodes (`Forest.Releases`,
`Editor.accepts_detaches_iff`). An edit that takes all of them at once makes just this check
(`Forest.Linked.releases_iff_detachable`).
-/

namespace SyntaxForest

namespace Forest

/-- The listed nodes exist, and every ambiguity that has one of them keeps two alternatives without
all of them. -/
def Releases (f : Forest) (l : List NodeId) : Prop :=
  ∀ x ∈ l, x ∈ f ∧
    ∀ a, f.link? x = some ⟨a, .alternative⟩ → 2 ≤ ((f.alternatives a).diff l).length

variable {f : Forest}

/-! ### Taking several nodes out of their slots -/

/-- Roots are nowhere to be taken from. -/
lemma foldl_pluck_of_roots {l : List NodeId} (h : ∀ x ∈ l, f.link? x = none) :
    l.foldl pluck f = f := by
  induction l with
  | nil => rfl
  | cons x l ih =>
    rw [List.foldl_cons, pluck_of_link?_none (h x List.mem_cons_self)]
    exact ih fun y hy => h y (List.mem_cons_of_mem x hy)

/-- What is left of a list without others depends only on which ones these are. -/
lemma diff_congr {l taken taken' : List NodeId} (hnodup : l.Nodup)
    (h : ∀ x, x ∈ taken ↔ x ∈ taken') : l.diff taken = l.diff taken' := by
  rw [hnodup.sdiff_eq_filter, hnodup.sdiff_eq_filter]
  simp only [h]

/-- What is left of a list and what was taken out of it make up its length. -/
lemma length_diff_add_countP {taken : List NodeId} (hnodup : taken.Nodup) (l : List NodeId) :
    (l.diff taken).length + taken.countP (fun x => x ∈ l) = l.length := by
  induction taken generalizing l with
  | nil => rfl
  | cons x taken ih =>
    rw [List.nodup_cons] at hnodup
    have hrest : (taken.countP fun y => y ∈ l.erase x) = taken.countP fun y => y ∈ l := by
      refine List.countP_congr fun y hy => ?_
      have hne : y ≠ x := fun heq => hnodup.1 (heq ▸ hy)
      rw [decide_eq_true_eq, decide_eq_true_eq, List.mem_erase_of_ne hne]
    have hlength := ih hnodup.2 (l.erase x)
    rw [hrest] at hlength
    rw [List.diff_cons, List.countP_cons]
    by_cases hx : x ∈ l
    · have herase := List.length_erase_of_mem hx
      have hpos := List.length_pos_of_mem hx
      simp only [hx, decide_true, if_true]
      omega
    · rw [List.erase_of_not_mem hx] at hlength ⊢
      simp only [hx, decide_false, Bool.false_eq_true, if_false]
      omega

/-- It does not matter in which order nodes are taken out of their slots, or how often. -/
theorem Linked.foldl_pluck_congr (hf : f.Linked) {l l' : List NodeId}
    (h : ∀ x, x ∈ l ↔ x ∈ l') : l.foldl Forest.pluck f = l'.foldl Forest.pluck f := by
  refine (hf.foldl_pluck l).ext_childrenIn (hf.foldl_pluck l') (fun x => ?_) (fun x p => ?_) ?_ ?_
  · rw [header?_foldl_pluck, header?_foldl_pluck]
  · rw [hf.childrenIn_foldl_pluck, hf.childrenIn_foldl_pluck, diff_congr (hf.nodup x p) h]
  · rw [lastId_foldl_pluck, lastId_foldl_pluck]
  · rw [policy_foldl_pluck, policy_foldl_pluck]

/-! ### Which nodes may go -/

namespace Linked

variable (hf : f.Linked)

include hf

/-- Nodes may go if the first one may, and the others may go after it. -/
lemma releases_cons_iff {x : NodeId} {l : List NodeId} :
    f.Releases (x :: l) ↔ x ∈ f ∧ f.Detachable [x] ∧ (f.pluck x).Releases l := by
  have hleft : ∀ a, ((f.pluck x).alternatives a).diff l = (f.alternatives a).diff (x :: l) := by
    intro a
    rw [alternatives_eq_childrenIn, hf.childrenIn_pluck, List.diff_cons]
    rfl
  unfold Releases
  simp only [hleft, mem_pluck, hf.link?_pluck, detachable_singleton_iff]
  constructor
  · intro h
    refine ⟨(h x List.mem_cons_self).1, fun a ha => ?_, fun y hy => ?_⟩
    · have htwo := (h x List.mem_cons_self).2 a ha
      have hle := (List.diff_sublist ((f.alternatives a).erase x) l).length_le
      have hmem : x ∈ f.alternatives a := (hf.link_iff x a .alternative).1 ha
      have hlength := List.length_erase_of_mem hmem
      rw [List.diff_cons] at htwo
      omega
    · refine ⟨(h y (List.mem_cons_of_mem x hy)).1, fun a ha => ?_⟩
      split at ha
      · cases ha
      · exact (h y (List.mem_cons_of_mem x hy)).2 a ha
  · rintro ⟨hx, hthree, hrest⟩ y hy
    -- The ambiguity of the first node loses one of the others as well, or that node alone.
    have hfirst : ∀ a, f.link? x = some ⟨a, .alternative⟩ →
        2 ≤ ((f.alternatives a).diff (x :: l)).length := by
      intro a ha
      by_cases hother : ∃ z ∈ l, z ≠ x ∧ f.link? z = some ⟨a, .alternative⟩
      · obtain ⟨z, hz, hzx, hza⟩ := hother
        exact (hrest z hz).2 a (by rw [if_neg hzx, hza])
      · have hnodup : ((f.alternatives a).erase x).Nodup := (hf.nodup a .alternative).erase x
        have hsame : ((f.alternatives a).erase x).diff l = (f.alternatives a).erase x := by
          rw [hnodup.sdiff_eq_filter, List.filter_eq_self]
          intro z hz
          rw [decide_eq_true_eq]
          intro hzl
          have hzmem := ((hf.nodup a .alternative).mem_erase_iff).1 hz
          exact hother ⟨z, hzl, hzmem.1, (hf.link_iff z a .alternative).2 hzmem.2⟩
        have hmem : x ∈ f.alternatives a := (hf.link_iff x a .alternative).1 ha
        have hlength := List.length_erase_of_mem hmem
        have := hthree a ha
        rw [List.diff_cons, hsame]
        omega
    by_cases hyx : y = x
    · subst hyx
      exact ⟨hx, hfirst⟩
    · have hyl : y ∈ l := (List.mem_cons.1 hy).resolve_left hyx
      refine ⟨(hrest y hyl).1, fun a ha => (hrest y hyl).2 a ?_⟩
      rw [if_neg hyx, ha]

/-- A single node may go if its ambiguity, if it has one, keeps two alternatives. -/
lemma releases_singleton_iff {x : NodeId} : f.Releases [x] ↔ x ∈ f ∧ f.Detachable [x] := by
  rw [hf.releases_cons_iff]
  refine ⟨fun h => ⟨h.1, h.2.1⟩, fun h => ⟨h.1, h.2, fun y hy => ?_⟩⟩
  exact absurd hy List.not_mem_nil

/-- The alternatives that an ambiguity keeps without different nodes are counted right. -/
lemma alternativesWithout_eq {l : List NodeId} (hnodup : l.Nodup) (a : NodeId) :
    f.alternativesWithout l a = ((f.alternatives a).diff l).length := by
  have hover : (l.countP fun x => f.ambiguityOver? x = some a) =
      l.countP fun x => x ∈ f.alternatives a := by
    refine List.countP_congr fun x _ => ?_
    simp only [decide_eq_true_eq, ambiguityOver?_eq_some_iff]
    exact hf.link_iff x a .alternative
  rw [alternativesWithout, hover, ← length_diff_add_countP hnodup (f.alternatives a),
    Nat.add_sub_cancel]

/-- Different nodes may go one by one exactly if they may go together. -/
lemma releases_iff_detachable {l : List NodeId} (hnodup : l.Nodup) :
    f.Releases l ↔ (∀ x ∈ l, x ∈ f) ∧ f.Detachable l := by
  unfold Releases Detachable
  simp only [hf.alternativesWithout_eq hnodup]
  exact forall₂_and

/-- Whether nodes may go depends only on which ones they are. -/
lemma releases_congr {l l' : List NodeId} (h : ∀ x, x ∈ l ↔ x ∈ l') :
    f.Releases l ↔ f.Releases l' := by
  unfold Releases
  simp only [h, fun a => diff_congr (hf.nodup a .alternative) h, alternatives_eq_childrenIn]

end Linked

end Forest

namespace Editor

open Forest

variable {e : Editor}

/-! ### Detaching one by one -/

/-- A node may be detached if it exists and its ambiguity, if it has one, keeps two
alternatives. -/
lemma isOk_perform_detach_iff (h : e.forest.Sound) {id : NodeId} :
    (e.perform (.detach id)).1.isOk ↔ id ∈ e.forest ∧ e.forest.Detachable [id] := by
  rw [isOk_perform_iff h]
  constructor
  · rintro ⟨answer, g, hchange⟩
    cases hchange with
    | detach hid hdetachable => exact ⟨hid, hdetachable⟩
  · rintro ⟨hid, hdetachable⟩
    exact ⟨_, _, .detach hid hdetachable⟩

/-- Detaching a node takes it out of its slot. -/
lemma forest_perform_detach (h : e.forest.Sound) {id : NodeId} (hid : id ∈ e.forest)
    (hdetachable : e.forest.Detachable [id]) :
    (e.perform (.detach id)).2.forest = e.forest.pluck id :=
  ((perform_iff_change h).2 (.detach hid hdetachable)).2

/-- Nodes can be detached one by one exactly if they may go. -/
theorem accepts_detaches_iff (h : e.forest.Sound) {l : List NodeId} :
    e.accepts (l.map .detach) ↔ e.forest.Releases l := by
  induction l generalizing e with
  | nil => exact iff_of_true rfl fun x hx => absurd hx List.not_mem_nil
  | cons x l ih =>
    rw [List.map_cons, accepts, Bool.and_eq_true, isOk_perform_detach_iff h,
      h.linked.releases_cons_iff, and_assoc]
    refine and_congr_right fun hx => and_congr_right fun hdetachable => ?_
    have hforest := forest_perform_detach h hx hdetachable
    rw [ih (by rw [hforest]; exact h.pluck x), hforest]

/-- Detaching nodes that may go takes them out of their slots. -/
theorem forest_run_detaches (h : e.forest.Sound) {l : List NodeId} (hl : e.forest.Releases l) :
    (e.run (l.map .detach)).forest = l.foldl pluck e.forest := by
  induction l generalizing e with
  | nil => rfl
  | cons x l ih =>
    obtain ⟨hx, hdetachable, hrest⟩ := h.linked.releases_cons_iff.1 hl
    have hforest := forest_perform_detach h hx hdetachable
    rw [List.map_cons, run_cons, List.foldl_cons, ← hforest]
    apply ih
    · rw [hforest]
      exact h.pluck x
    · rwa [hforest]

end Editor

end SyntaxForest
