import SyntaxForest.Proofs.Release

/-!
# Reattachment

Under the lenient policy an edit may attach nodes that have a parent already; they are taken from it
on the way. This is the same as to detach these nodes first, one by one and in any order, and then
to make the edit under the strict policy: the one succeeds exactly if the other does, with the same
answer, and the forests differ in nothing but the policy
(`Editor.Reachable.reattaching_is_detaching_first`).

The two ways make their checks in different forests. What has to be seen is that

* a node is at or above its new parent exactly if it is so after it has left its own place
  (`Forest.Sound.reflTransGen_pluck_iff`),
* a child that stands in its single slot already comes back to it
  (`Forest.Sound.refill_pluck_eq_self`),
* what a new node or a new child asks of the forest, it asks of the forest without the nodes that
  it takes, but for the permission to take them.
-/

namespace SyntaxForest

namespace Forest

open Relation

/-- The forest with another policy towards nodes that have a parent. -/
def withReattach (f : Forest) (reattach : Reattach) : Forest :=
  { f with policy := { f.policy with reattach } }

/-- The forest under the strict policy, with the listed nodes taken out of their slots. -/
def released (f : Forest) (l : List NodeId) : Forest := l.foldl pluck (f.withReattach .reject)

/-- An edit attaches the listed nodes: an insertion attaches the children of the new node, named in
any order, and the other edits attach the child that they name. A substitution is meant only where
the old child is there and the new one is neither the old one nor a child of it. -/
def Attaches (f : Forest) : Edit → List NodeId → Prop
  | .insert n, moved => ∀ x, x ∈ moved ↔ x ∈ n.children
  | .fill _ _ child, moved => moved = child.toList
  | .append _ _ child, moved => moved = child.toList
  | .substitute parent old new, moved =>
    old ∈ f.children parent ∧ new ≠ old ∧ new ∉ f.children old ∧ moved = [new]
  | _, _ => False

variable {f : Forest}

/-! ### Another policy -/

/-- Soundness does not depend on the policy. -/
lemma Sound.withReattach (h : f.Sound) (reattach : Reattach) : (f.withReattach reattach).Sound where
  linked := ⟨h.linked.routed, h.linked.upright, h.linked.named, h.linked.link_iff, h.linked.nodup⟩
  grounded := h.grounded
  typed := h.typed
  numbered := h.numbered

lemma refill_withReattach (f : Forest) (reattach : Reattach) (id : NodeId) (p : Property)
    (l : List NodeId) :
    (f.withReattach reattach).refill id p l = (f.refill id p l).withReattach reattach := by
  refine ext (fun x => ?_) (fun x => ?_) ?_ ?_
  · rw [node?_refill]
    exact (node?_refill f id p l x).symm
  · rw [route?_refill]
    exact (route?_refill f id p l x).symm
  · rw [lastId_refill]
    exact (lastId_refill f id p l).symm
  · rw [policy_refill]
    exact congrArg (fun policy : Policy => { policy with reattach }) (policy_refill f id p l).symm

lemma pluck_withReattach (f : Forest) (reattach : Reattach) (child : NodeId) :
    (f.withReattach reattach).pluck child = (f.pluck child).withReattach reattach := by
  cases hlink : f.link? child with
  | none =>
    rw [pluck_of_link?_none hlink]
    exact pluck_of_link?_none hlink
  | some link =>
    rw [pluck_of_link? hlink, ← refill_withReattach]
    exact pluck_of_link? hlink

lemma plant_withReattach (f : Forest) (reattach : Reattach) (id : NodeId) (n : Node) :
    (f.withReattach reattach).plant id n = (f.plant id n).withReattach reattach := by
  have hlinks : n.entries.foldl (fun f entry => f.setLink entry.2 ⟨id, entry.1⟩)
      (f.withReattach reattach) =
        (n.entries.foldl (fun f entry => f.setLink entry.2 ⟨id, entry.1⟩) f).withReattach
          reattach :=
    List.foldl_hom (withReattach · reattach) fun _ _ => rfl
  unfold plant
  rw [hlinks]
  rfl

lemma released_eq (f : Forest) (l : List NodeId) :
    f.released l = (l.foldl pluck f).withReattach .reject :=
  List.foldl_hom (withReattach · .reject) fun g x => pluck_withReattach g .reject x

lemma released_singleton (f : Forest) (x : NodeId) :
    f.released [x] = (f.pluck x).withReattach .reject :=
  f.released_eq [x]

lemma Sound.released (h : f.Sound) (l : List NodeId) : (f.released l).Sound :=
  (h.withReattach .reject).foldl_pluck l

/-- Only the slots and the links change when nodes are taken out of their slots. -/
@[simp] lemma content?_released (f : Forest) (l : List NodeId) (x : NodeId) :
    (f.released l).content? x = f.content? x := by
  rw [released, content?_foldl_pluck]
  rfl

lemma hasSlot_released_iff {l : List NodeId} {id : NodeId} {p : Property} :
    (f.released l).HasSlot id p ↔ f.HasSlot id p :=
  ⟨fun h => h.of_content? (content?_released f l id).symm,
    fun h => h.of_content? (content?_released f l id)⟩

lemma fits_released_iff {l : List NodeId} {child : NodeId} {c : Category} :
    (f.released l).Fits child c ↔ f.Fits child c :=
  ⟨fun h => h.of_content? (content?_released f l child).symm,
    fun h => h.of_content? (content?_released f l child)⟩

namespace Linked

variable (hf : f.Linked)

include hf

/-- The nodes that are taken out of their slots are roots, and no other link changes. -/
lemma link?_released (l : List NodeId) (x : NodeId) :
    (f.released l).link? x = if x ∈ l then none else f.link? x := by
  rw [released_eq]
  exact hf.link?_foldl_pluck l x

lemma parent?_released {l : List NodeId} {x : NodeId} (hx : x ∈ l) :
    (f.released l).parent? x = none := by
  have hplucked : (l.foldl Forest.pluck f).parent? x = none := by
    rw [(hf.foldl_pluck l).parent?_eq_none_iff, hf.link?_foldl_pluck, if_pos hx]
  rw [released_eq]
  exact hplucked

/-- Nodes that are taken out of their slots may be taken by anyone. -/
lemma takable_released {l : List NodeId} {x : NodeId} (hx : x ∈ l) : (f.released l).Takable x :=
  .inl (hf.parent?_released hx)

/-- Nodes that are taken out of their slots are missed by no ambiguity. -/
lemma detachable_released {l taken : List NodeId} (h : ∀ x ∈ taken, x ∈ l) :
    (f.released l).Detachable taken := by
  intro x hx a ha
  rw [hf.link?_released, if_pos (h x hx)] at ha
  cases ha

/-- A node that is taken out of its slot cannot be taken out once more. -/
lemma pluck_released (child : NodeId) :
    (f.released [child]).pluck child = (f.pluck child).withReattach .reject := by
  have hroot : (f.released [child]).link? child = none := by
    rw [hf.link?_released, if_pos List.mem_cons_self]
  rw [pluck_of_link?_none hroot, released_singleton]

/-- Refilling a slot for a node that has left its own does the same in either forest. -/
lemma refill_pluck_released (child parent : NodeId) (p : Property) (l : List NodeId) :
    ((f.released [child]).pluck child).refill parent p l =
      ((f.pluck child).refill parent p l).withReattach .reject := by
  rw [hf.pluck_released, refill_withReattach]

lemma childrenIn_pluck_released (child x : NodeId) (p : Property) :
    ((f.released [child]).pluck child).childrenIn x p = (f.pluck child).childrenIn x p := by
  rw [hf.pluck_released]
  rfl

/-- A single slot is empty after its child was taken out of it, and else has the child it had. -/
lemma childIn?_released {parent child : NodeId} {p : Property} (hshape : p.shape = .single) :
    (f.released [child]).childIn? parent p =
      if some child = f.childIn? parent p then none else f.childIn? parent p := by
  have hchildren : (f.released [child]).childrenIn parent p =
      (f.childrenIn parent p).erase child := by
    rw [released_singleton]
    exact hf.childrenIn_pluck child parent p
  rw [childIn?_eq_head?, hchildren, childrenIn_eq_toList f parent hshape]
  cases f.childIn? parent p with
  | none => rfl
  | some x =>
    by_cases hx : child = x
    · simp [hx]
    · simp [hx, Ne.symm hx]

/-- A node that is taken out of its slot is missing there. -/
lemma ne_childIn?_released {parent child : NodeId} {p : Property} (hshape : p.shape = .single) :
    some child ≠ (f.released [child]).childIn? parent p := by
  rw [hf.childIn?_released hshape]
  split
  · exact Option.some_ne_none child
  · next hne => exact hne

end Linked

/-! ### Conditions in the two forests -/

namespace Sound

variable (h : f.Sound)

include h

/-- A node is at or above another one exactly if it is so after it has left its own place. -/
lemma reflTransGen_pluck_iff {child x : NodeId} :
    ReflTransGen (f.pluck child).Above child x ↔ ReflTransGen f.Above child x := by
  constructor
  · have hle : (f.pluck child).Above ≤ f.Above := fun _ _ => h.linked.above_of_above_pluck
    exact ReflTransGen.mono hle child x
  · intro habove
    induction habove with
    | refl => exact .refl
    | @tail y x hy hx ih =>
      -- The way down from the node does not come back to it, so all its links are still there.
      have hne : x ≠ child := by
        rintro rfl
        exact h.grounded.not_transGen_self x (TransGen.tail' hy hx)
      obtain ⟨p, hlink⟩ := h.linked.exists_link? hx
      have hkept : (f.pluck child).link? x = some ⟨y, p⟩ := by
        rw [h.linked.link?_pluck, if_neg hne, hlink]
      exact ih.tail (above_of_link? hkept)

lemma reflTransGen_released_iff {child x : NodeId} :
    ReflTransGen (f.released [child]).Above child x ↔ ReflTransGen f.Above child x := by
  rw [released_singleton]
  exact h.reflTransGen_pluck_iff

/-- A child that stands in its single slot comes back to it when it is taken out and put in. -/
lemma refill_pluck_eq_self {parent child : NodeId} {p : Property}
    (hchildren : f.childrenIn parent p = [child]) :
    (f.pluck child).refill parent p [child] = f := by
  have hlink : f.link? child = some ⟨parent, p⟩ := by
    rw [h.linked.link_iff, hchildren]
    exact List.mem_cons_self
  have hback := h.linked.refill_refill (h.linked.admits_erase hlink)
  rwa [← pluck_of_link? hlink, hchildren] at hback

end Sound

/-- A new child that is none of the old one may come into the place of it exactly if it may come
into the slot. -/
lemma replaceable_iff_attachable {parent old new : NodeId} {p : Property}
    (hnot : f.parent? new ≠ some old) :
    f.Replaceable parent p old new ↔ f.Attachable parent p new := by
  constructor
  · intro hnew
    obtain ⟨htakable, hdetachable⟩ := hnew.loose.resolve_left hnot
    exact ⟨hnew.fits, htakable, hdetachable, hnew.below⟩
  · intro hnew
    exact ⟨hnew.fits, .inr ⟨hnew.takable, hnew.detachable⟩, hnew.below⟩

section

variable (h : f.Sound) (hpolicy : f.policy.reattach = .detach)

include h hpolicy

/-- A child may come into a slot exactly if it may leave its own and then come in as a root. -/
lemma attachable_iff_released {parent child : NodeId} {p : Property} (hslot : f.HasSlot parent p) :
    f.Attachable parent p child ↔
      f.Releases [child] ∧ (f.released [child]).Attachable parent p child := by
  rw [h.linked.releases_singleton_iff]
  constructor
  · intro hchild
    refine ⟨⟨hchild.mem hslot, hchild.detachable⟩, fun content hcontent => ?_,
      h.linked.takable_released List.mem_cons_self, h.linked.detachable_released fun _ hx => hx,
      fun habove => hchild.below (h.reflTransGen_released_iff.1 habove)⟩
    rw [content?_released] at hcontent
    exact fits_released_iff.2 (hchild.fits content hcontent)
  · rintro ⟨⟨-, hdetachable⟩, hchild⟩
    refine ⟨fun content hcontent => ?_, .inr hpolicy, hdetachable,
      fun habove => hchild.below (h.reflTransGen_released_iff.2 habove)⟩
    rw [← content?_released f [child]] at hcontent
    exact fits_released_iff.1 (hchild.fits content hcontent)

/-- A new child that is none of the old one may come into the place of it exactly if it may leave
its own place and then come in as a root. -/
lemma replaceable_iff_released {parent old new : NodeId} {p : Property}
    (hslot : f.HasSlot parent p) (hnot : f.parent? new ≠ some old) :
    f.Replaceable parent p old new ↔
      f.Releases [new] ∧ (f.released [new]).Replaceable parent p old new := by
  have hroot : (f.released [new]).parent? new ≠ some old := by
    rw [h.linked.parent?_released List.mem_cons_self]
    exact (Option.some_ne_none old).symm
  rw [replaceable_iff_attachable hnot, replaceable_iff_attachable hroot]
  exact attachable_iff_released h hpolicy hslot

/-- A new node may come in with its children exactly if they may leave their places and then come
with it as roots. -/
lemma insertable_iff_released {n : Node} {moved : List NodeId}
    (hmoved : ∀ x, x ∈ moved ↔ x ∈ n.children) :
    f.Insertable n ↔ f.Releases moved ∧ (f.released moved).Insertable n := by
  rw [h.linked.releases_congr hmoved]
  constructor
  · intro hn
    have hmem : ∀ x ∈ n.children, x ∈ f := by
      intro x hx
      obtain ⟨p, hp⟩ := Node.mem_children.1 hx
      exact (hn.fits p x hp).mem
    refine ⟨(h.linked.releases_iff_detachable hn.nodup).2 ⟨hmem, hn.detachable⟩, hn.plural,
      hn.nodup, fun p child hc => fits_released_iff.2 (hn.fits p child hc),
      fun child hc => h.linked.takable_released ((hmoved child).2 hc),
      h.linked.detachable_released fun x hx => (hmoved x).2 hx⟩
  · rintro ⟨hreleases, hn⟩
    exact ⟨hn.plural, hn.nodup, fun p child hc => fits_released_iff.1 (hn.fits p child hc),
      fun _ _ => .inr hpolicy, ((h.linked.releases_iff_detachable hn.nodup).1 hreleases).2⟩

end

/-- The child of a single slot may leave it and come back. -/
lemma Sound.settled_released (h : f.Sound) {parent child : NodeId} {p : Property}
    (hshape : p.shape = .single) (heq : some child = f.childIn? parent p) :
    f.Releases [child] ∧ (f.released [child]).Attachable parent p child := by
  have hlink : f.link? child = some ⟨parent, p⟩ :=
    (h.linked.link_iff child parent p).2 ((mem_childrenIn_iff_childIn? hshape).2 heq.symm)
  refine ⟨h.linked.releases_singleton_iff.2 ⟨h.linked.mem_of_link? hlink, ?_⟩,
    fun content hcontent => ?_, h.linked.takable_released List.mem_cons_self,
    h.linked.detachable_released fun _ hx => hx, fun habove => ?_⟩
  · rw [detachable_singleton_iff]
    intro a ha
    -- The slot of an ambiguity is no single one.
    obtain ⟨-, rfl⟩ := Link.mk.inj (Option.some.inj (hlink.symm.trans ha))
    cases hshape
  · rw [content?_released] at hcontent
    exact fits_released_iff.2 (h.fits_of_link? hlink hcontent)
  · have hdown := h.reflTransGen_released_iff.1 habove
    exact h.grounded.not_transGen_self child (TransGen.tail' hdown (above_of_link? hlink))

/-! ### Edits in the two forests -/

section

variable (h : f.Sound) {edit : Edit} {moved : List NodeId}

include h

/-- A new child takes the place of the old one in either forest alike. -/
lemma graft_released (parent : NodeId) (p : Property) (old new : NodeId) :
    (f.released [new]).graft parent p old new =
      (f.graft parent p old new).withReattach .reject := by
  unfold graft
  rw [h.linked.refill_pluck_released, h.linked.childrenIn_pluck_released]

/-- A new node comes in above its children in either forest alike. -/
lemma plant_released {n : Node} (hmoved : ∀ x, x ∈ moved ↔ x ∈ n.children) :
    (n.children.foldl pluck (f.released moved)).plant f.lastId.next n =
      ((n.children.foldl pluck f).plant f.lastId.next n).withReattach .reject := by
  have hroots : ∀ x ∈ n.children, (f.released moved).link? x = none := by
    intro x hx
    rw [h.linked.link?_released, if_pos ((hmoved x).2 hx)]
  rw [foldl_pluck_of_roots hroots, released_eq, h.linked.foldl_pluck_congr hmoved,
    plant_withReattach]

/-- A single slot gets a child that was taken out of its slot; the answer is the other child that
was there. -/
lemma change_fill_released {parent child : NodeId} {p : Property} (hslot : f.HasSlot parent p)
    (hshape : p.shape = .single) (hchild : (f.released [child]).Attachable parent p child) :
    (f.released [child]).Change (.fill parent p (some child))
      (.former (if some child = f.childIn? parent p then none else f.childIn? parent p))
      (((f.pluck child).refill parent p [child]).withReattach .reject) := by
  rw [← h.linked.childIn?_released hshape, ← h.linked.refill_pluck_released]
  refine .fill (hasSlot_released_iff.2 hslot) hshape (h.linked.ne_childIn?_released hshape) ?_
  intro c hc
  obtain rfl := Option.some.inj hc
  exact hchild

variable (hpolicy : f.policy.reattach = .detach) (hmoved : f.Attaches edit moved)

include hpolicy hmoved

/-- What an edit does, it does after the nodes that it attaches were taken out of their slots, and
these may be taken out. -/
theorem Change.released {answer : Answer} {g : Forest} (hchange : f.Change edit answer g) :
    f.Releases moved ∧ (f.released moved).Change edit answer (g.withReattach .reject) := by
  have hnil : f.Releases [] := fun x hx => absurd hx List.not_mem_nil
  cases hchange with
  | @insert n hn =>
    obtain ⟨hreleases, hn'⟩ := (insertable_iff_released h hpolicy hmoved).1 hn
    have hlast : (f.released moved).lastId = f.lastId := lastId_foldl_pluck moved
    refine ⟨hreleases, ?_⟩
    rw [← plant_released h hmoved, ← hlast]
    exact .insert hn'
  | @settled parent p child hslot hshape heq =>
    cases child with
    | none =>
      subst hmoved
      exact ⟨hnil, .settled hslot hshape heq⟩
    | some c =>
      subst hmoved
      obtain ⟨hreleases, hc⟩ := h.settled_released hshape heq
      have hmade := change_fill_released h hslot hshape hc
      have hchildren : f.childrenIn parent p = [c] := by
        rw [childrenIn_eq_toList f parent hshape, ← heq]
        rfl
      rw [if_pos heq, h.refill_pluck_eq_self hchildren] at hmade
      exact ⟨hreleases, hmade⟩
  | @fill parent p child hslot hshape hne hchild =>
    cases child with
    | none =>
      subst hmoved
      refine ⟨hnil, ?_⟩
      rw [← refill_withReattach]
      exact .fill hslot hshape hne fun c hc => nomatch hc
    | some c =>
      subst hmoved
      obtain ⟨hreleases, hc⟩ := (attachable_iff_released h hpolicy hslot).1 (hchild c rfl)
      have hmade := change_fill_released h hslot hshape hc
      rw [if_neg hne] at hmade
      exact ⟨hreleases, hmade⟩
  | appendNone hslot hshape =>
    subst hmoved
    exact ⟨hnil, .appendNone hslot hshape⟩
  | append hslot hshape hchild =>
    subst hmoved
    obtain ⟨hreleases, hc⟩ := (attachable_iff_released h hpolicy hslot).1 hchild
    refine ⟨hreleases, ?_⟩
    rw [← h.linked.refill_pluck_released, ← h.linked.childrenIn_pluck_released]
    exact .append (hasSlot_released_iff.2 hslot) hshape hc
  | detach _ _ => exact hmoved.elim
  | overlooked _ hold _ => exact absurd hmoved.1 hold
  | stay _ => exact absurd rfl hmoved.2.1
  | @substitute parent old new p hlink hne hnew =>
    obtain ⟨-, -, hnot, rfl⟩ := hmoved
    rw [h.linked.mem_children_iff_parent?] at hnot
    have hslot := h.linked.hasSlot_of_link? hlink
    obtain ⟨hreleases, hnew'⟩ := (replaceable_iff_released h hpolicy hslot hnot).1 hnew
    refine ⟨hreleases, ?_⟩
    rw [← graft_released h]
    refine .substitute ?_ hne hnew'
    rw [h.linked.link?_released, if_neg (by simpa using hne), hlink]
  | resolve _ _ _ => exact hmoved.elim
  | prune _ _ => exact hmoved.elim

/-- An edit that is allowed after the nodes that it attaches were taken out of their slots is
allowed at once, if they may be taken out. -/
theorem Change.exists_of_released (hreleases : f.Releases moved) {answer : Answer} {g : Forest}
    (hchange : (f.released moved).Change edit answer g) :
    ∃ answer' g', f.Change edit answer' g' := by
  cases hchange with
  | insert hn =>
    exact ⟨_, _, .insert ((insertable_iff_released h hpolicy hmoved).2 ⟨hreleases, hn⟩)⟩
  | @settled parent p child hslot hshape heq =>
    cases child with
    | none =>
      subst hmoved
      exact ⟨_, _, .settled hslot hshape heq⟩
    | some c =>
      subst hmoved
      exact absurd heq (h.linked.ne_childIn?_released hshape)
  | @fill parent p child hslot hshape _ hchild =>
    rw [hasSlot_released_iff] at hslot
    by_cases heq : child = f.childIn? parent p
    · exact ⟨_, _, .settled hslot hshape heq⟩
    · refine ⟨_, _, .fill hslot hshape heq fun c hc => ?_⟩
      subst hc hmoved
      exact (attachable_iff_released h hpolicy hslot).2 ⟨hreleases, hchild c rfl⟩
  | appendNone hslot hshape =>
    subst hmoved
    exact ⟨_, _, .appendNone hslot hshape⟩
  | append hslot hshape hchild =>
    subst hmoved
    rw [hasSlot_released_iff] at hslot
    exact ⟨_, _, .append hslot hshape
      ((attachable_iff_released h hpolicy hslot).2 ⟨hreleases, hchild⟩)⟩
  | detach _ _ => exact hmoved.elim
  | @overlooked parent old new _ hold _ =>
    obtain ⟨hchild, hne, -, rfl⟩ := hmoved
    -- The old child is still there: only the new one has left its place.
    obtain ⟨p, hlink⟩ := h.linked.exists_link? (h.linked.mem_children_iff_parent?.1 hchild)
    have hkept : (f.released [new]).link? old = some ⟨parent, p⟩ := by
      rw [h.linked.link?_released, if_neg (by simpa using Ne.symm hne), hlink]
    exact absurd ((h.released [new]).linked.mem_children_iff_parent?.2 (above_of_link? hkept)) hold
  | stay _ => exact absurd rfl hmoved.2.1
  | @substitute parent old new p hlink hne hnew =>
    obtain ⟨-, -, hnot, rfl⟩ := hmoved
    rw [h.linked.mem_children_iff_parent?] at hnot
    rw [h.linked.link?_released, if_neg (by simpa using hne)] at hlink
    have hslot := h.linked.hasSlot_of_link? hlink
    exact ⟨_, _, .substitute hlink hne
      ((replaceable_iff_released h hpolicy hslot hnot).2 ⟨hreleases, hnew⟩)⟩
  | resolve _ _ _ => exact hmoved.elim
  | prune _ _ => exact hmoved.elim

end

end Forest

namespace Editor

open Forest

/-- The editor with another policy towards nodes that have a parent. -/
def withReattach (e : Editor) (reattach : Reattach) : Editor :=
  { e with forest := e.forest.withReattach reattach }

variable {e : Editor} (h : e.forest.Sound)

include h

/-- Under the strict policy nodes can be detached one by one exactly if they may go. -/
lemma accepts_detaches_withReattach_iff {moved : List NodeId} :
    (e.withReattach .reject).accepts (moved.map .detach) ↔ e.forest.Releases moved :=
  accepts_detaches_iff (h.withReattach .reject)

/-- Under the strict policy, detaching nodes that may go takes them out of their slots. -/
lemma forest_run_detaches_withReattach {moved : List NodeId} (hmoved : e.forest.Releases moved) :
    ((e.withReattach .reject).run (moved.map .detach)).forest = e.forest.released moved :=
  forest_run_detaches (h.withReattach .reject) hmoved

/-- Under the strict policy, an edit is accepted after its nodes were detached exactly if they may
go and the forest without them allows it. -/
lemma accepts_detaches_append_iff {moved : List NodeId} {edit : Edit} :
    (e.withReattach .reject).accepts (moved.map .detach ++ [edit]) ↔
      e.forest.Releases moved ∧ ∃ answer g, (e.forest.released moved).Change edit answer g := by
  rw [accepts_append, Bool.and_eq_true, accepts_detaches_withReattach_iff h, accepts, accepts,
    Bool.and_true]
  refine and_congr_right fun hreleases => ?_
  have hforest := forest_run_detaches_withReattach h hreleases
  rw [isOk_perform_iff (by rw [hforest]; exact h.released moved), hforest]

omit h

/-- Under the lenient policy an edit that attaches nodes succeeds exactly if, under the strict
policy, these nodes can be detached in any order and the edit succeeds then. The answers are the
same, and the forests that the two ways end in differ in the policy only. -/
theorem Reachable.reattaching_is_detaching_first (he : e.Reachable)
    (hpolicy : e.forest.policy.reattach = .detach) {edit : Edit} {moved : List NodeId}
    (hmoved : e.forest.Attaches edit moved) :
    ((e.perform edit).1.isOk ↔
      (e.withReattach .reject).accepts (moved.map .detach ++ [edit])) ∧
    ((e.perform edit).1.isOk →
      (((e.withReattach .reject).run (moved.map .detach)).perform edit).1 = (e.perform edit).1 ∧
      ((e.withReattach .reject).run (moved.map .detach ++ [edit])).forest =
        (e.perform edit).2.forest.withReattach .reject) := by
  have h := he.sound
  rw [accepts_detaches_append_iff h, isOk_perform_iff h]
  refine ⟨⟨?_, ?_⟩, ?_⟩
  · rintro ⟨answer, g, hchange⟩
    obtain ⟨hreleases, hchange'⟩ := hchange.released h hpolicy hmoved
    exact ⟨hreleases, answer, _, hchange'⟩
  · rintro ⟨hreleases, answer, g, hchange⟩
    exact hchange.exists_of_released h hpolicy hmoved hreleases
  · rintro ⟨answer, g, hchange⟩
    obtain ⟨hreleases, hchange'⟩ := hchange.released h hpolicy hmoved
    have hforest := forest_run_detaches_withReattach h hreleases
    rw [← hforest] at hchange'
    have hsound : ((e.withReattach .reject).run (moved.map .detach)).forest.Sound := by
      rw [hforest]
      exact h.released moved
    obtain ⟨hanswer, hg⟩ := (perform_iff_change h).2 hchange
    obtain ⟨hanswer', hg'⟩ := (perform_iff_change hsound).2 hchange'
    rw [hanswer, hanswer', run_append, hg]
    exact ⟨rfl, hg'⟩

/-- Four statements are the alternatives of an ambiguity, under the lenient policy. -/
def fourAlternatives : Editor :=
  (start ⟨.detach, .error⟩).run [.insertOver .nullStatement [], .insertOver .nullStatement [],
    .insertOver .nullStatement [], .insertOver .nullStatement [],
    .insertOver (.ambiguity .statements) [⟨1⟩, ⟨2⟩, ⟨3⟩, ⟨4⟩]]

/-- A new block takes two of four alternatives out of their ambiguity, as if they had been detached
before, in the other order. -/
theorem reattaching_two_alternatives :
    fourAlternatives.Reachable ∧ fourAlternatives.forest.policy.reattach = .detach ∧
    fourAlternatives.forest.Attaches (.insertOver .compoundStatement [⟨2⟩, ⟨4⟩]) [⟨4⟩, ⟨2⟩] ∧
    (fourAlternatives.perform (.insertOver .compoundStatement [⟨2⟩, ⟨4⟩])).1 = .ok (.node ⟨6⟩) ∧
    ((fourAlternatives.withReattach .reject).run
      [.detach ⟨4⟩, .detach ⟨2⟩, .insertOver .compoundStatement [⟨2⟩, ⟨4⟩]]).forest =
      (fourAlternatives.perform
        (.insertOver .compoundStatement [⟨2⟩, ⟨4⟩])).2.forest.withReattach .reject := by
  have he : fourAlternatives.Reachable := reachable_run _ (by decide)
  have hmoved : fourAlternatives.forest.Attaches
      (.insertOver .compoundStatement [⟨2⟩, ⟨4⟩]) [⟨4⟩, ⟨2⟩] :=
    fun _ => (List.Perm.swap _ _ _).mem_iff
  have hok : (fourAlternatives.perform (.insertOver .compoundStatement [⟨2⟩, ⟨4⟩])).1 =
      .ok (.node ⟨6⟩) := by rfl
  refine ⟨he, rfl, hmoved, hok, ?_⟩
  apply ((he.reattaching_is_detaching_first rfl hmoved).2 ?_).2
  rw [hok]
  rfl

end Editor

end SyntaxForest
