import Mathlib.Algebra.Group.Nat.Defs
import SyntaxForest.Proofs.Checks
import SyntaxForest.Proofs.Subtrees

/-!
# Sound forests

A forest is sound (`Forest.Sound`) if its links agree in both directions, the way up from every
node ends, every child counts as one of the category that its slot accepts, and no identifier is
beyond the last one given out.

The four elementary changes keep a forest sound: a refill with nodes that stand in the slot already
or are candidates for it (`Forest.Sound.refill`), taking nodes out of their slots, planting a new
node above roots that fit, and dropping the subtree of a root.
-/

namespace SyntaxForest

/-- Words count on up to the last one. -/
lemma NodeId.toNat_next {id : NodeId} (h : id.raw.toNat + 1 < 2 ^ 32) :
    id.next.raw.toNat = id.raw.toNat + 1 := by
  have hnext : id.next.raw.toNat = (id.raw.toNat + 1) % 2 ^ 32 := UInt32.toNat_add id.raw 1
  rw [hnext, Nat.mod_eq_of_lt h]

namespace Forest

open Relation

/-- Every child counts as one of the category that its slot accepts. -/
def Typed (f : Forest) : Prop :=
  ∀ parent content p child, f.content? parent = some content → child ∈ f.childrenIn parent p →
    f.Fits child (content.accepts p)

/-- The identifiers of the nodes are those that have been given out. -/
def Numbered (f : Forest) : Prop :=
  ∀ id ∈ f, 0 < id.raw.toNat ∧ id.raw.toNat ≤ f.lastId.raw.toNat

/-- What holds of every forest that edits make. -/
structure Sound (f : Forest) : Prop where
  linked : f.Linked
  grounded : f.Grounded
  typed : f.Typed
  numbered : f.Numbered

/-- A root that may come into a slot. -/
structure Candidate (f : Forest) (id : NodeId) (p : Property) (child : NodeId) : Prop where
  root : f.link? child = none
  below : ¬ ReflTransGen f.Above child id
  fits : ∀ content, f.content? id = some content → f.Fits child (content.accepts p)

variable {f : Forest}

/-- Whether a node fits depends on its contents only. -/
lemma fits_iff_content? {child : NodeId} {c : Category} :
    f.Fits child c ↔ ∃ content, f.content? child = some content ∧ content.slotCategory = c := by
  constructor
  · rintro ⟨n, hn, hc⟩
    exact ⟨n.content, content?_of_node? hn, hc⟩
  · rintro ⟨content, hcontent, hc⟩
    obtain ⟨n, hn, rfl⟩ := Option.map_eq_some_iff.1 hcontent
    exact ⟨n, hn, hc⟩

lemma Fits.mem {child : NodeId} {c : Category} (h : f.Fits child c) : child ∈ f := by
  obtain ⟨n, hn, -⟩ := h
  exact mem_of_node? hn

/-- A node that fits in one forest fits in every other that gives it the same contents. -/
lemma Fits.of_content? {g : Forest} {child : NodeId} {c : Category} (h : f.Fits child c)
    (hcontent : g.content? child = f.content? child) : g.Fits child c := by
  rw [fits_iff_content?] at h ⊢
  rw [hcontent]
  exact h

/-- A slot that exists belongs to a node with contents. -/
lemma HasSlot.exists_content? {id : NodeId} {p : Property} (h : f.HasSlot id p) :
    ∃ content, f.content? id = some content := by
  obtain ⟨n, hn, -⟩ := h
  exact ⟨n.content, content?_of_node? hn⟩

/-- Whether a node has a slot depends on its contents only. -/
lemma HasSlot.of_content? {g : Forest} {id : NodeId} {p : Property} (h : f.HasSlot id p)
    (hcontent : g.content? id = f.content? id) : g.HasSlot id p := by
  obtain ⟨n, hn, hp⟩ := h
  rw [content?_of_node? hn] at hcontent
  obtain ⟨m, hm, hmn⟩ := Option.map_eq_some_iff.1 hcontent
  refine ⟨m, hm, ?_⟩
  rw [Node.kind, hmn]
  exact hp

/-! ### Categories -/

/-- A refill with children that fit keeps every child in a slot that accepts it. -/
lemma Typed.refill (h : f.Typed) {id : NodeId} {p : Property} {l : List NodeId}
    (hslot : f.HasSlot id p) (hroom : p.shape = .single → l.length ≤ 1)
    (hfits : ∀ child ∈ l, ∀ content, f.content? id = some content →
      f.Fits child (content.accepts p)) :
    (f.refill id p l).Typed := by
  intro parent content q child hcontent hchild
  rw [content?_refill] at hcontent
  rw [childrenIn_refill hslot hroom] at hchild
  have hfit : f.Fits child (content.accepts q) := by
    split at hchild
    · next heq =>
      obtain ⟨rfl, rfl⟩ := heq
      exact hfits child hchild content hcontent
    · exact h parent content q child hcontent hchild
  exact hfit.of_content? (content?_refill child)

/-- Planting a node above children that fit keeps every child in a slot that accepts it. -/
lemma Typed.plant (h : f.Typed) {id : NodeId} {n : Node} (hid : id ∉ f)
    (hfits : ∀ p, ∀ child ∈ n.childrenIn p, f.Fits child (n.content.accepts p)) :
    (f.plant id n).Typed := by
  intro parent content p child hcontent hchild
  rw [content?_plant] at hcontent
  rw [childrenIn_plant] at hchild
  have hfit : f.Fits child (content.accepts p) := by
    by_cases hparent : parent = id
    · rw [if_pos hparent] at hcontent hchild
      obtain rfl := Option.some.inj hcontent
      exact hfits p child hchild
    · rw [if_neg hparent] at hcontent hchild
      exact h parent content p child hcontent hchild
  have hne : child ≠ id := fun heq => hid (heq ▸ hfit.mem)
  refine hfit.of_content? ?_
  rw [content?_plant, if_neg hne]

/-- Dropping nodes keeps every child in a slot that accepts it, if no child is dropped without its
parent. -/
lemma Typed.eraseAll (h : f.Typed) {ids : List NodeId}
    (hclosed : ∀ parent p, ∀ child ∈ f.childrenIn parent p, child ∈ ids → parent ∈ ids) :
    (f.eraseAll ids).Typed := by
  intro parent content p child hcontent hchild
  rw [content?_eraseAll] at hcontent
  rw [childrenIn_eraseAll] at hchild
  by_cases hparent : parent ∈ ids
  · rw [if_pos hparent] at hcontent
    cases hcontent
  · rw [if_neg hparent] at hcontent hchild
    have hfit := h parent content p child hcontent hchild
    refine hfit.of_content? ?_
    rw [content?_eraseAll, if_neg fun hc => hparent (hclosed parent p child hchild hc)]

/-! ### Soundness -/

namespace Sound

/-- The forest without nodes is sound. -/
lemma empty (policy : Policy) : (empty policy).Sound where
  linked := .empty policy
  grounded := .empty policy
  typed parent content p child h := by simp [content?] at h
  numbered id h := by simp [mem_iff_isSome_node?] at h

/-- The parent of a node accepts it. -/
lemma fits_of_link? (h : f.Sound) {child parent : NodeId} {p : Property} {content : Content}
    (hlink : f.link? child = some ⟨parent, p⟩) (hcontent : f.content? parent = some content) :
    f.Fits child (content.accepts p) :=
  h.typed parent content p child hcontent ((h.linked.link_iff child parent p).1 hlink)

section

variable {id : NodeId} {p : Property} {l : List NodeId}

/-- A refill keeps a forest sound if the nodes that come in are candidates for the slot. -/
theorem refill (h : f.Sound) (ha : f.Admits id p l)
    (hnew : ∀ child ∈ l, child ∉ f.childrenIn id p → f.Candidate id p child) :
    (f.refill id p l).Sound := by
  have hall : ∀ child ∈ l, child ∈ f.childrenIn id p ∨ f.Candidate id p child := by
    intro child hc
    by_cases hin : child ∈ f.childrenIn id p
    · exact .inl hin
    · exact .inr (hnew child hc hin)
  refine ⟨h.linked.refill ha, h.grounded.refill h.linked ha fun child hc => ?_,
    h.typed.refill ha.slot ha.room fun child hc content hcontent => ?_, fun x hx => ?_⟩
  · exact (hall child hc).imp_right Candidate.below
  · rcases hall child hc with hin | hcandidate
    · exact h.typed id content p child hcontent hin
    · exact hcandidate.fits content hcontent
  · rw [mem_refill] at hx
    rw [lastId_refill]
    exact h.numbered x hx

end

/-- Taking a node out of its slot keeps a forest sound. -/
theorem pluck (h : f.Sound) (child : NodeId) : (f.pluck child).Sound := by
  cases hlink : f.link? child with
  | none =>
    rw [pluck_of_link?_none hlink]
    exact h
  | some link =>
    obtain ⟨parent, p⟩ := link
    have ha := h.linked.admits_erase hlink
    rw [pluck_of_link? hlink]
    exact h.refill ha fun _ hc hin => absurd (List.mem_of_mem_erase hc) hin

/-- Taking several nodes out of their slots keeps a forest sound. -/
theorem foldl_pluck (h : f.Sound) (l : List NodeId) : (l.foldl Forest.pluck f).Sound := by
  induction l generalizing f with
  | nil => exact h
  | cons child l ih => exact ih (h.pluck child)

/-- The identifier after the last one is new. Behind the last word comes zero, which is never given
out. -/
lemma next_notMem (h : f.Numbered) : f.lastId.next ∉ f := by
  intro hmem
  have hgiven := h _ hmem
  have hnext : f.lastId.next.raw.toNat = (f.lastId.raw.toNat + 1) % 2 ^ 32 :=
    UInt32.toNat_add f.lastId.raw 1
  have hword := f.lastId.raw.toNat_lt
  omega

/-- Planting a new node above roots that fit keeps a forest sound. -/
theorem plant (h : f.Sound) {n : Node} (hroom : f.lastId.raw.toNat + 1 < 2 ^ 32)
    (hnodup : n.children.Nodup) (hroots : ∀ child ∈ n.children, f.link? child = none)
    (hfits : ∀ p, ∀ child ∈ n.childrenIn p, f.Fits child (n.content.accepts p)) :
    (f.plant f.lastId.next n).Sound := by
  have hid : f.lastId.next ∉ f := next_notMem h.numbered
  have hfree : ∀ child ∈ n.children, child ∈ f ∧ f.link? child = none := by
    intro child hc
    obtain ⟨p, hp⟩ := Node.mem_children.1 hc
    exact ⟨(hfits p child hp).mem, hroots child hc⟩
  refine ⟨h.linked.plant hid hnodup hfree, h.grounded.plant h.linked hid hnodup hfree,
    h.typed.plant hid hfits, fun x hx => ?_⟩
  have hnext := NodeId.toNat_next hroom
  rw [lastId_plant, hnext]
  rcases (mem_plant f _ n).1 hx with rfl | hx
  · omega
  · have := h.numbered x hx
    omega

/-- Dropping the subtree of a root keeps a forest sound. -/
theorem eraseAll_subtree (h : f.Sound) {id : NodeId} (hid : id ∈ f) (hroot : f.link? id = none) :
    (f.eraseAll (f.subtree id)).Sound := by
  have hclosed : ∀ child parent, f.parent? child = some parent →
      (child ∈ f.subtree id ↔ parent ∈ f.subtree id) := fun child parent hparent =>
    mem_subtree_iff_of_parent? h.linked h.grounded hid hroot hparent
  refine ⟨h.linked.eraseAll hclosed, h.grounded.eraseAll _,
    h.typed.eraseAll fun parent p child hchild hc => ?_, fun x hx => ?_⟩
  · have hparent : f.parent? child = some parent :=
      above_of_link? ((h.linked.link_iff child parent p).2 hchild)
    exact (hclosed child parent hparent).1 hc
  · rw [mem_eraseAll] at hx
    rw [lastId_eraseAll]
    exact h.numbered x hx.1

end Sound

end Forest

end SyntaxForest
