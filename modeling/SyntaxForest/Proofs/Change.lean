import SyntaxForest.Editor.Edit
import SyntaxForest.Proofs.Soundness

/-!
# Changes

`Forest.Change` says once what an edit that is not refused does to a forest: under which condition,
with which answer, and what the forest is afterwards. The new forest is always written in terms of
the elementary changes, that is, of nodes plucked out of their slots, one slot refilled, one node
planted, or one subtree dropped.

Every change leaves a sound forest sound (`Forest.Change.sound`), as long as there are identifiers
left for new nodes. What holds of every change holds of every edit, and the edits themselves are
not opened again.
-/

namespace SyntaxForest

/-- Whether an edit brings in a new node. -/
def Edit.isInsert : Edit → Bool
  | .insert _ => true
  | _ => false

namespace Forest

open Relation

/-! ### Compound changes -/

/-- The forest with a new node exactly where an old one stands. The new node leaves its own slot
before. -/
def graft (f : Forest) (parent : NodeId) (p : Property) (old new : NodeId) : Forest :=
  (f.pluck new).refill parent p (((f.pluck new).childrenIn parent p).replace old new)

/-- The forest with one node in the place of another one; in the place of a root it becomes a root
itself. -/
def lift (f : Forest) (id winner : NodeId) : Forest :=
  match f.link? id with
  | none => f.pluck winner
  | some ⟨parent, p⟩ => f.graft parent p id winner

/-- The forest without a node and everything below it. -/
def uproot (f : Forest) (id : NodeId) : Forest := (f.pluck id).eraseAll ((f.pluck id).subtree id)

/-! ### Conditions -/

/-- A new node may come into the forest with its children. -/
structure Insertable (f : Forest) (n : Node) : Prop where
  plural : n.isAmbiguity → 2 ≤ n.alternatives.length
  nodup : n.children.Nodup
  fits : ∀ p, ∀ child ∈ n.childrenIn p, f.Fits child (n.content.accepts p)
  takable : ∀ child ∈ n.children, f.Takable child
  detachable : f.Detachable n.children

/-- A child may come into a slot of its parent. -/
structure Attachable (f : Forest) (parent : NodeId) (p : Property) (child : NodeId) : Prop where
  fits : ∀ content, f.content? parent = some content → f.Fits child (content.accepts p)
  takable : f.Takable child
  detachable : f.Detachable [child]
  below : ¬ ReflTransGen f.Above child parent

/-- A new child may come into a slot of its parent in the place of an old one. A child of the old
one may always leave it. -/
structure Replaceable (f : Forest) (parent : NodeId) (p : Property) (old new : NodeId) :
    Prop where
  fits : ∀ content, f.content? parent = some content → f.Fits new (content.accepts p)
  loose : f.parent? new = some old ∨ f.Takable new ∧ f.Detachable [new]
  below : ¬ ReflTransGen f.Above new parent

/-! ### The changes -/

/-- What an edit that is not refused answers, and what it makes of a forest. -/
inductive Change (f : Forest) : Edit → Answer → Forest → Prop
  /-- A new node takes its children out of their slots. -/
  | insert {n : Node} (h : f.Insertable n) :
      Change f (.insert n) (.node f.lastId.next)
        ((n.children.foldl pluck f).plant f.lastId.next n)
  /-- A single slot holds already what it is asked to hold. -/
  | settled {parent : NodeId} {p : Property} {child : Option NodeId} (hslot : f.HasSlot parent p)
      (hshape : p.shape = .single) (heq : child = f.childIn? parent p) :
      Change f (.fill parent p child) (.former none) f
  /-- A single slot gets another child, or none. -/
  | fill {parent : NodeId} {p : Property} {child : Option NodeId} (hslot : f.HasSlot parent p)
      (hshape : p.shape = .single) (hne : child ≠ f.childIn? parent p)
      (h : ∀ c, child = some c → f.Attachable parent p c) :
      Change f (.fill parent p child) (.former (f.childIn? parent p))
        ((child.elim f f.pluck).refill parent p child.toList)
  /-- No child is added to a list slot. -/
  | appendNone {parent : NodeId} {p : Property} (hslot : f.HasSlot parent p)
      (hshape : p.shape = .list) :
      Change f (.append parent p none) .done f
  /-- A child comes to the end of a list slot. -/
  | append {parent : NodeId} {p : Property} {child : NodeId} (hslot : f.HasSlot parent p)
      (hshape : p.shape = .list) (h : f.Attachable parent p child) :
      Change f (.append parent p (some child)) .done
        ((f.pluck child).refill parent p ((f.pluck child).childrenIn parent p ++ [child]))
  /-- A node leaves its slot. -/
  | detach {id : NodeId} (hid : id ∈ f) (h : f.Detachable [id]) :
      Change f (.detach id) (.former (f.parent? id)) (f.pluck id)
  /-- The policy overlooks that there is nothing to put the new child in the place of. -/
  | overlooked {parent old new : NodeId} (hparent : parent ∈ f) (hold : old ∉ f.children parent)
      (hpolicy : f.policy.missingChild = .ignore) :
      Change f (.substitute parent old new) .done f
  /-- A child takes its own place. -/
  | stay {parent old : NodeId} (hparent : f.parent? old = some parent) :
      Change f (.substitute parent old old) .done f
  /-- A new child takes the place of an old one. -/
  | substitute {parent old new : NodeId} {p : Property} (hlink : f.link? old = some ⟨parent, p⟩)
      (hne : old ≠ new) (h : f.Replaceable parent p old new) :
      Change f (.substitute parent old new) .done (f.graft parent p old new)
  /-- An alternative takes the place of its ambiguity, which goes with all the others. -/
  | resolve {id winner : NodeId} {index : ℕ} {n : Node} (hn : f.node? id = some n)
      (hambiguity : n.isAmbiguity) (hwinner : n.alternatives[index]? = some winner) :
      Change f (.resolve id index) (.node winner) ((f.lift id winner).uproot id)
  /-- A node goes with everything below it. -/
  | prune {id : NodeId} (hid : id ∈ f) (h : f.Detachable [id]) :
      Change f (.prune id) (.count ((f.pluck id).subtree id).length) (f.uproot id)

variable {f : Forest}

/-! ### Candidates -/

/-- A child that fits and is not above its new parent is a candidate for the slot once it has left
its own. -/
lemma Linked.candidate_pluck (hf : f.Linked) {parent child : NodeId} {p : Property}
    (hfits : ∀ content, f.content? parent = some content → f.Fits child (content.accepts p))
    (hbelow : ¬ ReflTransGen f.Above child parent) :
    (f.pluck child).Candidate parent p child where
  root := by rw [hf.link?_pluck, if_pos rfl]
  below := by
    intro habove
    have hle : (f.pluck child).Above ≤ f.Above := fun _ _ => hf.above_of_above_pluck
    exact hbelow (ReflTransGen.mono hle child parent habove)
  fits content hcontent := by
    rw [content?_pluck] at hcontent
    exact (hfits content hcontent).of_content? (content?_pluck f child child)

/-- A node that has left its slot stands in no other one. -/
lemma Linked.notMem_childrenIn_pluck (hf : f.Linked) (child id : NodeId) (p : Property) :
    child ∉ (f.pluck child).childrenIn id p := by
  refine (hf.pluck child).notMem_childrenIn ?_ id p
  rw [hf.link?_pluck, if_pos rfl]

/-- The slot of a node is there after another node has left its own. -/
lemma HasSlot.pluck {id : NodeId} {p : Property} (h : f.HasSlot id p) (child : NodeId) :
    (f.pluck child).HasSlot id p :=
  h.of_content? (content?_pluck f child id)

/-- A child that may come into a slot exists. -/
lemma Attachable.mem {parent child : NodeId} {p : Property} (h : f.Attachable parent p child)
    (hslot : f.HasSlot parent p) : child ∈ f := by
  obtain ⟨content, hcontent⟩ := hslot.exists_content?
  exact (h.fits content hcontent).mem

/-- A child that may come into the place of another one exists. -/
lemma Replaceable.mem {parent old new : NodeId} {p : Property}
    (h : f.Replaceable parent p old new) (hslot : f.HasSlot parent p) : new ∈ f := by
  obtain ⟨content, hcontent⟩ := hslot.exists_content?
  exact (h.fits content hcontent).mem

/-- The children of a new node that may come in exist, and are roots once they have left their
slots. -/
lemma Insertable.free {n : Node} (hn : f.Insertable n) (hf : f.Linked) (child : NodeId)
    (hchild : child ∈ n.children) :
    child ∈ n.children.foldl pluck f ∧ (n.children.foldl pluck f).link? child = none := by
  obtain ⟨p, hp⟩ := Node.mem_children.1 hchild
  refine ⟨mem_foldl_pluck.2 (hn.fits p child hp).mem, ?_⟩
  rw [hf.link?_foldl_pluck, if_pos hchild]

/-! ### Replacing in a list -/

/-- Replacing a node of a list changes one place. -/
lemma exists_replace_eq {l : List NodeId} {old : NodeId} (hold : old ∈ l) (new : NodeId) :
    ∃ left right, l = left ++ old :: right ∧ l.replace old new = left ++ new :: right := by
  obtain ⟨left, right, rfl, hleft⟩ := List.eq_append_cons_of_mem hold
  exact ⟨left, right, rfl, by rw [List.replace_append_right hleft, List.replace_cons_self]⟩

/-- After a replacement the new node is there instead of the old one. -/
lemma mem_replace_iff {l : List NodeId} (hnodup : l.Nodup) {old new x : NodeId} (hold : old ∈ l) :
    x ∈ l.replace old new ↔ x = new ∨ x ∈ l ∧ x ≠ old := by
  obtain ⟨left, right, rfl, heq⟩ := exists_replace_eq hold new
  have hnot : old ∉ left ++ right := (List.nodup_middle.1 hnodup).notMem
  rw [heq]
  simp only [List.mem_append, List.mem_cons] at hnot ⊢
  constructor
  · rintro (hx | rfl | hx)
    · exact .inr ⟨.inl hx, fun h => hnot (.inl (h ▸ hx))⟩
    · exact .inl rfl
    · exact .inr ⟨.inr (.inr hx), fun h => hnot (.inr (h ▸ hx))⟩
  · rintro (rfl | ⟨hx | rfl | hx, hne⟩)
    · exact .inr (.inl rfl)
    · exact .inl hx
    · exact absurd rfl hne
    · exact .inr (.inr hx)

/-- A replacement by something new makes no duplicates. -/
lemma nodup_replace {l : List NodeId} (hnodup : l.Nodup) {old new : NodeId} (hold : old ∈ l)
    (hnew : new ∉ l) : (l.replace old new).Nodup := by
  obtain ⟨left, right, rfl, heq⟩ := exists_replace_eq hold new
  have hrest : (left ++ right).Nodup := (List.nodup_middle.1 hnodup).of_cons
  rw [heq, List.nodup_middle, List.nodup_cons]
  refine ⟨fun hmem => hnew ?_, hrest⟩
  rcases List.mem_append.1 hmem with h | h
  · exact List.mem_append_left _ h
  · exact List.mem_append_right _ (List.mem_cons_of_mem _ h)

/-! ### What the refilled slots admit -/

namespace Linked

variable {parent : NodeId} {p : Property}

/-- A node that leaves its slot, if one does, keeps the two directions in step. -/
lemma freed (hf : f.Linked) (child : Option NodeId) : (child.elim f f.pluck).Linked := by
  cases child with
  | none => exact hf
  | some c => exact hf.pluck c

/-- A single slot admits one node that has left its own slot, or none. -/
lemma admits_fill (hf : f.Linked) {child : Option NodeId} (hslot : f.HasSlot parent p)
    (hchild : ∀ c, child = some c → c ∈ f) :
    (child.elim f f.pluck).Admits parent p child.toList := by
  cases child with
  | none =>
    refine ⟨hslot, fun _ => Nat.zero_le 1, List.nodup_nil, fun c hc => ?_⟩
    exact absurd hc List.not_mem_nil
  | some child =>
    refine ⟨hslot.pluck child, fun _ => le_rfl, List.nodup_singleton child, fun c hc => ?_⟩
    obtain rfl : c = child := by simpa using hc
    refine .inr ⟨mem_pluck.2 (hchild c rfl), ?_⟩
    rw [Option.elim_some, hf.link?_pluck, if_pos rfl]

/-- A list slot admits, after its own children, one that has left its slot. -/
lemma admits_append (hf : f.Linked) {child : NodeId} (hslot : f.HasSlot parent p)
    (hshape : p.shape = .list) (hchild : child ∈ f) :
    (f.pluck child).Admits parent p ((f.pluck child).childrenIn parent p ++ [child]) where
  slot := hslot.pluck child
  room hsingle := by
    rw [hshape] at hsingle
    cases hsingle
  nodup := by
    have hnew := hf.notMem_childrenIn_pluck child parent p
    refine List.nodup_append.2 ⟨(hf.pluck child).nodup parent p, List.nodup_singleton child, ?_⟩
    intro x hx y hy heq
    rw [heq, List.mem_singleton.1 hy] at hx
    exact hnew hx
  free c hc := by
    rcases List.mem_append.1 hc with hc | hc
    · exact .inl hc
    · rw [List.mem_singleton.1 hc]
      refine .inr ⟨mem_pluck.2 hchild, ?_⟩
      rw [hf.link?_pluck, if_pos rfl]

/-- A child is still in its slot after another node has left its own. -/
lemma mem_childrenIn_pluck (hf : f.Linked) {old new : NodeId}
    (hlink : f.link? old = some ⟨parent, p⟩) (hne : old ≠ new) :
    old ∈ (f.pluck new).childrenIn parent p := by
  rw [← (hf.pluck new).link_iff, hf.link?_pluck, if_neg hne, hlink]

/-- A slot admits a node that has left its own slot in the place of one of its children. -/
lemma admits_graft (hf : f.Linked) {old new : NodeId} (hlink : f.link? old = some ⟨parent, p⟩)
    (hne : old ≠ new) (hnew : new ∈ f) :
    (f.pluck new).Admits parent p (((f.pluck new).childrenIn parent p).replace old new) where
  slot := (hf.hasSlot_of_link? hlink).pluck new
  room hsingle := by
    rw [List.length_replace]
    exact length_childrenIn_le (f.pluck new) parent hsingle
  nodup :=
    nodup_replace ((hf.pluck new).nodup parent p) (hf.mem_childrenIn_pluck hlink hne)
      (hf.notMem_childrenIn_pluck new parent p)
  free c hc := by
    rw [mem_replace_iff ((hf.pluck new).nodup parent p) (hf.mem_childrenIn_pluck hlink hne)] at hc
    rcases hc with rfl | ⟨hc, -⟩
    · refine .inr ⟨mem_pluck.2 hnew, ?_⟩
      rw [hf.link?_pluck, if_pos rfl]
    · exact .inl hc

/-- Another child, or none, comes into a single slot, and what was there leaves. -/
lemma exchanges_fill (hf : f.Linked) {child : Option NodeId} (hslot : f.HasSlot parent p)
    (hshape : p.shape = .single) (hne : child ≠ f.childIn? parent p)
    (hchild : ∀ c, child = some c → c ∈ f) :
    (child.elim f f.pluck).Exchanges parent p (f.childIn? parent p) child child.toList := by
  -- The only child of the slot is still there, since it is not the one that comes in.
  have hprevious : ∀ x, x ∈ (child.elim f f.pluck).childrenIn parent p ↔
      f.childIn? parent p = some x := by
    intro x
    rw [← mem_childrenIn_iff_childIn? hshape]
    cases child with
    | none => rfl
    | some c =>
      rw [Option.elim_some, hf.childrenIn_pluck, List.erase_of_not_mem]
      intro hc
      exact hne (((mem_childrenIn_iff_childIn? hshape).1 hc).symm)
  refine ⟨hf.admits_fill hslot hchild, fun x hx => ?_, fun x => ?_⟩
  · refine ⟨(hprevious x).2 hx, fun hchild => hne ?_⟩
    rw [hchild, hx]
  · rw [hprevious, Option.mem_toList]
    simp

/-- A child comes to the end of a list slot, and none leaves. -/
lemma exchanges_append (hf : f.Linked) {child : NodeId} (hslot : f.HasSlot parent p)
    (hshape : p.shape = .list) (hchild : child ∈ f) :
    (f.pluck child).Exchanges parent p none (some child)
      ((f.pluck child).childrenIn parent p ++ [child]) := by
  refine ⟨hf.admits_append hslot hshape hchild, (fun x hx => nomatch hx), fun x => ?_⟩
  rw [List.mem_append, List.mem_singleton]
  simp [or_comm, eq_comm]

/-- A new child comes into the place of an old one, which leaves. -/
lemma exchanges_graft (hf : f.Linked) {old new : NodeId} (hlink : f.link? old = some ⟨parent, p⟩)
    (hne : old ≠ new) (hnew : new ∈ f) :
    (f.pluck new).Exchanges parent p (some old) (some new)
      (((f.pluck new).childrenIn parent p).replace old new) := by
  have hold := hf.mem_childrenIn_pluck hlink hne
  refine ⟨hf.admits_graft hlink hne hnew, fun x hx => ?_, fun x => ?_⟩
  · obtain rfl := Option.some.inj hx
    exact ⟨hold, fun heq => hne (Option.some.inj heq).symm⟩
  · rw [mem_replace_iff ((hf.pluck new).nodup parent p) hold]
    simp only [Option.some.injEq, ne_eq, eq_comm (a := x)]

/-- A slot that was refilled admits the children it had. -/
lemma admits_former (hf : f.Linked) {l : List NodeId} (ha : f.Admits parent p l) :
    (f.refill parent p l).Admits parent p (f.childrenIn parent p) where
  slot := ha.slot.of_content? (content?_refill parent)
  room hsingle := length_childrenIn_le f parent hsingle
  nodup := hf.nodup parent p
  free c hc := by
    rw [childrenIn_refill ha.slot ha.room, if_pos ⟨rfl, rfl⟩, mem_refill, hf.link?_refill ha,
      if_pos hc]
    by_cases hl : c ∈ l
    · exact .inl hl
    · exact .inr ⟨hf.mem_of_mem_childrenIn hc, if_neg hl⟩

/-- A slot that gets back the children it had leaves no trace of the refill. -/
theorem refill_refill (hf : f.Linked) {l : List NodeId} (ha : f.Admits parent p l) :
    (f.refill parent p l).refill parent p (f.childrenIn parent p) = f := by
  have hback := hf.admits_former ha
  refine ((hf.refill ha).refill hback).ext_childrenIn hf (fun x => ?_) (fun x q => ?_) ?_ ?_
  · rw [header?_refill, header?_refill]
  · rw [childrenIn_refill hback.slot hback.room]
    split
    · next heq => rw [heq.1, heq.2]
    · next hne => rw [childrenIn_refill ha.slot ha.room, if_neg hne]
  · rw [lastId_refill, lastId_refill]
  · rw [policy_refill, policy_refill]

/-- A node that was replaced is a root. -/
lemma link?_graft_old (hf : f.Linked) {old new : NodeId} (hlink : f.link? old = some ⟨parent, p⟩)
    (hne : old ≠ new) (hnew : new ∈ f) : (f.graft parent p old new).link? old = none := by
  have hold := hf.mem_childrenIn_pluck hlink hne
  have hgone : old ∉ ((f.pluck new).childrenIn parent p).replace old new := by
    rw [mem_replace_iff ((hf.pluck new).nodup parent p) hold]
    rintro (heq | ⟨-, hself⟩)
    · exact hne heq
    · exact hself rfl
  rw [graft, (hf.pluck new).link?_refill (hf.admits_graft hlink hne hnew), if_neg hgone,
    if_pos hold]

end Linked

/-! ### Alternatives of an ambiguity -/

/-- An alternative may always take the place of its ambiguity. -/
lemma Sound.replaceable_alternative (h : f.Sound) {id parent winner : NodeId} {p : Property}
    {n : Node} (hn : f.node? id = some n) (hambiguity : n.isAmbiguity)
    (hwinner : f.link? winner = some ⟨id, .alternative⟩)
    (hlink : f.link? id = some ⟨parent, p⟩) : f.Replaceable parent p id winner where
  fits content hcontent := by
    -- The ambiguity fits its slot, and its family is what it asks of its alternatives.
    obtain ⟨m, hm, hcategory⟩ := h.fits_of_link? hlink hcontent
    obtain rfl : n = m := Option.some.inj (hn.symm.trans hm)
    have hfits := h.fits_of_link? hwinner (content?_of_node? hn)
    rwa [Node.accepts_eq_slotCategory hambiguity, hcategory] at hfits
  loose := .inl (above_of_link? hwinner)
  below hbelow := by
    have hid : f.Above id winner := above_of_link? hwinner
    have hparent : f.Above parent id := above_of_link? hlink
    exact h.grounded.not_transGen_self id (.head' hid (hbelow.tail hparent))

namespace Sound

/-! ### Soundness -/

variable {parent : NodeId} {p : Property}

/-- Filling a single slot keeps a forest sound. -/
lemma fill (h : f.Sound) {child : Option NodeId} (hslot : f.HasSlot parent p)
    (hchild : ∀ c, child = some c → f.Attachable parent p c) :
    ((child.elim f f.pluck).refill parent p child.toList).Sound := by
  have hmem : ∀ c, child = some c → c ∈ f := fun c hc => (hchild c hc).mem hslot
  have hfreed : (child.elim f f.pluck).Sound := by
    cases child with
    | none => exact h
    | some c => exact h.pluck c
  refine hfreed.refill (h.linked.admits_fill hslot hmem) fun c hc _ => ?_
  have hsome : child = some c := Option.mem_toList.1 hc
  subst hsome
  exact h.linked.candidate_pluck (hchild c rfl).fits (hchild c rfl).below

/-- Adding a child to a list slot keeps a forest sound. -/
lemma append (h : f.Sound) {child : NodeId} (hslot : f.HasSlot parent p)
    (hshape : p.shape = .list) (hchild : f.Attachable parent p child) :
    ((f.pluck child).refill parent p ((f.pluck child).childrenIn parent p ++ [child])).Sound := by
  have hmem : child ∈ f := hchild.mem hslot
  refine (h.pluck child).refill (h.linked.admits_append hslot hshape hmem) fun c hc hnot => ?_
  obtain rfl : c = child := by
    rcases List.mem_append.1 hc with hin | hin
    · exact absurd hin hnot
    · exact List.mem_singleton.1 hin
  exact h.linked.candidate_pluck hchild.fits hchild.below

/-- Replacing a child keeps a forest sound. -/
lemma graft (h : f.Sound) {old new : NodeId} (hlink : f.link? old = some ⟨parent, p⟩)
    (hne : old ≠ new) (hnew : f.Replaceable parent p old new) :
    (f.graft parent p old new).Sound := by
  have hmem : new ∈ f := hnew.mem (h.linked.hasSlot_of_link? hlink)
  have hnodup := (h.linked.pluck new).nodup parent p
  refine (h.pluck new).refill (h.linked.admits_graft hlink hne hmem) fun c hc hnot => ?_
  obtain rfl : c = new := by
    rcases (mem_replace_iff hnodup (h.linked.mem_childrenIn_pluck hlink hne)).1 hc with heq | hin
    · exact heq
    · exact absurd hin.1 hnot
  exact h.linked.candidate_pluck hnew.fits hnew.below

/-- Dropping a node with everything below it keeps a forest sound. -/
lemma uproot (h : f.Sound) {id : NodeId} (hid : id ∈ f) : (f.uproot id).Sound := by
  refine (h.pluck id).eraseAll_subtree (mem_pluck.2 hid) ?_
  rw [h.linked.link?_pluck, if_pos rfl]

/-- A node is not its own parent. -/
lemma ne_of_link? (h : f.Sound) {child : NodeId} (hlink : f.link? child = some ⟨parent, p⟩) :
    parent ≠ child := by
  rintro rfl
  exact h.grounded.not_transGen_self parent (.single (above_of_link? hlink))

section

variable {id winner : NodeId} (h : f.Sound) (hwinner : f.link? winner = some ⟨id, .alternative⟩)

include h hwinner

/-- Lifting an alternative into the place of its ambiguity keeps a forest sound. -/
lemma lift {n : Node} (hn : f.node? id = some n) (hambiguity : n.isAmbiguity) :
    (f.lift id winner).Sound := by
  unfold Forest.lift
  split
  · exact h.pluck winner
  · next parent p hlink =>
    exact h.graft hlink (h.ne_of_link? hwinner)
      (h.replaceable_alternative hn hambiguity hwinner hlink)

/-- An ambiguity that an alternative has taken the place of is a root. -/
lemma link?_lift : (f.lift id winner).link? id = none := by
  have hne : id ≠ winner := h.ne_of_link? hwinner
  unfold Forest.lift
  split
  · next hroot => rw [h.linked.link?_pluck, if_neg hne, hroot]
  · next parent p hlink => exact h.linked.link?_graft_old hlink hne (h.linked.mem_of_link? hwinner)

end

end Sound

/-- Lifting neither makes nor drops nodes. -/
@[simp] lemma mem_lift {id winner x : NodeId} : x ∈ f.lift id winner ↔ x ∈ f := by
  unfold lift
  split
  · exact mem_pluck
  · rw [graft, mem_refill, mem_pluck]

@[simp] lemma lastId_lift (f : Forest) (id winner : NodeId) :
    (f.lift id winner).lastId = f.lastId := by
  unfold lift
  split
  · exact lastId_pluck f winner
  · rw [graft, lastId_refill, lastId_pluck]

/-- Lifting keeps the contents of every node. -/
@[simp] lemma content?_lift (f : Forest) (id winner x : NodeId) :
    (f.lift id winner).content? x = f.content? x := by
  unfold lift
  split
  · exact content?_pluck f winner x
  · rw [graft, content?_refill, content?_pluck]

/-- What is left after a node was dropped has the contents it had. -/
lemma content?_of_content?_uproot {id x : NodeId} {content : Content}
    (h : (f.uproot id).content? x = some content) : f.content? x = some content := by
  rw [uproot, content?_eraseAll] at h
  split at h
  · cases h
  · rwa [content?_pluck] at h

/-- An alternative that an index names is linked to its ambiguity. -/
lemma Linked.link?_of_getElem? (hf : f.Linked) {a w : NodeId} {index : ℕ}
    (hindex : (f.alternatives a)[index]? = some w) : f.link? w = some ⟨a, .alternative⟩ :=
  (hf.link_iff w a .alternative).2 (List.mem_of_getElem? hindex)

namespace Change

variable {edit : Edit} {answer : Answer} {g : Forest}

/-- A change makes a sound forest out of a sound one, as long as there is an identifier left for a
new node. -/
theorem sound (hchange : f.Change edit answer g) (h : f.Sound)
    (hroom : ∀ n, edit = .insert n → f.lastId.raw.toNat + 1 < 2 ^ 32) : g.Sound := by
  cases hchange with
  | @insert n hn =>
    have hlast : (n.children.foldl pluck f).lastId = f.lastId := lastId_foldl_pluck n.children
    rw [← hlast]
    refine (h.foldl_pluck n.children).plant ?_ hn.nodup (fun child hc => ?_) fun p child hc => ?_
    · rw [hlast]
      exact hroom n rfl
    · exact (hn.free h.linked child hc).2
    · exact (hn.fits p child hc).of_content? (content?_foldl_pluck n.children child)
  | settled _ _ _ => exact h
  | fill hslot _ _ hchild => exact h.fill hslot hchild
  | appendNone _ _ => exact h
  | append hslot hshape hchild => exact h.append hslot hshape hchild
  | detach _ _ => exact h.pluck _
  | overlooked _ _ _ => exact h
  | stay _ => exact h
  | substitute hlink hne hnew => exact h.graft hlink hne hnew
  | resolve hn hambiguity hwinner =>
    rw [← alternatives_of_node? hn] at hwinner
    have hlink := h.linked.link?_of_getElem? hwinner
    exact (h.lift hlink hn hambiguity).uproot (mem_lift.2 (mem_of_node? hn))
  | prune hid _ => exact h.uproot hid

/-- Only a new node takes an identifier. -/
theorem lastId_eq (hchange : f.Change edit answer g) :
    g.lastId = if edit.isInsert then f.lastId.next else f.lastId := by
  cases hchange with
  | insert _ => rfl
  | @fill parent p child _ _ _ _ =>
    refine (lastId_refill ..).trans ?_
    cases child with
    | none => rfl
    | some c => exact lastId_pluck f c
  | append _ _ _ => exact (lastId_refill ..).trans (lastId_pluck ..)
  | detach _ _ => exact lastId_pluck ..
  | substitute _ _ _ => exact (lastId_refill ..).trans (lastId_pluck ..)
  | resolve _ _ _ => exact (lastId_eraseAll ..).trans ((lastId_pluck ..).trans (lastId_lift ..))
  | prune _ _ => exact (lastId_eraseAll ..).trans (lastId_pluck ..)
  | _ => rfl

/-- Only a new node brings in new contents. -/
theorem content?_cases (hchange : f.Change edit answer g) {x : NodeId} {content : Content}
    (h : g.content? x = some content) :
    f.content? x = some content ∨ ∃ n, edit = .insert n ∧ f.Insertable n ∧ content = n.content := by
  cases hchange with
  | @insert n hn =>
    rw [content?_plant] at h
    split at h
    · exact .inr ⟨n, rfl, hn, (Option.some.inj h).symm⟩
    · exact .inl (by rwa [content?_foldl_pluck] at h)
  | @fill parent p child _ _ _ _ =>
    left
    rw [content?_refill] at h
    cases child with
    | none => exact h
    | some c => exact (content?_pluck f c x).symm.trans h
  | append _ _ _ => exact .inl (by rwa [content?_refill, content?_pluck] at h)
  | detach _ _ => exact .inl (by rwa [content?_pluck] at h)
  | substitute _ _ _ => exact .inl (by rwa [graft, content?_refill, content?_pluck] at h)
  | resolve _ _ _ => exact .inl (by rw [← content?_of_content?_uproot h, content?_lift])
  | prune _ _ => exact .inl (content?_of_content?_uproot h)
  | _ => exact .inl h

/-- Only a new node brings in an identifier, and this is the next one. -/
theorem mem_cases (hchange : f.Change edit answer g) {x : NodeId} (hx : x ∈ g) :
    x ∈ f ∨ edit.isInsert ∧ x = f.lastId.next := by
  obtain ⟨m, hm⟩ := mem_iff_exists_node?.1 hx
  rcases hchange.content?_cases (content?_of_node? hm) with hold | ⟨n, rfl, -, -⟩
  · obtain ⟨n, hn, -⟩ := Option.map_eq_some_iff.1 hold
    exact .inl (mem_of_node? hn)
  · cases hchange
    rcases (mem_plant ..).1 hx with hnew | hold
    · exact .inr ⟨rfl, hnew⟩
    · exact .inl (mem_foldl_pluck.1 hold)

end Change

end Forest

end SyntaxForest
