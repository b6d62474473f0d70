import SyntaxForest.Proofs.Moves

/-!
# What the log tells

The log of an editor tells the upward links of all its nodes. Read from the oldest event to the
newest, it says of each identifier where it is attached (`Event.replay`): it is so from the last
event that attached it on, unless an event after that detached it, displaced it or replaced it.

The log keeps in step with the links over every move and every last step of an edit
(`Editor.Echoed`). Only a node that is replaced is cut off one event before the log says so, and
therefore a replacement is one move. An identifier that is given out is one that the log has not
told of yet, as long as the identifiers count on.
-/

namespace SyntaxForest

open Relation

/-! ### Reading a log -/

namespace Event

/-- What an event changes about the links that are known. -/
def apply (event : Event) (links : Std.ExtTreeMap NodeId Link) : Std.ExtTreeMap NodeId Link :=
  match event with
  | attached child parent p => links.insert child ⟨parent, p⟩
  | detached child _ _ => links.erase child
  | displaced _ _ child => links.erase child
  | replaced _ old _ _ => links.erase old
  | added .. | resolved .. | overlooked .. => links

/-- The links that a log tells, the oldest event first. -/
def replay (log : List Event) : Std.ExtTreeMap NodeId Link :=
  log.foldl (fun links event => event.apply links) ∅

lemma replay_concat (log : List Event) (event : Event) :
    replay (log ++ [event]) = event.apply (replay log) :=
  List.foldl_concat ..

lemma getElem?_insert_link (links : Std.ExtTreeMap NodeId Link) (child x : NodeId) (link : Link) :
    (links.insert child link)[x]? = if x = child then some link else links[x]? := by
  simp only [Std.ExtTreeMap.getElem?_insert, Std.LawfulEqOrd.compare_eq_iff_eq, @eq_comm NodeId x]

lemma getElem?_erase_link (links : Std.ExtTreeMap NodeId Link) (child x : NodeId) :
    (links.erase child)[x]? = if x = child then none else links[x]? := by
  simp only [Std.ExtTreeMap.getElem?_erase, Std.LawfulEqOrd.compare_eq_iff_eq, @eq_comm NodeId x]

end Event

namespace Forest

variable {f : Forest}

/-! ### Links that are told -/

/-- What is told of the nodes are the links that they have. -/
def ToldBy (f : Forest) (links : Std.ExtTreeMap NodeId Link) : Prop :=
  ∀ id route, f.route? id = some route → links[id]? = route.link?

namespace ToldBy

variable {links : Std.ExtTreeMap NodeId Link} (h : f.ToldBy links)

include h

/-- A node that is linked to a slot is told to be there. -/
lemma setLink (child : NodeId) (link : Link) :
    (f.setLink child link).ToldBy (links.insert child link) := by
  intro x route hx
  rw [route?_setLink] at hx
  rw [Event.getElem?_insert_link]
  split at hx
  · next heq =>
    obtain ⟨former, -, rfl⟩ := Option.map_eq_some_iff.1 hx
    rw [if_pos heq, Route.link?_along]
  · next hne =>
    rw [if_neg hne]
    exact h x route hx

/-- A node whose link is cut is told to be nowhere. -/
lemma clearLink (child : NodeId) : (f.clearLink child).ToldBy (links.erase child) := by
  intro x route hx
  rw [route?_clearLink] at hx
  rw [Event.getElem?_erase_link]
  split at hx
  · next heq =>
    obtain ⟨former, -, rfl⟩ := Option.map_eq_some_iff.1 hx
    rw [if_pos heq, Route.link?_along]
  · next hne =>
    rw [if_neg hne]
    exact h x route hx

/-- A node that takes the place of another one is told to be there before the other one is told to
be nowhere. -/
lemma replace {old new : NodeId} (hne : old ≠ new) (link : Link) :
    ((f.clearLink old).setLink new link).ToldBy ((links.insert new link).erase old) := by
  have hswap : (links.insert new link).erase old = (links.erase old).insert new link := by
    refine Std.ExtTreeMap.ext_getElem? fun x => ?_
    rw [Event.getElem?_erase_link, Event.getElem?_insert_link, Event.getElem?_insert_link,
      Event.getElem?_erase_link]
    by_cases hold : x = old
    · rw [if_pos hold, if_pos hold, if_neg (hold ▸ hne)]
    · rw [if_neg hold, if_neg hold]
  rw [hswap]
  exact (h.clearLink old).setLink new link

/-- A new node of which nothing is told is a root. -/
lemma store {id : NodeId} (hid : links[id]? = none) (n : Node) :
    (f.store id n).ToldBy links := by
  intro x route hx
  rw [route?_store] at hx
  split at hx
  · next heq =>
    rw [heq, hid, ← Option.some.inj hx, Route.link?_root]
  · exact h x route hx

/-- It does not matter what is told of nodes that are dropped. -/
lemma dropSubtree (id : NodeId) : (f.dropSubtree id).2.ToldBy links := fun x route hx =>
  h x route ((dropPending_spec f.size [id] f).2.1 x route hx)

end ToldBy

end Forest

namespace Editor

open Forest

variable {e e' : Editor}

/-! ### The log keeps in step -/

/-- The log tells the links of all nodes, and neither the log nor the forest has an identifier that
has not been given out. -/
structure Echoed (e : Editor) : Prop where
  told : e.forest.ToldBy (Event.replay e.log)
  known : ∀ (id : NodeId) link, (Event.replay e.log)[id]? = some link →
    id.raw.toNat ≤ e.forest.lastId.raw.toNat
  numbered : ∀ id ∈ e.forest, id.raw.toNat ≤ e.forest.lastId.raw.toNat

lemma replay_note (e : Editor) (event : Event) :
    Event.replay (e.note event).log = event.apply (Event.replay e.log) :=
  Event.replay_concat e.log event

/-- After a move the log tells the links that the nodes have then. -/
lemma Move.told (hmove : Move e e') (h : e.forest.ToldBy (Event.replay e.log)) :
    e'.forest.ToldBy (Event.replay e'.log) := by
  cases hmove with
  | write _ _ => exact h
  | @attach child _ parent p =>
    unfold Editor.attach
    rw [replay_note]
    exact h.setLink child ⟨parent, p⟩
  | unlink child =>
    unfold Editor.unlink
    split
    · exact h
    · rw [replay_note]
      exact h.clearLink child
  | displace parent p child =>
    unfold Editor.displace
    rw [replay_note]
    exact h.clearLink child
  | @replace old new hne _ parent p change =>
    rw [replay_note, Editor.attach, replay_note]
    exact h.replace hne ⟨parent, p⟩
  | overlook parent old =>
    rw [replay_note]
    exact h

/-- A move tells of no identifier that was not told of before, unless it is that of a node. -/
lemma Move.known (hmove : Move e e') {x : NodeId} {link : Link}
    (hx : (Event.replay e'.log)[x]? = some link) :
    x ∈ e.forest ∨ ∃ former, (Event.replay e.log)[x]? = some former := by
  have hcut : ∀ {links : Std.ExtTreeMap NodeId Link} {child : NodeId},
      (links.erase child)[x]? = some link → links[x]? = some link := by
    intro links child hlink
    rw [Event.getElem?_erase_link] at hlink
    split at hlink
    · cases hlink
    · exact hlink
  have hset : ∀ {links : Std.ExtTreeMap NodeId Link} {child : NodeId} {new : Link},
      child ∈ e.forest → (links.insert child new)[x]? = some link →
        x ∈ e.forest ∨ ∃ former, links[x]? = some former := by
    intro links child new hchild hlink
    rw [Event.getElem?_insert_link] at hlink
    split at hlink
    · next heq => exact .inl (heq ▸ hchild)
    · exact .inr ⟨link, hlink⟩
  cases hmove with
  | write _ _ => exact .inr ⟨link, hx⟩
  | attach hchild _ _ =>
    rw [Editor.attach, replay_note] at hx
    exact hset hchild hx
  | unlink child =>
    unfold Editor.unlink at hx
    split at hx
    · exact .inr ⟨link, hx⟩
    · rw [replay_note] at hx
      exact .inr ⟨link, hcut hx⟩
  | displace _ _ _ =>
    rw [Editor.displace, replay_note] at hx
    exact .inr ⟨link, hcut hx⟩
  | replace _ hnew _ _ _ =>
    rw [replay_note, Editor.attach, replay_note] at hx
    exact hset hnew (hcut hx)
  | overlook _ _ =>
    rw [replay_note] at hx
    exact .inr ⟨link, hx⟩

/-- The log keeps in step over a move. -/
theorem Move.echoed (hmove : Move e e') (h : Echoed e) : Echoed e' := by
  obtain ⟨hmem, hlast⟩ := hmove.same_nodes
  refine ⟨hmove.told h.told, fun x link hx => ?_, fun x hx => ?_⟩
  · rw [hlast]
    rcases hmove.known hx with hx | ⟨former, hx⟩
    · exact h.numbered x hx
    · exact h.known x former hx
  · rw [hlast]
    exact h.numbered x ((hmem x).1 hx)

/-- The log keeps in step over several moves. -/
lemma echoed_of_moves (hmoves : ReflTransGen Move e e') (h : Echoed e) : Echoed e' := by
  induction hmoves with
  | refl => exact h
  | tail _ hmove ih => exact hmove.echoed ih

namespace Echoed

variable (h : Echoed e)

include h

/-- The log may tell anything that is not about links. -/
lemma note {event : Event} (hsilent : ∀ links, event.apply links = links) :
    Echoed (e.note event) := by
  have hreplay : Event.replay (e.note event).log = Event.replay e.log :=
    (replay_note e event).trans (hsilent _)
  refine ⟨?_, fun x link hx => ?_, h.numbered⟩
  · rw [hreplay]
    exact h.told
  · rw [hreplay] at hx
    exact h.known x link hx

/-- The log keeps in step when nodes are dropped without a word. -/
lemma drop (id : NodeId) : Echoed (e.revise fun _ => (e.forest.dropSubtree id).2) := by
  obtain ⟨-, -, hmem, hlast⟩ := dropPending_spec e.forest.size [id] e.forest
  refine ⟨h.told.dropSubtree id, fun x link hx => ?_, fun x hx => ?_⟩
  · exact (h.known x link hx).trans_eq (congrArg (·.raw.toNat) hlast.symm)
  · exact (h.numbered x (hmem x hx)).trans_eq (congrArg (·.raw.toNat) hlast.symm)

/-- The log keeps in step when a new node comes in under an identifier beyond all others. -/
lemma store {id : NodeId} (hid : e.forest.lastId.raw.toNat < id.raw.toNat) (n : Node) :
    Echoed (e.revise fun f => f.store id n) := by
  have hnew : (Event.replay e.log)[id]? = none := by
    cases hlink : (Event.replay e.log)[id]? with
    | none => rfl
    | some link => exact absurd (h.known id link hlink) (Nat.not_le.2 hid)
  refine ⟨h.told.store hnew n, fun x link hx => (h.known x link hx).trans hid.le, fun x hx => ?_⟩
  rw [mem_iff_isSome_node?] at hx
  change ((e.forest.store id n).node? x).isSome at hx
  rw [node?_store] at hx
  split at hx
  · next heq => exact (congrArg (·.raw.toNat) heq).le
  · exact (h.numbered x (mem_iff_isSome_node?.2 hx)).trans hid.le

end Echoed

/-- The log keeps in step over the last step of an edit, as long as the identifiers count on. -/
theorem Ending.echoed (hending : Ending e e') (h : Echoed e)
    (hcount : e.forest.lastId.raw.toNat ≤ e'.forest.lastId.raw.toNat) : Echoed e' := by
  cases hending with
  | stop => exact h
  | @store id hid n =>
    have hnext : id.raw.toNat = (e.forest.lastId.raw.toNat + 1) % 2 ^ 32 := by
      rw [hid]
      exact UInt32.toNat_add e.forest.lastId.raw 1
    have hword := e.forest.lastId.raw.toNat_lt
    change e.forest.lastId.raw.toNat ≤ id.raw.toNat at hcount
    exact (h.store (by omega) n).note fun _ => rfl
  | drop id => exact h.drop id
  | resolve id winner => exact (h.drop id).note fun _ => rfl

/-- One edit keeps the log in step. -/
theorem echoed_perform (h : Echoed e) (edit : Edit)
    (hcount : e.forest.lastId.raw.toNat ≤ (e.perform edit).2.forest.lastId.raw.toNat) :
    Echoed (e.perform edit).2 := by
  obtain ⟨m, hmoves, hending⟩ := made_perform e edit
  refine hending.echoed (echoed_of_moves hmoves h) ?_
  rw [(same_nodes_of_moves hmoves).2]
  exact hcount

/-- A run keeps the log in step. -/
theorem echoed_run (hsound : e.forest.Sound) (h : Echoed e) (edits : List Edit)
    (hroom : e.forest.lastId.raw.toNat + e.insertions edits < 2 ^ 32) : Echoed (e.run edits) := by
  induction edits generalizing e with
  | nil => exact h
  | cons edit edits ih =>
    rw [insertions] at hroom
    obtain ⟨hsound', hlast⟩ := sound_perform hsound edit (by omega)
    rw [run_cons]
    exact ih hsound' (echoed_perform h edit (by omega)) (by omega)

/-- The log of every reachable editor tells the links of its nodes. -/
theorem Reachable.echoed (he : e.Reachable) : Echoed e := by
  obtain ⟨policy, edits, hroom, rfl⟩ := he
  have hzero : (start policy).forest.lastId.raw.toNat = 0 := rfl
  refine echoed_run (.empty policy) ⟨fun x route hx => ?_, fun x link hx => ?_, fun x hx => ?_⟩
    edits (by omega)
  · rw [start, route?_empty] at hx
    cases hx
  · rw [start, Event.replay, List.foldl_nil, Std.ExtTreeMap.getElem?_empty] at hx
    cases hx
  · rw [mem_iff_isSome_node?, start, node?_empty] at hx
    cases hx

/-- What the log tells of a node of a reachable forest is its link. -/
lemma Reachable.getElem?_replay (he : e.Reachable) {id : NodeId} (hid : id ∈ e.forest) :
    (Event.replay e.log)[id]? = e.forest.link? id := by
  obtain ⟨route, hroute⟩ := Option.isSome_iff_exists.1 ((he.sound.linked.routed id).2 hid)
  rw [he.echoed.told id route hroute, link?_of_route? hroute]

/-! ### What is told of dropped nodes -/

/-- A move adds to the log, but no ambiguity that is resolved. -/
lemma Move.log (hmove : Move e e') :
    ∃ events, e'.log = e.log ++ events ∧
      ∀ a winner reclaimed, Event.resolved a winner reclaimed ∉ events := by
  cases hmove with
  | write _ _ => exact ⟨[], (List.append_nil _).symm, by simp⟩
  | @attach child _ parent p => exact ⟨[.attached child parent p], rfl, by simp⟩
  | unlink child =>
    unfold Editor.unlink
    split
    · exact ⟨[], (List.append_nil _).symm, by simp⟩
    · next parent p _ => exact ⟨[.detached child parent p], rfl, by simp⟩
  | displace parent p child => exact ⟨[.displaced parent p child], rfl, by simp⟩
  | @replace old new _ _ parent p _ =>
    exact ⟨[.attached new parent p, .replaced parent old new p], List.append_assoc .., by simp⟩
  | overlook parent old => exact ⟨[.overlooked parent old], rfl, by simp⟩

/-- Several moves add to the log, but no ambiguity that is resolved. -/
lemma log_of_moves (hmoves : ReflTransGen Move e e') :
    ∃ events, e'.log = e.log ++ events ∧
      ∀ a winner reclaimed, Event.resolved a winner reclaimed ∉ events := by
  induction hmoves with
  | refl => exact ⟨[], (List.append_nil _).symm, by simp⟩
  | tail _ hmove ih =>
    obtain ⟨events, hlog, hnone⟩ := ih
    obtain ⟨events', hlog', hnone'⟩ := hmove.log
    refine ⟨events ++ events', ?_, fun a winner reclaimed hmem => ?_⟩
    · rw [hlog', hlog, List.append_assoc]
    · rcases List.mem_append.1 hmem with hmem | hmem
      · exact hnone a winner reclaimed hmem
      · exact hnone' a winner reclaimed hmem

/-- The last step of an edit adds to the log; an ambiguity that is resolved is told with the number
of nodes that are missing afterwards. -/
lemma Ending.log (hending : Ending e e') :
    ∃ events, e'.log = e.log ++ events ∧
      ∀ a winner reclaimed, Event.resolved a winner reclaimed ∈ events →
        e.forest.size = e'.forest.size + reclaimed := by
  cases hending with
  | stop => exact ⟨[], (List.append_nil _).symm, by simp⟩
  | @store id _ n => exact ⟨[.added id n.kind], rfl, by simp⟩
  | drop id => exact ⟨[], (List.append_nil _).symm, by simp⟩
  | resolve id winner =>
    refine ⟨[.resolved id winner (e.forest.dropSubtree id).1.length], rfl, ?_⟩
    intro a winner' reclaimed hmem
    obtain ⟨-, -, rfl⟩ := Event.resolved.inj (List.mem_singleton.1 hmem)
    have hsize := (dropPending_spec e.forest.size [id] e.forest).1
    exact hsize.symm.trans (Nat.add_comm ..)

/-- An edit adds to the log; an ambiguity that is resolved is told with the number of nodes that the
edit drops. -/
theorem log_perform (e : Editor) (edit : Edit) :
    ∃ events, (e.perform edit).2.log = e.log ++ events ∧
      ∀ a winner reclaimed, Event.resolved a winner reclaimed ∈ events →
        e.forest.size = (e.perform edit).2.forest.size + reclaimed := by
  obtain ⟨m, hmoves, hending⟩ := made_perform e edit
  obtain ⟨events, hlog, hnone⟩ := log_of_moves hmoves
  obtain ⟨events', hlog', hreclaimed⟩ := hending.log
  have hsize : m.forest.size = e.forest.size := size_congr (same_nodes_of_moves hmoves).1
  refine ⟨events ++ events', ?_, fun a winner reclaimed hmem => ?_⟩
  · rw [hlog', hlog, List.append_assoc]
  · rcases List.mem_append.1 hmem with hmem | hmem
    · exact absurd hmem (hnone a winner reclaimed)
    · rw [← hsize]
      exact hreclaimed a winner reclaimed hmem

/-- The log of a reachable editor, read from the empty map on, tells of each node its parent and its
property, and of a node that it tells nothing of that it is a root. Every further edit adds to the
log, and an ambiguity that it resolves is told with the difference that the edit makes to the number
of nodes. -/
theorem Reachable.log_tells_links (he : e.Reachable) :
    (∀ id ∈ e.forest,
      (∀ parent p, (Event.replay e.log)[id]? = some ⟨parent, p⟩ ↔
        e.forest.parent? id = some parent ∧ e.forest.property? id = some p) ∧
      (id ∉ Event.replay e.log ↔ id ∈ e.forest.roots)) ∧
    ∀ edit, ∃ events, (e.perform edit).2.log = e.log ++ events ∧
      ∀ a winner reclaimed, Event.resolved a winner reclaimed ∈ events →
        e.forest.size = (e.perform edit).2.forest.size + reclaimed := by
  have hf := he.sound.linked
  refine ⟨fun id hid => ⟨fun parent p => ?_, ?_⟩, log_perform e⟩
  · rw [he.getElem?_replay hid, hf.parent?_eq, hf.property?_eq]
    cases e.forest.link? id with
    | none => simp
    | some link =>
      obtain ⟨parent', p'⟩ := link
      simp
  · rw [Std.ExtTreeMap.mem_iff_isSome_getElem?, he.getElem?_replay hid,
      Option.not_isSome_iff_eq_none, mem_roots_iff, hf.parent?_eq_none_iff]
    exact (and_iff_right hid).symm

/-- An ambiguity is an alternative of another one, in a block, and is resolved to its second
alternative. -/
def resolvedAlternative : Editor :=
  (start .strict).run (Edit.nestedAmbiguities ++ [.resolve ⟨3⟩ 1])

/-- The log has told of two dropped nodes then. It tells that the winner is an alternative of the
other ambiguity, and tells nothing of the block. -/
theorem log_tells_links_after_resolution :
    resolvedAlternative.Reachable ∧ .resolved ⟨3⟩ ⟨2⟩ 2 ∈ resolvedAlternative.log ∧
    (Event.replay resolvedAlternative.log)[(⟨2⟩ : NodeId)]? = some ⟨⟨5⟩, .alternative⟩ ∧
    ⟨6⟩ ∉ Event.replay resolvedAlternative.log := by
  have he : resolvedAlternative.Reachable := reachable_run .strict (by decide)
  have hlinks := he.log_tells_links.1
  refine ⟨he, by decide, ?_, ?_⟩
  · exact ((hlinks ⟨2⟩ (by decide)).1 ⟨5⟩ .alternative).2 ⟨by decide, by decide⟩
  · exact (hlinks ⟨6⟩ (by decide)).2.2 (by decide)

end Editor

end SyntaxForest
