import SyntaxForest.Event
import SyntaxForest.Forest.Check

/-!
# Editing forests

An editor holds a forest and the log of what it did to it. Each edit checks first and then writes
both directions of every relation it touches. It gives an answer or the reason to refuse, and the
editor afterwards, which is the same editor if the edit was refused at a check.

The edits are `Editor.insert`, `Editor.fill`, `Editor.append`, `Editor.detach`,
`Editor.substitute`, `Editor.resolve` and `Editor.prune`.
-/

namespace SyntaxForest

/-- A forest under edit, with the log of the edits. -/
structure Editor where
  forest : Forest
  /-- What happened so far, the oldest event first. -/
  log : List Event

/-- The outcome of an edit: its answer or the reason to refuse it, and the editor afterwards. -/
abbrev Outcome (α : Type) : Type := Except Error α × Editor

namespace Editor

/-- An editor of the forest without nodes. -/
def start (policy : Policy) : Editor := ⟨.empty policy, []⟩

/-! ### Elementary steps -/

/-- Writes an event into the log. -/
def note (e : Editor) (event : Event) : Editor := { e with log := e.log ++ [event] }

/-- Changes the forest without a word. -/
def revise (e : Editor) (change : Forest → Forest) : Editor :=
  { e with forest := change e.forest }

/-- Links a child upwards to a slot of its parent. -/
def attach (e : Editor) (child parent : NodeId) (p : Property) : Editor :=
  (e.revise fun f => f.setLink child ⟨parent, p⟩).note (.attached child parent p)

/-- Takes a node out of its slot; a root stays as it is. -/
def unlink (e : Editor) (child : NodeId) : Editor :=
  match e.forest.link? child with
  | none => e
  | some ⟨parent, p⟩ =>
    (e.revise fun f => (f.modifyNode parent fun n => n.eraseChild p child).clearLink child).note
      (.detached child parent p)

/-- Cuts the link of a node whose slot has gone to another one. -/
def displace (e : Editor) (parent : NodeId) (p : Property) (child : NodeId) : Editor :=
  (e.revise fun f => f.clearLink child).note (.displaced parent p child)

/-! ### Edits -/

/-- Brings a new node into the forest, with its children. Answers its identifier. -/
def insert (e : Editor) (n : Node) : Outcome NodeId :=
  match e.forest.checkInsert n with
  | .error reason => (.error reason, e)
  | .ok () =>
    let id := e.forest.lastId.next
    let freed := n.children.foldl unlink e
    let linked := n.entries.foldl (fun e entry => e.attach entry.2 id entry.1) freed
    (.ok id, (linked.revise fun f => f.store id n).note (.added id n.kind))

/-- Puts a child, or none, into a single slot. Answers the child that lost the slot, if any; there
is none if the slot holds the right child already. -/
def fill (e : Editor) (parent : NodeId) (p : Property) (child : Option NodeId) :
    Outcome (Option NodeId) :=
  match e.forest.checkSlot parent p .single with
  | .error reason => (.error reason, e)
  | .ok expected =>
    let previous := e.forest.childIn? parent p
    if child = previous then (.ok none, e)
    else
      match child.forM (e.forest.checkAttach parent p expected) with
      | .error reason => (.error reason, e)
      | .ok () =>
        let freed := child.elim e e.unlink
        let written := freed.revise fun f =>
          f.modifyNode parent fun n => n.setSlot p (.single child)
        let displaced := previous.elim written (written.displace parent p)
        let linked := child.elim displaced fun child => displaced.attach child parent p
        (.ok previous, linked)

/-- Puts a child at the end of a list slot; no child changes nothing. -/
def append (e : Editor) (parent : NodeId) (p : Property) (child : Option NodeId) : Outcome Unit :=
  match e.forest.checkSlot parent p .list with
  | .error reason => (.error reason, e)
  | .ok expected =>
    match child with
    | none => (.ok (), e)
    | some child =>
      match e.forest.checkAttach parent p expected child with
      | .error reason => (.error reason, e)
      | .ok () =>
        let written := (e.unlink child).revise fun f =>
          f.modifyNode parent fun n => n.appendChild p child
        (.ok (), written.attach child parent p)

/-- Takes a node from its parent. Answers the parent it had. -/
def detach (e : Editor) (id : NodeId) : Outcome (Option NodeId) :=
  match e.forest.require id, e.forest.checkDetachable [id] with
  | .error reason, _ => (.error reason, e)
  | .ok _, .error reason => (.error reason, e)
  | .ok _, .ok () => (.ok (e.forest.parent? id), e.unlink id)

/-- Puts a new child exactly where an old one stands below a parent. -/
def substitute (e : Editor) (parent old new : NodeId) : Outcome Unit :=
  match e.forest.require parent with
  | .error reason => (.error reason, e)
  | .ok owner =>
    match owner.locate? old with
    | none =>
      match e.forest.policy.missingChild with
      | .error => (.error (.notAChild parent old), e)
      | .ignore => (.ok (), e.note (.overlooked parent old))
    | some (p, _) =>
      if old = new then (.ok (), e)
      else
        match e.forest.checkSubstitute parent owner p old new with
        | .error reason => (.error reason, e)
        | .ok () =>
          let written := (e.unlink new).revise fun f =>
            (f.modifyNode parent fun n => n.replaceChild p old new).clearLink old
          (.ok (), (written.attach new parent p).note (.replaced parent old new p))

/-- Takes a node from its parent and drops it with all that stands below it. Answers how many
nodes were dropped. -/
def prune (e : Editor) (id : NodeId) : Outcome Nat :=
  match e.detach id with
  | (.error reason, e) => (.error reason, e)
  | (.ok _, e) =>
    let (dropped, rest) := e.forest.dropSubtree id
    (.ok dropped.length, e.revise fun _ => rest)

/-- Puts one alternative of an ambiguity in the place of the ambiguity and drops the rest of it.
Answers the alternative that won. -/
def resolve (e : Editor) (id : NodeId) (index : Nat) : Outcome NodeId :=
  match e.forest.checkAlternative id index with
  | .error reason => (.error reason, e)
  | .ok winner =>
    let lifted : Outcome Unit :=
      match e.forest.parent? id with
      | some parent => e.substitute parent id winner
      | none => (.ok (), e.unlink winner)
    match lifted with
    | (.error reason, e) => (.error reason, e)
    | (.ok (), e) =>
      match e.prune id with
      | (.error reason, e) => (.error reason, e)
      | (.ok reclaimed, e) => (.ok winner, e.note (.resolved id winner reclaimed))

end Editor

end SyntaxForest
