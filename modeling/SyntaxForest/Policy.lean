import SyntaxForest.Json

/-!
# Policies

Two choices fix how lenient a forest is towards its caller. The strict choice is the default in
both.
-/

namespace SyntaxForest

/-- What attaching a node that already has a parent does. -/
inductive Reattach where
  /-- It fails; the caller has to detach the node first. -/
  | reject
  /-- It takes the node away from its old parent. -/
  | detach
  deriving DecidableEq, Repr

namespace Reattach

instance : Inhabited Reattach := ⟨reject⟩

instance : Vocabulary Reattach where
  members := [reject, detach]
  name
    | reject => "reject"
    | detach => "detach"
  mem_members a := by cases a <;> decide
  nodup_names := by decide

end Reattach

/-- What replacing a node under a parent that does not hold it does. -/
inductive MissingChild where
  /-- It fails. -/
  | error
  /-- It leaves the forest as it is and succeeds. -/
  | ignore
  deriving DecidableEq, Repr

namespace MissingChild

instance : Inhabited MissingChild := ⟨error⟩

instance : Vocabulary MissingChild where
  members := [error, ignore]
  name
    | error => "error"
    | ignore => "ignore"
  mem_members a := by cases a <;> decide
  nodup_names := by decide

end MissingChild

/-- The policies of a forest. -/
structure Policy where
  reattach : Reattach
  missingChild : MissingChild
  deriving DecidableEq, Repr

namespace Policy

/-- The strict choice in both policies. -/
def strict : Policy := ⟨.reject, .error⟩

instance : Inhabited Policy := ⟨strict⟩

/-- The fields of written policies, in order. -/
def fieldNames : List String := ["reattach", "missing_child"]

/-- The policies as a record. -/
def toJson (p : Policy) : Json :=
  .obj [("reattach", .ofMember p.reattach), ("missing_child", .ofMember p.missingChild)]

/-- The policies from a record; one that is left out is strict. -/
def ofJson? (j : Json) : Option Policy := do
  let fields ← j.partialRecord? fieldNames
  let reattach ← Json.defaulted? fields "reattach" Reattach.reject Json.member?
  let missingChild ← Json.defaulted? fields "missing_child" MissingChild.error Json.member?
  return ⟨reattach, missingChild⟩

@[simp] theorem ofJson?_toJson (p : Policy) : ofJson? p.toJson = some p := by
  simp [toJson, ofJson?, Json.partialRecord?, Json.defaulted?, List.lookup_cons]

end Policy

end SyntaxForest
