import SyntaxForest.Node

/-!
# Visitors

A visitor is a machine with a state of its own that is led through a subtree. At each node it first
states its interest, a set of categories. If the category of the node belongs to it, the visitor is
called when the node is reached and once more when its children are done; other nodes are walked
through without a word. The verdict of a call is to proceed, to skip the children and the second
call, or to abort the whole walk.
-/

namespace SyntaxForest

/-! ### Interests -/

/-- A set of categories. -/
@[ext] structure Interest where
  /-- Whether a category belongs to the set. -/
  contains : Category → Bool

namespace Interest

/-- No category. -/
def none : Interest := ⟨fun _ => false⟩

/-- The listed categories. -/
def only (categories : List Category) : Interest := ⟨fun c => categories.contains c⟩

/-- Every category. -/
def all : Interest := ⟨fun _ => true⟩

/-- The set with a category put in or taken out. -/
def set (i : Interest) (category : Category) (value : Bool) : Interest :=
  ⟨fun c => if c = category then value else i.contains c⟩

/-- The categories of the set, in their fixed order. -/
def categories (i : Interest) : List Category := Vocabulary.members.filter i.contains

/-! #### Written form -/

/-- The fields of a written interest, in order. -/
def fieldNames : List String := Vocabulary.members.map Category.key

/-- An interest as a record of booleans. -/
def toJson (i : Interest) : Json :=
  .obj (Vocabulary.members.map fun c => (c.key, .bool (i.contains c)))

/-- An interest from a record of booleans; a category that is left out does not belong to it. -/
def ofJson? (j : Json) : Option Interest := do
  let fields ← j.partialRecord? fieldNames
  let values ← (Vocabulary.members : List Category).mapM fun c =>
    (Json.defaulted? fields c.key false Json.bool?).map fun value => (c, value)
  return only ((values.filter Prod.snd).map Prod.fst)

end Interest

/-! ### Verdicts and visitors -/

/-- What a visitor wants to happen next. -/
inductive Verdict where
  /-- Go on with the children. -/
  | proceed
  /-- Go on with what comes after the subtree. -/
  | skip
  /-- Stop the walk. -/
  | abort
  deriving DecidableEq, Repr

namespace Verdict

instance : Inhabited Verdict := ⟨proceed⟩

instance : Vocabulary Verdict where
  members := [proceed, skip, abort]
  name
    | proceed => "Continue"
    | skip => "Skip"
    | abort => "Abort"
  mem_members a := by cases a <;> decide
  nodup_names := by decide

end Verdict

/-- A machine that is led through a subtree. -/
structure Visitor (σ : Type) where
  /-- The interest the visitor has at this moment. -/
  interest : σ → Interest × σ
  /-- The call when a node is reached. -/
  visit : Node → σ → Verdict × σ
  /-- The call when the children of a node are done. -/
  leave : Node → σ → Verdict × σ

end SyntaxForest
