import SyntaxForest.Vocabulary

/-!
# Syntactic categories

Every kind of node belongs to one of twelve categories. Slots accept the nodes of one category,
and visitors declare their interest category by category.
-/

namespace SyntaxForest

/-- The syntactic category of a node. -/
inductive Category where
  | translationUnit
  | names
  | declarations
  | declarators
  | declSpecifiers
  | enumerators
  | expressions
  | statements
  | typeIds
  | problems
  | templateParameters
  | ambiguities
  deriving DecidableEq, Repr

namespace Category

instance : Vocabulary Category where
  members :=
    [translationUnit, names, declarations, declarators, declSpecifiers, enumerators,
      expressions, statements, typeIds, problems, templateParameters, ambiguities]
  name
    | translationUnit => "TranslationUnit"
    | names => "Names"
    | declarations => "Declarations"
    | declarators => "Declarators"
    | declSpecifiers => "DeclSpecifiers"
    | enumerators => "Enumerators"
    | expressions => "Expressions"
    | statements => "Statements"
    | typeIds => "TypeIds"
    | problems => "Problems"
    | templateParameters => "TemplateParameters"
    | ambiguities => "Ambiguities"
  mem_members a := by cases a <;> decide
  nodup_names := by decide

/-- The category as messages speak of one of its nodes. -/
def phrase : Category → String
  | translationUnit => "translation unit"
  | names => "name"
  | declarations => "declaration"
  | declarators => "declarator"
  | declSpecifiers => "declaration specifier"
  | enumerators => "enumerator"
  | expressions => "expression"
  | statements => "statement"
  | typeIds => "type-id"
  | problems => "problem"
  | templateParameters => "template parameter"
  | ambiguities => "ambiguity"

/-- The key under which a record of interests files the category. -/
def key : Category → String
  | translationUnit => "translation_unit"
  | names => "names"
  | declarations => "declarations"
  | declarators => "declarators"
  | declSpecifiers => "decl_specifiers"
  | enumerators => "enumerators"
  | expressions => "expressions"
  | statements => "statements"
  | typeIds => "type_ids"
  | problems => "problems"
  | templateParameters => "template_parameters"
  | ambiguities => "ambiguities"

/-- Whether the category exists in C++ but not in C. -/
def isCppOnly (c : Category) : Bool := c == templateParameters

/-- The position of the category in the fixed order. -/
def index (c : Category) : Nat := (Vocabulary.members : List Category).idxOf c

end Category

end SyntaxForest
