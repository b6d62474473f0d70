import SyntaxForest.Json
import SyntaxForest.Keyword
import SyntaxForest.Kind
import SyntaxForest.Operator

/-!
# Contents of nodes

What a node carries besides its children: its kind, and the plain data that nodes of that kind
have. An ambiguity carries the family of its alternatives, the category that all of them belong to.
-/

namespace SyntaxForest

/-- The kind of a node together with its plain data. -/
inductive Content where
  | translationUnit
  | name (text : String)
  | problem (code : UInt32) (message : String)
  | literalExpression (literalKind : LiteralKind) (value : String)
  | idExpression
  | unaryExpression (operator : UnaryOperator)
  | binaryExpression (operator : BinaryOperator)
  | functionCallExpression
  | problemExpression
  | compoundStatement
  | expressionStatement
  | declarationStatement
  | whileStatement
  | doStatement
  | ifStatement
  | returnStatement
  | nullStatement
  | problemStatement
  | simpleDeclaration
  | problemDeclaration
  | declarator
  | simpleDeclSpecifier (simpleType : SimpleType)
  | namedTypeSpecifier
  | enumerationSpecifier
  | enumerator
  | typeId
  | problemTypeId
  | simpleTypeTemplateParameter (parameterKind : TemplateParameterKind)
  | ambiguity (family : Category)
  deriving DecidableEq, Repr

namespace Content

/-- The kind of node that has these contents. -/
def kind : Content → Kind
  | translationUnit => .translationUnit
  | name _ => .name
  | problem _ _ => .problem
  | literalExpression _ _ => .literalExpression
  | idExpression => .idExpression
  | unaryExpression _ => .unaryExpression
  | binaryExpression _ => .binaryExpression
  | functionCallExpression => .functionCallExpression
  | problemExpression => .problemExpression
  | compoundStatement => .compoundStatement
  | expressionStatement => .expressionStatement
  | declarationStatement => .declarationStatement
  | whileStatement => .whileStatement
  | doStatement => .doStatement
  | ifStatement => .ifStatement
  | returnStatement => .returnStatement
  | nullStatement => .nullStatement
  | problemStatement => .problemStatement
  | simpleDeclaration => .simpleDeclaration
  | problemDeclaration => .problemDeclaration
  | declarator => .declarator
  | simpleDeclSpecifier _ => .simpleDeclSpecifier
  | namedTypeSpecifier => .namedTypeSpecifier
  | enumerationSpecifier => .enumerationSpecifier
  | enumerator => .enumerator
  | typeId => .typeId
  | problemTypeId => .problemTypeId
  | simpleTypeTemplateParameter _ => .simpleTypeTemplateParameter
  | ambiguity _ => .ambiguity

/-- The family of an ambiguity. -/
def family? : Content → Option Category
  | ambiguity family => some family
  | _ => none

/-- The text of a name. -/
def nameText? : Content → Option String
  | name text => some text
  | _ => none

/-- The category a node with these contents counts as where it stands in a slot: an ambiguity
stands for a node of its family. -/
def slotCategory (c : Content) : Category :=
  c.family?.getD c.kind.category

/-! ### Written form -/

/-- The fields for the plain data of a kind, in order. -/
def fieldNames : Kind → List String
  | .name => ["text"]
  | .problem => ["code", "message"]
  | .literalExpression => ["literal_kind", "value"]
  | .unaryExpression | .binaryExpression => ["operator"]
  | .simpleDeclSpecifier => ["simple_type"]
  | .simpleTypeTemplateParameter => ["parameter_kind"]
  | .ambiguity => ["family"]
  | _ => []

/-- The plain data with the fields that hold it. -/
def fields : Content → List (String × Json)
  | name text => [("text", .str text)]
  | problem code message => [("code", .ofWord code), ("message", .str message)]
  | literalExpression literalKind value =>
    [("literal_kind", .ofMember literalKind), ("value", .str value)]
  | unaryExpression operator => [("operator", .ofMember operator)]
  | binaryExpression operator => [("operator", .ofMember operator)]
  | simpleDeclSpecifier simpleType => [("simple_type", .ofMember simpleType)]
  | simpleTypeTemplateParameter parameterKind => [("parameter_kind", .ofMember parameterKind)]
  | ambiguity family => [("family", .ofMember family)]
  | _ => []

/-- The contents of a node of a given kind, from the fields of its written form. -/
def ofFields? (k : Kind) (fields : List (String × Json)) : Option Content :=
  match k with
  | .translationUnit => some translationUnit
  | .name => do
    let text ← Json.required? fields "text" Json.str?
    return name text
  | .problem => do
    let code ← Json.required? fields "code" Json.word?
    let message ← Json.required? fields "message" Json.str?
    return problem code message
  | .literalExpression => do
    let literalKind ← Json.required? fields "literal_kind" Json.member?
    let value ← Json.required? fields "value" Json.str?
    return literalExpression literalKind value
  | .idExpression => some idExpression
  | .unaryExpression => do
    let operator ← Json.required? fields "operator" Json.member?
    return unaryExpression operator
  | .binaryExpression => do
    let operator ← Json.required? fields "operator" Json.member?
    return binaryExpression operator
  | .functionCallExpression => some functionCallExpression
  | .problemExpression => some problemExpression
  | .compoundStatement => some compoundStatement
  | .expressionStatement => some expressionStatement
  | .declarationStatement => some declarationStatement
  | .whileStatement => some whileStatement
  | .doStatement => some doStatement
  | .ifStatement => some ifStatement
  | .returnStatement => some returnStatement
  | .nullStatement => some nullStatement
  | .problemStatement => some problemStatement
  | .simpleDeclaration => some simpleDeclaration
  | .problemDeclaration => some problemDeclaration
  | .declarator => some declarator
  | .simpleDeclSpecifier => do
    let simpleType ← Json.required? fields "simple_type" Json.member?
    return simpleDeclSpecifier simpleType
  | .namedTypeSpecifier => some namedTypeSpecifier
  | .enumerationSpecifier => some enumerationSpecifier
  | .enumerator => some enumerator
  | .typeId => some typeId
  | .problemTypeId => some problemTypeId
  | .simpleTypeTemplateParameter => do
    let parameterKind ← Json.required? fields "parameter_kind" Json.member?
    return simpleTypeTemplateParameter parameterKind
  | .ambiguity => do
    let family ← Json.required? fields "family" Json.member?
    return ambiguity family

/-- The fields of some contents are those of their kind. -/
theorem map_fst_fields (c : Content) : c.fields.map Prod.fst = fieldNames c.kind := by
  cases c <;> rfl

/-- The contents are read back wherever their fields are found. -/
theorem ofFields?_of_lookup {c : Content} {read : List (String × Json)}
    (h : ∀ e ∈ c.fields, read.lookup e.1 = some e.2) : ofFields? c.kind read = some c := by
  cases c <;> simp only [fields, List.forall_mem_cons] at h <;>
    simp [ofFields?, kind, Json.required?, h, Json.str?]

end Content

end SyntaxForest
