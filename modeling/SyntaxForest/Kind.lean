import SyntaxForest.Property

/-!
# Kinds of node

The twenty-nine kinds of node, the category of each, and its table of slots in traversal order. A
row of the table has all that is fixed about a slot before a node is made. Several kinds share a
property; their rows are written out kind by kind, and `Kind.eq_row_of_mem_table` says that they
agree.
-/

namespace SyntaxForest

/-- What a kind of node says about one of its slots. -/
structure SlotRow where
  /-- The field of the written form that holds the slot. -/
  field : String
  property : Property
  shape : Shape
  /-- The category of the nodes that may stand in the slot. -/
  accepts : Category
  /-- The role of a name that stands in the slot. -/
  role : Role
  deriving DecidableEq, Repr

/-- The row that a property has in every table. -/
def Property.row (p : Property) : SlotRow := ⟨p.field, p, p.shape, p.accepts, p.role⟩

/-- The kind of a node. -/
inductive Kind where
  | translationUnit
  | name
  | problem
  | literalExpression
  | idExpression
  | unaryExpression
  | binaryExpression
  | functionCallExpression
  | problemExpression
  | compoundStatement
  | expressionStatement
  | declarationStatement
  | whileStatement
  | doStatement
  | ifStatement
  | returnStatement
  | nullStatement
  | problemStatement
  | simpleDeclaration
  | problemDeclaration
  | declarator
  | simpleDeclSpecifier
  | namedTypeSpecifier
  | enumerationSpecifier
  | enumerator
  | typeId
  | problemTypeId
  | simpleTypeTemplateParameter
  /-- Several parses of the same text that cannot be told apart yet. -/
  | ambiguity
  deriving DecidableEq, Repr

namespace Kind

instance : Vocabulary Kind where
  members :=
    [translationUnit, name, problem, literalExpression, idExpression, unaryExpression,
      binaryExpression, functionCallExpression, problemExpression, compoundStatement,
      expressionStatement, declarationStatement, whileStatement, doStatement, ifStatement,
      returnStatement, nullStatement, problemStatement, simpleDeclaration, problemDeclaration,
      declarator, simpleDeclSpecifier, namedTypeSpecifier, enumerationSpecifier, enumerator,
      typeId, problemTypeId, simpleTypeTemplateParameter, ambiguity]
  name
    | translationUnit => "TranslationUnit"
    | name => "Name"
    | problem => "Problem"
    | literalExpression => "LiteralExpression"
    | idExpression => "IdExpression"
    | unaryExpression => "UnaryExpression"
    | binaryExpression => "BinaryExpression"
    | functionCallExpression => "FunctionCallExpression"
    | problemExpression => "ProblemExpression"
    | compoundStatement => "CompoundStatement"
    | expressionStatement => "ExpressionStatement"
    | declarationStatement => "DeclarationStatement"
    | whileStatement => "WhileStatement"
    | doStatement => "DoStatement"
    | ifStatement => "IfStatement"
    | returnStatement => "ReturnStatement"
    | nullStatement => "NullStatement"
    | problemStatement => "ProblemStatement"
    | simpleDeclaration => "SimpleDeclaration"
    | problemDeclaration => "ProblemDeclaration"
    | declarator => "Declarator"
    | simpleDeclSpecifier => "SimpleDeclSpecifier"
    | namedTypeSpecifier => "NamedTypeSpecifier"
    | enumerationSpecifier => "EnumerationSpecifier"
    | enumerator => "Enumerator"
    | typeId => "TypeId"
    | problemTypeId => "ProblemTypeId"
    | simpleTypeTemplateParameter => "SimpleTypeTemplateParameter"
    | ambiguity => "Ambiguity"
  mem_members a := by cases a <;> decide
  nodup_names := by decide

/-- The category that nodes of a kind belong to. -/
def category : Kind → Category
  | translationUnit => .translationUnit
  | name => .names
  | problem => .problems
  | literalExpression | idExpression | unaryExpression | binaryExpression
  | functionCallExpression | problemExpression => .expressions
  | compoundStatement | expressionStatement | declarationStatement | whileStatement
  | doStatement | ifStatement | returnStatement | nullStatement
  | problemStatement => .statements
  | simpleDeclaration | problemDeclaration => .declarations
  | declarator => .declarators
  | simpleDeclSpecifier | namedTypeSpecifier | enumerationSpecifier => .declSpecifiers
  | enumerator => .enumerators
  | typeId | problemTypeId => .typeIds
  | simpleTypeTemplateParameter => .templateParameters
  | ambiguity => .ambiguities

/-- The slots that nodes of a kind have, in traversal order. The row of an ambiguity names a
category for the sake of its place only: what the alternatives belong to varies from node to node
(`Node.accepts?`). -/
def table : Kind → List SlotRow
  | translationUnit => [⟨"declarations", .ownedDeclaration, .list, .declarations, .unclear⟩]
  | name => []
  | problem => []
  | literalExpression => []
  | idExpression => [⟨"name", .idName, .single, .names, .reference⟩]
  | unaryExpression => [⟨"operand", .operand, .single, .expressions, .unclear⟩]
  | binaryExpression =>
    [⟨"operand1", .operand1, .single, .expressions, .unclear⟩,
      ⟨"operand2", .operand2, .single, .expressions, .unclear⟩]
  | functionCallExpression =>
    [⟨"function_name", .functionName, .single, .expressions, .unclear⟩,
      ⟨"arguments", .functionArgument, .list, .expressions, .unclear⟩]
  | problemExpression => [⟨"problem", .problem, .single, .problems, .unclear⟩]
  | compoundStatement => [⟨"statements", .nestedStatement, .list, .statements, .unclear⟩]
  | expressionStatement => [⟨"expression", .expression, .single, .expressions, .unclear⟩]
  | declarationStatement => [⟨"declaration", .declaration, .single, .declarations, .unclear⟩]
  | whileStatement =>
    [⟨"condition", .conditionExpression, .single, .expressions, .unclear⟩,
      ⟨"body", .body, .single, .statements, .unclear⟩]
  | doStatement =>
    [⟨"body", .body, .single, .statements, .unclear⟩,
      ⟨"condition", .conditionExpression, .single, .expressions, .unclear⟩]
  | ifStatement =>
    [⟨"condition", .conditionExpression, .single, .expressions, .unclear⟩,
      ⟨"then_clause", .thenClause, .single, .statements, .unclear⟩,
      ⟨"else_clause", .elseClause, .single, .statements, .unclear⟩]
  | returnStatement => [⟨"return_value", .returnValue, .single, .expressions, .unclear⟩]
  | nullStatement => []
  | problemStatement => [⟨"problem", .problem, .single, .problems, .unclear⟩]
  | simpleDeclaration =>
    [⟨"decl_specifier", .declSpecifier, .single, .declSpecifiers, .unclear⟩,
      ⟨"declarators", .declarator, .list, .declarators, .unclear⟩]
  | problemDeclaration => [⟨"problem", .problem, .single, .problems, .unclear⟩]
  | declarator =>
    [⟨"name", .declaratorName, .single, .names, .declaration⟩,
      ⟨"initializer", .initializer, .single, .expressions, .unclear⟩]
  | simpleDeclSpecifier => []
  | namedTypeSpecifier => [⟨"name", .namedTypeName, .single, .names, .reference⟩]
  | enumerationSpecifier =>
    [⟨"name", .enumerationName, .single, .names, .definition⟩,
      ⟨"enumerators", .enumerator, .list, .enumerators, .unclear⟩]
  | enumerator =>
    [⟨"name", .enumeratorName, .single, .names, .definition⟩,
      ⟨"value", .enumeratorValue, .single, .expressions, .unclear⟩]
  | typeId =>
    [⟨"decl_specifier", .declSpecifier, .single, .declSpecifiers, .unclear⟩,
      ⟨"abstract_declarator", .abstractDeclarator, .single, .declarators, .unclear⟩]
  | problemTypeId => [⟨"problem", .problem, .single, .problems, .unclear⟩]
  | simpleTypeTemplateParameter =>
    [⟨"name", .parameterName, .single, .names, .declaration⟩,
      ⟨"default_type", .defaultType, .single, .typeIds, .unclear⟩]
  | ambiguity => [⟨"alternatives", .alternative, .list, .ambiguities, .unclear⟩]

/-- The properties of the slots of a kind, in traversal order. -/
def properties (k : Kind) : List Property := k.table.map SlotRow.property

/-- The slots that are filled when a node is made. Enumerators are not among them: they are
appended afterwards, in the order of their declaration. -/
def initialProperties (k : Kind) : List Property :=
  k.properties.filter (· ≠ .enumerator)

/-- No kind has two slots of one property. -/
theorem nodup_properties (k : Kind) : k.properties.Nodup := by
  cases k <;> decide

/-- No kind has two slots in one field. -/
theorem nodup_fields (k : Kind) : (k.table.map SlotRow.field).Nodup := by
  cases k <;> decide

/-- The tables go by the property: wherever a property occurs, its row says the same. -/
theorem eq_row_of_mem_table {k : Kind} {row : SlotRow} (h : row ∈ k.table) :
    row = row.property.row := by
  revert row
  cases k <;> decide

/-- A table is determined by the properties in it. -/
theorem map_row_properties (k : Kind) : k.properties.map Property.row = k.table := by
  rw [properties, List.map_map]
  refine (List.map_congr_left fun row hrow => ?_).trans (List.map_id k.table)
  exact (eq_row_of_mem_table hrow).symm

/-- The row of a property is found in the tables of the kinds that have it. -/
theorem find?_table (k : Kind) (p : Property) :
    (k.table.find? fun row => row.property = p) =
      if p ∈ k.properties then some p.row else none := by
  cases h : k.table.find? fun row => row.property = p with
  | none =>
    have hp : p ∉ k.properties := by
      intro hp
      obtain ⟨row, hrow, rfl⟩ := List.mem_map.1 hp
      simpa using List.find?_eq_none.1 h row hrow
    rw [if_neg hp]
  | some row =>
    have hrow : row ∈ k.table := List.mem_of_find?_eq_some h
    obtain rfl : row.property = p := by simpa using List.find?_some h
    have hp : row.property ∈ k.properties := List.mem_map.2 ⟨row, hrow, rfl⟩
    rw [if_pos hp, ← eq_row_of_mem_table hrow]

end Kind

end SyntaxForest
