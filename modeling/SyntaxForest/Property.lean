import SyntaxForest.Category
import SyntaxForest.Slot

/-!
# Properties and roles

A property says which slot of its parent a node occupies. A role says what an occurrence of a name
does to the entity it names.

The same property may belong to several kinds of node, and it means the same in all of them: the
property alone fixes the field that holds the slot, the shape of the slot, the category it accepts,
and the role of a name standing there. The tables of the kinds are what counts, and
`Kind.eq_row_of_mem_table` says that they have these values.
-/

namespace SyntaxForest

/-- The role a name plays in the node that holds it. -/
inductive Role where
  | definition
  | declaration
  | reference
  | unclear
  deriving DecidableEq, Repr

namespace Role

instance : Inhabited Role := ⟨unclear⟩

instance : Vocabulary Role where
  members := [definition, declaration, reference, unclear]
  name
    | definition => "Definition"
    | declaration => "Declaration"
    | reference => "Reference"
    | unclear => "Unclear"
  mem_members a := by cases a <;> decide
  nodup_names := by decide

end Role

/-- The identity of a slot. -/
inductive Property where
  | ownedDeclaration
  | idName
  | operand
  | operand1
  | operand2
  | functionName
  | functionArgument
  | problem
  | nestedStatement
  | expression
  | declaration
  | conditionExpression
  | body
  | thenClause
  | elseClause
  | returnValue
  | declSpecifier
  | declarator
  | declaratorName
  | initializer
  | namedTypeName
  | enumerationName
  | enumerator
  | enumeratorName
  | enumeratorValue
  | abstractDeclarator
  | parameterName
  | defaultType
  | alternative
  deriving DecidableEq, Repr

namespace Property

instance : Vocabulary Property where
  members :=
    [ownedDeclaration, idName, operand, operand1, operand2, functionName, functionArgument,
      problem, nestedStatement, expression, declaration, conditionExpression, body, thenClause,
      elseClause, returnValue, declSpecifier, declarator, declaratorName, initializer,
      namedTypeName, enumerationName, enumerator, enumeratorName, enumeratorValue,
      abstractDeclarator, parameterName, defaultType, alternative]
  name
    | ownedDeclaration => "OwnedDeclaration"
    | idName => "IdName"
    | operand => "Operand"
    | operand1 => "Operand1"
    | operand2 => "Operand2"
    | functionName => "FunctionName"
    | functionArgument => "FunctionArgument"
    | problem => "Problem"
    | nestedStatement => "NestedStatement"
    | expression => "Expression"
    | declaration => "Declaration"
    | conditionExpression => "ConditionExpression"
    | body => "Body"
    | thenClause => "ThenClause"
    | elseClause => "ElseClause"
    | returnValue => "ReturnValue"
    | declSpecifier => "DeclSpecifier"
    | declarator => "Declarator"
    | declaratorName => "DeclaratorName"
    | initializer => "Initializer"
    | namedTypeName => "NamedTypeName"
    | enumerationName => "EnumerationName"
    | enumerator => "Enumerator"
    | enumeratorName => "EnumeratorName"
    | enumeratorValue => "EnumeratorValue"
    | abstractDeclarator => "AbstractDeclarator"
    | parameterName => "ParameterName"
    | defaultType => "DefaultType"
    | alternative => "Alternative"
  mem_members a := by cases a <;> decide
  nodup_names := by decide

/-- The property as messages speak of it. -/
def label : Property → String
  | ownedDeclaration => "owned_declaration"
  | idName => "id_name"
  | operand => "operand"
  | operand1 => "operand1"
  | operand2 => "operand2"
  | functionName => "function_name"
  | functionArgument => "function_argument"
  | problem => "problem"
  | nestedStatement => "nested_statement"
  | expression => "expression"
  | declaration => "declaration"
  | conditionExpression => "condition"
  | body => "body"
  | thenClause => "then_clause"
  | elseClause => "else_clause"
  | returnValue => "return_value"
  | declSpecifier => "decl_specifier"
  | declarator => "declarator"
  | declaratorName => "declarator_name"
  | initializer => "initializer"
  | namedTypeName => "named_type_name"
  | enumerationName => "enumeration_name"
  | enumerator => "enumerator"
  | enumeratorName => "enumerator_name"
  | enumeratorValue => "enumerator_value"
  | abstractDeclarator => "abstract_declarator"
  | parameterName => "parameter_name"
  | defaultType => "default_type"
  | alternative => "alternative"

/-- The field that holds the slot in the written form of a node. -/
def field : Property → String
  | ownedDeclaration => "declarations"
  | idName | declaratorName | namedTypeName | enumerationName | enumeratorName
  | parameterName => "name"
  | functionArgument => "arguments"
  | nestedStatement => "statements"
  | declarator => "declarators"
  | enumerator => "enumerators"
  | enumeratorValue => "value"
  | alternative => "alternatives"
  | operand => "operand"
  | operand1 => "operand1"
  | operand2 => "operand2"
  | functionName => "function_name"
  | problem => "problem"
  | expression => "expression"
  | declaration => "declaration"
  | conditionExpression => "condition"
  | body => "body"
  | thenClause => "then_clause"
  | elseClause => "else_clause"
  | returnValue => "return_value"
  | declSpecifier => "decl_specifier"
  | initializer => "initializer"
  | abstractDeclarator => "abstract_declarator"
  | defaultType => "default_type"

/-- The shape of the slot. -/
def shape : Property → Shape
  | ownedDeclaration | functionArgument | nestedStatement | declarator | enumerator
  | alternative => .list
  | _ => .single

/-- The category the slot accepts. The alternatives of an ambiguity are an exception: which
category they belong to varies from node to node, and the entry here only holds the place. -/
def accepts : Property → Category
  | ownedDeclaration | declaration => .declarations
  | idName | declaratorName | namedTypeName | enumerationName | enumeratorName
  | parameterName => .names
  | operand | operand1 | operand2 | functionName | functionArgument | expression
  | conditionExpression | returnValue | initializer | enumeratorValue => .expressions
  | problem => .problems
  | nestedStatement | body | thenClause | elseClause => .statements
  | declSpecifier => .declSpecifiers
  | declarator | abstractDeclarator => .declarators
  | enumerator => .enumerators
  | defaultType => .typeIds
  | alternative => .ambiguities

/-- The role of a name that occupies the slot. -/
def role : Property → Role
  | enumerationName | enumeratorName => .definition
  | declaratorName | parameterName => .declaration
  | idName | namedTypeName => .reference
  | _ => .unclear

end Property

end SyntaxForest
