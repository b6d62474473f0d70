import SyntaxForest.Forest

/-!
# Source text

The text a node covers: the text its location records, or else the text that its subtree renders
to. A node that does not exist has no text.

A node is rendered from the texts of its children (`Node.render`). An absent child has no text,
except where its absence changes the form: a statement that returns nothing, a declarator without
initializer, an if-statement without else-branch.
-/

namespace SyntaxForest

/-! ### Rendering nodes -/

/-- The texts that are not empty, joined by single spaces. -/
def joinNonempty (parts : List String) : String :=
  " ".intercalate (parts.filter fun part => !part.isEmpty)

/-- A text followed by the value it is given, if any. -/
def assigned (head : String) : Option String → String
  | some value => head ++ " = " ++ value
  | none => head

namespace Node

/-- The text of the child in a single slot, empty if there is none. -/
def textIn (n : Node) (text : NodeId → String) (p : Property) : String :=
  (n.childIn? p).elim "" text

/-- The texts of the children in a list slot, with a separator between them. -/
def textsIn (n : Node) (text : NodeId → String) (separator : String) (p : Property) : String :=
  separator.intercalate ((n.childrenIn p).map text)

/-- The text of a node whose children read as `text` says. -/
def render (n : Node) (text : NodeId → String) : String :=
  let one := n.textIn text
  let optional := fun p => (n.childIn? p).map text
  let many := n.textsIn text
  match n.content with
  | .translationUnit => many "\n" .ownedDeclaration
  | .name name => name
  | .problem _ message => message
  | .literalExpression _ value => value
  | .idExpression => one .idName
  | .unaryExpression operator => operator.wrap (one .operand)
  | .binaryExpression operator =>
    one .operand1 ++ " " ++ operator.symbol ++ " " ++ one .operand2
  | .functionCallExpression => one .functionName ++ "(" ++ many ", " .functionArgument ++ ")"
  | .problemExpression | .problemStatement | .problemDeclaration | .problemTypeId => one .problem
  | .compoundStatement =>
    if (n.childrenIn .nestedStatement).isEmpty then "\x7b\x7d"
    else "\x7b " ++ many " " .nestedStatement ++ " \x7d"
  | .expressionStatement => one .expression ++ ";"
  | .declarationStatement => one .declaration
  | .whileStatement => "while (" ++ one .conditionExpression ++ ") " ++ one .body
  | .doStatement => "do " ++ one .body ++ " while (" ++ one .conditionExpression ++ ");"
  | .ifStatement =>
    "if (" ++ one .conditionExpression ++ ") " ++ one .thenClause ++
      (optional .elseClause).elim "" fun clause => " else " ++ clause
  | .returnStatement => (optional .returnValue).elim "return;" fun value => "return " ++ value ++ ";"
  | .nullStatement => ";"
  | .simpleDeclaration => joinNonempty [one .declSpecifier, many ", " .declarator] ++ ";"
  | .declarator => assigned (one .declaratorName) (optional .initializer)
  | .simpleDeclSpecifier simpleType => simpleType.keyword
  | .namedTypeSpecifier => one .namedTypeName
  | .enumerationSpecifier => one .enumerationName
  | .enumerator => assigned (one .enumeratorName) (optional .enumeratorValue)
  | .typeId => joinNonempty [one .declSpecifier, one .abstractDeclarator]
  | .simpleTypeTemplateParameter parameterKind =>
    assigned (joinNonempty [parameterKind.keyword, one .parameterName]) (optional .defaultType)
  | .ambiguity _ => one .alternative

end Node

/-! ### The text of a subtree -/

namespace Forest

/-- The text a node covers, rendered down to a number of levels. -/
def sourceTextWithin (f : Forest) : Nat → NodeId → String
  | 0, _ => ""
  | levels + 1, id =>
    match f.node? id with
    | none => ""
    | some n =>
      if n.location.source.isEmpty then n.render (f.sourceTextWithin levels)
      else n.location.source

/-- The text a node covers. -/
def sourceText (f : Forest) (id : NodeId) : String := f.sourceTextWithin f.size id

end Forest

end SyntaxForest
