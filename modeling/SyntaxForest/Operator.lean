import SyntaxForest.Vocabulary

/-!
# Operators

The operators of unary and binary expressions and the way source text spells them.
-/

namespace SyntaxForest

/-- The operator of a unary expression. -/
inductive UnaryOperator where
  | minus
  | plus
  | not
  | tilde
  | star
  | amper
  | preIncrement
  | preDecrement
  | postIncrement
  | postDecrement
  | sizeOf
  | bracketed
  deriving DecidableEq, Repr

namespace UnaryOperator

instance : Vocabulary UnaryOperator where
  members :=
    [minus, plus, not, tilde, star, amper, preIncrement, preDecrement, postIncrement,
      postDecrement, sizeOf, bracketed]
  name
    | minus => "Minus"
    | plus => "Plus"
    | not => "Not"
    | tilde => "Tilde"
    | star => "Star"
    | amper => "Amper"
    | preIncrement => "PrefixIncr"
    | preDecrement => "PrefixDecr"
    | postIncrement => "PostfixIncr"
    | postDecrement => "PostfixDecr"
    | sizeOf => "SizeOf"
    | bracketed => "Bracketed"
  mem_members a := by cases a <;> decide
  nodup_names := by decide

/-- The text of the operator around the text of its operand. -/
def wrap (operator : UnaryOperator) (operand : String) : String :=
  match operator with
  | minus => "-" ++ operand
  | plus => "+" ++ operand
  | not => "!" ++ operand
  | tilde => "~" ++ operand
  | star => "*" ++ operand
  | amper => "&" ++ operand
  | preIncrement => "++" ++ operand
  | preDecrement => "--" ++ operand
  | postIncrement => operand ++ "++"
  | postDecrement => operand ++ "--"
  | sizeOf => "sizeof " ++ operand
  | bracketed => "(" ++ operand ++ ")"

end UnaryOperator

/-- The operator of a binary expression. -/
inductive BinaryOperator where
  | multiply
  | divide
  | modulo
  | plus
  | minus
  | shiftLeft
  | shiftRight
  | lessThan
  | greaterThan
  | lessEqual
  | greaterEqual
  | binaryAnd
  | binaryXor
  | binaryOr
  | logicalAnd
  | logicalOr
  | assign
  | equals
  | notEquals
  deriving DecidableEq, Repr

namespace BinaryOperator

instance : Vocabulary BinaryOperator where
  members :=
    [multiply, divide, modulo, plus, minus, shiftLeft, shiftRight, lessThan, greaterThan,
      lessEqual, greaterEqual, binaryAnd, binaryXor, binaryOr, logicalAnd, logicalOr, assign,
      equals, notEquals]
  name
    | multiply => "Multiply"
    | divide => "Divide"
    | modulo => "Modulo"
    | plus => "Plus"
    | minus => "Minus"
    | shiftLeft => "ShiftLeft"
    | shiftRight => "ShiftRight"
    | lessThan => "LessThan"
    | greaterThan => "GreaterThan"
    | lessEqual => "LessEqual"
    | greaterEqual => "GreaterEqual"
    | binaryAnd => "BinaryAnd"
    | binaryXor => "BinaryXor"
    | binaryOr => "BinaryOr"
    | logicalAnd => "LogicalAnd"
    | logicalOr => "LogicalOr"
    | assign => "Assign"
    | equals => "Equals"
    | notEquals => "NotEquals"
  mem_members a := by cases a <;> decide
  nodup_names := by decide

/-- The sign that stands between the operands. -/
def symbol : BinaryOperator → String
  | multiply => "*"
  | divide => "/"
  | modulo => "%"
  | plus => "+"
  | minus => "-"
  | shiftLeft => "<<"
  | shiftRight => ">>"
  | lessThan => "<"
  | greaterThan => ">"
  | lessEqual => "<="
  | greaterEqual => ">="
  | binaryAnd => "&"
  | binaryXor => "^"
  | binaryOr => "|"
  | logicalAnd => "&&"
  | logicalOr => "||"
  | assign => "="
  | equals => "=="
  | notEquals => "!="

end BinaryOperator

end SyntaxForest
