import SyntaxForest.Vocabulary

/-!
# Literals and keywords

The classes of literals, the built-in types, and the keywords that introduce a template parameter.
-/

namespace SyntaxForest

/-- The class of a literal. -/
inductive LiteralKind where
  | integer
  | float
  | char
  | string
  deriving DecidableEq, Repr

namespace LiteralKind

instance : Vocabulary LiteralKind where
  members := [integer, float, char, string]
  name
    | integer => "Integer"
    | float => "Float"
    | char => "Char"
    | string => "String"
  mem_members a := by cases a <;> decide
  nodup_names := by decide

end LiteralKind

/-- A built-in type. -/
inductive SimpleType where
  | unspecified
  | void
  | char
  | int
  | float
  | double
  | bool
  deriving DecidableEq, Repr

namespace SimpleType

instance : Inhabited SimpleType := ⟨unspecified⟩

instance : Vocabulary SimpleType where
  members := [unspecified, void, char, int, float, double, bool]
  name
    | unspecified => "Unspecified"
    | void => "Void"
    | char => "Char"
    | int => "Int"
    | float => "Float"
    | double => "Double"
    | bool => "Bool"
  mem_members a := by cases a <;> decide
  nodup_names := by decide

/-- The keyword of the type; an unspecified type has none. -/
def keyword : SimpleType → String
  | unspecified => ""
  | void => "void"
  | char => "char"
  | int => "int"
  | float => "float"
  | double => "double"
  | bool => "_Bool"

end SimpleType

/-- The keyword that introduces a type template parameter. -/
inductive TemplateParameterKind where
  | classKeyword
  | typenameKeyword
  deriving DecidableEq, Repr

namespace TemplateParameterKind

instance : Inhabited TemplateParameterKind := ⟨classKeyword⟩

instance : Vocabulary TemplateParameterKind where
  members := [classKeyword, typenameKeyword]
  name
    | classKeyword => "Class"
    | typenameKeyword => "Typename"
  mem_members a := by cases a <;> decide
  nodup_names := by decide

/-- The keyword as source text spells it. -/
def keyword : TemplateParameterKind → String
  | classKeyword => "class"
  | typenameKeyword => "typename"

end TemplateParameterKind

end SyntaxForest
