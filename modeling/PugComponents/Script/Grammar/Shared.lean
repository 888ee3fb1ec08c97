import PugComponents.Script.Rule

/-! Choices that many rules share. -/

namespace PugComponents.Script.Grammar

open Kind
open Token hiding text

def expressions : Rule := oneOf [expression, sequenceExpression]

def semicolon : Rule := oneOf [lineEnd, ";"]

/-- Words of the language that may also name a variable. -/
def reservedName : Rule := oneOf ["declare", "namespace", "type", "public", "private", "protected",
  "override", "readonly", "module", "any", "number", "boolean", "string", "symbol", "export",
  "object", "new", "get", "set", "async", "static", "let"]

def target : Rule := oneOf [memberExpression, subscriptExpression, "undefined", word,
  renamed .variable reservedName, destructuringPattern, nonNullExpression]

def typeName : Rule := renamed .typeWord word

def leftOperator (l : Level) (sign : String) : Rule :=
  rankLeft l (seq [expression, sign, expression])

def rightOperator (l : Level) (sign : String) : Rule :=
  rankRight l (seq [expression, sign, expression])

end PugComponents.Script.Grammar
