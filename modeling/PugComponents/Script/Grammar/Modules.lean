import PugComponents.Script.Grammar.Shared

/-! Whole scripts, and what binds a script to others: imports, exports and namespaces. -/

namespace PugComponents.Script.Grammar

open Kind
open Token hiding text

def moduleRules : List (Kind × Rule) := [
  (program, seq [optional hashLine, zeroOrMore statement]),
  (exportStatement, oneOf [
      seq ["export",
        oneOf [seq ["*", fromClause], seq [namespaceExport, fromClause],
          seq [exportClause, fromClause], exportClause], semicolon],
      seq [zeroOrMore decorator, "export",
        oneOf [declaration, seq ["default", oneOf [declaration, seq [expression, semicolon]]]]],
      seq ["export", "type", exportClause, optional fromClause, semicolon],
      seq ["export", "import", importAlias], seq ["export", "=", expression, semicolon],
      seq ["export", "as", "namespace", word, semicolon]]),
  (namespaceExport, seq ["*", "as", moduleExportName]),
  (exportClause, braced [commasOrNone exportSpecifier, optional ","]),
  (exportSpecifier, seq [optional (oneOf ["type", "typeof"]), moduleExportName,
      optional (seq ["as", moduleExportName])]),
  (moduleExportName, oneOf [word, string]),
  (importKeyword, seq ["import"]),
  (importStatement, seq ["import", optional (oneOf ["type", "typeof"]),
      oneOf [seq [importClause, fromClause], importRequireClause, string],
      optional importAttribute, semicolon]),
  (importClause, oneOf [namespaceImport, namedImports,
      seq [importName, optional (seq [",", oneOf [namespaceImport, namedImports]])]]),
  (fromClause, seq ["from", string]),
  (namespaceImport, seq ["*", "as", word]),
  (namedImports, braced [commasOrNone importSpecifier, optional ","]),
  (importSpecifier, seq [optional (oneOf ["type", "typeof"]),
      oneOf [importName,
        seq [oneOf [moduleExportName, renamed .variable "type"], "as", importName]]]),
  (importAttribute, seq ["with", object]),
  (importName, oneOf [word, renamed .variable "type"]),
  (importRequireClause, seq [word, "=", "require", parenthesized [string]]),
  (importAlias, seq ["import", word, "=", oneOf [word, nestedIdentifier], semicolon]),
  (moduleDeclaration, seq ["module", moduleBody]),
  (namespaceDeclaration, seq ["namespace", moduleBody]),
  (moduleBody, rightward (seq [oneOf [string, word, nestedIdentifier], optional statementBlock])),
  (nestedIdentifier, rank .member (seq [oneOf [word, renamed .memberExpression nestedIdentifier],
      ".", renamed .propertyWord word]))]

end PugComponents.Script.Grammar
