import PugComponents.Script.Grammar.Shared

/-! Statements other than declarations. A semicolon at the end of one may be left out where the text
allows it. -/

namespace PugComponents.Script.Grammar

open Kind
open Token hiding text

def statementRules : List (Kind × Rule) := [
  (statement, oneOf [exportStatement, importStatement, debuggerStatement, expressionStatement,
      declaration, statementBlock, ifStatement, switchStatement, forStatement, forInStatement,
      whileStatement, doStatement, tryStatement, withStatement, breakStatement, continueStatement,
      returnStatement, throwStatement, emptyStatement, labeledStatement]),
  (expressionStatement, seq [expressions, semicolon]),
  (statementBlock, rightward (seq [braced [zeroOrMore statement], optional lineEnd])),
  (elseClause, seq ["else", statement]),
  (ifStatement, rightward (seq ["if", parenthesizedExpression, statement, optional elseClause])),
  (switchStatement, seq ["switch", parenthesizedExpression, switchBody]),
  (switchBody, braced [zeroOrMore (oneOf [switchCase, switchDefault])]),
  (switchCase, seq ["case", expressions, ":", zeroOrMore statement]),
  (switchDefault, seq ["default", ":", zeroOrMore statement]),
  (forStatement, seq ["for",
      parenthesized [
        oneOf [lexicalDeclaration, variableDeclaration, seq [expressions, ";"], emptyStatement],
        oneOf [seq [expressions, ";"], emptyStatement], optional expressions], statement]),
  (forInStatement, seq ["for", optional "await", forHeader, part .body statement]),
  (forHeader, parenthesized [
      oneOf [part .left (oneOf [target, parenthesizedExpression]),
        seq [part .keyword "var", part .left (oneOf [word, destructuringPattern]),
          optional initialValue],
        seq [part .keyword (oneOf ["let", "const"]),
          part .left (oneOf [word, destructuringPattern]), optional lineEnd]], oneOf ["in", "of"],
      part .right expressions]),
  (whileStatement, seq ["while", parenthesizedExpression, statement]),
  (doStatement, rightward (seq ["do", statement, "while", parenthesizedExpression,
      optional semicolon])),
  (tryStatement, seq ["try", statementBlock, optional catchClause, optional finallyClause]),
  (catchClause, seq ["catch",
      optional (parenthesized [part .parameter (oneOf [word, destructuringPattern]),
        optional ascription]), part .body statementBlock]),
  (finallyClause, seq ["finally", statementBlock]),
  (withStatement, seq ["with", parenthesizedExpression, statement]),
  (breakStatement, seq ["break", optional (renamed .labelWord word), semicolon]),
  (continueStatement, seq ["continue", optional (renamed .labelWord word), semicolon]),
  (debuggerStatement, seq ["debugger", semicolon]),
  (returnStatement, seq ["return", optional expressions, semicolon]),
  (throwStatement, seq ["throw", expressions, semicolon]),
  (emptyStatement, seq [";"]),
  (labeledStatement, weighted (-1) (seq [renamed .labelWord (oneOf [word, reservedName]), ":",
      statement]))]

end PugComponents.Script.Grammar
