import PugComponents.Script.Grammar.Shared

/-! Classes with their members and decorators. -/

namespace PugComponents.Script.Grammar

open Kind
open Token hiding text

def classRules : List (Kind × Rule) := [
  (classExpression, rank .literal (seq [zeroOrMore decorator, "class", optional typeName,
      optional typeParameters, optional classHeritage, classBody])),
  (classHeritage, oneOf [seq [extendsClause, optional implementsClause], implementsClause]),
  (extendsClause, seq ["extends", commas extendsEntry]),
  (extendsEntry, rank .heritage (seq [expression, optional typeArguments])),
  (implementsClause, seq ["implements", commas typeExpression]),
  (classBody, braced [
      zeroOrMore (oneOf [seq [zeroOrMore decorator, methodDefinition, optional semicolon],
        seq [methodSignature, oneOf [signatureEnd, ","]], classStaticBlock,
        seq [
          oneOf [abstractMethodSignature, indexSignature, methodSignature, publicFieldDefinition],
          oneOf [semicolon, ","]], ";"])]),
  (classStaticBlock, seq ["static", statementBlock]),
  (publicFieldDefinition, seq [zeroOrMore decorator,
      optional (oneOf [seq ["declare", optional accessibilityModifier],
        seq [accessibilityModifier, optional "declare"]]),
      oneOf [seq [optional "static", optional overrideModifier, optional "readonly"],
        seq [optional "abstract", optional "readonly"],
        seq [optional "readonly", optional "abstract"], optional "accessor"], propertyName,
      optional (oneOf ["?", "!"]), optional ascription, optional initialValue]),
  (methodSignature, seq [optional accessibilityModifier, optional "static",
      optional overrideModifier, optional "readonly", optional "async",
      optional (oneOf ["get", "set", "*"]), propertyName, optional "?", callHeader]),
  (abstractMethodSignature, seq [optional accessibilityModifier, "abstract",
      optional overrideModifier, optional (oneOf ["get", "set", "*"]), propertyName, optional "?",
      callHeader]),
  (accessibilityModifier, oneOf ["public", "private", "protected"]),
  (overrideModifier, seq ["override"]),
  (decorator, seq ["@",
      oneOf [word, renamed .memberExpression decoratorMemberExpression,
        renamed .callExpression decoratorCallExpression,
        renamed .parenthesizedExpression decoratorParenthesizedExpression]]),
  (decoratorMemberExpression, rank .member
      (seq [oneOf [word, renamed .memberExpression decoratorMemberExpression], ".",
        renamed .propertyWord word])),
  (decoratorCallExpression, rank .call
      (seq [oneOf [word, renamed .memberExpression decoratorMemberExpression],
        optional typeArguments, arguments])),
  (decoratorParenthesizedExpression, parenthesized [
      oneOf [word, renamed .memberExpression decoratorMemberExpression,
        renamed .callExpression decoratorCallExpression]])]

end PugComponents.Script.Grammar
