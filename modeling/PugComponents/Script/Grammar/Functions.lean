import PugComponents.Script.Grammar.Shared

/-! Functions, their parameters, and the patterns that bind them. -/

namespace PugComponents.Script.Grammar

open Kind
open Token hiding text

def functionRules : List (Kind × Rule) := [
  (functionExpression, rank .literal (seq [optional "async", "function",
      part .name (optional word), callHeader, part .body statementBlock])),
  (generatorFunction, rank .literal (seq [optional "async", "function", "*",
      part .name (optional word), callHeader, part .body statementBlock])),
  (arrowFunction, seq [optional "async",
      oneOf [part .parameter (oneOf [renamed .variable reservedName, word]), callHeader], "=>",
      part .body (oneOf [expression, statementBlock])]),
  (callHeader, seq [optional typeParameters, part .parameters formalParameters,
      optional (oneOf [ascription, assertsAscription, predicateAscription])]),
  (formalParameters, parenthesized [optional (seq [commas formalParameter, optional ","])]),
  (formalParameter, oneOf [requiredParameter, optionalParameter]),
  (requiredParameter, seq [parameterTarget, optional ascription, optional initialValue]),
  (optionalParameter, seq [parameterTarget, "?", optional ascription, optional initialValue]),
  (parameterTarget, seq [zeroOrMore decorator, optional accessibilityModifier,
      optional overrideModifier, optional "readonly", part .pattern (oneOf [pattern, "this"])]),
  (pattern, weighted (-1) (oneOf [target, restPattern])),
  (restPattern, rightward (seq ["...", target])),
  (assignmentPattern, seq [part .left pattern, "=", part .right expression]),
  (destructuringPattern, oneOf [objectPattern, arrayPattern]),
  (arrayPattern, bracketed [commasOrNone (optional (oneOf [pattern, assignmentPattern]))]),
  (objectPattern, rank .object
      (braced [
        commasOrNone (optional (oneOf [pairPattern, restPattern, objectAssignmentPattern,
          renamed .shorthandTarget (oneOf [word, reservedName])]))])),
  (objectAssignmentPattern, seq [
      part .left (oneOf [renamed .shorthandTarget (oneOf [reservedName, word]),
        destructuringPattern]), "=", part .right expression]),
  (pairPattern, seq [part .key propertyName, ":",
      part .value (oneOf [pattern, assignmentPattern])]),
  (methodDefinition, leftward (seq [optional accessibilityModifier, optional "static",
      optional overrideModifier, optional "readonly", optional "async",
      optional (oneOf ["get", "set", "*"]), part .name propertyName, optional "?", callHeader,
      part .body statementBlock]))]

end PugComponents.Script.Grammar
