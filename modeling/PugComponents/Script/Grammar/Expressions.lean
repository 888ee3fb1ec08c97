import PugComponents.Script.Grammar.Shared

/-! Expressions and literals. Operators carry a level, by which neighbouring ones are grouped. -/

namespace PugComponents.Script.Grammar

open Kind
open Token hiding text

def expressionRules : List (Kind × Rule) := [
  (parenthesizedExpression, parenthesized [
      oneOf [seq [expression, optional ascription], sequenceExpression]]),
  (expression, oneOf [asExpression, satisfiesExpression, instantiationExpression,
      namespaceDeclaration, typeAssertion, primaryExpression, assignmentExpression,
      augmentedAssignmentExpression, awaitExpression, unaryExpression, binaryExpression,
      ternaryExpression, updateExpression, newExpression, yieldExpression]),
  (primaryExpression, oneOf [subscriptExpression, memberExpression, parenthesizedExpression,
      "undefined", word, renamed .variable reservedName, "this", "super", number, string, templateString,
      regex, "true", "false", "null", object, array, functionExpression, arrowFunction,
      generatorFunction, classExpression, metaProperty, callExpression, nonNullExpression]),
  (yieldExpression, rightward (seq ["yield", oneOf [seq ["*", expression], optional expression]])),
  (awaitExpression, rank .unaryVoid (seq ["await", expression])),
  (callExpression, oneOf [
      rank .call (seq [oneOf [expression, importKeyword], optional typeArguments, arguments]),
      rank .templateCall (seq [oneOf [primaryExpression, newExpression], templateString]),
      rank .member (seq [primaryExpression, "?.", optional typeArguments, arguments])]),
  (newExpression, rankRight .construction (seq ["new", primaryExpression, optional typeArguments,
      optional arguments])),
  (arguments, parenthesized [commasOrNone (optional (oneOf [expression, spreadElement]))]),
  (memberExpression, rank .member (seq [oneOf [expression, primaryExpression, importKeyword],
      oneOf [".", optionalChain], oneOf [privateName, renamed .propertyWord word]])),
  (subscriptExpression, rankRight .member (seq [oneOf [expression, primaryExpression],
      optional optionalChain, bracketed [expressions]])),
  (optionalChain, seq ["?."]),
  (nonNullExpression, rankLeft .unary (seq [expression, "!"])),
  (assignmentExpression, rankRight .assign (seq [optional "using",
      oneOf [parenthesizedExpression, target], "=", expression])),
  (augmentedTarget, oneOf [memberExpression, subscriptExpression, renamed .variable reservedName,
      word, parenthesizedExpression, nonNullExpression]),
  (augmentedAssignmentExpression, rankRight .assign (seq [augmentedTarget,
      oneOf ["+=", "-=", "*=", "/=", "%=", "^=", "&=", "|=", ">>=", ">>>=", "<<=", "**=", "&&=",
        "||=", "??="], expression])),
  (spreadElement, seq ["...", expression]),
  (ternaryExpression, rankRight .ternary (seq [expression, ternaryMark, expression, ":",
      expression])),
  (binaryExpression, oneOf [leftOperator .logicalAnd "&&", leftOperator .logicalOr "||",
      leftOperator .shift ">>", leftOperator .shift ">>>", leftOperator .shift "<<",
      leftOperator .bitAnd "&", leftOperator .bitXor "^", leftOperator .bitOr "|",
      leftOperator .plus "+", leftOperator .plus "-", leftOperator .times "*",
      leftOperator .times "/", leftOperator .times "%", rightOperator .power "**",
      leftOperator .relation "<", leftOperator .relation "<=", leftOperator .equality "==",
      leftOperator .equality "===", leftOperator .equality "!=", leftOperator .equality "!==",
      leftOperator .relation ">=", leftOperator .relation ">", leftOperator .ternary "??",
      leftOperator .relation "instanceof",
      rankLeft .relation (seq [oneOf [expression, privateName], "in", expression])]),
  (unaryExpression, rankLeft .unaryVoid
      (seq [oneOf ["!", "~", "-", "+", "typeof", "void", "delete"], expression])),
  (updateExpression, leftward (oneOf [seq [expression, oneOf ["++", "--"]],
      seq [oneOf ["++", "--"], expression]])),
  (sequenceExpression, rightward (commas expression)),
  (typeAssertion, rankLeft .unary (seq [typeArguments, expression])),
  (asExpression, rankLeft .binary (seq [expression, "as", oneOf ["const", typeExpression]])),
  (satisfiesExpression, rankLeft .binary (seq [expression, "satisfies", typeExpression])),
  (instantiationExpression, rank .instantiation (seq [expression, typeArguments])),
  (metaProperty, oneOf [seq ["new", ".", "target"], seq ["import", ".", "meta"]]),
  (string, oneOf [seq ["\"", zeroOrMore (oneOf [doubleText, escape]), "\""],
      seq ["'", zeroOrMore (oneOf [singleText, escape]), "'"]]),
  (templateString, seq ["\x60", zeroOrMore (oneOf [templateText, escape, templateSubstitution]),
      "\x60"]),
  (templateSubstitution, seq ["$\x7b", expressions, "\x7d"]),
  (regex, seq ["/", regexText, regexEnd, optional regexFlags]),
  (array, bracketed [commasOrNone (optional (oneOf [expression, spreadElement]))]),
  (object, rank .object
      (braced [
        commasOrNone (optional (oneOf [pair, spreadElement, methodDefinition,
          renamed .shorthandProperty (oneOf [word, reservedName])]))])),
  (pair, seq [propertyName, ":", expression]),
  (propertyName, oneOf [renamed .propertyWord (oneOf [word, reservedName]), privateName, string,
      number, computedPropertyName]),
  (computedPropertyName, bracketed [expression])]

end PugComponents.Script.Grammar
