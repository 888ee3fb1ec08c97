import PugComponents.Script.Grammar.Shared

/-! Declarations of variables, functions, classes, interfaces, enumerations and types. -/

namespace PugComponents.Script.Grammar

open Kind
open Token hiding text

def declarationRules : List (Kind × Rule) := [
  (declaration, oneOf [functionDeclaration, generatorFunctionDeclaration, classDeclaration,
      lexicalDeclaration, variableDeclaration, functionSignature, abstractClassDeclaration,
      moduleDeclaration, rank .declare namespaceDeclaration, typeAliasDeclaration,
      enumDeclaration, interfaceDeclaration, importAlias, ambientDeclaration]),
  (variableDeclaration, seq ["var", commas variableDeclarator, semicolon]),
  (lexicalDeclaration, seq [oneOf ["let", "const"], commas variableDeclarator, semicolon]),
  (variableDeclarator, oneOf [
      seq [part .name (oneOf [word, destructuringPattern]), optional ascription,
        optional initialValue], rank .declare (seq [part .name word, "!", ascription])]),
  (initialValue, seq ["=", part .value expression]),
  (functionDeclaration, rankRight .declare (seq [optional "async", "function", part .name word,
      callHeader, part .body statementBlock, optional lineEnd])),
  (generatorFunctionDeclaration, rankRight .declare (seq [optional "async", "function", "*",
      part .name word, callHeader, part .body statementBlock, optional lineEnd])),
  (functionSignature, seq [optional "async", "function", word, callHeader,
      oneOf [semicolon, signatureEnd]]),
  (classDeclaration, rankLeft .declare (seq [zeroOrMore decorator, "class", part .name typeName,
      optional typeParameters, optional classHeritage, part .body classBody, optional lineEnd])),
  (abstractClassDeclaration, rank .declare (seq [zeroOrMore decorator, "abstract", "class",
      typeName, optional typeParameters, optional classHeritage, classBody])),
  (interfaceDeclaration, seq ["interface", typeName, optional typeParameters,
      optional extendsTypeClause, renamed .interfaceBody objectType]),
  (extendsTypeClause, seq ["extends",
      commas (oneOf [typeName, nestedTypeIdentifier, genericType])]),
  (enumDeclaration, seq [optional "const", "enum", word, enumBody]),
  (enumBody, braced [optional (seq [commas (oneOf [propertyName, enumAssignment]), optional ","])]),
  (enumAssignment, seq [propertyName, initialValue]),
  (typeAliasDeclaration, seq ["type", typeName, optional typeParameters, "=", typeExpression,
      semicolon]),
  (ambientDeclaration, seq ["declare",
      oneOf [declaration, seq ["global", statementBlock],
        seq ["module", ".", renamed .propertyWord word, ":", typeExpression, semicolon]]])]

end PugComponents.Script.Grammar
