import PugComponents.Script.Grammar.Shared

/-! Types, and the places where one is ascribed. -/

namespace PugComponents.Script.Grammar

open Kind
open Token hiding text

def queriedOwner : Rule := oneOf [word, "this", renamed .subscriptExpression queriedElement,
  renamed .memberExpression queriedMember, renamed .callExpression queriedCall]

def queriedCallee : Rule := oneOf [importKeyword, word, renamed .memberExpression queriedMember,
  renamed .subscriptExpression queriedElement]

def typeMember : Rule := oneOf [exportStatement, propertySignature, callSignature,
  constructSignature, indexSignature, methodSignature]

def typeRules : List (Kind × Rule) := [
  (nestedTypeIdentifier, rank .member (seq [oneOf [word, nestedIdentifier], ".", typeName])),
  (omittingAscription, seq ["-?:", typeExpression]),
  (addingAscription, seq ["+?:", typeExpression]),
  (optingAscription, seq ["?:", typeExpression]),
  (ascription, seq [":",
      oneOf [typeExpression, renamed .typeQuery importedMember, renamed .typeQuery importedCall]]),
  (importedMember, seq [
      oneOf [importKeyword, renamed .memberExpression importedMember,
        renamed .callExpression importedCall], ".",
      oneOf [privateName, renamed .propertyWord word]]),
  (importedCall, seq [oneOf [importKeyword, renamed .memberExpression importedMember], arguments]),
  (assertion, seq ["asserts", oneOf [typePredicate, word, "this"]]),
  (assertsAscription, seq [":", assertion]),
  (typeExpression, oneOf [primaryType, functionType, readonlyType, constructorType, inferType,
      .ranked (.number (-1)) none (renamed .memberExpression importedMember),
      .ranked (.number (-1)) none (renamed .callExpression importedCall)]),
  (tupleParameter, seq [oneOf [word, restPattern], ascription]),
  (optionalTupleParameter, seq [word, "?", ascription]),
  (optionalType, seq [typeExpression, "?"]),
  (restType, seq ["...", typeExpression]),
  (tupleMember, oneOf [renamed .requiredParameter tupleParameter,
      renamed .optionalParameter optionalTupleParameter, optionalType, restType, typeExpression]),
  (constructorType, leftward (seq [optional "abstract", "new", optional typeParameters,
      formalParameters, "=>", typeExpression])),
  (primaryType, oneOf [parenthesizedType, predefinedType, typeName, nestedTypeIdentifier,
      genericType, objectType, arrayType, tupleType, flowMaybeType, typeQuery, indexTypeQuery,
      "this", existentialType, literalType, lookupType, conditionalType, templateLiteralType,
      intersectionType, unionType, "const"]),
  (templateType, seq ["$\x7b", oneOf [primaryType, inferType], "\x7d"]),
  (templateLiteralType, seq ["\x60", zeroOrMore (oneOf [templateText, templateType]), "\x60"]),
  (inferType, rightward (seq ["infer", typeName, optional (seq ["extends", typeExpression])])),
  (conditionalType, rightward (seq [typeExpression, "extends", typeExpression, "?",
      typeExpression, ":", typeExpression])),
  (genericType, rank .call (seq [oneOf [typeName, nestedTypeIdentifier], typeArguments])),
  (typePredicate, seq [oneOf [word, "this", renamed .variable predefinedType], "is",
      typeExpression]),
  (predicateAscription, seq [":", typePredicate]),
  (queriedMember, seq [queriedOwner, oneOf [".", "?."],
      oneOf [privateName, renamed .propertyWord word]]),
  (queriedElement, seq [queriedOwner, optional "?.",
      bracketed [oneOf [predefinedType, string, number]]]),
  (queriedCall, seq [queriedCallee, arguments]),
  (queriedInstantiation, seq [queriedCallee, typeArguments]),
  (typeQuery, rightward (seq ["typeof",
      oneOf [renamed .subscriptExpression queriedElement, renamed .memberExpression queriedMember,
        renamed .callExpression queriedCall,
        renamed .instantiationExpression queriedInstantiation, word, "this"]])),
  (indexTypeQuery, seq ["keyof", primaryType]),
  (lookupType, seq [primaryType, bracketed [typeExpression]]),
  (mappedTypeClause, seq [typeName, "in", typeExpression, optional (seq ["as", typeExpression])]),
  (literalType, oneOf [renamed .unaryExpression signedNumber, number, string, "true", "false",
      "null", "undefined"]),
  (signedNumber, .ranked (.number 1) (some .left) (seq [oneOf ["-", "+"], number])),
  (existentialType, seq ["*"]),
  (flowMaybeType, rightward (seq ["?", primaryType])),
  (parenthesizedType, parenthesized [typeExpression]),
  (predefinedType, oneOf ["any", "number", "boolean", "string", "symbol",
      seq ["unique", "symbol"], "void", "unknown", "never", "object"]),
  (typeArguments, angled [commas typeExpression, optional ","]),
  (objectType, seq [oneOf ["\x7b", "\x7b|"],
      optional (seq [optional (oneOf [",", ";"]), separated (oneOf [",", semicolon]) typeMember,
        optional (oneOf [",", semicolon])]),
      oneOf ["\x7d", "|\x7d"]]),
  (callSignature, seq [callHeader]),
  (propertySignature, seq [optional accessibilityModifier, optional "static",
      optional overrideModifier, optional "readonly", propertyName, optional "?",
      optional ascription]),
  (typeParameters, angled [commas typeParameter, optional ","]),
  (typeParameter, seq [optional "const", typeName, optional constraint, optional defaultType]),
  (defaultType, seq ["=", typeExpression]),
  (constraint, seq [oneOf ["extends", ":"], typeExpression]),
  (constructSignature, seq [optional "abstract", "new", optional typeParameters, formalParameters,
      optional ascription]),
  (indexSignature, seq [optional (seq [optional (oneOf ["-", "+"]), "readonly"]),
      bracketed [
        oneOf [seq [oneOf [word, renamed .variable reservedName], ":", typeExpression],
          mappedTypeClause]],
      oneOf [ascription, omittingAscription, addingAscription, optingAscription]]),
  (arrayType, seq [primaryType, bracketed []]),
  (tupleType, bracketed [commasOrNone tupleMember, optional ","]),
  (readonlyType, seq ["readonly", typeExpression]),
  (unionType, leftward (seq [optional typeExpression, "|", typeExpression])),
  (intersectionType, leftward (seq [optional typeExpression, "&", typeExpression])),
  (functionType, leftward (seq [optional typeParameters, formalParameters, "=>",
      oneOf [typeExpression, assertion, typePredicate]]))]

end PugComponents.Script.Grammar
