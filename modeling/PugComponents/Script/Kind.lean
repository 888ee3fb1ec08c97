/-! The kinds of phrases that a script is made of, and the places that a phrase can have inside another
one. Scripts are JavaScript with the type syntax of TypeScript, since both are met in templates. -/

namespace PugComponents.Script

/-- Kinds of phrases. The order counts: of two readings of one text that differ in nothing else, the one
whose kind comes first is taken. The last few kinds have no rule of their own; they only rename a word or
a phrase. -/
inductive Kind where
  | program | exportStatement | namespaceExport | exportClause | exportSpecifier
  | moduleExportName | declaration | importKeyword | importStatement | importClause | fromClause
  | namespaceImport | namedImports | importSpecifier | importAttribute | statement
  | expressionStatement | variableDeclaration | lexicalDeclaration | variableDeclarator
  | statementBlock | elseClause | ifStatement | switchStatement | forStatement | forInStatement
  | forHeader | whileStatement | doStatement | tryStatement | withStatement | breakStatement
  | continueStatement | debuggerStatement | returnStatement | throwStatement | emptyStatement
  | labeledStatement | switchBody | switchCase | switchDefault | catchClause | finallyClause
  | parenthesizedExpression | expression | primaryExpression | yieldExpression | object
  | objectPattern | assignmentPattern | objectAssignmentPattern | array | arrayPattern
  | classExpression | classDeclaration | classHeritage | functionExpression | functionDeclaration
  | generatorFunction | generatorFunctionDeclaration | arrowFunction | callHeader
  | formalParameter | optionalChain | callExpression | newExpression | awaitExpression
  | memberExpression | subscriptExpression | assignmentExpression | augmentedTarget
  | augmentedAssignmentExpression | initialValue | destructuringPattern | spreadElement
  | ternaryExpression | binaryExpression | unaryExpression | updateExpression | sequenceExpression
  | string | templateString | templateSubstitution | regex | metaProperty | arguments | decorator
  | decoratorMemberExpression | decoratorCallExpression | classBody | formalParameters
  | classStaticBlock | pattern | restPattern | methodDefinition | pair | pairPattern
  | propertyName | computedPropertyName | publicFieldDefinition | importName | nonNullExpression
  | methodSignature | abstractMethodSignature | functionSignature
  | decoratorParenthesizedExpression | typeAssertion | asExpression | satisfiesExpression
  | instantiationExpression | importRequireClause | extendsClause | extendsEntry
  | implementsClause | ambientDeclaration | abstractClassDeclaration | moduleDeclaration
  | namespaceDeclaration | moduleBody | importAlias | nestedIdentifier | nestedTypeIdentifier
  | interfaceDeclaration | extendsTypeClause | enumDeclaration | enumBody | enumAssignment
  | typeAliasDeclaration | accessibilityModifier | overrideModifier | requiredParameter
  | optionalParameter | parameterTarget | omittingAscription | addingAscription | optingAscription
  | ascription | importedMember | importedCall | assertion | assertsAscription | typeExpression
  | tupleParameter | optionalTupleParameter | optionalType | restType | tupleMember
  | constructorType | primaryType | templateType | templateLiteralType | inferType
  | conditionalType | genericType | typePredicate | predicateAscription | queriedMember
  | queriedElement | queriedCall | queriedInstantiation | typeQuery | indexTypeQuery | lookupType
  | mappedTypeClause | literalType | signedNumber | existentialType | flowMaybeType
  | parenthesizedType | predefinedType | typeArguments | objectType | callSignature
  | propertySignature | typeParameters | typeParameter | defaultType | constraint
  | constructSignature | indexSignature | arrayType | tupleType | readonlyType | unionType
  | intersectionType | functionType | variable | shorthandProperty | shorthandTarget
  | propertyWord | labelWord | typeWord | interfaceBody
deriving DecidableEq

namespace Kind

/-- Kinds that only group others. A phrase of such a kind is not a part of the result; its own parts
stand in its place. -/
def isHidden (k : Kind) : Bool := [
    .moduleExportName, .declaration, .fromClause, .statement, .forHeader, .expression,
    .primaryExpression, .callHeader, .formalParameter, .augmentedTarget, .initialValue,
    .destructuringPattern, .pattern, .propertyName, .importName, .extendsEntry, .moduleBody,
    .parameterTarget, .importedMember, .importedCall, .typeExpression, .tupleMember, .primaryType,
    .queriedMember, .queriedElement, .queriedCall, .queriedInstantiation, .signedNumber].contains k

end Kind

/-- The places of a phrase inside another one, as far as they tell names apart. -/
inductive Part where
  | name | value | parameter | parameters | body | left | right
  /-- The word that makes a loop declare its target. -/
  | keyword
  | key | pattern
deriving DecidableEq

end PugComponents.Script
