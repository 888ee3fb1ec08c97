import PugComponents.Script.Grammar.Classes
import PugComponents.Script.Grammar.Declarations
import PugComponents.Script.Grammar.Expressions
import PugComponents.Script.Grammar.Functions
import PugComponents.Script.Grammar.Modules
import PugComponents.Script.Grammar.Statements
import PugComponents.Script.Grammar.Types

/-! The grammar of scripts: the rule of every kind of phrase, and the lists that say which of two
constructs binds more tightly. -/

namespace PugComponents.Script

namespace Grammar

def rules : List (Kind × Rule) :=
  moduleRules ++ statementRules ++ declarationRules ++ expressionRules ++ functionRules ++
    classRules ++ typeRules

/-- A rung of a ladder of ranks: a level, or all phrases of a kind. -/
inductive Rung where
  | level (l : Level)
  | kind (k : Kind)
deriving DecidableEq

instance : Coe Level Rung := ⟨.level⟩

instance : Coe Kind Rung := ⟨.kind⟩

def ladder (rungs : List Rung) : List Rung := rungs

/-- The ladders of ranks, each from the tightest to the loosest. Ranks that stand on no common ladder are
not compared. -/
def ladders : List (List Rung) := [
  ladder [Level.member, Level.templateCall, Level.call, Kind.updateExpression, Level.unaryVoid, Level.power,
    Level.times, Level.plus, Level.shift, Level.relation, Level.equality, Level.bitAnd, Level.bitXor,
    Level.bitOr, Level.logicalAnd, Level.logicalOr, Level.ternary, Kind.sequenceExpression,
    Kind.arrowFunction],
  ladder [Level.assign, Kind.primaryExpression],
  ladder [Level.member, Level.templateCall, Level.construction, Level.call, Kind.expression],
  ladder [Level.declare, Level.literal],
  ladder [Kind.primaryExpression, Kind.statementBlock, Level.object],
  ladder [Kind.metaProperty, Kind.importKeyword],
  ladder [Kind.importStatement, Kind.importKeyword],
  ladder [Kind.exportStatement, Kind.primaryExpression],
  ladder [Kind.lexicalDeclaration, Kind.primaryExpression],
  ladder [Level.call, Level.instantiation, Level.unary, Level.binary, Kind.awaitExpression,
    Kind.arrowFunction],
  ladder [Level.heritage, Level.instantiation],
  ladder [Kind.intersectionType, Kind.unionType, Kind.conditionalType, Kind.functionType, Level.binary,
    Kind.typePredicate, Kind.readonlyType],
  ladder [Kind.mappedTypeClause, Kind.primaryExpression],
  ladder [Kind.accessibilityModifier, Kind.primaryExpression],
  ladder [Level.unaryVoid, Kind.expression],
  ladder [Kind.extendsClause, Kind.primaryExpression],
  ladder [Level.unary, Level.assign],
  ladder [Level.declare, Kind.expression],
  ladder [Kind.predefinedType, Kind.unaryExpression],
  ladder [Kind.typeExpression, Kind.flowMaybeType],
  ladder [Kind.tupleType, Kind.arrayType, Kind.pattern, Kind.typeExpression],
  ladder [Kind.readonlyType, Kind.pattern],
  ladder [Kind.readonlyType, Kind.primaryExpression],
  ladder [Kind.typeQuery, Kind.subscriptExpression, Kind.expression],
  ladder [Kind.typeQuery, Kind.queriedElement],
  ladder [Kind.nestedTypeIdentifier, Kind.genericType, Kind.primaryType, Kind.lookupType,
    Kind.indexTypeQuery, Kind.typeExpression],
  ladder [Kind.asExpression, Kind.satisfiesExpression, Kind.primaryType],
  ladder [Kind.queriedMember, Kind.memberExpression],
  ladder [Kind.memberExpression, Kind.importedMember],
  ladder [Kind.queriedMember, Kind.primaryExpression],
  ladder [Kind.queriedElement, Kind.subscriptExpression],
  ladder [Kind.queriedElement, Kind.primaryExpression],
  ladder [Kind.queriedCall, Kind.primaryExpression],
  ladder [Kind.queriedInstantiation, Kind.primaryExpression],
  ladder [Kind.typeQuery, Kind.primaryExpression],
  ladder [Kind.overrideModifier, Kind.primaryExpression],
  ladder [Kind.decoratorCallExpression, Kind.decorator],
  ladder [Kind.literalType, Kind.pattern],
  ladder [Kind.predefinedType, Kind.pattern],
  ladder [Kind.callExpression, Kind.queriedCall],
  ladder [Kind.callExpression, Kind.importedCall],
  ladder [Kind.newExpression, Kind.primaryExpression],
  ladder [Kind.metaProperty, Kind.primaryExpression],
  ladder [Kind.constructSignature, Kind.propertyName]]

end Grammar

end PugComponents.Script
