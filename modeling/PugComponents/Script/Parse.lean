import PugComponents.Script.Readings
import PugComponents.Script.Phrase

/-! From the tree of a script to its phrases. Signs, comments and kinds that only group others are left
out; what a part is for is seen from its place in the production. -/

namespace PugComponents.Script

abbrev Placed := Option Part × Phrase

def valueWords : List String := ["this", "super", "true", "false", "null", "undefined"]

def Kind.phrase (k : Kind) (tree : ParseTree) (parts : List Placed) : Phrase :=
  let part (p : Part) : Phrase := (parts.lookup (some p)).getD .absent
  let others (placed : List Part) : List Phrase :=
    (parts.filter fun p => !(placed.map some).contains p.1).map Prod.snd
  let phrases := parts.map Prod.snd
  match k with
  | .variable => .name tree.spelling
  | .shorthandProperty => .shorthand tree.spelling
  | .shorthandTarget => .bare tree.spelling
  | .propertyWord | .labelWord | .typeWord | .string => .atom tree.spelling
  | .variableDeclarator => .declarator (part .name) (part .value)
  | .functionDeclaration | .generatorFunctionDeclaration | .functionExpression | .generatorFunction
  | .arrowFunction | .methodDefinition =>
    .function (part .name) (part .parameter :: (part .parameters).parts) (part .body)
  | .classDeclaration =>
    .classDeclaration (part .name).spelling (others [.name, .body]) [part .body]
  | .catchClause => .handler (part .parameter) (part .body)
  | .forInStatement =>
    .iteration (parts.any fun p => p.1 = some .keyword) (part .left) (part .right) (part .body)
  | .objectPattern => .objectPattern phrases
  | .arrayPattern => .arrayPattern phrases
  | .pairPattern => .pair (part .key) (part .value)
  | .assignmentPattern | .objectAssignmentPattern => .defaulted (part .left) (part .right)
  | .restPattern => .rest (phrases.head?.getD .absent)
  | .requiredParameter | .optionalParameter =>
    .parameter (part .pattern) (part .value) (.form .ascription (others [.pattern, .value]))
  | k => .form k phrases

/-- The phrase of a single piece. Words stand for variables; a fixed word only counts if it is a value or
has a place of its own. -/
def leafPhrase? (t : Token) (text : List Char) (place : Option Part) : Option Phrase :=
  match t with
  | .word => some (.name (String.ofList text))
  | .number => some (.atom (String.ofList text))
  | .text s => if valueWords.contains s || place.isSome then some (.atom s) else none
  | _ => none

namespace ParseTree

mutual

/-- The phrases of a tree that stands in the given step of a production: one, or those inside it if its
kind only groups others. -/
def phrases (g : Tables) (step : Option Step) : ParseTree → List Placed
  | leaf token gap text start stop isComment =>
    match step.bind Step.renamed with
    | some k => [(none, k.phrase (leaf token gap text start stop isComment) [])]
    | none =>
      let t := g.tokens.getD token .ending
      ((leafPhrase? t text (step.bind Step.part)).map fun p => (none, p)).toList
  | node production parts start stop weight =>
    let inner := partPhrases g production.steps.toList parts
    let kind := step.bind Step.renamed <|>
      (g.kinds[production.head]?).filter fun k => !k.isHidden
    match kind with
    | some k => [(none, k.phrase (node production parts start stop weight) inner)]
    | none => inner

def partPhrases (g : Tables) : List Step → List ParseTree → List Placed
  | _, [] => []
  | steps, t :: ts =>
    if t.isComment then partPhrases g steps ts
    else match steps with
      | [] => []
      | step :: steps =>
        (phrases g (some step) t).map (fun (place, p) => (step.part <|> place, p)) ++
          partPhrases g steps ts

end

end ParseTree

def parse? (text : String) : Option Phrase :=
  (scriptTables.parse? text.toList).map fun trees =>
    match trees.filter fun t => !t.isComment with
    | [tree] => ((tree.phrases scriptTables none).head?.map Prod.snd).getD (.form .program [])
    | _ => .form .program []

end PugComponents.Script
