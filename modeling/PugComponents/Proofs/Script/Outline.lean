import PugComponents.Proofs.Script.Derivation
import PugComponents.Script.Parse

/-! The outline of a script: all phrases that are shown, each with its kind and its place, and nothing left
out. The phrases from which names are taken follow from the outline. -/

namespace PugComponents.Script

/-- A phrase that is shown, with the tree it comes from and its parts, or a fixed word or a number. -/
inductive Outline where
  | atom (text : String)
  | phrase (kind : Kind) (tree : ParseTree) (parts : List (Option Part × Outline))

namespace ParseTree

mutual

/-- What is shown of a tree that stands in the given step of a production: one phrase, or those inside it
if its kind only groups others. -/
def outlines (g : Tables) (step : Option Step) : ParseTree → List (Option Part × Outline)
  | leaf token gap text start stop isComment =>
    match step.bind Step.renamed with
    | some k => [(none, .phrase k (leaf token gap text start stop isComment) [])]
    | none =>
      match g.tokens.getD token .ending with
      | .word => [(none, .phrase .variable (leaf token gap text start stop isComment) [])]
      | .number => [(none, .atom (String.ofList text))]
      | .text s => if valueWords.contains s || (step.bind Step.part).isSome then [(none, .atom s)] else []
      | _ => []
  | node production parts start stop weight =>
    let inner := partOutlines g production.steps.toList parts
    let kind := step.bind Step.renamed <|>
      (g.kinds[production.head]?).filter fun k => !k.isHidden
    match kind with
    | some k => [(none, .phrase k (node production parts start stop weight) inner)]
    | none => inner

def partOutlines (g : Tables) : List Step → List ParseTree → List (Option Part × Outline)
  | _, [] => []
  | steps, t :: ts =>
    if t.isComment then partOutlines g steps ts
    else match steps with
      | [] => []
      | step :: steps =>
        (outlines g (some step) t).map (fun (place, o) => (step.part <|> place, o)) ++
          partOutlines g steps ts

end

theorem partOutlines_solid (g : Tables) (steps : List Step) (ts : List ParseTree) :
    partOutlines g steps (solid ts) = partOutlines g steps ts := by
  induction ts generalizing steps with
  | nil => rfl
  | cons t ts ih =>
    cases comment : t.isComment with
    | true =>
      rw [solid_cons_of_isComment comment, ih]
      conv_rhs => rw [partOutlines.eq_def]
      simp [comment]
    | false =>
      rw [solid_cons comment, partOutlines.eq_def]
      conv_rhs => rw [partOutlines.eq_def]
      simp only [comment]
      cases steps with
      | nil => rfl
      | cons step steps => simp only [ih]

end ParseTree

namespace Outline

def kind? : Outline → Option Kind
  | atom _ => none
  | phrase kind _ _ => some kind

mutual

def toPhrase : Outline → Phrase
  | atom text => .atom text
  | phrase kind tree parts => kind.phrase tree (toPlaced parts)

def toPlaced : List (Option Part × Outline) → List Placed
  | [] => []
  | (place, o) :: parts => (place, o.toPhrase) :: toPlaced parts

end

@[simp] theorem toPlaced_eq_map (parts : List (Option Part × Outline)) :
    toPlaced parts = parts.map fun (place, o) => (place, o.toPhrase) := by
  induction parts with
  | nil => rfl
  | cons part parts ih => rw [toPlaced, ih, List.map_cons]

end Outline

namespace ParseTree

theorem phrases_leaf (g : Tables) (step : Option Step) (token : Nat) (gap text : List Char)
    (start stop : Nat) (isComment : Bool) :
    (leaf token gap text start stop isComment).phrases g step =
      Outline.toPlaced ((leaf token gap text start stop isComment).outlines g step) := by
  rw [phrases, outlines]
  cases step.bind Step.renamed with
  | some k => rfl
  | none =>
    dsimp only
    cases g.tokens.getD token .ending with
    | text s =>
      simp only [leafPhrase?]
      cases valueWords.contains s || (step.bind Step.part).isSome <;> rfl
    | _ => rfl

mutual

theorem phrases_eq (g : Tables) (step : Option Step) :
    ∀ t : ParseTree, t.phrases g step = Outline.toPlaced (t.outlines g step)
  | leaf token gap text start stop isComment => phrases_leaf g step token gap text start stop isComment
  | node production parts start stop weight => by
    rw [phrases, outlines, partPhrases_eq g production.steps.toList parts]
    cases step.bind Step.renamed <|> (g.kinds[production.head]?).filter fun k => !k.isHidden <;> rfl

theorem partPhrases_eq (g : Tables) (steps : List Step) :
    ∀ ts : List ParseTree, partPhrases g steps ts = Outline.toPlaced (partOutlines g steps ts)
  | [] => by simp [partPhrases, partOutlines]
  | t :: ts => by
    rw [partPhrases.eq_def, partOutlines.eq_def]
    dsimp only
    split
    · exact partPhrases_eq g steps ts
    · cases steps with
      | nil => rfl
      | cons step steps =>
        dsimp only
        rw [phrases_eq g (some step) t, partPhrases_eq g steps ts]
        simp [Function.comp_def]

end

end ParseTree

end PugComponents.Script
