import PugComponents.Proofs.Script.Shapes

/-! The parts that a phrase is taken apart into. For every kind whose phrases are looked at in a way of
their own it is said which parts there can be and which of them occur only once; all scripts keep to it. -/

namespace PugComponents.Script

open ParseTree Grammar

namespace Kind

def isSilent (kind : Option Kind) : Bool :=
  kind.all [.shorthandTarget, .propertyWord, .labelWord, .typeWord, .string, .accessibilityModifier,
    .overrideModifier].contains

def isType (kind : Option Kind) : Bool :=
  ([.ascription, .assertsAscription, .predicateAscription, .typeParameters].map some).contains kind

/-- The parts that are overlooked: what is said about types next to a name that is declared, the
superclass and the decorators of a class declaration, the computed name of a method, the value that a loop
variable is declared with, and what stands next to the target of a parameter. -/
def overlooks (k : Kind) (l : Label) : Bool :=
  match k with
  | .variableDeclarator | .catchClause | .functionDeclaration | .generatorFunctionDeclaration
  | .functionExpression | .generatorFunction | .arrowFunction => isType l.2
  | .methodDefinition => isType l.2 || l.2 = some .computedPropertyName
  | .classDeclaration => isType l.2 || [some .decorator, some .classHeritage].contains l.2
  | .forInStatement => l.1 = some .value
  | .requiredParameter | .optionalParameter => !([some .pattern, some .value].contains l.1)
  | _ => false

end Kind

/-- How phrases of a kind are taken apart: which parts are known, and which places are looked up. -/
structure Shape where
  knows : Label → Bool
  places : List (Option Part) := []

/-- Parts of a phrase that fit a shape: they are known unless they are overlooked, and no two of them are in
a place that is looked up. -/
structure Shape.Fits (shape : Shape) (k : Kind) (parts : List (Option Part × Outline)) : Prop where
  known : ∀ part ∈ parts, k.overlooks (part.1, part.2.kind?) = false →
    shape.knows (part.1, part.2.kind?) = true
  single : ∀ place ∈ shape.places, tally (fun l => l.1 = place) parts ≤ 1

namespace Kind

/-- The shapes of the kinds whose phrases are taken apart. In a phrase of any other kind all parts are
looked at alike. -/
def shape? : Kind → Option Shape
  | .variable | .shorthandProperty | .shorthandTarget | .propertyWord | .labelWord | .typeWord | .string
  | .accessibilityModifier | .overrideModifier => some { knows := fun _ => false }
  | .variableDeclarator => some {
      knows := fun l => [some .name, some .value].contains l.1
      places := [some .name, some .value] }
  | .functionDeclaration | .generatorFunctionDeclaration | .functionExpression | .generatorFunction
  | .arrowFunction | .methodDefinition => some {
      knows := fun l => isSilent l.2 || match l.1 with
        | some .name => l.2 = some .variable
        | some .parameters => l.2 = some .formalParameters
        | some .parameter | some .body => true
        | _ => false
      places := [some .parameter, some .parameters, some .body] }
  | .classDeclaration => some {
      knows := fun l => isSilent l.2 || l.1 = some .body
      places := [some .body] }
  | .catchClause => some {
      knows := fun l => [some .parameter, some .body].contains l.1
      places := [some .parameter, some .body] }
  | .forInStatement => some {
      knows := fun l => isSilent l.2 || [some .left, some .right, some .body].contains l.1
      places := [some .left, some .right, some .body] }
  | .pairPattern => some {
      knows := fun l => l.1 = some .value ||
        (l.1 = some .key && (isSilent l.2 || l.2 = some .computedPropertyName))
      places := [some .key, some .value] }
  | .assignmentPattern | .objectAssignmentPattern => some {
      knows := fun l => [some .left, some .right].contains l.1
      places := [some .left, some .right] }
  | .restPattern => some { knows := fun l => l.1 = none, places := [none] }
  | .requiredParameter | .optionalParameter => some {
      knows := fun l => [some .pattern, some .value].contains l.1
      places := [some .pattern, some .value] }
  | _ => none

def Takes (k : Kind) (parts : List (Option Part × Outline)) : Prop :=
  ∀ shape ∈ k.shape?, shape.Fits k parts

theorem takes_nil (k : Kind) : k.Takes [] := fun _ _ => ⟨by simp, by simp⟩

/-- Whether all phrases of one kind can stand for phrases of another one. -/
def covers (k k' : Kind) : Bool :=
  k.shape?.all fun shape => inside 5 k' (fun l => !(k.overlooks l || shape.knows l)) = 0 &&
    shape.places.all fun place => inside 5 k' (fun l => l.1 = place) ≤ 1

variable {k k' : Kind} {p : Production} {parts : List ParseTree} {start stop : Nat} {weight : Int}

theorem takes_of_covers (covers : k.covers k') (head : p.head = k'.ctorIdx)
    (derivation : IsDerivation scriptTables (.node p parts start stop weight)) :
    k.Takes (partOutlines scriptTables p.steps.toList parts) := by
  intro shape found
  have covers : (inside 5 k' (fun l => !(k.overlooks l || shape.knows l)) = 0 &&
      shape.places.all fun place => inside 5 k' (fun l => l.1 = place) ≤ 1) = true := by
    simpa only [Kind.covers, Option.mem_def.1 found, Option.all_some] using covers
  rw [Bool.and_eq_true, decide_eq_true_eq, List.all_eq_true] at covers
  obtain ⟨known, single⟩ := covers
  have bound {P : Label → Bool} := insideBounds_inside 5 k' P p parts start stop weight head derivation
  constructor
  · have le := bound (known ▸ Nat.zero_le 1)
    rw [known, Nat.le_zero, tally, List.countP_eq_zero] at le
    simpa using le
  · intro place member
    have le := of_decide_eq_true (single place member)
    exact Nat.le_trans (bound le) le

end Kind

def Rule.isWellRenamed : Rule → Option Kind → Bool
  | phrase k', some k => k.covers k'
  | oneOrMore _, some _ => false
  | oneOrMore r, none => r.isWellRenamed none
  | both a b, name | either a b, name => a.isWellRenamed name && b.isWellRenamed name
  | ranked _ _ r, name | weighted _ r, name | part _ r, name => r.isWellRenamed name
  | renamed k r, _ => r.isWellRenamed (some k)
  | nothing, _ | token _, _ | phrase _, none => true

theorem Rule.isWellRenamed_of_mem_repeated {r item : Rule} {name : Option Kind}
    (h : r.isWellRenamed name) (member : item ∈ r.repeated) : item.isWellRenamed none := by
  induction r generalizing name with
  | nothing | token | phrase => cases member
  | both a b iha ihb | either a b iha ihb =>
    obtain ⟨ha, hb⟩ := Bool.and_eq_true_iff.1 h
    rcases List.mem_append.1 member with ma | mb
    · exact iha ha ma
    · exact ihb hb mb
  | oneOrMore r ih =>
    cases name with
    | some k => cases h
    | none =>
      rcases List.mem_append.1 member with member | member
      · exact ih h member
      · exact List.mem_singleton.1 member ▸ h
  | ranked _ _ r ih | weighted _ r ih | renamed _ r ih | part _ r ih => exact ih h member

namespace Grammar

/-- The phrases of every kind have the parts that are looked for, and so has whatever is renamed. -/
theorem isRegular_rules : ∀ kr ∈ rules, kr.1.covers kr.1 ∧ kr.2.isWellRenamed none := by decide +kernel

theorem covers_self {k : Kind} {r : Rule} (h : rule? k = some r) : k.covers k :=
  (isRegular_rules _ (mem_rules_of_rule? h)).1

theorem isWellRenamed_of_mem {r : Rule} (h : r ∈ orderedRules.map Prod.snd) : r.isWellRenamed none := by
  obtain ⟨⟨k, r⟩, member, rfl⟩ := List.mem_map.1 h
  obtain ⟨i, -, found⟩ := List.mem_filterMap.1 member
  exact (isRegular_rules _ (List.mem_of_find?_eq_some found)).2

end Grammar

def ParseTree.inner : ParseTree → List (Option Part × Outline)
  | leaf .. => []
  | node p parts _ _ _ => partOutlines scriptTables p.steps.toList parts

/-- A step gives a tree a kind only if the tree has the parts for it. -/
def Step.Suits (step : Step) (t : ParseTree) : Prop := ∀ k ∈ step.renamed, k.Takes t.inner

theorem Step.suits_of_renamed_none {step : Step} (renamed : step.renamed = none) (t : ParseTree) :
    step.Suits t := by
  intro k member
  rw [renamed] at member
  cases member

theorem Step.suits_of_covers {step : Step} {t : ParseTree} {k k' : Kind} (covers : k.covers k')
    (renamed : step.renamed = some k) (symbol : t.symbol = .phrase k'.ctorIdx)
    (derivation : t.IsDerivation scriptTables) : step.Suits t := by
  intro k'' member
  obtain rfl := Option.some.inj (renamed.symm.trans member)
  cases t with
  | leaf => cases symbol
  | node => exact Kind.takes_of_covers covers (Symbol.phrase.inj symbol) derivation

theorem Rule.Admits.suits {r : Rule} {name : Option Kind} {place : Option Part} {steps : List Step}
    {ts : List ParseTree} (admits : r.Admits name place steps ts) (well : r.isWellRenamed name) :
    List.Forall₂ Step.Suits steps ts := by
  induction admits with
  | nothing => exact .nil
  | @token _ _ _ _ t meets =>
    refine .cons (fun k _ => ?_) .nil
    cases t with
    | leaf => exact k.takes_nil
    | node => cases meets.symbol
  | @phrase k name _ _ _ meets =>
    refine .cons ?_ .nil
    cases name with
    | some k' => exact Step.suits_of_covers well meets.renamed meets.symbol meets.derivation
    | none => exact Step.suits_of_renamed_none meets.renamed _
  | both _ _ iha ihb =>
    obtain ⟨wella, wellb⟩ := Bool.and_eq_true_iff.1 well
    exact List.rel_append (iha wella) (ihb wellb)
  | left _ ih => exact ih (Bool.and_eq_true_iff.1 well).1
  | right _ ih => exact ih (Bool.and_eq_true_iff.1 well).2
  | @run _ name _ _ _ meets =>
    cases name with
    | some k => cases well
    | none => exact .cons (Step.suits_of_renamed_none meets.renamed _) .nil
  | ranked _ ih | weighted _ ih | renamed _ ih | part _ ih => exact ih well

/-- Every tree has the parts for the kind that the production around it gives to it. -/
theorem suits_of_mem_productions {p : Production} (member : p ∈ scriptTables.productions)
    {ts : List ParseTree} (matching : Matches p.steps.toList ts) :
    List.Forall₂ Step.Suits p.steps.toList ts := by
  have plain {r : Rule} (well : r.isWellRenamed none) {s : Sequence} (member : s ∈ r.expand numbering)
      (steps : p.steps.toList = s.steps) : List.Forall₂ Step.Suits p.steps.toList ts := by
    rw [steps] at matching ⊢
    exact (Rule.admits_self member matching).suits well
  have unnamed {steps : List Step} (none : ∀ step ∈ steps, step.renamed = none)
      (same : p.steps.toList = steps) : List.Forall₂ Step.Suits p.steps.toList ts := by
    have length : p.steps.toList.length = ts.length := by simpa using (congrArg List.length matching.symbols).symm
    rw [same] at length ⊢
    refine List.forall₂_iff_zip.2 ⟨length, fun {step t} pair => ?_⟩
    exact Step.suits_of_renamed_none (none step (List.of_mem_zip pair).1) t
  cases origin_of_mem_productions member with
  | whole _ steps => exact unnamed (by simp) steps
  | longer _ _ steps => exact unnamed (by simp) steps
  | rule rule member steps =>
    exact plain (isWellRenamed_of_mem (List.mem_of_getElem? rule)) member steps
  | single run _ member steps =>
    rw [numbering_eq] at run
    obtain ⟨r, hr, repeated⟩ := Numbering.exists_of_mem_runs_ofRules run
    exact plain (Rule.isWellRenamed_of_mem_repeated (isWellRenamed_of_mem hr) repeated) member steps

/-- Outlines in which every phrase has the parts that its kind can have. -/
inductive Outline.IsRegular : Outline → Prop
  | atom (text : String) : IsRegular (.atom text)
  | phrase {k : Kind} {tree : ParseTree} {parts : List (Option Part × Outline)} (takes : k.Takes parts)
    (below : ∀ part ∈ parts, IsRegular part.2) : IsRegular (.phrase k tree parts)

theorem forall_partOutlines {R : Step → ParseTree → Prop} {Q : Outline → Prop} (g : Tables)
    {steps : List Step} {ts : List ParseTree} (solid : ∀ t ∈ ts, t.isComment = false)
    (related : List.Forall₂ R steps ts)
    (each : ∀ t ∈ ts, ∀ step, R step t → ∀ part ∈ t.outlines g (some step), Q part.2) :
    ∀ part ∈ partOutlines g steps ts, Q part.2 := by
  induction related with
  | nil => simp [partOutlines]
  | @cons step t steps ts first _ ih =>
    rw [List.forall_mem_cons] at solid each
    rw [partOutlines_cons g step steps solid.1]
    refine List.forall_mem_append.2 ⟨fun part member => ?_, ih solid.2 each.2⟩
    obtain ⟨inner, hinner, rfl⟩ := List.mem_map.1 member
    exact each.1 step first inner hinner

theorem takes_of_kind {k : Kind} {p : Production} (kind : scriptTables.kinds[p.head]? = some k)
    {parts : List ParseTree} {start stop : Nat} {weight : Int}
    (derivation : IsDerivation scriptTables (.node p parts start stop weight)) :
    k.Takes (partOutlines scriptTables p.steps.toList parts) := by
  rw [scriptTables, Tables.getElem?_kinds_ofGrammar] at kind
  obtain ⟨⟨k, r⟩, found, rfl⟩ := Option.map_eq_some_iff.1 kind
  obtain ⟨head, rule⟩ := rule?_of_getElem? found
  exact Kind.takes_of_covers (covers_self rule) head.symm derivation

theorem isRegular_of_mem_outlines_leaf (g : Tables) (step : Step) (token : Nat) (gap text : List Char)
    (start stop : Nat) (isComment : Bool) :
    ∀ part ∈ (ParseTree.leaf token gap text start stop isComment).outlines g (some step),
      part.2.IsRegular := by
  have word (k : Kind) (tree : ParseTree) : (Outline.phrase k tree []).IsRegular :=
    .phrase k.takes_nil (by simp)
  rw [outlines]
  split
  · simpa using word _ _
  · split
    · simpa using word _ _
    · simpa using Outline.IsRegular.atom _
    · split
      · simpa using Outline.IsRegular.atom _
      · simp
    · simp

theorem isRegular_of_mem_outlines {t : ParseTree} (derivation : t.IsDerivation scriptTables) {step : Step}
    (suits : step.Suits t) : ∀ part ∈ t.outlines scriptTables (some step), part.2.IsRegular := by
  induction derivation generalizing step with
  | leaf => exact isRegular_of_mem_outlines_leaf scriptTables step _ _ _ _ _ _
  | @node p parts start stop weight member symbols below ih =>
    have derivation : IsDerivation scriptTables (.node p parts start stop weight) :=
      .node member symbols below
    have matching := Matches.of_node derivation
    have regular : ∀ part ∈ partOutlines scriptTables p.steps.toList parts, part.2.IsRegular := by
      rw [← partOutlines_solid]
      exact forall_partOutlines _ matching.solid (suits_of_mem_productions member matching)
        fun t ht step => ih t (List.mem_of_mem_filter ht)
    cases kind : step.kindOf scriptTables p with
    | none =>
      rw [outlines_of_kindOf_none _ kind]
      exact regular
    | some k =>
      rw [outlines_of_kindOf _ kind, List.forall_mem_singleton]
      refine .phrase ?_ regular
      cases renamed : step.renamed with
      | some k' =>
        obtain rfl : k' = k := by simpa [Step.kindOf, renamed] using kind
        exact suits k' renamed
      | none =>
        rw [kindOf_of_renamed_none _ renamed, Option.filter_eq_some_iff] at kind
        exact takes_of_kind kind.1 derivation

end PugComponents.Script
