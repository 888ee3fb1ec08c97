import PugComponents.Proofs.Script.Formed
import PugComponents.Script.Fragment

/-! The names that are read in a script. Where a name is read is told from the outline: which phrases
stand for values, and which are the targets of bindings. No name that is read is missed, but for those in
a few parts that are overlooked. -/

namespace PugComponents.Script

namespace Kind

/-- The role of a part, given whether the phrase around it declares its target. Some parts have the role of
that phrase. -/
def roleOf? (k : Kind) (declares : Bool) (place : Option Part) : Option Role :=
  match k with
  | .variableDeclarator => some (if place = some .name then .bound else .evaluated)
  | .functionDeclaration | .generatorFunctionDeclaration | .functionExpression | .generatorFunction
  | .arrowFunction | .methodDefinition =>
    some (if [some .name, some .parameter, some .parameters].contains place then .bound else .evaluated)
  | .catchClause => some (if place = some .parameter then .bound else .evaluated)
  | .forInStatement => some (if declares ∧ place = some .left then .bound else .evaluated)
  | .objectPattern | .arrayPattern | .restPattern | .formalParameters => none
  | .pairPattern => if place = some .value then none else some .evaluated
  | .assignmentPattern | .objectAssignmentPattern =>
    if place = some .left then none else some .evaluated
  | .requiredParameter | .optionalParameter => if place = some .pattern then none else some .evaluated
  | _ => some .evaluated

end Kind

namespace Outline

/-- Whether a phrase declares its target by a word of its own. -/
def declares (parts : List (Option Part × Outline)) : Bool := parts.any fun part => part.1 = some .keyword

mutual

/-- The names that are read in a phrase with the given role. A variable is read where it is evaluated, and
so is an object member that is named after one. -/
def reads (role : Role) : Outline → List String
  | atom _ => []
  | phrase k tree parts =>
    (if k = .variable ∧ role = .evaluated ∨ k = .shorthandProperty then [tree.spelling] else []) ++
      readsOf k role (declares parts) parts

def readsOf (k : Kind) (role : Role) (declares : Bool) : List (Option Part × Outline) → List String
  | [] => []
  | (place, o) :: parts =>
    (if k.overlooks (place, o.kind?) then [] else o.reads ((k.roleOf? declares place).getD role)) ++
      readsOf k role declares parts

end

section Reads

variable {k : Kind} {role : Role} {tree : ParseTree} {parts : List (Option Part × Outline)}
  {place : Option Part} {o : Outline} {a : String}

theorem mem_readsOf {declares : Bool} : a ∈ readsOf k role declares parts ↔ ∃ place o,
    (place, o) ∈ parts ∧ k.overlooks (place, o.kind?) = false ∧
      a ∈ o.reads ((k.roleOf? declares place).getD role) := by
  induction parts with
  | nil => simp [readsOf]
  | cons part parts ih =>
    obtain ⟨place, o⟩ := part
    rw [readsOf, List.mem_append, ih]
    constructor
    · rintro (here | ⟨place', o', member, seen, read⟩)
      · split at here
        · cases here
        · exact ⟨place, o, List.mem_cons_self, Bool.eq_false_iff.2 ‹_›, here⟩
      · exact ⟨place', o', List.mem_cons_of_mem _ member, seen, read⟩
    · rintro ⟨place', o', member, seen, read⟩
      rcases List.mem_cons.1 member with same | member
      · obtain ⟨rfl, rfl⟩ := Prod.mk.inj same
        exact .inl (by rwa [seen])
      · exact .inr ⟨place', o', member, seen, read⟩

mutual

theorem reads_bound_subset : ∀ o : Outline, o.reads .bound ⊆ o.reads .evaluated
  | atom _ => List.Subset.refl _
  | phrase k tree parts => by
    rw [reads, reads]
    refine List.append_subset.2 ⟨?_, List.Subset.trans (readsOf_bound_subset k _ parts)
      (List.subset_append_right ..)⟩
    refine List.Subset.trans ?_ (List.subset_append_left ..)
    split
    · rename_i own
      rw [if_pos (own.imp_left fun h => ⟨h.1, rfl⟩)]
      exact List.Subset.refl _
    · exact List.nil_subset _

theorem readsOf_bound_subset (k : Kind) (declares : Bool) :
    ∀ parts, readsOf k .bound declares parts ⊆ readsOf k .evaluated declares parts
  | [] => List.Subset.refl _
  | (place, o) :: parts => by
    rw [readsOf, readsOf]
    refine List.append_subset.2
      ⟨List.Subset.trans ?_ (List.subset_append_left ..),
        List.Subset.trans (readsOf_bound_subset k declares parts) (List.subset_append_right ..)⟩
    split
    · exact List.Subset.refl _
    · cases k.roleOf? declares place with
      | some role => exact List.Subset.refl _
      | none => exact reads_bound_subset o

end

theorem eq_nil_of_leaf (takes : k.Takes parts) (shape : k.shape? = some { knows := fun _ => false })
    (seen : ∀ l, k.overlooks l = false) : parts = [] :=
  List.eq_nil_iff_forall_not_mem.2 fun part member =>
    Bool.false_ne_true ((takes _ shape).known part member (seen _))

theorem reads_of_isSilent (regular : o.IsRegular) (silent : Kind.isSilent o.kind?) (role : Role) :
    o.reads role = [] := by
  cases regular with
  | atom => rfl
  | @phrase k tree parts takes below =>
    have listed : k ∈ [Kind.shorthandTarget, .propertyWord, .labelWord, .typeWord, .string,
        .accessibilityModifier, .overrideModifier] := List.contains_iff_mem.1 silent
    simp only [List.mem_cons, List.not_mem_nil, or_false] at listed
    have noParts : parts = [] := by
      rcases listed with rfl | rfl | rfl | rfl | rfl | rfl | rfl <;> exact eq_nil_of_leaf takes rfl fun _ => rfl
    rw [reads, noParts, readsOf, if_neg]
    · rfl
    · rcases listed with rfl | rfl | rfl | rfl | rfl | rfl | rfl <;> simp

theorem reads_of_variable (regular : o.IsRegular) (kind : o.kind? = some .variable) :
    o.reads .bound = [] := by
  cases regular with
  | atom => rfl
  | @phrase k tree parts takes below =>
    obtain rfl : k = .variable := Option.some.inj kind
    rw [reads, eq_nil_of_leaf takes rfl fun _ => rfl]
    simp [readsOf]

end Reads

structure IsFound (o : Outline) : Prop where
  regular : o.IsRegular
  names (role : Role) : o.reads role ⊆ (o.toPhrase.names role).referenced
  parameters : o.kind? = some .formalParameters →
    o.reads .bound ⊆ (Phrase.namesAll .bound o.toPhrase.parts).referenced

end Outline

namespace Phrase

section Referenced

variable (role : Role)

@[simp] theorem referenced_declarator (target value : Phrase) :
    ((declarator target value).names role).referenced =
      (target.names .bound).referenced ++ (value.names .evaluated).referenced := by
  simp [names]

@[simp] theorem referenced_function (label : Phrase) (params : List Phrase) (body : Phrase) :
    ((function label params body).names role).referenced =
      (namesAll .bound params).referenced ++ (body.names .evaluated).referenced := by
  cases label <;> rfl

@[simp] theorem referenced_classDeclaration (label : String) (heritage members : List Phrase) :
    ((classDeclaration label heritage members).names role).referenced =
      (namesAll .evaluated members).referenced := rfl

@[simp] theorem referenced_handler (param body : Phrase) :
    ((handler param body).names role).referenced =
      (param.names .bound).referenced ++ (body.names .evaluated).referenced := rfl

@[simp] theorem referenced_iteration (declares : Bool) (target subject body : Phrase) :
    ((iteration declares target subject body).names role).referenced =
      (target.names (if declares then .bound else .evaluated)).referenced ++
        (subject.names .evaluated).referenced ++ (body.names .evaluated).referenced := rfl

@[simp] theorem referenced_defaulted (target value : Phrase) :
    ((defaulted target value).names role).referenced =
      (target.names role).referenced ++ (value.names .evaluated).referenced := rfl

@[simp] theorem referenced_parameter (target value ascription : Phrase) :
    ((parameter target value ascription).names role).referenced =
      (target.names role).referenced ++ (value.names .evaluated).referenced ++
        (if role = .evaluated then ascription.names .evaluated else {}).referenced := rfl

@[simp] theorem referenced_pair (key value : Phrase) :
    ((pair key value).names role).referenced =
      (if role = .evaluated ∨ key.isComputed then key.names .evaluated else {}).referenced ++
        (value.names role).referenced := rfl

theorem mem_referenced_namesAll {role : Role} {ps : List Phrase} {a : String} :
    a ∈ (namesAll role ps).referenced ↔ ∃ p ∈ ps, a ∈ (p.names role).referenced := by
  induction ps with
  | nil => simp [namesAll]
  | cons p ps ih => simp [namesAll, ih]

end Referenced

end Phrase

open Outline

section Parts

variable {k : Kind} {role : Role} {tree : ParseTree} {parts : List (Option Part × Outline)}
  {place : Option Part} {o : Outline} {a : String}

theorem lookup_toPlaced (single : tally (fun l => l.1 = place) parts ≤ 1) (member : (place, o) ∈ parts) :
    ((toPlaced parts).lookup place).getD .absent = o.toPhrase := by
  induction parts with
  | nil => cases member
  | cons part parts ih =>
    obtain ⟨place', o'⟩ := part
    rw [toPlaced]
    by_cases same : place = place'
    · subst same
      rw [List.lookup_cons_self, Option.getD_some]
      rcases List.mem_cons.1 member with same | member
      · rw [(Prod.mk.inj same).2]
      · have here : 0 < tally (fun l => l.1 = place) parts :=
          List.countP_pos_iff.2 ⟨_, member, decide_eq_true rfl⟩
        rw [← List.singleton_append, tally_append, tally_singleton, decide_eq_true rfl] at single
        exact absurd single (by simp; omega)
    · have member := (List.mem_cons.1 member).resolve_left fun eq => same (Prod.mk.inj eq).1
      rw [List.lookup_cons, beq_false_of_ne same]
      refine ih (Nat.le_trans ?_ single) member
      exact List.Sublist.countP_le (List.sublist_cons_self ..)

def phraseAt (parts : List (Option Part × Outline)) (p : Part) : Phrase :=
  ((toPlaced parts).lookup (some p)).getD .absent

theorem phraseAt_eq {p : Part} (single : tally (fun l => l.1 = some p) parts ≤ 1)
    (member : (some p, o) ∈ parts) : phraseAt parts p = o.toPhrase := lookup_toPlaced single member

theorem isComputed_toPhrase (kind : o.kind? = some .computedPropertyName) :
    o.toPhrase.isComputed = true := by
  cases o with
  | atom => cases kind
  | phrase => cases kind; rfl

theorem mem_toPlaced (member : (place, o) ∈ parts) : o.toPhrase ∈ (toPlaced parts).map Prod.snd := by
  rw [toPlaced_eq_map, List.map_map]
  exact List.mem_map_of_mem member

end Parts

namespace Kind

/-- In a phrase of the kind all names are found that are found in its parts, but for those overlooked. -/
def Finds (k : Kind) : Prop :=
  ∀ (role : Role) (tree : ParseTree) (parts : List (Option Part × Outline)) (place : Option Part)
    (o : Outline),
    k.Takes parts → (place, o) ∈ parts → o.IsFound → k.overlooks (place, o.kind?) = false →
      o.reads ((k.roleOf? (declares parts) place).getD role) ⊆
        ((k.phrase tree (toPlaced parts)).names role).referenced

/-- Kinds without a shape of their own: all parts are evaluated. -/
theorem finds_of_form {k : Kind} (phrase : ∀ tree placed,
    k.phrase tree placed = .form k (placed.map Prod.snd))
    (role : ∀ declares place, k.roleOf? declares place = some .evaluated) : k.Finds := by
  intro role' tree parts place o _ member found _ a read
  rw [role, Option.getD_some] at read
  rw [phrase, Phrase.names, Phrase.mem_referenced_namesAll]
  exact ⟨o.toPhrase, mem_toPlaced member, found.names .evaluated read⟩

theorem finds_of_leaf {k : Kind} (shape : k.shape? = some { knows := fun _ => false })
    (seen : ∀ l, k.overlooks l = false) : k.Finds := by
  intro role tree parts place o takes member
  rw [eq_nil_of_leaf takes shape seen] at member
  cases member

section Kinds

variable {role : Role} {tree : ParseTree} {parts : List (Option Part × Outline)} {place : Option Part}
  {o : Outline} {a : String}

theorem finds_variableDeclarator : variableDeclarator.Finds := by
  intro role tree parts place o takes member found seen a read
  have fits := takes _ rfl
  have known := fits.known _ member seen
  have phrase : variableDeclarator.phrase tree (toPlaced parts) =
    .declarator (phraseAt parts .name) (phraseAt parts .value) := rfl
  rw [phrase, Phrase.referenced_declarator]
  simp at known
  rcases known with rfl | rfl
  · rw [phraseAt_eq (fits.single _ (by simp)) member]
    exact List.mem_append_left _ (found.names .bound read)
  · rw [phraseAt_eq (p := .value) (fits.single _ (by simp)) member]
    exact List.mem_append_right _ (found.names .evaluated read)

/-- Functions of all kinds. Their names are not read, and their parameters are bound. -/
theorem finds_of_function {k : Kind}
    (phrase : ∀ tree parts, k.phrase tree (toPlaced parts) = .function (phraseAt parts .name)
      (phraseAt parts .parameter :: (phraseAt parts .parameters).parts) (phraseAt parts .body))
    (shape : k.shape? = arrowFunction.shape?) (role : k.roleOf? = arrowFunction.roleOf?) : k.Finds := by
  intro role' tree parts place o takes member found seen a read
  have fits := takes _ shape
  have known := fits.known _ member seen
  rw [role] at read
  rw [phrase, Phrase.referenced_function, List.mem_append, Phrase.namesAll]
  rcases Bool.or_eq_true_iff.1 known with silent | known
  · rw [reads_of_isSilent found.regular silent] at read
    cases read
  · dsimp only at known
    split at known
    · change a ∈ o.reads .bound at read
      rw [reads_of_variable found.regular (of_decide_eq_true known)] at read
      cases read
    · rw [phraseAt_eq (fits.single _ (by simp)) member]
      exact .inl (List.mem_append_right _ (found.parameters (of_decide_eq_true known) read))
    · rw [phraseAt_eq (p := .parameter) (fits.single _ (by simp)) member]
      exact .inl (List.mem_append_left _ (found.names .bound read))
    · rw [phraseAt_eq (p := .body) (fits.single _ (by simp)) member]
      exact .inr (found.names .evaluated read)
    · cases known

theorem finds_classDeclaration : classDeclaration.Finds := by
  intro role tree parts place o takes member found seen a read
  have fits := takes _ rfl
  rcases Bool.or_eq_true_iff.1 (fits.known _ member seen) with silent | body
  · rw [reads_of_isSilent found.regular silent] at read
    cases read
  · obtain rfl : place = some .body := of_decide_eq_true body
    change a ∈ (Phrase.namesAll .evaluated [phraseAt parts .body]).referenced
    rw [phraseAt_eq (fits.single _ (by simp)) member]
    exact List.mem_append_left _ (found.names .evaluated read)

theorem finds_catchClause : catchClause.Finds := by
  intro role tree parts place o takes member found seen a read
  have fits := takes _ rfl
  have known := fits.known _ member seen
  have phrase : catchClause.phrase tree (toPlaced parts) =
    .handler (phraseAt parts .parameter) (phraseAt parts .body) := rfl
  rw [phrase, Phrase.referenced_handler]
  simp at known
  rcases known with rfl | rfl
  · rw [phraseAt_eq (fits.single _ (by simp)) member]
    exact List.mem_append_left _ (found.names .bound read)
  · rw [phraseAt_eq (p := .body) (fits.single _ (by simp)) member]
    exact List.mem_append_right _ (found.names .evaluated read)

theorem finds_forInStatement : forInStatement.Finds := by
  intro role tree parts place o takes member found seen a read
  have fits := takes _ rfl
  have phrase : forInStatement.phrase tree (toPlaced parts) = .iteration (declares parts)
      (phraseAt parts .left) (phraseAt parts .right) (phraseAt parts .body) := by
    simp [Kind.phrase, declares, phraseAt, Function.comp_def]
  rw [phrase, Phrase.referenced_iteration]
  rcases Bool.or_eq_true_iff.1 (fits.known _ member seen) with silent | known
  · rw [reads_of_isSilent found.regular silent] at read
    cases read
  · simp at known
    rcases known with rfl | rfl | rfl
    · rw [phraseAt_eq (fits.single _ (by simp)) member]
      simp [roleOf?] at read
      exact List.mem_append_left _ (List.mem_append_left _ (found.names _ read))
    · rw [phraseAt_eq (p := .right) (fits.single _ (by simp)) member]
      simp [roleOf?] at read
      exact List.mem_append_left _ (List.mem_append_right _ (found.names .evaluated read))
    · rw [phraseAt_eq (p := .body) (fits.single _ (by simp)) member]
      simp [roleOf?] at read
      exact List.mem_append_right _ (found.names .evaluated read)

theorem finds_of_pattern {k : Kind} (phrase : ∀ role tree placed,
    (k.phrase tree placed).names role = Phrase.namesAll role (placed.map Prod.snd))
    (role : ∀ declares place, k.roleOf? declares place = none) : k.Finds := by
  intro role' tree parts place o _ member found _ a read
  rw [role] at read
  rw [phrase, Phrase.mem_referenced_namesAll]
  exact ⟨o.toPhrase, mem_toPlaced member, found.names role' read⟩

theorem finds_formalParameters : formalParameters.Finds := by
  intro role tree parts place o _ member found _ a read
  change a ∈ (Phrase.namesAll .evaluated ((toPlaced parts).map Prod.snd)).referenced
  have read : a ∈ o.reads role := read
  refine Phrase.mem_referenced_namesAll.2 ⟨o.toPhrase, mem_toPlaced member, found.names .evaluated ?_⟩
  cases role with
  | evaluated => exact read
  | bound => exact reads_bound_subset o read

theorem finds_pairPattern : pairPattern.Finds := by
  intro role tree parts place o takes member found seen a read
  have fits := takes _ rfl
  have phrase : pairPattern.phrase tree (toPlaced parts) =
    .pair (phraseAt parts .key) (phraseAt parts .value) := rfl
  rw [phrase, Phrase.referenced_pair]
  rcases Bool.or_eq_true_iff.1 (fits.known _ member seen) with value | key
  · obtain rfl : place = some .value := of_decide_eq_true value
    rw [phraseAt_eq (p := .value) (fits.single _ (by simp)) member]
    exact List.mem_append_right _ (found.names role read)
  · obtain ⟨here, key⟩ := Bool.and_eq_true_iff.1 key
    obtain rfl : place = some .key := of_decide_eq_true here
    rcases Bool.or_eq_true_iff.1 key with silent | computed
    · rw [reads_of_isSilent found.regular silent] at read
      cases read
    · have computed := isComputed_toPhrase (of_decide_eq_true computed)
      rw [phraseAt_eq (fits.single _ (by simp)) member, if_pos (.inr computed)]
      exact List.mem_append_left _ (found.names .evaluated read)

theorem finds_of_default {k : Kind} (phrase : ∀ tree parts, k.phrase tree (toPlaced parts) =
      .defaulted (phraseAt parts .left) (phraseAt parts .right))
    (shape : k.shape? = assignmentPattern.shape?) (role : k.roleOf? = assignmentPattern.roleOf?)
    (seen : ∀ l, k.overlooks l = false) : k.Finds := by
  intro role' tree parts place o takes member found _ a read
  have fits := takes _ shape
  have known := fits.known _ member (seen _)
  rw [role] at read
  rw [phrase, Phrase.referenced_defaulted]
  simp at known
  rcases known with rfl | rfl
  · rw [phraseAt_eq (fits.single _ (by simp)) member]
    exact List.mem_append_left _ (found.names role' read)
  · rw [phraseAt_eq (p := .right) (fits.single _ (by simp)) member]
    exact List.mem_append_right _ (found.names .evaluated read)

theorem finds_restPattern : restPattern.Finds := by
  intro role tree parts place o takes member found seen a read
  have fits := takes _ rfl
  have alone : parts = [(none, o)] := by
    have all : tally (fun l => l.1 = none) parts = parts.length :=
      List.countP_eq_length.2 fun part member => fits.known part member rfl
    have le : parts.length ≤ 1 := all ▸ fits.single none (by simp)
    obtain ⟨part, rfl⟩ := List.length_eq_one_iff.1 (Nat.le_antisymm le (List.length_pos_of_mem member))
    obtain rfl := List.mem_singleton.1 member
    obtain rfl : place = none := of_decide_eq_true (fits.known _ member rfl)
    rfl
  rw [alone]
  exact found.names role read

theorem finds_of_parameter {k : Kind} (phrase : ∀ tree parts, ∃ ascription, k.phrase tree (toPlaced parts) =
      .parameter (phraseAt parts .pattern) (phraseAt parts .value) ascription)
    (shape : k.shape? = requiredParameter.shape?) (role : k.roleOf? = requiredParameter.roleOf?) :
    k.Finds := by
  intro role' tree parts place o takes member found seen a read
  have fits := takes _ shape
  have known := fits.known _ member seen
  obtain ⟨ascription, phrase⟩ := phrase tree parts
  rw [role] at read
  rw [phrase, Phrase.referenced_parameter]
  simp at known
  rcases known with rfl | rfl
  · rw [phraseAt_eq (fits.single _ (by simp)) member]
    exact List.mem_append_left _ (List.mem_append_left _ (found.names role' read))
  · rw [phraseAt_eq (p := .value) (fits.single _ (by simp)) member]
    exact List.mem_append_left _ (List.mem_append_right _ (found.names .evaluated read))

end Kinds

theorem finds (k : Kind) : k.Finds := by
  cases k
  case variableDeclarator => exact finds_variableDeclarator
  case classDeclaration => exact finds_classDeclaration
  case catchClause => exact finds_catchClause
  case forInStatement => exact finds_forInStatement
  case formalParameters => exact finds_formalParameters
  case pairPattern => exact finds_pairPattern
  case restPattern => exact finds_restPattern
  case functionDeclaration | generatorFunctionDeclaration | functionExpression | generatorFunction |
      arrowFunction | methodDefinition => exact finds_of_function (fun _ _ => rfl) rfl rfl
  case objectPattern | arrayPattern => exact finds_of_pattern (fun _ _ _ => rfl) fun _ _ => rfl
  case assignmentPattern | objectAssignmentPattern =>
    exact finds_of_default (fun _ _ => rfl) rfl rfl fun _ => rfl
  case requiredParameter | optionalParameter => exact finds_of_parameter (fun _ _ => ⟨_, rfl⟩) rfl rfl
  case «variable» | shorthandProperty | shorthandTarget | propertyWord | labelWord | typeWord | string |
      accessibilityModifier | overrideModifier => exact finds_of_leaf rfl fun _ => rfl
  all_goals exact finds_of_form (fun _ _ => rfl) fun _ _ => rfl

end Kind

namespace Outline

/-- In a regular outline nothing that is read is missed. -/
theorem IsRegular.isFound {o : Outline} (regular : o.IsRegular) : o.IsFound := by
  induction regular with
  | atom text => exact ⟨.atom text, fun _ => List.nil_subset _, fun kind => by cases kind⟩
  | @phrase k tree parts takes below ih =>
    refine ⟨.phrase takes below, fun role => ?_, fun kind => ?_⟩
    · rw [reads]
      refine List.append_subset.2 ⟨?_, fun a read => ?_⟩
      · split
        · rename_i own
          rcases own with ⟨rfl, rfl⟩ | rfl <;> exact List.Subset.refl _
        · exact List.nil_subset _
      · obtain ⟨place, o, member, seen, read⟩ := mem_readsOf.1 read
        exact k.finds role tree parts place o takes member (ih _ member) seen read
    · obtain rfl : k = .formalParameters := Option.some.inj kind
      intro a read
      obtain ⟨place, o, member, -, read⟩ := mem_readsOf.1 read
      exact Phrase.mem_referenced_namesAll.2 ⟨o.toPhrase, mem_toPlaced member,
        (ih _ member).names .bound read⟩

end Outline

section Whole

theorem outlines_none (g : Tables) (t : ParseTree) :
    t.outlines g none = t.outlines g (some { symbol := t.symbol }) := by
  cases t <;> simp [ParseTree.outlines]

theorem outlines_program {tree : ParseTree} (symbol : tree.symbol = .phrase Kind.program.ctorIdx) :
    tree.outlines scriptTables none = [(none, .phrase .program tree tree.inner)] := by
  rw [outlines_none, outlines_of_kind (k := .program) rfl symbol rfl rfl]

def readsOfTrees (g : Tables) (trees : List ParseTree) : List String :=
  (ParseTree.solid trees).flatMap fun tree => (tree.outlines g none).flatMap fun (_, o) => o.reads .evaluated

def phraseOfTrees (g : Tables) (trees : List ParseTree) : Phrase :=
  match trees.filter fun t => !t.isComment with
  | [tree] => ((tree.phrases g none).head?.map Prod.snd).getD (.form .program [])
  | _ => .form .program []

theorem parse?_eq (text : String) :
    parse? text = (scriptTables.parse? text.toList).map (phraseOfTrees scriptTables) := rfl

theorem phraseOfTrees_eq {trees : List ParseTree} {tree : ParseTree} (one : ParseTree.solid trees = [tree])
    (symbol : tree.symbol = .phrase Kind.program.ctorIdx) :
    phraseOfTrees scriptTables trees = (Outline.phrase .program tree tree.inner).toPhrase := by
  rw [phraseOfTrees, show trees.filter (fun t => !t.isComment) = [tree] from one]
  dsimp only
  rw [ParseTree.phrases_eq, outlines_program symbol]
  rfl

theorem readsOfTrees_subset {trees : List ParseTree}
    (complete : IsComplete scriptTables Kind.program.ctorIdx trees) :
    readsOfTrees scriptTables trees ⊆ ((phraseOfTrees scriptTables trees).names .evaluated).referenced := by
  rw [readsOfTrees]
  rcases complete.single with none | ⟨tree, one, symbol⟩
  · rw [none]
    exact List.nil_subset _
  · have member : tree ∈ trees := List.mem_of_mem_filter (one ▸ List.mem_singleton_self tree)
    have shown := outlines_program symbol
    have regular : (Outline.phrase .program tree tree.inner).IsRegular := by
      have suits : Step.Suits { symbol := tree.symbol } tree := Step.suits_of_renamed_none rfl tree
      have each := isRegular_of_mem_outlines (complete.derivation tree member) suits
      rw [← outlines_none, shown] at each
      exact each _ (List.mem_singleton_self _)
    rw [one, phraseOfTrees_eq one symbol, List.flatMap_singleton, shown, List.flatMap_singleton]
    exact regular.isFound.names .evaluated

end Whole

namespace Fragment

/-- The names that are read in a piece of script, as its tree has it; none if it is no script by itself. -/
def reads (source : String) (isExpression : Bool) : List String :=
  ((scriptTables.parse? (scriptText isExpression source).toList).map (readsOfTrees scriptTables)).getD []

/-- No name that is read in a piece of script is missed, but for those in the parts that are overlooked. -/
theorem reads_subset_referenced (source : String) (isExpression : Bool) :
    reads source isExpression ⊆ (analyze source isExpression).referenced := by
  intro a read
  rw [reads] at read
  cases parsed : scriptTables.parse? (scriptText isExpression source).toList with
  | none =>
    rw [parsed] at read
    cases read
  | some trees =>
    rw [parsed] at read
    have phrase : parse? (scriptText isExpression source) = some (phraseOfTrees scriptTables trees) := by
      rw [parse?_eq, parsed, Option.map_some]
    rw [analyze, phrase, ofScript, mem_referenced_ofNames]
    exact readsOfTrees_subset (Tables.isComplete_of_parse? isIndexed_scriptTables isSpelled_scriptTables parsed) read

end Fragment

section Overlooked

namespace Outline

mutual

def overlooked : Outline → List String
  | atom _ => []
  | phrase k _ parts => overlookedOf k parts

def overlookedOf (k : Kind) : List (Option Part × Outline) → List String
  | [] => []
  | (place, o) :: parts =>
    (if k.overlooks (place, o.kind?) then o.reads .evaluated else o.overlooked) ++ overlookedOf k parts

end

end Outline

theorem exists_emptyBlock (place : Option Part) : ∃ t : ParseTree,
    (Rule.phrase .statementBlock).Shows AreSpaces none place " \x7b\x7d".toList
      [(place, .phrase .statementBlock t [])] := by
  obtain ⟨t, -, -, shows'⟩ := exists_phrase_of_shows (k := .statementBlock) place rfl rfl (by decide)
    (.last (.append (shows_piece " " "\x7b" areSpaces_space rfl)
      (.skip (shows_piece "" "\x7d" areSpaces_nil rfl))))
  exact ⟨t, shows'⟩

theorem exists_computedMethod : ∃ name params block method : ParseTree,
    (Rule.phrase .methodDefinition).Shows AreSpaces none none "[k]() \x7b\x7d".toList
      [(none, .phrase .methodDefinition method [
        (some .name, .phrase .computedPropertyName name [(none, .phrase .variable (piece .word "" "k") [])]),
        (some .parameters, .phrase .formalParameters params []),
        (some .body, .phrase .statementBlock block [])])] := by
  obtain ⟨name, -, -, showsName⟩ := exists_phrase_of_shows (k := .computedPropertyName) none rfl rfl
    (by decide) (.append (shows_piece "" "[" areSpaces_nil rfl) (.append
      (shows_variable none "" "k" areSpaces_nil ⟨"k".toList, by decide⟩ (by decide))
      (shows_piece "" "]" areSpaces_nil rfl)))
  have label : (Rule.phrase .propertyName).Shows AreSpaces none (some .name) _ _ :=
    shows_group rfl rfl (by decide) (shows_oneOf (r := Kind.computedPropertyName) (by decide) showsName)
  obtain ⟨params, -, -, showsParams⟩ := exists_phrase_of_shows (k := .formalParameters)
    (some .parameters) rfl rfl (by decide)
    (.append (shows_piece "" "(" areSpaces_nil rfl) (.skip (shows_piece "" ")" areSpaces_nil rfl)))
  have header : (Rule.phrase .callHeader).Shows AreSpaces none none _ _ := shows_group rfl rfl (by decide)
    (.skip (.last showsParams))
  obtain ⟨block, showsBlock⟩ := exists_emptyBlock (some .body)
  obtain ⟨method, -, -, shows'⟩ := exists_phrase_of_shows (k := .methodDefinition) none rfl rfl (by decide)
    (.skip (.skip (.skip (.skip (.skip (.skip (.append label (.skip (.append header showsBlock)))))))))
  exact ⟨name, params, block, method, shows'⟩

theorem exists_derivedClass : ∃ o : Outline,
    (Rule.phrase .statement).Shows AreSpaces none none "class A extends B \x7b[k]() \x7b\x7d\x7d".toList
        [(none, o)] ∧
      o.overlooked = ["B", "k"] ∧ (o.toPhrase.names .evaluated).referenced = [] := by
  have entry : (Rule.phrase .extendsEntry).Shows AreSpaces none none _ _ := shows_group rfl rfl (by decide)
    (.last (shows_variable none " " "B" areSpaces_space ⟨"B".toList, by decide⟩ (by decide)))
  obtain ⟨clause, -, -, showsClause⟩ := exists_phrase_of_shows (k := .extendsClause) none rfl rfl (by decide)
    (.append (shows_piece " " "extends" areSpaces_space rfl) (.last entry))
  obtain ⟨heritage, -, -, showsHeritage⟩ := exists_phrase_of_shows (k := .classHeritage) none rfl rfl
    (by decide) (.inl (.last showsClause))
  obtain ⟨name, params, block, method, showsMethod⟩ := exists_computedMethod
  obtain ⟨body, -, -, showsBody⟩ := exists_phrase_of_shows (k := .classBody) (some .body) rfl rfl (by decide)
    (.append (shows_piece " " "\x7b" areSpaces_space rfl) (.append
      (shows_once (.inl (.skip (.last showsMethod))))
      (shows_piece "" "\x7d" areSpaces_nil rfl)))
  obtain ⟨whole, -, -, showsClass⟩ := exists_phrase_of_shows (k := .classDeclaration) none rfl rfl (by decide)
    (.skip (.append (shows_piece "" "class" areSpaces_nil rfl)
      (.append (shows_piece " " "A" areSpaces_space ⟨"A".toList, by decide⟩) (.skip
        (.append (.inl showsHeritage) (.last showsBody))))))
  have declaration : (Rule.phrase .declaration).Shows AreSpaces none none _ _ :=
    shows_group rfl rfl (by decide) (shows_oneOf (r := Kind.classDeclaration) (by decide) showsClass)
  exact ⟨_, shows_group rfl rfl (by decide)
    (shows_oneOf (r := Kind.declaration) (by decide) declaration), rfl, rfl⟩

theorem exists_valuedLoop : ∃ o : Outline,
    (Rule.phrase .statement).Shows AreSpaces none none " for (var i = a in o) \x7b\x7d".toList [(none, o)] ∧
      o.overlooked = ["a"] ∧ (o.toPhrase.names .evaluated).referenced = ["o"] := by
  have value : (Rule.phrase .initialValue).Shows AreSpaces none none _ _ := shows_group rfl rfl (by decide)
    (.append (shows_piece " " "=" areSpaces_space rfl)
      (shows_variable (some .value) " " "a" areSpaces_space ⟨"a".toList, by decide⟩ (by decide)))
  have declared : (Grammar.seq [.part .keyword "var",
      .part .left (Grammar.oneOf [Token.word, Kind.destructuringPattern]),
      Grammar.optional Kind.initialValue]).Shows AreSpaces none none _ _ :=
    .append (shows_piece "" "var" areSpaces_nil rfl) (.append
      (.inl (shows_piece " " "i" areSpaces_space ⟨"i".toList, by decide⟩)) (.inl value))
  have header : (Rule.phrase .forHeader).Shows AreSpaces none none _ _ := shows_group rfl rfl (by decide)
    (.append (shows_piece " " "(" areSpaces_space rfl) (.append (.append (.inr (.inl declared))
      (.append (.inl (shows_piece " " "in" areSpaces_space rfl))
        (.inl (shows_variable (some .right) " " "o" areSpaces_space ⟨"o".toList, by decide⟩ (by decide)))))
      (shows_piece "" ")" areSpaces_nil rfl)))
  obtain ⟨block, showsBlock⟩ := exists_emptyBlock none
  have body : (Rule.phrase .statement).Shows AreSpaces none (some .body) _ _ :=
    shows_group rfl rfl (by decide) (shows_oneOf (r := Kind.statementBlock) (by decide) showsBlock)
  obtain ⟨loop, -, -, showsLoop⟩ := exists_phrase_of_shows (k := .forInStatement) none rfl rfl (by decide)
    (.append (shows_piece " " "for" areSpaces_space rfl) (.skip (.append header body)))
  exact ⟨_, shows_group rfl rfl (by decide)
    (shows_oneOf (r := Kind.forInStatement) (by decide) showsLoop), rfl, rfl⟩

/-- A class and a loop with three names that are read in parts that are overlooked. -/
def overlookingScript : String := "class A extends B \x7b[k]() \x7b\x7d\x7d for (var i = a in o) \x7b\x7d"

/-- The script has a tree, and none of the three names is found in it. -/
theorem missed_overlookingScript : ∃ tree : ParseTree, tree.IsPlain AreSpaces ∧
    IsComplete scriptTables Kind.program.ctorIdx [tree] ∧ tree.spacedText = overlookingScript.toList ∧
    (Outline.phrase .program tree tree.inner).overlooked = ["B", "k", "a"] ∧
    ((phraseOfTrees scriptTables [tree]).names .evaluated).referenced = ["o"] := by
  obtain ⟨c, showsClass, missed, found⟩ := exists_derivedClass
  obtain ⟨l, showsLoop, missed', found'⟩ := exists_valuedLoop
  obtain ⟨tree, plain, symbol, text, inner⟩ := (shows_iff_exists_tree (k := .program) rfl (by decide)).1
    (.skip (shows_twice showsClass showsLoop))
  have one : ParseTree.solid [tree] = [tree] := ParseTree.solid_eq_self (by simpa using plain.gaps)
  refine ⟨tree, plain, ⟨by simpa using plain.derivation, .inr ⟨tree, one, symbol⟩⟩, text, ?_, ?_⟩
  · rw [Outline.overlooked, inner]
    simp [Outline.overlookedOf, Kind.overlooks, missed, missed']
  · rw [phraseOfTrees_eq one symbol, inner]
    show (Phrase.namesAll .evaluated [c.toPhrase, l.toPhrase]).referenced = _
    simp [Phrase.namesAll, found, found']

end Overlooked

end PugComponents.Script
