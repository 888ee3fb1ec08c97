import PugComponents.Proofs.Definition.Hoisted
import PugComponents.Proofs.Definition.Reports
import PugComponents.Proofs.Expansion.Provision

/-! The names of a component body, whatever the order of its nodes. Each node contributes the names in its
own expressions, and the body has the names of all its nodes. So nodes of a block may change places or be
repeated, and the scope stays the same. A name belongs to the caller if it is read and the body may not
read it. -/

namespace PugComponents

open Node Outcome

namespace NameSet

theorem pairwise_insert {name : String} {set : List String} (sorted : set.Pairwise (· < ·)) :
    (insert name set).Pairwise (· < ·) := by
  induction set with
  | nil => exact List.pairwise_singleton _ _
  | cons other rest ih =>
    obtain ⟨least, sorted'⟩ := List.pairwise_cons.1 sorted
    rw [insert]
    split
    · exact sorted
    · rename_i ne
      split
      · rename_i lt
        refine List.pairwise_cons.2 ⟨fun a ha => ?_, sorted⟩
        rcases List.mem_cons.1 ha with rfl | ha
        · exact lt
        · exact String.lt_trans lt (least a ha)
      · rename_i notLt
        refine List.pairwise_cons.2 ⟨fun a ha => ?_, ih sorted'⟩
        rcases mem_insert.1 ha with rfl | ha
        · exact Std.lt_of_le_of_ne (String.not_lt.1 notLt) (Ne.symm ne)
        · exact least a ha

theorem pairwise_ofList (names : List String) : (ofList names).Pairwise (· < ·) := by
  induction names with
  | nil => exact .nil
  | cons name names ih => exact pairwise_insert ih

theorem ofList_congr {names names' : List String} (same : ∀ a, a ∈ names ↔ a ∈ names') :
    ofList names = ofList names' := by
  have nodup (xs : List String) : (ofList xs).Nodup :=
    (pairwise_ofList xs).imp fun lt => by
      rintro rfl
      exact String.lt_irrefl _ lt
  have perm : (ofList names).Perm (ofList names') :=
    (List.perm_ext_iff_of_nodup (nodup names) (nodup names')).2 fun a => by
      rw [mem_ofList, mem_ofList, same]
  exact perm.eq_of_pairwise (fun a b _ _ lt lt' => absurd (String.lt_trans lt lt') (String.lt_irrefl a))
    (pairwise_ofList names) (pairwise_ofList names')

end NameSet

/-- A property of the sightings that the readers put together: the names of a fragment, names that are
declared by name, and names that are read. -/
structure Sighting.IsCommon (P : Sighting → Prop) : Prop where
  ofFragment : ∀ source isExpression, P (.ofFragment (Script.Fragment.analyze source isExpression))
  declares : ∀ names, P (.declares names)
  reads : ∀ names, P (.reads names)

def Sighted (P : Sighting → Prop) (x : Except Failure (List Sighting)) : Prop :=
  ∀ ss, x = .ok ss → ∀ s ∈ ss, P s

namespace Sighted

variable {P : Sighting → Prop}

theorem nil : Sighted P (.ok []) := by
  rintro _ ⟨⟩
  simp

theorem error (e : Failure) : Sighted P (.error e) := by
  rintro _ ⟨⟩

theorem singleton {s : Sighting} (h : P s) : Sighted P (.ok [s]) := by
  rintro _ ⟨⟩
  simpa

theorem bind {α : Type} {x : Except Failure α} {f : α → Except Failure (List Sighting)}
    (next : ∀ a, x = .ok a → Sighted P (f a)) : Sighted P (x >>= f) := by
  intro ss run
  obtain ⟨a, first, run⟩ := bind_eq_ok.1 run
  exact next a first ss run

theorem append {x : Except Failure (List Sighting)} {ss : List Sighting} (h : Sighted P x)
    (run : x = .ok ss) {y : Except Failure (List Sighting)} (h' : Sighted P y) :
    Sighted P (y >>= fun others => pure (ss ++ others)) := by
  refine .bind fun others run' => ?_
  rintro _ ⟨⟩ s hs
  rcases List.mem_append.1 hs with hs | hs
  · exact h ss run s hs
  · exact h' others run' s hs

theorem flatten_mapM {α : Type} {f : α → Except Failure (List Sighting)} {as : List α}
    {parts : List (List Sighting)} (each : ∀ a, Sighted P (f a)) (run : as.mapM f = .ok parts) :
    ∀ s ∈ parts.flatten, P s := by
  intro s hs
  obtain ⟨part, hpart, hs⟩ := List.mem_flatten.1 hs
  obtain ⟨a, -, own⟩ := exists_of_mem_mapM run hpart
  exact each a part own s hs

end Sighted

namespace Sighting.IsCommon

variable {P : Sighting → Prop} (common : IsCommon P)
include common

theorem expressionSightings (v : Json) : Sighted P v.expressionSightings := by
  unfold Json.expressionSightings
  split
  · split
    · exact .nil
    · exact .singleton (common.ofFragment _ _)
  · split
    · exact .error _
    · exact .nil

theorem codeSightings (v : Json) : Sighted P v.codeSightings := by
  unfold Json.codeSightings
  split
  · split
    · exact .nil
    · exact .singleton (common.ofFragment _ _)
  · exact .error _

theorem of_readName {v : Json} {s : Sighting} (h : v.readName = .ok s) : P s := by
  unfold Json.readName at h
  split at h <;> cases h
  · exact common.reads _
  · exact common.reads []

theorem of_declaredName {v : Json} (text : v.isText = true) {s : Sighting}
    (h : v.declaredName = .ok s) : P s := by
  cases v with
  | str name =>
    cases h
    exact common.declares _
  | _ => cases text

theorem attributeSightings (attrs : List Attribute) (spreads : List Spread) :
    Sighted P (attributeSightings attrs spreads) := by
  refine .bind fun values run => .bind fun others run' => ?_
  rintro _ ⟨⟩
  refine List.forall_mem_append.2 ⟨Sighted.flatten_mapM (fun attr => ?_) run,
    Sighted.flatten_mapM (fun _ => common.expressionSightings _) run'⟩
  split
  · exact common.expressionSightings _
  · exact .nil

theorem mixinSightings (head : MixinHead) : Sighted P (mixinSightings head) := by
  unfold PugComponents.mixinSightings
  split
  · exact .nil
  · split
    · exact common.expressionSightings _
    · split
      · exact .singleton (common.declares _)
      · exact .error _

theorem sightings {n : Node} (wf : n.isWellFormed = true) : Sighted P n.sightings := by
  cases n with
  | owner pos head block =>
    cases head with
    | code val buffer mustEscape isInline =>
      simp only [Node.sightings]
      split
      · exact common.expressionSightings _
      · exact common.codeSightings _
    | whileLoop test => exact common.expressionSightings _
    | caseOf expr => exact common.expressionSightings _
    | whenArm expr debug =>
      simp only [Node.sightings]
      split
      · exact .nil
      · exact common.expressionSightings _
    | interpolatedTag element =>
      exact .bind fun own run =>
        (common.expressionSightings _).append run (common.attributeSightings _ _)
    | tag element =>
      refine .bind fun own run => .bind fun isCall _ => ?_
      have first := common.attributeSightings element.attrs element.spreads own run
      cases isCall with
      | true =>
        refine .bind fun names read => ?_
        rintro _ ⟨⟩
        refine List.forall_mem_append.2 ⟨first, fun s hs => ?_⟩
        obtain ⟨attr, -, read⟩ := exists_of_mem_mapM read hs
        exact common.of_readName read
      | false =>
        rintro _ ⟨⟩
        exact first
    | mixin head =>
      exact .bind fun own run => (common.attributeSightings _ _).append run (common.mixinSightings _)
    | _ => exact .nil
  | fork pos head main alternate =>
    cases head with
    | conditional test => exact common.expressionSightings _
    | each obj val key =>
      have typed := (isWellFormed_fork.1 wf).2.1
      simp only [Fork.isTyped, Bool.and_eq_true] at typed
      refine .bind fun own run => .bind fun item declared => ?_
      have first := common.of_declaredName typed.1.2 declared
      have both {index : Sighting} (second : P index) : Sighted P (.ok (own ++ [item, index])) := by
        rintro _ ⟨⟩
        exact List.forall_mem_append.2 ⟨common.expressionSightings _ own run, by simp [first, second]⟩
      dsimp only
      split
      · rename_i truthy
        exact .bind fun index declared' =>
          both (common.of_declaredName (isText_of_isTruthy typed.2 truthy) declared')
      · exact both (common.reads [])
  | _ => exact .nil

theorem of_mem_survey {body : Node} (wf : body.isWellFormed = true) {ss : List Sighting}
    (surveyed : body.survey Node.sightings = .ok ss) : ∀ s ∈ ss, P s := by
  intro s hs
  obtain ⟨n, hn, own, asked, hs⟩ := exists_of_mem_survey surveyed hs
  exact common.sightings (isWellFormed_of_mem_walk wf hn) own asked s hs

end Sighting.IsCommon

theorem isCommon_nameless : Sighting.IsCommon (·.nameless = []) :=
  ⟨fun _ _ => rfl, fun _ => rfl, fun _ => rfl⟩

namespace Node

def Sights (sort : Sighting → List String) (n : Node) (name : String) : Prop :=
  ∃ own, n.sightings = .ok own ∧ ∃ s ∈ own, name ∈ sort s

theorem sights_of_bare_eq {sort : Sighting → List String} {n n' : Node} {name : String}
    (same : n'.bare = n.bare) : n'.Sights sort name ↔ n.Sights sort name := by
  rw [Sights, Sights, ← Definition.sightings_bare, same, Definition.sightings_bare]

/-- The same nodes up to their children, however often and in whatever order. -/
def SameHeads (n n' : Node) : Prop := ∀ head, head ∈ n'.walk.map bare ↔ head ∈ n.walk.map bare

/-- The nodes of a block change places, or one of them is repeated, at any depth. -/
inductive Rearranged : Node → Node → Prop where
  | permuted (pos : Position) (head : Sequence) {nodes nodes' : List Node} (perm : nodes.Perm nodes') :
    Rearranged (seq pos head nodes) (seq pos head nodes')
  | repeated (pos : Position) (head : Sequence) (before : List Node) (n : Node) (after : List Node) :
    Rearranged (seq pos head (before ++ n :: after)) (seq pos head (before ++ n :: n :: after))
  | within {n n' : Node} (f : Frame) (inner : Rearranged n n') : Rearranged (f.plug n) (f.plug n')

theorem Rearranged.sameHeads {n n' : Node} (h : Rearranged n n') : SameHeads n n' := by
  induction h with
  | permuted pos head perm =>
    intro b
    have below := ((perm.flatMap_right walk).map bare).mem_iff (a := b)
    simp only [walk_eq (seq ..), children, List.map_cons, List.mem_cons, below]
    rfl
  | repeated pos head before n after =>
    intro b
    simp only [walk_eq (seq ..), children, List.flatMap_append, List.flatMap_cons, List.map_cons,
      List.map_append, List.mem_cons, List.mem_append, or_self_left]
    rfl
  | @within n n' f inner ih =>
    intro b
    simp only [walk_eq (f.plug _), Frame.children_plug, List.flatMap_append, List.flatMap_cons,
      List.map_cons, List.map_append, List.mem_cons, List.mem_append, f.bare_plug n n', ih b]

end Node

namespace Scope

variable {allowed : List String} {body body' : Node} {ss ss' : List Sighting}

theorem mem_flatMap_iff_of_survey (h : body.survey sightings = .ok ss) {sort : Sighting → List String}
    {name : String} : name ∈ ss.flatMap sort ↔ ∃ n ∈ body.walk, n.Sights sort name := by
  simp only [List.mem_flatMap, mem_survey_iff h, Sights]
  constructor
  · rintro ⟨s, ⟨n, hn, own, asked, hs⟩, member⟩
    exact ⟨n, hn, own, asked, s, hs, member⟩
  · rintro ⟨n, hn, own, asked, s, hs, member⟩
    exact ⟨s, ⟨n, hn, own, asked, hs⟩, member⟩

theorem exists_sights_iff_of_sameHeads (same : SameHeads body body') {sort : Sighting → List String}
    {name : String} :
    (∃ n ∈ body'.walk, n.Sights sort name) ↔ ∃ n ∈ body.walk, n.Sights sort name := by
  have carry {root root' : Node} (same : ∀ head ∈ root.walk.map bare, head ∈ root'.walk.map bare) :
      (∃ n ∈ root.walk, n.Sights sort name) → ∃ n ∈ root'.walk, n.Sights sort name := by
    rintro ⟨n, hn, sighted⟩
    obtain ⟨n', hn', bare_eq⟩ := List.mem_map.1 (same _ (List.mem_map_of_mem hn))
    exact ⟨n', hn', (sights_of_bare_eq bare_eq).2 sighted⟩
  exact ⟨carry fun head => (same head).1, carry fun head => (same head).2⟩

theorem sure_survey_of_sameHeads (wf : body.isWellFormed = true) (same : SameHeads body body') :
    Sure (body'.survey sightings) := by
  refine FailsOnly.bind (failsOnly_mapM_of_mem fun n' hn' => ?_) fun _ => sure_ok _
  obtain ⟨n, hn, bare_eq⟩ := List.mem_map.1 ((same _).1 (List.mem_map_of_mem hn'))
  have wfn := isWellFormed_of_mem_walk wf hn
  rw [contribution_eq Definition.sightings_bare bare_eq.symm]
  refine (sure_sightings wfn).bind fun own => ?_
  rw [isMisfiled_of_isWellFormed wfn]
  exact sure_ok _

theorem ofSightings_congr
    (same : ∀ (sort : Sighting → List String) name, name ∈ ss'.flatMap sort ↔ name ∈ ss.flatMap sort)
    (named : ∀ s ∈ ss, s.nameless = []) (named' : ∀ s ∈ ss', s.nameless = []) :
    ofSightings allowed ss' = ofSightings allowed ss := by
  have sets (sort : Sighting → List String) :
      NameSet.ofList (ss'.flatMap sort) = NameSet.ofList (ss.flatMap sort) :=
    NameSet.ofList_congr (same sort)
  have nameless : ss'.flatMap (·.nameless) = ss.flatMap (·.nameless) := by
    rw [List.flatMap_eq_nil_iff.2 named, List.flatMap_eq_nil_iff.2 named']
  simp only [ofSightings, sets, nameless]

/-- The scope depends only on the heads of the nodes. -/
theorem analyze_eq_of_sameHeads (wf : body.isWellFormed = true) (same : SameHeads body body') :
    analyze allowed body' = analyze allowed body := by
  obtain ⟨ss, surveyed⟩ := (sure_survey wf fun _ => sure_sightings).exists_ok
  obtain ⟨ss', surveyed'⟩ := (sure_survey_of_sameHeads wf same).exists_ok
  have named := isCommon_nameless.of_mem_survey wf surveyed
  have named' : ∀ s ∈ ss', s.nameless = [] := by
    intro s hs
    obtain ⟨n', hn', own, asked, hs⟩ := exists_of_mem_survey surveyed' hs
    obtain ⟨n, hn, bare_eq⟩ := List.mem_map.1 ((same _).1 (List.mem_map_of_mem hn'))
    rw [← Definition.sightings_bare, ← bare_eq, Definition.sightings_bare] at asked
    exact isCommon_nameless.sightings (isWellFormed_of_mem_walk wf hn) own asked s hs
  rw [analyze, analyze, surveyed, surveyed']
  refine congrArg Except.ok (ofSightings_congr (fun sort name => ?_) named named')
  rw [mem_flatMap_iff_of_survey surveyed, mem_flatMap_iff_of_survey surveyed',
    exists_sights_iff_of_sameHeads same]

theorem mem_external_iff {config : Config} {scope : Scope} {name : String}
    (h : analyze config.allowedGlobals body = .ok scope) :
    name ∈ scope.external ↔ name ∈ scope.referenced ∧ scope.allows (some config) name = false := by
  simp only [analyze, bind_eq_ok, pure_eq_ok] at h
  obtain ⟨ss, -, rfl⟩ := h
  simp only [ofSightings, allows, derived, List.mem_filter, List.contains_eq_mem, NameSet.mem_ofList,
    List.mem_append, Option.map_some, Option.getD_some, Bool.not_eq_true', Bool.or_eq_false_iff,
    decide_eq_false_iff_not, not_or]
  tauto

/-- The names of a well-formed body are those of its nodes, whatever their order. Each set of names is the
union of what the nodes contribute; a body of which the blocks are rearranged, any number of times and at
any depth, has the same scope; and the names of the caller are those that are read and that the check of
a single name, with the same configuration, does not allow. -/
theorem union_of_analyze (config : Config) {body : Node} (wf : body.isWellFormed = true) :
    ∃ scope, analyze config.allowedGlobals body = .ok scope ∧
      (∀ name,
        (name ∈ scope.declared ↔ ∃ n ∈ body.walk, n.Sights (·.declared) name) ∧
        (name ∈ scope.referenced ↔ ∃ n ∈ body.walk, n.Sights (·.referenced) name) ∧
        (name ∈ scope.props ↔ ∃ n ∈ body.walk, n.Sights (·.props) name) ∧
        (name ∈ scope.attrs ↔ ∃ n ∈ body.walk, n.Sights (·.attrs) name)) ∧
      (∀ body', Relation.ReflTransGen Rearranged body body' →
        analyze config.allowedGlobals body' = .ok scope) ∧
      ∀ name, name ∈ scope.external ↔
        name ∈ scope.referenced ∧ scope.allows (some config) name = false := by
  obtain ⟨ss, surveyed⟩ := (sure_survey wf fun _ => sure_sightings).exists_ok
  have analysed : analyze config.allowedGlobals body = .ok (ofSightings config.allowedGlobals ss) := by
    rw [analyze, surveyed]
    rfl
  refine ⟨_, analysed, fun name => ?_, fun body' rearranged => ?_, fun name => mem_external_iff analysed⟩
  · simp only [ofSightings, NameSet.mem_ofList, mem_flatMap_iff_of_survey surveyed, and_self]
  · have same : SameHeads body body' := by
      induction rearranged with
      | refl => exact fun head => .rfl
      | tail _ step ih => exact fun head => (step.sameHeads head).trans (ih head)
    rw [analyze_eq_of_sameHeads wf same, analysed]

end Scope

def lateDeclaration : Node :=
  .block {} [
    .fork {} (.each (.str "items") (.str "item") .null) (some (.block {} [
      .owner {} (.code (.str "item") (.bool true) (.bool true) (.bool true)) none])) none,
    .owner {} (.code (.str "const items = $props.items") (.bool false) (.bool false) (.bool false)) none]

def earlyDeclaration : Node :=
  .block {} [
    .owner {} (.code (.str "const items = $props.items") (.bool false) (.bool false) (.bool false)) none,
    .owner {} (.code (.str "const items = $props.items") (.bool false) (.bool false) (.bool false)) none,
    .fork {} (.each (.str "items") (.str "item") .null) (some (.block {} [
      .owner {} (.code (.str "item") (.bool true) (.bool true) (.bool true)) none])) none]

theorem rearranged_earlyDeclaration :
    Relation.ReflTransGen Rearranged lateDeclaration earlyDeclaration :=
  .tail (.single (.permuted {} .plain (.swap _ _ []))) (.repeated {} .plain [] _ _)

theorem union_lateDeclaration :
    ∃ scope, Scope.analyze [] lateDeclaration = .ok scope ∧ Scope.analyze [] earlyDeclaration = .ok scope ∧
      "item" ∈ scope.declared := by
  have wf : lateDeclaration.isWellFormed = true := by decide +kernel
  obtain ⟨scope, analysed, union, insensitive, -⟩ := Scope.union_of_analyze {} wf
  refine ⟨scope, analysed, insensitive _ rearranged_earlyDeclaration, ?_⟩
  refine (union "item").1.2 ⟨_, List.mem_cons_of_mem _ List.mem_cons_self, ?_⟩
  refine ⟨_, rfl, .declares ["item"], ?_, List.mem_singleton_self _⟩
  simp

end PugComponents
