import PugComponents.Proofs.Expansion.CallGraph
import PugComponents.Proofs.Traversal.Detector
import Mathlib.Data.List.DropRight

/-! What a registry holds after any operations on it: the definitions that it took since it was last
emptied, in order. All its views show these. A definition is refused exactly if its name is taken; then
nothing changes, and the report names both places. Detection takes the definitions of a tree in the order
of the walk. -/

namespace PugComponents

namespace Registry

/-- What can be done to a registry. -/
inductive Operation where
  | register (d : Definition)
  | clear

/-- An operation that was tried, with the reason if it was refused. -/
structure Event where
  operation : Operation
  refusal : Option Failure

def perform (r : Reporter) (reg : Registry) : Operation → Registry × Option Failure
  | .register d =>
    match register r reg d with
    | .ok next => (next, none)
    | .error e => (reg, some e)
  | .clear => (empty, none)

def performAll (r : Reporter) : Registry → List Operation → Registry × List Event
  | reg, [] => (reg, [])
  | reg, op :: ops =>
    let step := perform r reg op
    let run := performAll r step.1 ops
    (run.1, ⟨op, step.2⟩ :: run.2)

def Operation.isClear : Operation → Bool
  | .register _ => false
  | .clear => true

def Operation.definition? : Operation → Option Definition
  | .register d => some d
  | .clear => none

def Event.taken? (e : Event) : Option Definition :=
  if e.refusal.isNone then e.operation.definition? else none

/-- The definitions that were taken since the registry was last emptied, in order. -/
def taken (events : List Event) : List Definition :=
  (events.rtakeWhile fun e => !e.operation.isClear).filterMap Event.taken?

/-- The names of the definitions that were offered since the registry was last emptied, in order. -/
def offered (ops : List Operation) : List String :=
  (ops.rtakeWhile fun op => !op.isClear).filterMap fun op => op.definition?.map Definition.name

def collision (r : Reporter) (d previous : Definition) : Failure :=
  .diagnostic {
    cause := .duplicateComponent d.name (some (previous.location.withFilename r.filename))
    location := some (d.location.withFilename r.filename) }

variable {r : Reporter} {reg : Registry} {d : Definition}

theorem perform_register_of_get? {previous : Definition} (found : reg.get? d.name = some previous) :
    perform r reg (.register d) = (reg, some (collision r d previous)) := by
  have refused : register r reg d = .error (collision r d previous) := by
    unfold register
    split
    · rename_i other found'
      obtain rfl : previous = other := Option.some.inj (found.symm.trans found')
      rfl
    · rename_i fresh
      rw [found] at fresh
      cases fresh
  simp only [perform, refused]

theorem perform_register_of_fresh (fresh : reg.get? d.name = none) :
    perform r reg (.register d) = (reg.add d fresh, none) := by
  have admitted : register r reg d = .ok (reg.add d fresh) := register_eq_ok_iff.2 rfl
  simp only [perform, admitted]

theorem performAll_concat (reg : Registry) (ops : List Operation) (op : Operation) :
    performAll r reg (ops ++ [op]) =
      ((perform r (performAll r reg ops).1 op).1,
        (performAll r reg ops).2 ++ [⟨op, (perform r (performAll r reg ops).1 op).2⟩]) := by
  induction ops generalizing reg with
  | nil => rfl
  | cons first ops ih => rw [List.cons_append, performAll, ih, performAll]; rfl

theorem map_operation_performAll (reg : Registry) (ops : List Operation) :
    (performAll r reg ops).2.map Event.operation = ops := by
  induction ops generalizing reg with
  | nil => rfl
  | cons op ops ih => rw [performAll, List.map_cons, ih]

theorem taken_concat (events : List Event) (e : Event) :
    taken (events ++ [e]) = if e.operation.isClear then [] else taken events ++ e.taken?.toList := by
  unfold taken
  cases cleared : e.operation.isClear with
  | true => rw [List.rtakeWhile_concat_neg _ _ _ (by simp [cleared])]; rfl
  | false =>
    rw [List.rtakeWhile_concat_pos _ _ _ (by simp [cleared]), List.filterMap_append]
    cases took : e.taken? <;> simp [took]

theorem offered_concat (ops : List Operation) (op : Operation) :
    offered (ops ++ [op]) =
      if op.isClear then [] else offered ops ++ (op.definition?.map Definition.name).toList := by
  unfold offered
  cases op with
  | clear => rw [List.rtakeWhile_concat_neg _ _ _ (by simp [Operation.isClear])]; rfl
  | register d =>
    rw [List.rtakeWhile_concat_pos _ _ _ (by simp [Operation.isClear]), List.filterMap_append]
    rfl

theorem definitions_perform (reg : Registry) (op : Operation) :
    (perform r reg op).1.definitions =
      if op.isClear then [] else reg.definitions ++ (Event.taken? ⟨op, (perform r reg op).2⟩).toList := by
  cases op with
  | clear => rfl
  | register d =>
    cases found : reg.get? d.name with
    | none => rw [perform_register_of_fresh found]; rfl
    | some previous =>
      rw [perform_register_of_get? found]
      exact (List.append_nil _).symm

theorem definitions_performAll (r : Reporter) (ops : List Operation) :
    (performAll r empty ops).1.definitions = taken (performAll r empty ops).2 := by
  induction ops using List.reverseRecOn with
  | nil => rfl
  | append_singleton ops op ih => rw [performAll_concat, definitions_perform, taken_concat, ih]

theorem eraseDups_concat (names : List String) (name : String) :
    (names ++ [name]).eraseDups = if name ∈ names then names.eraseDups else names.eraseDups ++ [name] := by
  rw [List.eraseDups_append]
  split
  · rename_i known
    have none : [name].removeAll names = [] := by simp [List.removeAll, known]
    rw [none, List.eraseDups_nil, List.append_nil]
  · rename_i new
    have one : [name].removeAll names = [name] := by simp [List.removeAll, new]
    rw [one]
    rfl

theorem names_performAll (r : Reporter) (ops : List Operation) :
    (performAll r empty ops).1.names = (offered ops).eraseDups := by
  induction ops using List.reverseRecOn with
  | nil => rfl
  | append_singleton ops op ih =>
    rw [performAll_concat, offered_concat]
    cases op with
    | clear => rfl
    | register d =>
      have known : d.name ∈ (performAll r empty ops).1.names ↔ d.name ∈ offered ops := by
        rw [ih, List.mem_eraseDups]
      show _ = (offered ops ++ [d.name]).eraseDups
      rw [eraseDups_concat]
      cases found : (performAll r empty ops).1.get? d.name with
      | none =>
        rw [perform_register_of_fresh found, names_add, ih,
          if_neg (fun offered => get?_eq_none_iff.1 found (known.2 offered))]
      | some previous =>
        rw [perform_register_of_get? found, ih, if_pos (known.1 (mem_names_of_get? found))]

/-- All views of the registry show the definitions, each under its name. -/
structure Shows (reg : Registry) (ds : List Definition) : Prop where
  names : reg.names = ds.map Definition.name
  nodup : reg.names.Nodup
  get? : ∀ name d, reg.get? name = some d ↔ d ∈ ds ∧ d.name = name
  item : ∀ name d, reg.item name = .ok d ↔ d ∈ ds ∧ d.name = name
  missing : ∀ name, reg.item name = .error (.fault .missingEntry) ↔ name ∉ reg.names
  has : ∀ name, reg.has name = true ↔ name ∈ reg.names
  mem : ∀ name, name ∈ reg ↔ name ∈ reg.names
  size : reg.size = reg.names.length
  /-- A loop goes through the names in order. -/
  loop : ∀ {β : Type} (init : β) (f : β → String → β),
    (forIn reg init fun name b => pure (.yield (f b name)) : Id β) = pure (reg.names.foldl f init)

theorem has_iff {name : String} : reg.has name = true ↔ name ∈ reg.names := by
  rw [has, Option.isSome_iff_ne_none, ne_eq, get?_eq_none_iff, not_not]

theorem item_eq_ok_iff {name : String} : reg.item name = .ok d ↔ reg.get? name = some d := by
  unfold item
  cases reg.get? name <;> simp

theorem item_eq_error_iff {name : String} :
    reg.item name = .error (.fault .missingEntry) ↔ name ∉ reg.names := by
  rw [← get?_eq_none_iff]
  unfold item
  cases reg.get? name <;> simp

theorem shows_definitions (reg : Registry) : reg.Shows reg.definitions where
  names := rfl
  nodup := reg.names_nodup
  get? _ _ := get?_eq_some_iff
  item _ _ := item_eq_ok_iff.trans get?_eq_some_iff
  missing _ := item_eq_error_iff
  has _ := has_iff
  mem _ := has_iff
  size := (List.length_map _).symm
  loop init f := List.forIn_pure_yield_eq_foldl (fun name b => f b name) init

/-- What comes of offering a definition. -/
structure Judges (r : Reporter) (reg : Registry) (d : Definition) : Prop where
  refused : (perform r reg (.register d)).2.isSome = true ↔ d.name ∈ reg.names
  unchanged : d.name ∈ reg.names → (perform r reg (.register d)).1 = reg
  report : ∀ previous, reg.get? d.name = some previous →
    (perform r reg (.register d)).2 = some (collision r d previous)
  added : d.name ∉ reg.names → (perform r reg (.register d)).1.definitions = reg.definitions ++ [d]

theorem judges (r : Reporter) (reg : Registry) (d : Definition) : Judges r reg d := by
  cases found : reg.get? d.name with
  | none =>
    have new := get?_eq_none_iff.1 found
    have eq := perform_register_of_fresh (r := r) found
    exact {
      refused := by simp [eq, new]
      unchanged := fun known => absurd known new
      report := fun _ found' => by cases found.symm.trans found'
      added := fun _ => by rw [eq]; rfl }
  | some previous =>
    have known := mem_names_of_get? found
    have eq := perform_register_of_get? (r := r) found
    exact {
      refused := by simp [eq, known]
      unchanged := fun _ => by rw [eq]
      report := fun _ found' => by rw [eq, Option.some.inj (found.symm.trans found')]
      added := fun new => absurd known new }

end Registry

open Node

theorem Session.registry_register {s : Session} {n : Node} {d : Definition}
    (read : (Definition.ofNode s.config n).result = .ok d) :
    (s.register n).1.registry = (Registry.perform s.config.reporter s.registry (.register d)).1 := by
  have run : (do
      let d ← Definition.ofNode s.config n
      s.registry.register s.config.reporter d : Recorded Registry).result =
        s.registry.register s.config.reporter d := by
    rw [Run.result_bind, read]
    rfl
  unfold Session.register
  simp only [run, Registry.perform]
  cases s.registry.register s.config.reporter d <;> rfl

theorem Session.registry_clear (s : Session) :
    s.clear.registry = (Registry.perform s.config.reporter s.registry .clear).1 := rfl

namespace Detection

variable {analysis : Definition.Analysis} {config : Config}

variable (analysis config) in
theorem exists_read_of_ofList (reg : Registry) (ns : List Node) :
    ∃ seen ds, seen <+: ns.filter isDefinition ∧ List.Forall₂ (Reads analysis config) seen ds ∧
      (ofList analysis config reg ns).registry.definitions = reg.definitions ++ ds := by
  induction ns generalizing reg with
  | nil => exact ⟨[], [], List.nil_prefix, .nil, (List.append_nil _).symm⟩
  | cons n ns ih =>
    rw [ofList]
    cases first : (step analysis config reg n).result with
    | error e => exact ⟨[], [], List.nil_prefix, .nil, (List.append_nil _).symm⟩
    | ok next =>
      obtain ⟨seen, ds, start, read, held⟩ := ih next
      rcases step_eq_ok_iff.1 first with ⟨isDefinition, d, own, added⟩ | ⟨notDefinition, -, rfl⟩
      · refine ⟨n :: seen, d :: ds, ?_, .cons own read, ?_⟩
        · rw [List.filter_cons_of_pos isDefinition, List.cons_prefix_cons]
          exact ⟨rfl, start⟩
        · rw [held, added, List.append_assoc, List.singleton_append]
      · refine ⟨seen, ds, ?_, read, held⟩
        rwa [List.filter_cons_of_neg (by simp [notDefinition])]

theorem map_declaredName?_of_reads {tags : List Node} {ds : List Definition}
    (definitions : ∀ tag ∈ tags, tag.isDefinition = true)
    (read : List.Forall₂ (Reads analysis config) tags ds) :
    tags.map declaredName? = (ds.map Definition.name).map some := by
  induction read with
  | nil => rfl
  | cons first _ ih =>
    rw [List.forall_mem_cons] at definitions
    rw [List.map_cons, (Definition.describes_of_ofNode definitions.1 first).name, ih definitions.2]
    rfl

/-- The registered names are the header names of the `component` tags of the tree in walk order, up to the
tag at which detection failed, if it did. -/
structure Lists (page : Node) (found : Detection) : Prop where
  start : ∃ seen, seen <+: page.walk.filter isDefinition ∧
    found.registry.names.map some = seen.map declaredName?
  whole : found.outcome.result = .ok () →
    found.registry.names.map some = (page.walk.filter isDefinition).map declaredName?

theorem lists_ofTree (page : Node) : Lists page (ofTree config Registry.empty page analysis) where
  start := by
    obtain ⟨seen, ds, start, read, held⟩ := exists_read_of_ofList analysis config Registry.empty page.walk
    have tags : ∀ tag ∈ seen, tag.isDefinition = true := fun tag htag =>
      (List.mem_filter.1 (start.subset htag)).2
    refine ⟨seen, start, ?_⟩
    rw [map_declaredName?_of_reads tags read, Registry.names, ofTree, held]
    rfl
  whole detected := by
    have detects := detects_iff.1 ⟨detected, rfl⟩
    exact (map_declaredName?_of_described detects.registers).symm

end Detection

namespace Registry

/-- After any operations on an empty registry, all views show the definitions that were taken since it was
last emptied, which are the first ones offered under their names; a definition that is offered next is
refused, without effect and with both places reported, exactly if its name is there. The detection of a
tree, which is a traversal, registers the names in the headers in walk order. -/
theorem store_of_performAll (r : Reporter) (ops : List Operation) (analysis : Definition.Analysis)
    (config : Config) {page : Node} (wf : page.isWellFormed = true) :
    ((performAll r empty ops).2.map Event.operation = ops ∧
      Shows (performAll r empty ops).1 (taken (performAll r empty ops).2) ∧
      (performAll r empty ops).1.names = (offered ops).eraseDups ∧
      ∀ d, Judges r (performAll r empty ops).1 d) ∧
    Detection.Lists page (Detection.ofTree config empty page analysis) ∧
    (Detection.visitor analysis config).traverse page (empty, []) =
      Detection.ending (Detection.ofTree config empty page analysis) [] page := by
  refine ⟨⟨map_operation_performAll empty ops, ?_, names_performAll r ops, fun d => judges r _ d⟩,
    Detection.lists_ofTree page, Detection.traverse_visitor wf empty []⟩
  rw [← definitions_performAll]
  exact shows_definitions _

def definitionAt (name : String) (line : Int) : Definition :=
  { name := name, location := { line := .int line } }

def shelfPage : Node :=
  block {} [plainTag "component" [plainText "Card()", plainTag "component" [plainText "Note()"]],
    plainTag "div" [plainTag "component" [plainText "Badge()", plainTag "em" []]]]

theorem store_shelfPage :
    ∃ reg events, performAll {} empty [.register (definitionAt "Card" 1), .clear,
        .register (definitionAt "Note" 2), .register (definitionAt "Card" 3)] = (reg, events) ∧
      reg.names = ["Note", "Card"] ∧
      (perform {} reg (.register (definitionAt "Card" 9))).2 =
        some (collision {} (definitionAt "Card" 9) (definitionAt "Card" 3)) ∧
      shelfPage.isWellFormed = true ∧
      (Detection.ofTree {} empty shelfPage).registry.names.map some =
        [some "Card", some "Note", some "Badge"] := by
  have wf : shelfPage.isWellFormed = true := by decide +kernel
  obtain ⟨⟨-, shows', names, judged⟩, listed, -⟩ := store_of_performAll {} [.register (definitionAt "Card" 1),
    .clear, .register (definitionAt "Note" 2), .register (definitionAt "Card" 3)] {} {} wf
  have third : definitionAt "Card" 3 ∈ [definitionAt "Note" 2, definitionAt "Card" 3] := by simp
  refine ⟨_, _, rfl, names.trans (by decide +kernel), ?_, wf, ?_⟩
  · exact (judged (definitionAt "Card" 9)).report _ ((shows'.get? _ _).2 ⟨third, rfl⟩)
  · obtain ⟨_, detected⟩ : ∃ done, (Detection.ofTree {} empty shelfPage).outcome.result = .ok done :=
      Outcome.exists_ok_of_isOk (by decide +kernel)
    exact (listed.whole detected).trans (by decide +kernel)

end Registry

end PugComponents
