import PugComponents.Proofs.Attributes.Forwarding
import PugComponents.Proofs.Definition.Declared
import PugComponents.Proofs.Expansion.Escaping
import PugComponents.Proofs.Expansion.NormalForm

/-! Which objects an expansion provides. A body may read `$props` and `$attrs` whether it takes keys out
of them or not. If it does, the two are declared in front of the expanded body; if it does not, the one
object `attributes` is declared, and a read of the others is left without a declaration. -/

namespace PugComponents

open Node Outcome

namespace Node

def TakesKeys (n : Node) : Prop :=
  ∃ ds, n.codeDestructurings = .ok ds ∧ ∃ d ∈ ds, d.keys ≠ []

theorem mem_survey_iff {α : Type} {f : Node → Except Failure (List α)} {root : Node} {found : List α}
    (h : root.survey f = .ok found) {x : α} :
    x ∈ found ↔ ∃ n ∈ root.walk, ∃ own, f n = .ok own ∧ x ∈ own := by
  refine ⟨exists_of_mem_survey h, ?_⟩
  rintro ⟨n, hn, own, asked, hx⟩
  simp only [survey, bind_eq_ok, pure_eq_ok] at h
  obtain ⟨parts, run, rfl⟩ := h
  obtain ⟨part, hpart, contributed⟩ := exists_mem_of_mapM run hn
  obtain rfl : own = part := Except.ok.inj (asked.symm.trans (contribution_eq_ok contributed))
  exact List.mem_flatten_of_mem hpart hx

end Node

namespace Usage

theorem mem_keysFrom {key : String} {isProps : Bool} {ds : List Script.Destructuring} :
    key ∈ keysFrom isProps ds ↔
      ∃ d ∈ ds, ((d.source == "$props") == isProps) = true ∧ key ∈ d.keys := by
  simp only [keysFrom, List.mem_eraseDups, List.mem_flatMap, List.mem_filter, and_assoc]

theorem isSome_ofDestructurings {ds : List Script.Destructuring} :
    (ofDestructurings ds).isSome = true ↔ ∃ d ∈ ds, d.keys ≠ [] := by
  have isSome : (ofDestructurings ds).isSome = true ↔ ∃ isProps key, key ∈ keysFrom isProps ds := by
    rw [Bool.exists_bool]
    unfold ofDestructurings
    cases keysFrom true ds <;> cases keysFrom false ds <;> simp
  rw [isSome]
  constructor
  · rintro ⟨isProps, key, member⟩
    obtain ⟨d, hd, -, taken⟩ := mem_keysFrom.1 member
    exact ⟨d, hd, List.ne_nil_of_mem taken⟩
  · rintro ⟨d, hd, some⟩
    obtain ⟨key, taken⟩ := List.exists_mem_of_ne_nil _ some
    exact ⟨d.source == "$props", key, mem_keysFrom.2 ⟨d, hd, by simp, taken⟩⟩

theorem isSome_iff_of_usage {body : Node} {usage : Option Usage} (h : body.usage = .ok usage) :
    usage.isSome = true ↔ ∃ n ∈ body.walk, n.TakesKeys := by
  simp only [Node.usage, bind_eq_ok, pure_eq_ok] at h
  obtain ⟨ds, surveyed, rfl⟩ := h
  rw [isSome_ofDestructurings]
  constructor
  · rintro ⟨d, hd, some⟩
    obtain ⟨n, hn, own, asked, hd⟩ := exists_of_mem_survey surveyed hd
    exact ⟨n, hn, own, asked, d, hd, some⟩
  · rintro ⟨n, hn, own, asked, d, hd, some⟩
    exact ⟨d, (mem_survey_iff surveyed).2 ⟨n, hn, own, asked, hd⟩, some⟩

end Usage

theorem Scope.not_mem_external_of_builtin {allowed : List String} {body : Node} {scope : Scope}
    (h : analyze allowed body = .ok scope) {name : String} (builtin : builtinNames.contains name = true) :
    name ∉ scope.external := by
  simp only [analyze, bind_eq_ok, pure_eq_ok] at h
  obtain ⟨ss, -, rfl⟩ := h
  simp only [ofSightings, List.mem_filter, builtin]
  simp

section Statements

variable {r : Reporter} {given : Filling} {pos : Position}

theorem fillNodes_append (as bs : List Node) : fillNodes r given (as ++ bs) = (do
    let front ← fillNodes r given as
    let back ← fillNodes r given bs
    return front ++ back) := by
  induction as with
  | nil =>
    rw [List.nil_append, fillNodes]
    cases fillNodes r given bs <;> rfl
  | cons n as ih =>
    cases n with
    | owner pos head block =>
      rw [List.cons_append, fillNodes, fillNodes]
      split
      · rw [bind_assoc]
        refine bind_congr fun name => ?_
        cases given name <;> simp only [ih, bind_assoc, pure_bind, List.append_assoc]
      · simp only [ih, bind_assoc, pure_bind, List.cons_append]
    | _ =>
      simp only [List.cons_append, fillNodes, ih, bind_assoc, pure_bind]

theorem fillNodes_statements {statements : List Node} (each : ∀ m ∈ statements, IsStatement pos m) :
    fillNodes r given statements = .ok statements := by
  induction statements with
  | nil => rfl
  | cons m ms ih =>
    rw [List.forall_mem_cons] at each
    obtain ⟨⟨source, rfl⟩, each⟩ := each
    rw [statementNode, fillNodes, ih each]
    rfl

theorem fillNodes_around {opening nodes closing out : List Node}
    (statements : ∀ m ∈ opening ++ closing, IsStatement pos m)
    (h : fillNodes r given (opening ++ nodes ++ closing) = .ok out) :
    ∃ filled, fillNodes r given nodes = .ok filled ∧ out = opening ++ filled ++ closing := by
  obtain ⟨first, last⟩ := List.forall_mem_append.1 statements
  simp only [fillNodes_append, fillNodes_statements first, fillNodes_statements last, bind_eq_ok,
    pure_eq_ok] at h
  obtain ⟨_, ⟨_, ⟨⟩, filled, run, rfl⟩, _, ⟨⟩, rfl⟩ := h
  exact ⟨filled, run, rfl⟩

variable {call : Node → Recorded (List Node)}

theorem eq_singleton_of_isStatement {n : Node} {part : List Node} (statement : IsStatement pos n)
    (h : Expanded call n part) : part = [n] := by
  obtain ⟨source, rfl⟩ := statement
  cases h with
  | called isCall => cases isCall
  | kept _ run => cases run; rfl

theorem flatten_eq_of_statements {statements : List Node} {parts : List (List Node)}
    (each : ∀ m ∈ statements, IsStatement pos m)
    (h : List.Forall₂ (Expanded call) statements parts) : parts.flatten = statements :=
  flatten_eq_of_forall₂_self h fun _ hn _ expanded => eq_singleton_of_isStatement (each _ hn) expanded

theorem expandBlock_around {opening nodes closing out : List Node}
    (statements : ∀ m ∈ opening ++ closing, IsStatement pos m)
    (h : (expandBlock call (opening ++ nodes ++ closing)).result = .ok out) :
    ∃ parts, List.Forall₂ (Expanded call) nodes parts ∧ out = opening ++ parts.flatten ++ closing := by
  obtain ⟨first, last⟩ := List.forall_mem_append.1 statements
  obtain ⟨parts, related, rfl⟩ := expandBlock_eq_ok h
  obtain ⟨front, back, rfl, front_rel, back_rel⟩ := exists_split_of_forall₂ related
  obtain ⟨start, inner, rfl, start_rel, inner_rel⟩ := exists_split_of_forall₂ front_rel
  refine ⟨inner, inner_rel, ?_⟩
  rw [List.flatten_append, List.flatten_append, flatten_eq_of_statements first start_rel,
    flatten_eq_of_statements last back_rel]

end Statements

/-- Statements that open a scope, declare both objects in it, and close it again. -/
def Provides (pos : Position) (opening closing : List Node) : Prop :=
  ∃ enter leave props attrs, IsStatement pos enter ∧ IsStatement pos leave ∧
    opening = [enter, statementNode pos ("const $props = " ++ props),
      statementNode pos ("const $attrs = " ++ attrs)] ∧ closing = [leave]

/-- A statement that declares the one object, and nothing else. -/
def ProvidesAttributes (pos : Position) (opening closing : List Node) : Prop :=
  ∃ literal, opening = [statementNode pos ("var attributes = " ++ literal)] ∧ closing = []

theorem provides_of_frame {b : Bindings} {usage : Option Usage} {pos : Position}
    {opening closing : List Node} (h : b.frame usage pos = .ok (opening, closing)) :
    (usage.isSome = true → Provides pos opening closing) ∧
      (usage = none → ProvidesAttributes pos opening closing) := by
  cases usage with
  | none =>
    simp only [Bindings.frame, Except.ok.injEq, Prod.mk.injEq] at h
    obtain ⟨rfl, rfl⟩ := h
    refine ⟨by simp, fun _ => ?_⟩
    have brace : "var attributes = \x7b" = "var attributes = " ++ "\x7b" := rfl
    simp only [ProvidesAttributes, Bindings.legacyStatement, brace, String.append_assoc, and_true]
    exact ⟨_, rfl⟩
  | some usage =>
    simp only [Bindings.frame, Bindings.objectStatement, bind_eq_ok, pure_eq_ok, Prod.mk.injEq] at h
    obtain ⟨captured, -, first, ⟨props, -, rfl⟩, second, ⟨attrs, -, rfl⟩, rfl, rfl⟩ := h
    obtain ⟨enter, leave, scope_eq⟩ : ∃ enter leave, Bindings.scopeStatements captured pos =
        (statementNode pos enter, statementNode pos leave) := by
      unfold Bindings.scopeStatements
      split <;> exact ⟨_, _, rfl⟩
    rw [scope_eq]
    exact ⟨fun _ => ⟨_, _, props, attrs, ⟨enter, rfl⟩, ⟨leave, rfl⟩, rfl, rfl⟩, by simp⟩

namespace Expansion

variable {x : Expansion} {stack : List String} {call : Node} {d : Definition} {depth : Nat}
  {out : List Node}

/-- The body that is filled and expanded between the statements. -/
def Fills (x : Expansion) (stack : List String) (d : Definition) (inner : List Node) : Prop :=
  ∃ rest provided filled parts,
    Provided.fill x.config.reporter provided (d.nodes.map (forwardAtRoot (forwarded? d.usage d.nodes))) =
      .ok filled ∧
    List.Forall₂ (Expanded (x.expandCall rest (stack ++ [d.name]))) filled parts ∧
    inner = parts.flatten

/-- What takes the place of a call is the body of the component, between the statements that bind the
attributes. -/
theorem around_of_expandCall (found : x.target stack call = .ok d)
    (run : (x.expandCall depth stack call).result = .ok out) :
    ∃ opening inner closing, out = opening ++ inner ++ closing ∧ x.Fills stack d inner ∧
      (d.usage.isSome = true → Provides call.pos opening closing) ∧
      (d.usage = none → ProvidesAttributes call.pos opening closing) := by
  obtain ⟨d', nodes, rest, rfl, found', made, run⟩ := expandCall_eq_ok run
  obtain rfl : d = d' := Except.ok.inj (found.symm.trans found')
  obtain ⟨provided, bindings, injected, -, injection, filling⟩ := instantiate_eq_ok made
  obtain ⟨bound, binding, forwarding⟩ := Run.result_bind_eq_ok.1 injection
  simp only [Run.result_lift, bindAround_eq, bind_eq_ok, pure_eq_ok] at binding
  obtain ⟨⟨opening, closing⟩, framed, rfl⟩ := binding
  have statements := (frame_eq_ok framed).1
  obtain rfl := applyFallthrough_around statements forwarding
  obtain ⟨filled, within, rfl⟩ := fillNodes_around statements filling
  obtain ⟨parts, related, rfl⟩ := expandBlock_around statements run
  exact ⟨opening, parts.flatten, closing, rfl, ⟨rest, provided, filled, parts, within, related, rfl⟩,
    provides_of_frame framed⟩

/-- A body may always read `$props` and `$attrs`. If some code in it takes keys out of them, every
expanded call of the component declares both in front of the body, in a scope that ends behind it.
If none does, neither is declared. -/
theorem provision_of_expandCall {config : Config} {tag : Node}
    (read : (Definition.ofNode config tag).result = .ok d) (found : x.target stack call = .ok d)
    (run : (x.expandCall depth stack call).result = .ok out) :
    ("$props" ∉ d.scope.external ∧ "$attrs" ∉ d.scope.external) ∧
    ∃ opening inner closing, out = opening ++ inner ++ closing ∧ x.Fills stack d inner ∧
      ((∃ n ∈ tag.declaredBody.walk, n.TakesKeys) → Provides call.pos opening closing) ∧
      ((¬∃ n ∈ tag.declaredBody.walk, n.TakesKeys) → ProvidesAttributes call.pos opening closing) := by
  obtain ⟨-, -, -, -, used, analysed, -⟩ := Definition.ofNode_eq_ok read
  obtain ⟨opening, inner, closing, rfl, fills, both, one⟩ := around_of_expandCall found run
  refine ⟨⟨Scope.not_mem_external_of_builtin analysed (by decide +kernel),
    Scope.not_mem_external_of_builtin analysed (by decide +kernel)⟩,
    opening, inner, closing, rfl, fills, ?_, ?_⟩
  · exact fun takes => both ((Usage.isSome_iff_of_usage used).2 takes)
  · intro none
    rw [← Usage.isSome_iff_of_usage used, Bool.not_eq_true, Option.isSome_eq_false_iff,
      Option.isNone_iff_eq_none] at none
    exact one none

end Expansion

def propsCall : Node :=
  .owner {} (.tag { label := .str "Inner", attrs := [{ name := .str "$props" }] }) none

def echoTag : Node := plainTag "component" [plainText "Echo()", propsCall]

def innerTag : Node := plainTag "component" [plainText "Inner()", plainTag "p" []]

def echoCall : Node := plainTag "Echo" []

def echoPage : Node := block {} [echoTag, innerTag, echoCall]

def echoExpansion : Expansion where
  registry := (Detection.ofTree {} .empty echoPage).registry
  config := {}

theorem exists_read_echoTag : ∃ d out, (Definition.ofNode {} echoTag).result = .ok d ∧
    echoExpansion.target [] echoCall = .ok d ∧ (echoExpansion.call [] echoCall).result = .ok out := by
  have detected : (Detection.ofTree {} .empty echoPage).outcome.result = .ok () :=
    (exists_ok_of_isOk (by decide +kernel)).elim fun _ ok => ok
  have read := (detects_iff.1 ⟨detected, rfl⟩).read
  rw [show echoPage.walk.filter isDefinition = [echoTag, innerTag] from rfl] at read
  obtain ⟨d, others, read, -, definitions⟩ := List.forall₂_cons_left_iff.1 read
  obtain ⟨-, -, named, -⟩ := Definition.ofNode_eq_ok read
  have name_eq : d.name = "Echo" := by
    have declared : echoTag.declaredName? = some "Echo" := by decide +kernel
    exact Option.some.inj (named.symm.trans declared)
  have registered : echoExpansion.registry.get? "Echo" = some d :=
    name_eq ▸ Registry.get?_of_mem (definitions ▸ List.mem_cons_self)
  obtain ⟨out, run⟩ : ∃ out, (echoExpansion.call [] echoCall).result = .ok out :=
    exists_ok_of_isOk (by decide +kernel)
  obtain ⟨d', -, -, -, found, -⟩ := Expansion.expandCall_eq_ok run
  have called : echoCall.calledName? = some "Echo" := by decide +kernel
  obtain ⟨-, registered'⟩ := Expansion.target_eq_ok called found
  obtain rfl : d = d' := Option.some.inj (registered.symm.trans registered')
  exact ⟨d, out, read, found, run⟩

theorem provision_echoCall : ∃ d out, (Definition.ofNode {} echoTag).result = .ok d ∧
    echoExpansion.target [] echoCall = .ok d ∧ (echoExpansion.call [] echoCall).result = .ok out ∧
    "$props" ∉ d.scope.external ∧ ∃ opening inner closing, out = opening ++ inner ++ closing ∧
      echoExpansion.Fills [] d inner ∧ ProvidesAttributes {} opening closing := by
  obtain ⟨d, out, read, found, run⟩ := exists_read_echoTag
  obtain ⟨allowed, opening, inner, closing, eq, fills, -, one⟩ :=
    Expansion.provision_of_expandCall read found run
  refine ⟨d, out, read, found, run, allowed.1, opening, inner, closing, eq, fills, one ?_⟩
  rintro ⟨n, hn, ds, asked, destructuring, member, -⟩
  have silent : ∀ n ∈ echoTag.declaredBody.walk, n.codeDestructurings = .ok [] := by
    rw [show echoTag.declaredBody.walk = [block {} [propsCall], propsCall] from rfl]
    simp [propsCall, block, codeDestructurings]
  rw [silent n hn] at asked
  cases asked
  cases member

def Node.statement? : Node → Option String
  | .owner _ (.code (.str source) ..) _ => some source
  | _ => none

/-- The component that hands `$props` on is accepted, and counts as reading it, but the expanded call
declares nothing of that name. -/
theorem unbound_echoCall : echoPage.isWellFormed = true ∧ echoCall ∈ echoPage.walk ∧
    ∃ d out, (Definition.ofNode {} echoTag).result = .ok d ∧ "$props" ∈ d.scope.referenced ∧
      d.usage = none ∧ echoExpansion.target [] echoCall = .ok d ∧
      (echoExpansion.call [] echoCall).result = .ok out ∧
      (∃ n ∈ out, n.statement? = some "var attributes = \x7b$props: $props\x7d") ∧
      ∀ n ∈ out, ∀ m ∈ n.walk, ∀ source, m.statement? = some source →
        ("const $props = ".toList.isPrefixOf source.toList) = false := by
  obtain ⟨d, out, read, found, run⟩ := exists_read_echoTag
  have facts : (Definition.ofNode {} echoTag).result.toOption.all (fun d =>
      d.scope.referenced.contains "$props" && d.usage == none) = true := by decide +kernel
  have expanded : (echoExpansion.call [] echoCall).result.toOption.all (fun out =>
      (out.any fun n => n.statement? == some "var attributes = \x7b$props: $props\x7d") &&
        out.all fun n => n.walk.all fun m => m.statement?.all fun source =>
          !("const $props = ".toList.isPrefixOf source.toList)) = true := by decide +kernel
  rw [read] at facts
  rw [run] at expanded
  simp only [Except.toOption, Option.all_some, Bool.and_eq_true, List.contains_iff_mem, beq_iff_eq,
    List.any_eq_true, List.all_eq_true] at facts expanded
  refine ⟨by decide +kernel, ?_, d, out, read, facts.1, facts.2, found, run, expanded.1, ?_⟩
  · simp [echoPage, block, walk, walkAll, self_mem_walk]
  · intro n hn m hm source stated
    have quiet := expanded.2 n hn m hm
    rw [stated] at quiet
    simpa using quiet

end PugComponents
