import PugComponents.Proofs.Expansion.NormalForm
import Mathlib.Logic.Relation

/-! The components that call each other. Every component is expanded where it is called, so a template
that can be expanded defines every component that it calls, and no component comes to call itself
through calls that are always expanded. This concerns all definitions: the calls in a body are expanded
where the body stands, also if nothing calls its component. -/

namespace PugComponents

open Node

namespace Expansion

variable {x : Expansion} {depth : Nat} {stack : List String}

/-- The registered body of the first component retains a call of the second. -/
def Retains (x : Expansion) (caller callee : String) : Prop :=
  ∃ d, x.registry.get? caller = some d ∧ ∃ n ∈ d.nodes, n.Retains callee

theorem get?_of_served {name : String} (served : Served (x.expandCall depth stack) name) :
    name ∉ stack ∧ ∃ d, x.registry.get? name = some d := by
  obtain ⟨m, part, -, called, run⟩ := served
  obtain ⟨free, d, _, _, -, found, -⟩ := expandCall_eq_ok_of_called called run
  exact ⟨free, d, found⟩

theorem served_of_retains (bodies : x.HasBodies) {caller callee : String}
    (served : Served (x.expandCall depth stack) caller) (retains : x.Retains caller callee) :
    ∃ rest, Served (x.expandCall rest (stack ++ [caller])) callee := by
  obtain ⟨m, part, ready, called, run⟩ := served
  obtain ⟨-, d, nodes, rest, -, found, made, run⟩ := expandCall_eq_ok_of_called called run
  obtain ⟨d', found', n, hn, retains⟩ := retains
  obtain rfl : d = d' := Option.some.inj (found.symm.trans found')
  have body := isWellFormed_of_instantiate made ready (bodies d (Registry.mem_of_get? found))
  obtain ⟨k, hk, mentions⟩ := mentions_of_retains made hn retains
  exact ⟨rest, served_of_expandBlock (expandCall_settled bodies rest _) (fun n hn => (body n hn).1)
    run hk mentions⟩

/-- No chain of retained calls leads from an expanded component to one that is expanded around it. -/
theorem not_mem_of_retains (bodies : x.HasBodies) {caller callee : String}
    (served : Served (x.expandCall depth stack) caller)
    (chain : Relation.TransGen x.Retains caller callee) : callee ∉ stack ++ [caller] := by
  induction chain using Relation.TransGen.head_induction_on generalizing depth stack with
  | single retains =>
    obtain ⟨rest, next⟩ := served_of_retains bodies served retains
    exact (get?_of_served next).1
  | head retains _ ih =>
    obtain ⟨rest, next⟩ := served_of_retains bodies served retains
    intro around
    exact ih next (List.mem_append_left _ around)

end Expansion

/-- A `component` tag of the template defines the component by the body. -/
def Defines (page : Node) (name : String) (body : Node) : Prop :=
  ∃ tag ∈ page.walk, tag.isDefinition = true ∧ tag.declaredName? = some name ∧ tag.declaredBody = body

/-- The body of the first component has a call of the second, and no slot stands above it outside of
every call. -/
def Calls (page : Node) (caller callee : String) : Prop :=
  ∃ body, Defines page caller body ∧ ∃ above m, Lineage body above m ∧
    m.calledName? = some callee ∧ SlotsBelowCalls above

theorem mentions_of_declaredBody {tag : Node} {name : String} (isDefinition : tag.isDefinition = true)
    (mentions : tag.declaredBody.Mentions name) : tag.Mentions name := by
  obtain ⟨pos, element, block, rfl, -⟩ := exists_tag_of_isTagNamed isDefinition
  obtain ⟨n, hn, called⟩ := mentions_block.1 mentions
  have below := Definition.mem_of_mem_withoutName hn
  cases block with
  | none => simp [Definition.nodesBelow, block?, Except.toOption] at below
  | some b =>
    have child : n ∈ b.children := by
      cases b with
      | seq pos head nodes =>
        simpa [Definition.nodesBelow, block?, nodes?, Except.toOption, children] using below
      | _ => simp [Definition.nodesBelow, block?, nodes?, Except.toOption] at below
    refine mentions_iff.2 (.inr ⟨b, by simp [children], ?_⟩)
    exact mentions_iff.2 (.inr ⟨n, child, called⟩)

section Described

variable {page : Node} {config : Config} {reg : Registry}
  (described : Registers page reg)
include described

theorem map_declaredName?_of_described :
    (page.walk.filter isDefinition).map declaredName? = reg.names.map some := by
  rw [Registry.names, List.map_map]
  unfold Registers at described
  generalize page.walk.filter isDefinition = tags at described
  generalize reg.definitions = ds at described
  induction described with
  | nil => rfl
  | cons first _ ih => rw [List.map_cons, List.map_cons, ih, first.name]; rfl

theorem retains_of_calls {caller callee : String} (calls : Calls page caller callee) :
    (Expansion.mk reg config).Retains caller callee := by
  obtain ⟨body, ⟨tag, htag, isDefinition, name, rfl⟩, line⟩ := calls
  obtain ⟨d, hd, describes⟩ :=
    exists_of_forall₂_left described (List.mem_filter.2 ⟨htag, isDefinition⟩)
  obtain rfl : d.name = caller := Option.some.inj (describes.name.symm.trans name)
  exact ⟨d, Registry.get?_of_mem hd, describes.retains callee (retains_iff_lineage.2 line)⟩

end Described

theorem mentions_of_calls {page : Node} {caller callee : String} (calls : Calls page caller callee) :
    page.Mentions callee := by
  obtain ⟨body, ⟨tag, htag, isDefinition, -, rfl⟩, above, m, line, called, -⟩ := calls
  have hm : m ∈ tag.declaredBody.walk := mem_walk_iff_lineage.2 ⟨above, line⟩
  obtain ⟨m, hm, called⟩ := mentions_of_declaredBody isDefinition ⟨m, hm, called⟩
  exact ⟨m, mem_walk_trans hm htag, called⟩

variable {analysis : Definition.Analysis} {config : Config} {page tree : Node}

/-- A template that can be expanded gives its components valid and distinct names, calls only these, and
has no cycle of calls that are always expanded. -/
theorem callGraph_of_expand (isBlock : page.isBlock = true) (wf : page.isWellFormed = true)
    (h : (expand config page analysis).result = .ok tree) :
    (∃ names : List String,
      (page.walk.filter isDefinition).map declaredName? = names.map some ∧
      names.Nodup ∧ (∀ name ∈ names, IsComponentName name) ∧
      ∀ m ∈ page.walk, ∀ name, m.calledName? = some name → name ∈ names) ∧
    ∀ name, ¬ Relation.TransGen (Calls page) name name := by
  obtain ⟨expanded, kept, stages⟩ := expand_eq_ok h
  have described := stages.described
  have bodies := hasBodies_of_described wf described
  have notCall : page.isCall = false := isCall_eq_false_of_tag? (tag?_of_isBlock isBlock)
  have served : ∀ name, page.Mentions name →
      Served ((Expansion.mk (registered analysis config page) config).call []) name := fun name =>
    served_of_expandNode (call_settled wf described) wf notCall stages.expansion
  have names := map_declaredName?_of_described described
  refine ⟨⟨(registered analysis config page).names, names, Registry.names_nodup _, ?_, ?_⟩, ?_⟩
  · intro name hname
    have found : some name ∈ (page.walk.filter isDefinition).map declaredName? := by
      rw [names]
      exact List.mem_map_of_mem hname
    obtain ⟨tag, -, declared⟩ := List.mem_map.1 found
    exact Definition.isComponentName_of_declaredName? declared
  · intro m hm name called
    obtain ⟨-, d, found⟩ := Expansion.get?_of_served (served name ⟨m, hm, called⟩)
    exact Registry.mem_names_of_get? found
  · intro name cycle
    -- The last call of the cycle is expanded where it stands, inside of no other component.
    have mentions : page.Mentions name := by
      cases cycle with
      | single calls => exact mentions_of_calls calls
      | tail _ calls => exact mentions_of_calls calls
    have chain : Relation.TransGen
        (Expansion.mk (registered analysis config page) config).Retains name name :=
      cycle.lift id fun _ _ => retains_of_calls described
    exact Expansion.not_mem_of_retains bodies (served name mentions) chain (by simp)

theorem callGraph_framedPage : ∃ tree, (expand {} framedPage).result = .ok tree ∧
    ∀ name, ¬ Relation.TransGen (Calls framedPage) name name := by
  obtain ⟨tree, h⟩ := exists_expand_framedPage
  exact ⟨tree, h, (callGraph_of_expand (by decide +kernel) (by decide +kernel) h).2⟩

end PugComponents
