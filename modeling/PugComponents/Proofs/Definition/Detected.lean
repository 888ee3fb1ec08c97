import PugComponents.Proofs.Definition.Declared

/-! When detection succeeds, and with which components. Every `component` tag is read by itself, whatever
was registered before, and names must not repeat; a registry, which holds no name twice, is therefore
the outcome exactly if it has the definitions of all tags in walk order. -/

namespace PugComponents

open Node

namespace Registry

theorem ext_definitions {reg reg' : Registry} (h : reg.definitions = reg'.definitions) : reg = reg' := by
  cases reg
  cases reg'
  cases h
  rfl

theorem get?_of_concat {reg reg' : Registry} {d : Definition} {ds : List Definition}
    (h : reg'.definitions = reg.definitions ++ d :: ds) : reg.get? d.name = none := by
  have nodup := reg'.nodup
  rw [h, List.map_append, List.nodup_append] at nodup
  rw [get?_eq_none_iff]
  intro taken
  exact nodup.2.2 d.name taken d.name (by simp) rfl

theorem register_eq_ok_iff {r : Reporter} {reg reg' : Registry} {d : Definition} :
    register r reg d = .ok reg' ↔ reg'.definitions = reg.definitions ++ [d] := by
  unfold register
  split
  · rename_i previous taken
    constructor
    · intro h
      cases h
    · intro h
      rw [get?_of_concat h] at taken
      cases taken
  · rename_i fresh
    rw [Except.ok.injEq]
    constructor
    · rintro rfl
      rfl
    · intro h
      exact ext_definitions h.symm

end Registry

namespace Detection

variable {analysis : Definition.Analysis} {config : Config} {reg reg' : Registry}

abbrev Reads (analysis : Definition.Analysis) (config : Config) (tag : Node) (d : Definition) : Prop :=
  (Definition.ofNode config tag analysis).result = .ok d

theorem registerTag_eq_ok_iff {tag : Node} :
    (registerTag analysis config reg tag).result = .ok reg' ↔
      ∃ d, Reads analysis config tag d ∧ reg'.definitions = reg.definitions ++ [d] := by
  have noted : ∀ (d : Definition) (added : Registry), (do
      if config.debug.isTruthy then
        Run.note (.registered d.name d.location d.slotNames d.usage.isSome)
      return added : Recorded Registry).result = .ok added := by
    intro d added
    split <;> rfl
  simp only [registerTag, Run.result_bind_eq_ok (x := Definition.ofNode config tag analysis)]
  refine exists_congr fun d => and_congr_right fun _ => ?_
  rw [Run.result_bind_eq_ok]
  simp only [Run.result_lift, noted, Registry.register_eq_ok_iff, Except.ok.injEq]
  constructor
  · rintro ⟨added, h, rfl⟩
    exact h
  · intro h
    exact ⟨reg', h, rfl⟩

/-- One step succeeds if the node is a `component` tag whose definition can be registered, or any other
node whose children can be looked at. -/
theorem step_eq_ok_iff {n : Node} :
    (step analysis config reg n).result = .ok reg' ↔
      (n.isDefinition = true ∧
        ∃ d, Reads analysis config n d ∧ reg'.definitions = reg.definitions ++ [d]) ∨
      n.isDefinition = false ∧ n.isMisfiled = false ∧ reg' = reg := by
  unfold step
  cases isDefinition : n.isDefinition with
  | true => simp [registerTag_eq_ok_iff]
  | false =>
    cases misfiled : n.isMisfiled with
    | true => simp
    | false => simp [eq_comm]

/-- The registry holds what the `component` tags among the nodes define behind what was registered
before, and no other node stands in the way. -/
structure Extends (analysis : Definition.Analysis) (config : Config) (reg : Registry) (ns : List Node)
    (reg' : Registry) : Prop where
  filed : ∀ n ∈ ns, n.isDefinition = false → n.isMisfiled = false
  read : ∃ ds, List.Forall₂ (Reads analysis config) (ns.filter isDefinition) ds ∧
    reg'.definitions = reg.definitions ++ ds

theorem extends_nil : Extends analysis config reg [] reg' ↔ reg' = reg := by
  constructor
  · rintro ⟨-, ds, none, eq⟩
    cases none
    exact Registry.ext_definitions (by simpa using eq)
  · rintro rfl
    exact ⟨by simp, [], .nil, by simp⟩

theorem extends_cons {n : Node} {ns : List Node} :
    Extends analysis config reg (n :: ns) reg' ↔
      ∃ next, (step analysis config reg n).result = .ok next ∧
        Extends analysis config next ns reg' := by
  simp only [step_eq_ok_iff]
  constructor
  · rintro ⟨filed, ds, read, eq⟩
    rw [List.forall_mem_cons] at filed
    cases isDefinition : n.isDefinition with
    | true =>
      rw [List.filter_cons_of_pos isDefinition] at read
      cases read with
      | @cons _ d _ ds first others =>
        -- The part of the registry up to the new definition is a registry, since no name is in it twice.
        have names : ((reg.definitions ++ [d]).map Definition.name).Nodup := by
          have nodup := reg'.nodup
          rw [eq, List.append_cons, List.map_append] at nodup
          exact (List.nodup_append.1 nodup).1
        refine ⟨⟨reg.definitions ++ [d], names⟩, .inl ⟨rfl, d, first, rfl⟩, filed.2, ds, others, ?_⟩
        simpa using eq
    | false =>
      rw [List.filter_cons_of_neg (by simp [isDefinition])] at read
      exact ⟨reg, .inr ⟨rfl, filed.1 isDefinition, rfl⟩, filed.2, ds, read, eq⟩
  · rintro ⟨next, ⟨isDefinition, d, first, added⟩ | ⟨notDefinition, notMisfiled, rfl⟩, filed, ds, read, eq⟩
    · refine ⟨?_, d :: ds, ?_, by rw [eq, added]; simp⟩
      · rw [List.forall_mem_cons]
        exact ⟨by simp [isDefinition], filed⟩
      · rw [List.filter_cons_of_pos isDefinition]
        exact .cons first read
    · refine ⟨?_, ds, ?_, eq⟩
      · rw [List.forall_mem_cons]
        exact ⟨fun _ => notMisfiled, filed⟩
      · rwa [List.filter_cons_of_neg (by simp [notDefinition])]

theorem ofList_iff {ns : List Node} :
    (ofList analysis config reg ns).outcome.result = .ok () ∧
      (ofList analysis config reg ns).registry = reg' ↔ Extends analysis config reg ns reg' := by
  induction ns generalizing reg with
  | nil => simp [ofList, extends_nil, eq_comm]
  | cons n ns ih =>
    rw [extends_cons, ofList]
    cases first : (step analysis config reg n).result with
    | error e => simp
    | ok next => simp [← ih]

end Detection

/-- The components of the registry are those that the `component` tags of the tree define, in order. -/
structure Detects (analysis : Definition.Analysis) (config : Config) (page : Node) (reg : Registry) :
    Prop where
  filed : ∀ n ∈ page.walk, n.isDefinition = false → n.isMisfiled = false
  read : List.Forall₂ (Detection.Reads analysis config) (page.walk.filter isDefinition) reg.definitions

variable {analysis : Definition.Analysis} {config : Config} {page : Node} {reg : Registry}

theorem detects_iff :
    (Detection.ofTree config Registry.empty page analysis).outcome.result = .ok () ∧
      (Detection.ofTree config Registry.empty page analysis).registry = reg ↔
        Detects analysis config page reg := by
  rw [Detection.ofTree, Detection.ofList_iff]
  constructor
  · rintro ⟨filed, ds, read, eq⟩
    exact ⟨filed, eq ▸ read⟩
  · rintro ⟨filed, read⟩
    exact ⟨filed, reg.definitions, read, rfl⟩

theorem Detects.registers (h : Detects analysis config page reg) : Registers page reg := by
  have tags : ∀ tag ∈ page.walk.filter isDefinition, tag.isDefinition = true :=
    fun tag htag => (List.mem_filter.1 htag).2
  refine ((List.forall₂_and_left _ _).2 ⟨tags, h.read⟩).imp fun tag d ⟨isDefinition, read⟩ => ?_
  exact Definition.describes_of_ofNode isDefinition read

end PugComponents
