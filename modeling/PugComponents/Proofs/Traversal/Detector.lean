import PugComponents.Detection
import PugComponents.Proofs.Traversal.Order
import PugComponents.Proofs.Traversal.Watched

/-! Detection as a traversal. The hook that registers a `component` tag when it is entered keeps every
node, so a traversal with it comes to registering the definitions in the order of the walk. -/

namespace PugComponents

namespace Detection

/-- What the hook remembers: the components found so far, and the records made on the way. -/
abbrev Memory := Registry × List Record

/-- A recorded step from the components found so far to those found then. If it fails, they stay. -/
def remembered (f : Registry → Recorded Registry) : Remembering Memory Unit := fun memory =>
  match (f memory.1).result with
  | .ok reg => .ok () (reg, memory.2 ++ (f memory.1).records)
  | .error e => .error e (memory.1, memory.2 ++ (f memory.1).records)

variable (analysis : Definition.Analysis) (config : Config)

def register (n : Node) : Remembering Memory Unit :=
  if n.isDefinition then remembered fun reg => registerTag analysis config reg n else pure ()

def visitor : Visitor (Remembering Memory) := fun kind =>
  if kind = .tag then
    { enter := some fun n _ => (fun _ => Verdict.keep) <$> register analysis config n }
  else {}

/-- The end of a traversal that came to the detection, with what was recorded before it. -/
def ending {α : Type} (d : Detection) (records : List Record) (a : α) : EStateM.Result Failure Memory α :=
  match d.outcome.result with
  | .ok _ => .ok a (d.registry, records ++ d.outcome.records)
  | .error e => .error e (d.registry, records ++ d.outcome.records)

variable {analysis : Definition.Analysis} {config : Config}

theorem keeps_visitor : (visitor analysis config).Keeps := by
  intro n hook called parent
  unfold visitor at called
  split at called
  · rcases called with called | called
    · cases called
      rw [Functor.map_map]
    · cases called
  · rcases called with called | called <;> cases called

theorem register_of_kind {n : Node} (kind : n.kind ≠ .tag) : register analysis config n = pure () := by
  unfold register
  split
  · rename_i isDefinition
    obtain ⟨pos, element, block, rfl, -⟩ := Node.exists_tag_of_isTagNamed isDefinition
    exact absurd rfl kind
  · rfl

theorem callAt_visitor (e : Moment) :
    (visitor analysis config).callAt e =
      if e.phase = .enter then register analysis config e.node else pure () := by
  obtain ⟨phase, place, n, parent⟩ := e
  unfold Visitor.callAt Visitor.hookAt? visitor
  cases phase with
  | leave => by_cases kind : n.kind = .tag <;> simp [kind]
  | enter =>
    by_cases kind : n.kind = .tag
    · simp [kind]
    · simp [kind, register_of_kind kind]

theorem callAll_visitor (moments : List Moment) :
    (visitor analysis config).callAll moments =
      forM ((moments.filter (·.phase = .enter)).map Moment.node) (register analysis config) := by
  induction moments with
  | nil => rfl
  | cons e moments ih =>
    rw [Visitor.callAll_cons, callAt_visitor, ih]
    by_cases entered : e.phase = .enter
    · rw [if_pos entered, List.filter_cons_of_pos (by simp [entered])]
      rfl
    · rw [if_neg entered, List.filter_cons_of_neg (by simp [entered]), pure_bind]

/-- To register a node is a step of detection, if the children of the node can be looked at. -/
theorem register_eq_step {n : Node} (filed : n.isMisfiled = false) :
    register analysis config n = remembered fun reg => step analysis config reg n := by
  funext memory
  unfold register step
  cases n.isDefinition with
  | true => rfl
  | false =>
    simp only [filed, Bool.false_eq_true, if_false, remembered]
    show EStateM.Result.ok () memory = EStateM.Result.ok () (memory.1, memory.2 ++ [])
    rw [List.append_nil]

theorem forM_register {ns : List Node} (filed : ∀ n ∈ ns, n.isMisfiled = false) (reg : Registry)
    (records : List Record) :
    forM ns (register analysis config) (reg, records) =
      ending (ofList analysis config reg ns) records () := by
  induction ns generalizing reg records with
  | nil =>
    show EStateM.Result.ok () (reg, records) = EStateM.Result.ok () (reg, records ++ [])
    rw [List.append_nil]
  | cons n ns ih =>
    rw [List.forall_mem_cons] at filed
    rw [List.forM_cons, register_eq_step filed.1, ofList]
    cases first : (step analysis config reg n).result with
    | error e =>
      have run : remembered (fun reg => step analysis config reg n) (reg, records) =
          .error e (reg, records ++ (step analysis config reg n).records) := by
        simp only [remembered, first]
      rw [Remembering.bind_error run]
      rfl
    | ok next =>
      have run : remembered (fun reg => step analysis config reg n) (reg, records) =
          .ok () (next, records ++ (step analysis config reg n).records) := by
        simp only [remembered, first]
      rw [Remembering.bind_ok run, ih filed.2]
      simp only [ending, List.append_assoc]

/-- A traversal of a well-formed tree that registers what it enters is the detection of the tree. -/
theorem traverse_visitor {root : Node} (wf : root.isWellFormed = true) (reg : Registry)
    (records : List Record) :
    (visitor analysis config).traverse root (reg, records) =
      ending (ofTree config reg root analysis) records root := by
  have filed : ∀ n ∈ root.walk, n.isMisfiled = false := fun n hn =>
    Node.isMisfiled_of_isWellFormed (Node.isWellFormed_of_mem_walk wf hn)
  have calls : (visitor analysis config).callAll root.tour = forM root.walk (register analysis config) := by
    rw [callAll_visitor, Node.tour, Node.map_filter_enter_tourAt]
  have toured : (visitor analysis config).traverse root =
      (do forM root.walk (register analysis config); return root) := by
    rw [Visitor.traverse, Visitor.traverseWithin, keeps_visitor.tours wf none [], ← calls, Node.tour]
    simp
  have run : forM root.walk (register analysis config) (reg, records) =
      ending (ofTree config reg root analysis) records () := forM_register filed reg records
  rw [toured]
  cases detected : (ofTree config reg root analysis).outcome.result with
  | error e =>
    rw [ending, detected] at run
    rw [Remembering.bind_error run, ending, detected]
  | ok _ =>
    rw [ending, detected] at run
    rw [Remembering.bind_ok run, ending, detected]
    rfl

end Detection

end PugComponents
