import PugComponents.Proofs.Definition.Reports
import PugComponents.Proofs.Tree.Routes

/-! The placeholders of a body by their routes. The labels that the visit collects on its way down can be
read off the route to a placeholder: every step into control flow puts a marker, and the tests of a
chain are counted. -/

namespace PugComponents.Node

/-- The slots outside of calls, in visiting order, with the routes to them. -/
def slotRoutes (n : Node) : List (Route × Node) := (n.routesUntil isCall).filter fun p => p.2.isSlot

theorem map_snd_slotRoutes (n : Node) :
    n.slotRoutes.map Prod.snd = (n.walkUntil isCall).filter isSlot := by
  rw [← map_snd_routesUntil, List.filter_map]
  rfl

theorem mem_slotRoutes {n slot : Node} {route : Route} :
    (route, slot) ∈ n.slotRoutes ↔ (route, slot) ∈ n.routesUntil isCall ∧ slot.isSlot = true := by
  rw [slotRoutes, List.mem_filter]

theorem slotRoutes_eq (n : Node) :
    n.slotRoutes = (if n.isSlot then [([], n)] else []) ++ if n.isCall then [] else
      n.branches.flatMap fun p => p.2.slotRoutes.map (under (n, p.1)) := by
  have below : ∀ p : Branch × Node,
      ((p.2.routesUntil isCall).map (under (n, p.1))).filter (fun q => q.2.isSlot) =
        p.2.slotRoutes.map (under (n, p.1)) := fun p => by rw [List.filter_map]; rfl
  rw [slotRoutes, routesUntil_eq, List.filter_cons]
  cases n.isSlot <;> cases n.isCall <;> simp [List.filter_flatMap, below]

/-- The marker that a step puts on what is below it; `index` tests of the same chain come before. -/
def marker? (index : Nat) : Step → Option String
  | (.fork _ (.conditional _) _ _, .main) =>
    some (if index = 0 then "if" else "else-if:" ++ toString index)
  | (.fork _ (.conditional _) _ _, .alternate) => some "else"
  | (.fork _ (.each ..) _ _, .main) => some "each"
  | (.fork _ (.each ..) _ _, .alternate) => some "each-else"
  | (.owner _ (.caseOf _) _, _) => some "case"
  | (.owner _ (.whenArm expr _) _, _) => some ("when:" ++ expr.display)
  | (.owner _ (.whileLoop _) _, _) => some "while"
  | _ => none

def goesOnChain : Step → Route → Bool
  | (n, .alternate), (next, _) :: _ => n.isConditional && next.isConditional
  | _, _ => false

/-- The markers on a route whose first node comes after so many tests of a chain. -/
def markers (index : Nat) : Route → List String
  | [] => []
  | step :: rest =>
    if goesOnChain step rest then markers (index + 1) rest
    else (marker? index step).toList ++ markers 0 rest

def pathLabel (route : Route) : String := Text.join ">" (markers 0 route)

/-- The visits of the slots of a tree, with the labels that are read off their routes. -/
def routeVisits (path : List String) (index : Nat) (n : Node) : List Visit :=
  n.slotRoutes.map fun p => .ok ⟨p.2, path ++ markers index p.1⟩

def stepVisits (path : List String) (index : Nat) (step : Step) (n : Node) : List Visit :=
  n.slotRoutes.map fun p => .ok ⟨p.2, path ++ markers index (step :: p.1)⟩

theorem routeVisits_eq (path : List String) (index : Nat) (n : Node) :
    n.routeVisits path index = (if n.isSlot then [.ok ⟨n, path⟩] else []) ++ if n.isCall then [] else
      n.branches.flatMap fun p => p.2.stepVisits path index (n, p.1) := by
  rw [routeVisits, slotRoutes_eq]
  cases n.isSlot <;> cases n.isCall <;>
    simp [markers, under, stepVisits, List.map_flatMap, Function.comp_def]

theorem stepVisits_of_marker (n : Node) (b : Branch) (path : List String) (index : Nat) {c : Node}
    (ends : b = .alternate → n.isConditional = true → c.isConditional = false) :
    c.stepVisits path index (n, b) = c.routeVisits (path ++ (marker? index (n, b)).toList) 0 := by
  refine List.map_congr_left ?_
  rintro ⟨route, slot⟩ member
  have stays : goesOnChain (n, b) route = false := by
    rcases mem_routesUntil_step.1 (mem_slotRoutes.1 member).1 with ⟨rfl, -⟩ | ⟨-, _, _, _, -, -, rfl⟩
    · cases b <;> rfl
    · cases b <;> simp_all [goesOnChain]
  simp [markers, stays]

theorem isSlot_eq_false_of_isConditional {n : Node} (h : n.isConditional = true) :
    n.isSlot = false := by
  cases n with
  | fork => rfl
  | _ => cases h

/-- Into the next test of a chain a step puts no marker, but the test is counted. -/
theorem stepVisits_of_chain {n c : Node} (path : List String) (index : Nat)
    (first : n.isConditional = true) (next : c.isConditional = true) :
    c.stepVisits path index (n, .alternate) = c.routeVisits path (index + 1) := by
  refine List.map_congr_left ?_
  rintro ⟨route, slot⟩ member
  obtain ⟨reached, marked⟩ := mem_slotRoutes.1 member
  have goesOn : goesOnChain (n, .alternate) route = true := by
    rcases mem_routesUntil_step.1 reached with ⟨-, rfl⟩ | ⟨-, _, _, _, -, -, rfl⟩
    · rw [isSlot_eq_false_of_isConditional next] at marked
      cases marked
    · simp [goesOnChain, first, next]
  simp [markers, goesOn]

theorem routeVisits_below {n : Node} (path : List String) (index : Nat)
    (parts : n.branches = n.children.map (Prod.mk .below)) :
    n.routeVisits path index = (if n.isSlot then [.ok ⟨n, path⟩] else []) ++ if n.isCall then [] else
      n.children.flatMap (routeVisits (path ++ (marker? index (n, .below)).toList) 0) := by
  rw [routeVisits_eq, parts, List.flatMap_map]
  have deeper : ∀ c : Node, c.stepVisits path index (n, .below) =
      c.routeVisits (path ++ (marker? index (n, .below)).toList) 0 :=
    fun c => stepVisits_of_marker n .below path index (by simp)
  simp only [deeper]

theorem marker?_owner (index : Nat) (pos : Position) (head : Owner) (block : Option Node)
    (b : Branch) : (marker? index (.owner pos head block, b)).toList = ownerLabels head := by
  cases head <;> rfl

theorem ownerLabels_eq_nil_of_isSlot {pos : Position} {head : Owner} {block : Option Node}
    (h : (owner pos head block).isSlot = true) : ownerLabels head = [] := by
  cases head with
  | tag => rfl
  | _ => cases h

theorem routeVisits_fork (path : List String) (index : Nat) (pos : Position) (head : Fork)
    (main alternate : Option Node) :
    (fork pos head main alternate).routeVisits path index =
      main.toList.flatMap (stepVisits path index (fork pos head main alternate, .main)) ++
        alternate.toList.flatMap (stepVisits path index (fork pos head main alternate, .alternate)) := by
  have notSlot : (fork pos head main alternate).isSlot = false := rfl
  have notCall : (fork pos head main alternate).isCall = false := rfl
  simp [routeVisits_eq, notSlot, notCall, branches, List.flatMap_append, List.flatMap_map]

mutual

theorem placeholders_eq : (n : Node) → n.isWellFormed = true → (path : List String) →
    n.placeholders path = n.routeVisits path 0
  | .leaf .., _, path => rfl
  | .seq pos head nodes, wf, path => by
    rw [placeholders, placeholdersAll_eq nodes (isWellFormed_seq.1 wf).2.2 path,
      routeVisits_below path 0 rfl]
    simp [isSlot, isTagNamed, isCall, calledName?, tag?, marker?, children]
  | .owner pos head block, wf, path => by
    have below := placeholdersOption_eq block (fun n hn => ((isWellFormed_owner.1 wf).2.2.2 n hn).2)
    rw [placeholders, labelFault?_of_isWellFormed wf, routeVisits_below path 0 rfl, marker?_owner]
    dsimp only
    by_cases isCall : (owner pos head block).isCall = true
    · simp [isCall, isSlot_eq_false_of_isCall isCall]
    · by_cases marked : (owner pos head block).isSlot = true
      · simp [isCall, marked, below, ownerLabels_eq_nil_of_isSlot marked, children]
      · simp [isCall, marked, below, children]
  | .fork pos (.each obj val key) main alternate, wf, path => by
    obtain ⟨-, -, -, first, second⟩ := isWellFormed_fork.1 wf
    rw [placeholders, placeholdersOption_eq main (fun n hn => (first n hn).2),
      placeholdersOption_eq alternate (fun n hn => (second n hn).2), routeVisits_fork]
    congr 1
    · exact List.flatMap_congr fun c _ =>
        (stepVisits_of_marker (fork pos (.each obj val key) main alternate) .main path 0 (by simp)).symm
    · exact List.flatMap_congr fun c _ => (stepVisits_of_marker
        (fork pos (.each obj val key) main alternate) .alternate path 0 (by simp [isConditional])).symm
  | .fork pos (.conditional test) main alternate, wf, path => by
    obtain ⟨-, -, -, first, second⟩ := isWellFormed_fork.1 wf
    rw [placeholders, placeholdersOption_eq main (fun n hn => (first n hn).2),
      placeholdersElse_eq alternate second, routeVisits_fork]
    congr 1
    exact List.flatMap_congr fun c _ =>
      (stepVisits_of_marker (fork pos (.conditional test) main alternate) .main path 0 (by simp)).symm
  | .inclusion pos file block, wf, path => by
    rw [placeholders, placeholdersFile_eq file (isWellFormed_inclusion.1 wf).2.1,
      routeVisits_below path 0 rfl]
    simp [isSlot, isTagNamed, isCall, calledName?, tag?, marker?, children]
  | .extension pos file, wf, path => by
    rw [placeholders, placeholdersFile_eq file (isWellFormed_extension.1 wf).2,
      routeVisits_below path 0 rfl]
    simp [isSlot, isTagNamed, isCall, calledName?, tag?, marker?, children]
  | .rawInclusion .., _, path => rfl
  | .fileReference .., _, path => rfl
termination_by structural n => n

theorem placeholdersAll_eq : (ns : List Node) → (∀ n ∈ ns, n.isWellFormed = true) →
    (path : List String) → placeholdersAll path ns = ns.flatMap (routeVisits path 0)
  | [], _, path => rfl
  | n :: ns, wf, path => by
    rw [List.forall_mem_cons] at wf
    rw [placeholdersAll, placeholders_eq n wf.1 path, placeholdersAll_eq ns wf.2 path,
      List.flatMap_cons]
termination_by structural ns => ns

theorem placeholdersOption_eq : (o : Option Node) → (∀ n ∈ o, n.isWellFormed = true) →
    (path : List String) → placeholdersOption path o = o.toList.flatMap (routeVisits path 0)
  | none, _, path => rfl
  | some n, wf, path => by
    rw [placeholdersOption, placeholders_eq n (wf n rfl) path]
    simp
termination_by structural o => o

theorem placeholdersElse_eq {pos : Position} {test : Json} {main : Option Node} {index : Nat} :
    (o : Option Node) →
    (∀ n ∈ o, n.isAlternativeOf (.conditional test) = true ∧ n.isWellFormed = true) →
    ∀ whole : Option Node, (path : List String) → placeholdersElse path index o =
      o.toList.flatMap (stepVisits path index (fork pos (.conditional test) main whole, .alternate))
  | none, _, _, path => rfl
  | some (.fork pos' (.conditional test') main' alternate'), wf, whole, path => by
    obtain ⟨-, -, -, first, second⟩ := isWellFormed_fork.1 (wf _ rfl).2
    rw [placeholdersElse, placeholdersOption_eq main' (fun n hn => (first n hn).2),
      placeholdersElse_eq alternate' second alternate' path]
    simp only [Option.toList_some, List.flatMap_cons, List.flatMap_nil, List.append_nil]
    rw [stepVisits_of_chain path index rfl rfl, routeVisits_fork]
    congr 1
    exact List.flatMap_congr fun c _ => (stepVisits_of_marker
      (fork pos' (.conditional test') main' alternate') .main path (index + 1) (by simp)).symm
  | some (.seq pos' head nodes), wf, whole, path => by
    have last := placeholders_eq (.seq pos' head nodes) (wf _ rfl).2 (path ++ ["else"])
    rw [placeholdersElse, last]
    · simp only [Option.toList_some, List.flatMap_cons, List.flatMap_nil, List.append_nil]
      exact (stepVisits_of_marker (fork pos (.conditional test) main whole) .alternate path index
        fun _ _ => rfl).symm
    · simp
  | some (.leaf ..), wf, _, _ | some (.owner ..), wf, _, _ | some (.fork _ (.each ..) ..), wf, _, _
  | some (.inclusion ..), wf, _, _ | some (.extension ..), wf, _, _
  | some (.rawInclusion ..), wf, _, _ | some (.fileReference ..), wf, _, _ => by
    simp [isAlternativeOf, isBlock, isConditional] at wf
termination_by structural o => o

theorem placeholdersFile_eq : (file : Option Node) → IsFile file → (path : List String) →
    placeholdersFile path file = (ast? file).toList.flatMap (routeVisits path 0)
  | some (.fileReference pos path' fullPath ast), isFile, path => by
    rw [placeholdersFile, ast?]
    exact placeholdersOption_eq ast (fun n hn => (isWellFormed_of_mem_file isFile hn).2) path
  | none, isFile, _ | some (.leaf ..), isFile, _ | some (.seq ..), isFile, _
  | some (.owner ..), isFile, _ | some (.fork ..), isFile, _ | some (.inclusion ..), isFile, _
  | some (.extension ..), isFile, _ | some (.rawInclusion ..), isFile, _ => by
    simp [IsFile, isFileReference] at isFile
termination_by structural file => file

end

end PugComponents.Node
