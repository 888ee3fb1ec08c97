import PugComponents.Tree.Node

/-! The children of a node, and the list of all nodes below one, parents first. The child of an
Include or Extends is the tree of the file it refers to, once that is resolved. -/

namespace PugComponents

namespace Node

def ast? : Option Node → Option Node
  | some (.fileReference _ _ _ ast) => ast
  | _ => none

/-- The direct children in visiting order. -/
def children : Node → List Node
  | .leaf .. => []
  | .seq _ _ nodes => nodes
  | .owner _ _ block => block.toList
  | .fork _ _ main alternate => main.toList ++ alternate.toList
  | .inclusion _ file _ => (ast? file).toList
  | .extension _ file => (ast? file).toList
  | .rawInclusion .. => []
  | .fileReference .. => []

mutual

/-- The node and everything below it, parents before children and siblings in order. -/
def walk : Node → List Node
  | n@(.leaf ..) => [n]
  | n@(.seq _ _ nodes) => n :: walkAll nodes
  | n@(.owner _ _ block) => n :: walkOption block
  | n@(.fork _ _ main alternate) => n :: (walkOption main ++ walkOption alternate)
  | n@(.inclusion _ file _) => n :: walkFile file
  | n@(.extension _ file) => n :: walkFile file
  | n@(.rawInclusion ..) => [n]
  | n@(.fileReference ..) => [n]

def walkAll : List Node → List Node
  | [] => []
  | n :: ns => walk n ++ walkAll ns

def walkOption : Option Node → List Node
  | none => []
  | some n => walk n

def walkFile : Option Node → List Node
  | some (.fileReference _ _ _ ast) => walkOption ast
  | _ => []

end

theorem walkAll_eq_flatMap (ns : List Node) : walkAll ns = ns.flatMap walk := by
  induction ns with
  | nil => rw [walkAll]; rfl
  | cons n ns ih => rw [walkAll, ih, List.flatMap_cons]

theorem walkOption_eq (o : Option Node) : walkOption o = o.toList.flatMap walk := by
  cases o <;> simp [walkOption]

theorem walkFile_eq (file : Option Node) : walkFile file = (ast? file).toList.flatMap walk := by
  unfold walkFile ast?
  split <;> simp [walkOption_eq]

theorem walk_eq (n : Node) : n.walk = n :: n.children.flatMap walk := by
  cases n <;>
    simp [walk, children, walkAll_eq_flatMap, walkOption_eq, walkFile_eq, List.flatMap_append]

theorem self_mem_walk (n : Node) : n ∈ n.walk := by rw [walk_eq]; simp

/-- The nodes in the order in which a stack yields them: the one on top is taken off, and its children are
put on the stack so that the first of them is on top. -/
def unstack : List Node → List Node
  | [] => []
  | n :: stack => n :: unstack (n.children ++ stack)
termination_by stack => (stack.flatMap walk).length
decreasing_by simp [List.flatMap_append, walk_eq n]

/-- A stack yields the walks of its nodes one after the other. -/
theorem unstack_eq_flatMap (stack : List Node) : unstack stack = stack.flatMap walk := by
  induction stack using unstack.induct with
  | case1 => rw [unstack]; rfl
  | case2 n stack ih => rw [unstack, ih, List.flatMap_append, List.flatMap_cons, walk_eq n, List.cons_append]

mutual

/-- The tree with every owner's head in the walk changed by `f`. -/
def mapOwners (f : Owner → Owner) : Node → Node
  | .leaf pos head => .leaf pos head
  | .seq pos head nodes => .seq pos head (mapOwnersAll f nodes)
  | .owner pos head block => .owner pos (f head) (mapOwnersOption f block)
  | .fork pos head main alternate =>
    .fork pos head (mapOwnersOption f main) (mapOwnersOption f alternate)
  | .inclusion pos file block => .inclusion pos (mapOwnersFile f file) block
  | .extension pos file => .extension pos (mapOwnersFile f file)
  | .rawInclusion pos file filters => .rawInclusion pos file filters
  | .fileReference pos path fullPath ast => .fileReference pos path fullPath ast

def mapOwnersAll (f : Owner → Owner) : List Node → List Node
  | [] => []
  | n :: ns => mapOwners f n :: mapOwnersAll f ns

def mapOwnersOption (f : Owner → Owner) : Option Node → Option Node
  | none => none
  | some n => some (mapOwners f n)

def mapOwnersFile (f : Owner → Owner) : Option Node → Option Node
  | some (.fileReference pos path fullPath ast) =>
    some (.fileReference pos path fullPath (mapOwnersOption f ast))
  | file => file

end

end Node

end PugComponents
