import PugComponents.Failure
import PugComponents.Tree.Walk

/-! Asking every node of a tree in walk order. The children of an Include or Extends can be asked for
only if its file is a file reference. -/

namespace PugComponents.Node

variable {α : Type}

def contribution (f : Node → Except Failure (List α)) (n : Node) : Except Failure (List α) := do
  let own ← f n
  if n.isMisfiled then .error (.fault .missingPart) else .ok own

/-- What all nodes contribute, parents first. -/
def survey (f : Node → Except Failure (List α)) (root : Node) : Except Failure (List α) := do
  let found ← root.walk.mapM (contribution f)
  return found.flatten

/-- Whether a node of the tree passes a test; the nodes behind the first that does are not asked for. -/
def anyBelow (p : Node → Bool) (root : Node) : Except Failure Bool :=
  go root.walk
where
  go : List Node → Except Failure Bool
    | [] => .ok false
    | n :: ns =>
      if p n then .ok true
      else if n.isMisfiled then .error (.fault .missingPart)
      else go ns

theorem contribution_eq_ok {f : Node → Except Failure (List α)} {n : Node} {xs : List α}
    (h : contribution f n = .ok xs) : f n = .ok xs := by
  unfold contribution at h
  cases hf : f n with
  | error e => rw [hf] at h; cases h
  | ok own =>
    rw [hf] at h
    simp only [bind, Except.bind] at h
    split at h
    · cases h
    · exact h

end PugComponents.Node
