import PugComponents.Tree.Vocabulary
import PugComponents.Tree.Walk
import Mathlib.Data.List.Basic

/-! Nodes together with what stands above them. Besides the whole walk there is the walk that does not
go below certain nodes; it has exactly the nodes with none of these above them. -/

namespace PugComponents.Node

theorem sizeOf_lt_of_mem_children {c n : Node} (h : c ∈ n.children) : sizeOf c < sizeOf n := by
  cases n with
  | leaf => simp [children] at h
  | seq pos head nodes =>
    have := List.sizeOf_lt_of_mem (show c ∈ nodes from h)
    simp only [seq.sizeOf_spec]
    omega
  | owner pos head block =>
    simp only [children, Option.mem_toList] at h
    subst h
    simp only [owner.sizeOf_spec, Option.some.sizeOf_spec]
    omega
  | fork pos head main alternate =>
    simp only [children, List.mem_append, Option.mem_toList] at h
    rcases h with rfl | rfl
    all_goals simp only [fork.sizeOf_spec, Option.some.sizeOf_spec]
    all_goals omega
  | inclusion pos file block =>
    simp only [children, ast?] at h
    split at h
    · simp only [Option.mem_toList] at h
      subst h
      simp only [inclusion.sizeOf_spec, Option.some.sizeOf_spec, fileReference.sizeOf_spec]
      omega
    · simp at h
  | extension pos file =>
    simp only [children, ast?] at h
    split at h
    · simp only [Option.mem_toList] at h
      subst h
      simp only [extension.sizeOf_spec, Option.some.sizeOf_spec, fileReference.sizeOf_spec]
      omega
    · simp at h
  | rawInclusion => simp [children] at h
  | fileReference => simp [children] at h

/-- What holds of a node whenever it holds of its children holds of every node. -/
theorem childInduction {motive : Node → Prop}
    (step : ∀ n, (∀ c ∈ n.children, motive c) → motive n) (n : Node) : motive n :=
  step n fun c _ => childInduction step c
termination_by sizeOf n
decreasing_by exact sizeOf_lt_of_mem_children ‹_›

theorem mem_walk_iff {m n : Node} : m ∈ n.walk ↔ m = n ∨ ∃ c ∈ n.children, m ∈ c.walk := by
  rw [walk_eq, List.mem_cons, List.mem_flatMap]

theorem mem_walk_of_mem_children {m c n : Node} (hc : c ∈ n.children) (hm : m ∈ c.walk) :
    m ∈ n.walk :=
  mem_walk_iff.2 (.inr ⟨c, hc, hm⟩)

theorem mem_walk_trans {k m n : Node} (hk : k ∈ m.walk) (hm : m ∈ n.walk) : k ∈ n.walk := by
  induction n using childInduction with
  | step n ih =>
    rcases mem_walk_iff.1 hm with rfl | ⟨c, hc, hm⟩
    · exact hk
    · exact mem_walk_of_mem_children hc (ih c hc hm)

mutual

/-- The walk that does not go below the nodes that pass a test. -/
def walkUntil (stop : Node → Bool) : Node → List Node
  | n@(.leaf ..) => [n]
  | n@(.seq _ _ nodes) => n :: if stop n then [] else walkAllUntil stop nodes
  | n@(.owner _ _ block) => n :: if stop n then [] else walkOptionUntil stop block
  | n@(.fork _ _ main alternate) =>
    n :: if stop n then [] else walkOptionUntil stop main ++ walkOptionUntil stop alternate
  | n@(.inclusion _ file _) => n :: if stop n then [] else walkFileUntil stop file
  | n@(.extension _ file) => n :: if stop n then [] else walkFileUntil stop file
  | n@(.rawInclusion ..) => [n]
  | n@(.fileReference ..) => [n]

def walkAllUntil (stop : Node → Bool) : List Node → List Node
  | [] => []
  | n :: ns => walkUntil stop n ++ walkAllUntil stop ns

def walkOptionUntil (stop : Node → Bool) : Option Node → List Node
  | none => []
  | some n => walkUntil stop n

def walkFileUntil (stop : Node → Bool) : Option Node → List Node
  | some (.fileReference _ _ _ ast) => walkOptionUntil stop ast
  | _ => []

end

theorem walkAllUntil_eq_flatMap (stop : Node → Bool) (ns : List Node) :
    walkAllUntil stop ns = ns.flatMap (walkUntil stop) := by
  induction ns with
  | nil => rw [walkAllUntil]; rfl
  | cons n ns ih => rw [walkAllUntil, ih, List.flatMap_cons]

theorem walkOptionUntil_eq (stop : Node → Bool) (o : Option Node) :
    walkOptionUntil stop o = o.toList.flatMap (walkUntil stop) := by
  cases o <;> simp [walkOptionUntil]

theorem walkFileUntil_eq (stop : Node → Bool) (file : Option Node) :
    walkFileUntil stop file = (ast? file).toList.flatMap (walkUntil stop) := by
  unfold walkFileUntil ast?
  split <;> simp [walkOptionUntil_eq]

theorem walkUntil_eq (stop : Node → Bool) (n : Node) :
    n.walkUntil stop = n :: if stop n then [] else n.children.flatMap (walkUntil stop) := by
  cases n <;>
    simp [walkUntil, children, walkAllUntil_eq_flatMap, walkOptionUntil_eq, walkFileUntil_eq,
      List.flatMap_append]

theorem mem_walkUntil_step {stop : Node → Bool} {m n : Node} :
    m ∈ n.walkUntil stop ↔ m = n ∨ stop n = false ∧ ∃ c ∈ n.children, m ∈ c.walkUntil stop := by
  rw [walkUntil_eq, List.mem_cons]
  cases stop n <;> simp [List.mem_flatMap]

theorem self_mem_walkUntil (stop : Node → Bool) (n : Node) : n ∈ n.walkUntil stop :=
  mem_walkUntil_step.2 (.inl rfl)

theorem mem_walk_of_mem_walkUntil {stop : Node → Bool} {m n : Node} (h : m ∈ n.walkUntil stop) :
    m ∈ n.walk := by
  induction n using childInduction with
  | step n ih =>
    rcases mem_walkUntil_step.1 h with rfl | ⟨-, c, hc, hm⟩
    · exact self_mem_walk m
    · exact mem_walk_of_mem_children hc (ih c hc hm)

theorem walkUntil_eq_walk {stop : Node → Bool} {n : Node} (h : ∀ m ∈ n.walk, stop m = false) :
    n.walkUntil stop = n.walk := by
  induction n using childInduction with
  | step n ih =>
    have deeper : n.children.flatMap (walkUntil stop) = n.children.flatMap walk :=
      List.flatMap_congr fun c hc => ih c hc fun m hm => h m (mem_walk_of_mem_children hc hm)
    rw [walkUntil_eq, walk_eq, h n (self_mem_walk n), deeper]
    simp

/-- A node below another, with the nodes from the upper one down to the parent of the lower one. -/
inductive Lineage : Node → List Node → Node → Prop where
  | refl (n : Node) : Lineage n [] n
  | down {n c m : Node} {above : List Node} (child : c ∈ n.children) (rest : Lineage c above m) :
    Lineage n (n :: above) m

theorem mem_walkUntil_iff {stop : Node → Bool} {m n : Node} :
    m ∈ n.walkUntil stop ↔ ∃ above, Lineage n above m ∧ ∀ a ∈ above, stop a = false := by
  constructor
  · intro h
    induction n using childInduction with
    | step n ih =>
      rcases mem_walkUntil_step.1 h with rfl | ⟨hn, c, hc, hm⟩
      · exact ⟨[], .refl m, by simp⟩
      · obtain ⟨above, line, free⟩ := ih c hc hm
        exact ⟨n :: above, .down hc line, by simpa [hn] using free⟩
  · rintro ⟨above, line, free⟩
    induction line with
    | refl n => exact mem_walkUntil_step.2 (.inl rfl)
    | down hc _ ih =>
      rw [List.forall_mem_cons] at free
      exact mem_walkUntil_step.2 (.inr ⟨free.1, _, hc, ih free.2⟩)

theorem mem_walk_iff_lineage {m n : Node} : m ∈ n.walk ↔ ∃ above, Lineage n above m := by
  have never : n.walkUntil (fun _ => false) = n.walk := walkUntil_eq_walk fun _ _ => rfl
  rw [← never, mem_walkUntil_iff]
  simp

def Lacks (p : Node → Bool) (n : Node) : Prop := ∀ m ∈ n.walk, p m = false

theorem Lacks.of_mem_children {p : Node → Bool} {n c : Node} (h : n.Lacks p) (hc : c ∈ n.children) :
    c.Lacks p :=
  fun m hm => h m (mem_walk_of_mem_children hc hm)

theorem lacks_iff {p : Node → Bool} {n : Node} :
    n.Lacks p ↔ p n = false ∧ ∀ c ∈ n.children, c.Lacks p := by
  constructor
  · intro h
    exact ⟨h n (self_mem_walk n), fun c hc => h.of_mem_children hc⟩
  · rintro ⟨self, below⟩ m hm
    rcases mem_walk_iff.1 hm with rfl | ⟨c, hc, hm⟩
    · exact self
    · exact below c hc m hm

end PugComponents.Node
