import PugComponents.Proofs.Expansion.NormalForm

/-! What the components around a call are good for. They are asked for nothing but whether the called
component is among them, so they can make an expansion fail and cannot change what it yields: a call
that is expanded inside some components is expanded inside fewer of them, to the same nodes. -/

namespace PugComponents

namespace Run

variable {ρ α β : Type}

/-- Wherever the first computation succeeds, the second succeeds with the same result. -/
def Carries (x y : Run ρ α) : Prop := ∀ a, x.result = .ok a → y.result = .ok a

theorem Carries.refl (x : Run ρ α) : x.Carries x := fun _ h => h

theorem Carries.bind {x y : Run ρ α} {f g : α → Run ρ β} (first : x.Carries y)
    (next : ∀ a, (f a).Carries (g a)) : (x >>= f).Carries (y >>= g) := by
  intro b h
  rw [result_bind_eq_ok] at h ⊢
  obtain ⟨a, here, there⟩ := h
  exact ⟨a, first a here, next a b there⟩

end Run

namespace Node

open Run

variable {call call' : Node → Recorded (List Node)}

theorem replaceCalls_carries (calls : ∀ m, (call m).Carries (call' m)) (ns : List Node) :
    (replaceCalls call ns).Carries (replaceCalls call' ns) := by
  induction ns with
  | nil => exact .refl _
  | cons n ns ih =>
    rw [replaceCalls, replaceCalls]
    refine (Carries.refl _).bind fun isCall => ?_
    cases isCall with
    | true => exact (calls n).bind fun found => ih.bind fun others => .refl _
    | false => exact ih.bind fun others => .refl _

mutual

theorem expandNode_carries (calls : ∀ m, (call m).Carries (call' m)) :
    (n : Node) → (expandNode call n).Carries (expandNode call' n)
  | .seq pos head nodes => by
    have visited := expandAll_carries calls nodes
    simp only [expandNode]
    exact visited.bind fun ns => (replaceCalls_carries calls ns).bind fun _ => .refl _
  | .owner pos head block => by
    have inner := expandOption_carries calls block
    simp only [expandNode]
    exact inner.bind fun _ => .refl _
  | .fork pos head main alternate => by
    have first := expandOption_carries calls main
    have second := expandOption_carries calls alternate
    simp only [expandNode]
    exact first.bind fun _ => second.bind fun _ => .refl _
  | .inclusion pos file block => by
    have inner := expandFile_carries calls file
    simp only [expandNode]
    exact inner.bind fun _ => .refl _
  | .extension pos file => by
    have inner := expandFile_carries calls file
    simp only [expandNode]
    exact inner.bind fun _ => .refl _
  | .leaf .. | .rawInclusion .. | .fileReference .. => by
    simp only [expandNode]
    exact .refl _
termination_by structural n => n

theorem expandAll_carries (calls : ∀ m, (call m).Carries (call' m)) :
    (ns : List Node) → (expandAll call ns).Carries (expandAll call' ns)
  | [] => by
    simp only [expandAll]
    exact .refl _
  | n :: ns => by
    have first := expandNode_carries calls n
    have others := expandAll_carries calls ns
    simp only [expandAll]
    exact first.bind fun _ => others.bind fun _ => .refl _
termination_by structural ns => ns

theorem expandOption_carries (calls : ∀ m, (call m).Carries (call' m)) :
    (o : Option Node) → (expandOption call o).Carries (expandOption call' o)
  | none => by
    simp only [expandOption]
    exact .refl _
  | some n => by
    have inner := expandNode_carries calls n
    simp only [expandOption]
    exact inner.bind fun _ => .refl _
termination_by structural o => o

theorem expandFile_carries (calls : ∀ m, (call m).Carries (call' m)) :
    (file : Option Node) → (expandFile call file).Carries (expandFile call' file)
  | some (.fileReference _ _ _ ast) => by
    have inner := expandOption_carries calls ast
    simp only [expandFile]
    exact inner.bind fun _ => .refl _
  | none | some (.leaf ..) | some (.seq ..) | some (.owner ..) | some (.fork ..)
  | some (.inclusion ..) | some (.extension ..) | some (.rawInclusion ..) => by
    simp only [expandFile]
    exact .refl _
termination_by structural file => file

end

theorem expandBlock_carries (calls : ∀ m, (call m).Carries (call' m)) (ns : List Node) :
    (expandBlock call ns).Carries (expandBlock call' ns) :=
  (expandAll_carries calls ns).bind fun visited => replaceCalls_carries calls visited

end Node

namespace Expansion

open Run

variable {x : Expansion} {stack stack' : List String} {call : Node}

theorem target_of_subset (sub : stack' ⊆ stack) {d : Definition} (h : x.target stack call = .ok d) :
    x.target stack' call = .ok d := by
  simp only [target, Outcome.bind_eq_ok] at h ⊢
  obtain ⟨name, named, h⟩ := h
  refine ⟨name, named, ?_⟩
  by_cases around : stack.contains name = true
  · rw [if_pos around] at h
    cases h
  · have free : ¬ stack'.contains name = true := by
      intro inner
      exact around (List.contains_iff_mem.2 (sub (List.contains_iff_mem.1 inner)))
    rw [if_neg around] at h
    rw [if_neg free]
    exact h

theorem announce_carries (stack stack' : List String) (d : Definition) (call : Node) :
    (x.announce stack d call).Carries (x.announce stack' d call) := by
  intro _ _
  exact announce_eq_ok x stack' d call

/-- Both runs push the same component, so that the subset is kept on the way down. -/
theorem expandCall_carries {depth depth' : Nat} (le : depth ≤ depth') (sub : stack' ⊆ stack) :
    (x.expandCall depth stack call).Carries (x.expandCall depth' stack' call) := by
  induction depth generalizing depth' stack stack' call with
  | zero =>
    intro out h
    obtain ⟨_, _, _, depth_eq, -⟩ := expandCall_eq_ok h
    cases depth_eq
  | succ depth ih =>
    obtain ⟨rest, rfl⟩ : ∃ rest, depth' = rest + 1 := ⟨depth' - 1, by omega⟩
    rw [expandCall, expandCall]
    have found : (liftM (x.target stack call) : Recorded Definition).Carries
        (liftM (x.target stack' call)) := fun _ h => target_of_subset sub h
    refine found.bind fun d => (announce_carries stack stack' d call).bind fun _ =>
      (Carries.refl _).bind fun nodes => ?_
    have pushed : stack' ++ [d.name] ⊆ stack ++ [d.name] :=
      List.append_subset.2 ⟨fun n hn => List.mem_append_left _ (sub hn), List.subset_append_right _ _⟩
    exact Node.expandBlock_carries (fun m => ih (by omega) pushed) nodes

theorem expandCall_unique {depth depth' : Nat} {out out' : List Node}
    (h : (x.expandCall depth stack call).result = .ok out)
    (h' : (x.expandCall depth' stack' call).result = .ok out') : out' = out := by
  have here := expandCall_carries (Nat.le_max_left depth depth') (List.nil_subset _) out h
  have there := expandCall_carries (Nat.le_max_right depth depth') (List.nil_subset _) out' h'
  rw [here] at there
  exact (Except.ok.inj there).symm

end Expansion

namespace Session

theorem expandCall_eq_ok {s : Session} {stack : List String} {call out : Node} :
    (s.expandCall stack call).result = .ok out ↔
      ∃ d nodes, (Expansion.mk s.registry s.config).target stack call = .ok d ∧
        ((Expansion.mk s.registry s.config).call stack call).result = .ok nodes ∧
        out = Node.block d.pos nodes := by
  simp only [expandCall, Run.result_bind_eq_ok, Run.result_lift, Run.result_pure, Except.ok.injEq]
  constructor
  · rintro ⟨nodes, run, d, found, rfl⟩
    exact ⟨d, nodes, found, run, rfl⟩
  · rintro ⟨d, nodes, found, run, rfl⟩
    exact ⟨nodes, run, d, found, rfl⟩

end Session

/-- The components around a call can make its expansion fail, and do nothing else: inside fewer of them
it succeeds with the same block, and wherever else it succeeds, at any depth of a run, it yields the
same nodes. -/
theorem surroundings_of_expandCall {s : Session} {stack stack' : List String} {call out : Node}
    (sub : stack' ⊆ stack) (h : (s.expandCall stack call).result = .ok out) :
    (s.expandCall stack' call).result = .ok out ∧
      (∀ other out', (s.expandCall other call).result = .ok out' → out' = out) ∧
      ∀ depth other nodes,
        ((Expansion.mk s.registry s.config).expandCall depth other call).result = .ok nodes →
          out.nodes? = some nodes := by
  have smaller : ∀ {few many : List String} {b : Node}, few ⊆ many →
      (s.expandCall many call).result = .ok b → (s.expandCall few call).result = .ok b := by
    intro few many b sub h
    obtain ⟨d, nodes, found, run, rfl⟩ := Session.expandCall_eq_ok.1 h
    exact Session.expandCall_eq_ok.2 ⟨d, nodes, Expansion.target_of_subset sub found,
      Expansion.expandCall_carries (Nat.le_refl _) sub nodes run, rfl⟩
  refine ⟨smaller sub h, fun other out' h' => ?_, fun depth other nodes h' => ?_⟩
  · have alone := smaller (List.nil_subset _) h
    rw [smaller (List.nil_subset _) h'] at alone
    exact Except.ok.inj alone
  · obtain ⟨d, nodes', -, run, rfl⟩ := Session.expandCall_eq_ok.1 h
    exact congrArg some (Expansion.expandCall_unique h' run)

theorem surroundings_framedPage : ∃ out,
    ((Session.detect {} framedPage).1.expandCall ["Card", "List"] (plainTag "Frame" [])).result =
      .ok out ∧
    ((Session.detect {} framedPage).1.expandCall ["List"] (plainTag "Frame" [])).result = .ok out := by
  obtain ⟨out, h⟩ : ∃ out, ((Session.detect {} framedPage).1.expandCall ["Card", "List"]
      (plainTag "Frame" [])).result = .ok out := Outcome.exists_ok_of_isOk (by decide +kernel)
  exact ⟨out, h, (surroundings_of_expandCall (by simp) h).1⟩

end PugComponents
