import PugComponents.Proofs.Outcome
import PugComponents.Proofs.Traversal.Tour
import PugComponents.Proofs.Tree.WellFormed

/-! The order in which hooks are called. A visit with hooks that keep every node leaves a well-formed tree
as it is, and comes to no more than calling the hooks at the moments of a tour, one after the other.
This holds in every monad, so whatever the hooks record, remember or otherwise do, they do it in the
order of the tour. -/

namespace PugComponents

namespace Visitor

variable {m : Type → Type}

def hookAt? (v : Visitor m) (e : Moment) : Option (Hook m) :=
  match e.phase with
  | .enter => (v e.node.kind).enter
  | .leave => (v e.node.kind).leave

def isHeard (v : Visitor m) (e : Moment) : Bool := (v.hookAt? e).isSome

variable [Monad m]

def callAt (v : Visitor m) (e : Moment) : m Unit :=
  match v.hookAt? e with
  | some hook => (fun _ => ()) <$> hook e.node e.parent
  | none => return ()

def callAll (v : Visitor m) (moments : List Moment) : m Unit := forM moments v.callAt

/-- No hook, called for a node of its kind, decides anything but to keep it. -/
def Keeps (v : Visitor m) : Prop :=
  ∀ n hook, (v n.kind).enter = some hook ∨ (v n.kind).leave = some hook →
    ∀ parent, hook n parent = (fun _ => Verdict.keep) <$> hook n parent

variable [LawfulMonad m] {v : Visitor m}

theorem Keeps.onEnter_eq (keeps : v.Keeps) (parent : Option Node) (place : Place) (n : Node) :
    v.onEnter parent n = (do v.callAt ⟨.enter, place, n, parent⟩; return .keep) := by
  unfold onEnter callAt hookAt?
  cases found : (v n.kind).enter with
  | none => simp
  | some hook =>
    simp only [bind_map_left]
    rw [keeps n hook (.inl found) parent, map_eq_pure_bind, bind_assoc]
    simp

theorem Keeps.onLeave_eq (keeps : v.Keeps) (parent : Option Node) (place : Place) (n : Node) :
    v.onLeave parent n = (do v.callAt ⟨.leave, place, n, parent⟩; return .keep) := by
  unfold onLeave callAt hookAt?
  cases found : (v n.kind).leave with
  | none => simp
  | some hook =>
    simp only [bind_map_left]
    rw [keeps n hook (.inr found) parent, map_eq_pure_bind, bind_assoc]
    simp

omit [LawfulMonad m] in
@[simp] theorem callAll_nil (v : Visitor m) : v.callAll [] = pure () := rfl

omit [LawfulMonad m] in
@[simp] theorem callAll_cons (v : Visitor m) (e : Moment) (moments : List Moment) :
    v.callAll (e :: moments) = (do v.callAt e; v.callAll moments) := rfl

@[simp] theorem callAll_append (v : Visitor m) (moments others : List Moment) :
    v.callAll (moments ++ others) = (do v.callAll moments; v.callAll others) :=
  List.forM_append

theorem callAll_filter_isHeard (v : Visitor m) (moments : List Moment) :
    v.callAll (moments.filter v.isHeard) = v.callAll moments := by
  induction moments with
  | nil => rfl
  | cons e moments ih =>
    cases heard : v.isHeard e with
    | true => rw [List.filter_cons_of_pos heard, callAll_cons, callAll_cons, ih]
    | false =>
      have none : v.hookAt? e = none := Option.isNone_iff_eq_none.1 (Option.isSome_eq_false_iff.1 heard)
      have silent : v.callAt e = pure () := by rw [callAt, none]
      rw [List.filter_cons_of_neg (by simp [heard]), callAll_cons, silent, pure_bind, ih]

variable [MonadExceptOf Failure m] {again : Option Node → Node → m (Option Node)}

/-- What a visit to a node comes to, if no hook changes anything: a tour, after which the node stays. -/
def Tours (v : Visitor m) (again : Option Node → Node → m (Option Node)) (n : Node) : Prop :=
  ∀ parent place, v.visit again false parent n =
    (do v.callAll (n.tourAt parent place); return some n)

theorem visitAll_eq_of_tours {ns : List Node} (tours : ∀ n ∈ ns, v.Tours again n) (parent : Node)
    (place : Place) (first : Nat) :
    v.visitAll again parent ns = (do v.callAll (Node.tourAll parent place first ns); return ns) := by
  induction ns generalizing first with
  | nil => simp [visitAll]
  | cons n ns ih =>
    rw [List.forall_mem_cons] at tours
    rw [visitAll, tours.1 (some parent) (place ++ [first]), ih tours.2 (first + 1), Node.tourAll_cons,
      callAll_append]
    simp

theorem visitOption_eq_of_tours {o : Option Node} (tours : ∀ n ∈ o, v.Tours again n) (parent : Node)
    (place : Place) (first : Nat) (needed : Bool) :
    v.visitOption again parent needed o =
      (do v.callAll (Node.tourAll parent place first o.toList); return o) := by
  cases o with
  | none => simp [visitOption]
  | some n =>
    rw [visitOption, tours n rfl (some parent) (place ++ [first]), Option.toList_some, Node.tourAll_cons,
      Node.tourAll_nil, List.append_nil]
    simp

theorem visitFile_eq_of_tours {file : Option Node} (isFile : Node.IsFile file)
    (tours : ∀ n ∈ Node.ast? file, v.Tours again n) (parent : Node) (place : Place) :
    v.visitFile again parent file =
      (do v.callAll (Node.tourAll parent place 0 (Node.ast? file).toList); return file) := by
  obtain ⟨reference, rfl, isReference, -⟩ := isFile
  cases reference with
  | fileReference pos path fullPath ast =>
    have inner := visitOption_eq_of_tours (show ∀ n ∈ ast, v.Tours again n from tours) parent place 0 false
    rw [visitFile, inner]
    simp [Node.ast?]
  | _ => cases isReference

omit [MonadExceptOf Failure m] in
/-- A node that is entered, of which the children are visited, and that is left, is toured. -/
theorem Keeps.entered_eq (keeps : v.Keeps) (again : Option Node → Node → m (Option Node))
    (parent : Option Node) (place : Place) (n : Node) :
    v.entered again false parent n
        (do v.callAll (Node.tourAll n place 0 n.children); v.left parent n) =
      (do v.callAll (n.tourAt parent place); return some n) := by
  rw [entered, keeps.onEnter_eq parent place, left, keeps.onLeave_eq parent place, Node.tourAt_eq,
    Moment.around]
  simp

theorem Keeps.tours (keeps : v.Keeps) {n : Node} (wf : n.isWellFormed = true) : v.Tours again n := by
  induction n using Node.childInduction with
  | step n ih =>
    have below : ∀ c ∈ n.children, v.Tours again c := fun c hc =>
      ih c hc (Node.isWellFormed_of_mem_children wf hc)
    intro parent place
    rw [← keeps.entered_eq again]
    cases n with
    | leaf pos head => simp [visit, Node.children]
    | seq pos head nodes =>
      have inner : ∀ c ∈ nodes, v.Tours again c := below
      rw [visit, visitAll_eq_of_tours inner _ place 0]
      simp [Node.children]
    | owner pos head block =>
      rw [visit, visitOption_eq_of_tours (fun c hc => below c (Option.mem_toList.2 hc)) _ place 0]
      simp [Node.children]
    | fork pos head main alternate =>
      have inMain : ∀ c ∈ main, v.Tours again c := fun c hc =>
        below c (List.mem_append_left _ (Option.mem_toList.2 hc))
      have inAlternate : ∀ c ∈ alternate, v.Tours again c := fun c hc =>
        below c (List.mem_append_right _ (Option.mem_toList.2 hc))
      rw [visit, visitOption_eq_of_tours inMain _ place 0,
        visitOption_eq_of_tours inAlternate _ place (0 + main.toList.length), Node.children,
        Node.tourAll_append]
      simp
    | inclusion pos file block =>
      rw [visit, visitFile_eq_of_tours (Node.isWellFormed_inclusion.1 wf).2.1
        (fun c hc => below c (Option.mem_toList.2 hc)) _ place]
      simp [Node.children]
    | extension pos file =>
      rw [visit, visitFile_eq_of_tours (Node.isWellFormed_extension.1 wf).2
        (fun c hc => below c (Option.mem_toList.2 hc)) _ place]
      simp [Node.children]
    | rawInclusion pos file filters => simp [visit, Node.children]
    | fileReference pos path fullPath ast => simp [visit, Node.children]

/-- A traversal with hooks that keep every node calls them at the moments of a tour, for the kinds that
have hooks, and returns the tree. A tour enters the nodes in the order of the walk, which is also the
order in which a stack yields them, leaves children before their parents, names the direct parents, and
enters and leaves the node at every place once, with all that is below it in between. -/
theorem tour_of_traverse (keeps : v.Keeps) {root : Node} (wf : root.isWellFormed = true) :
    v.traverse root = (do v.callAll (root.tour.filter v.isHeard); return root) ∧
      root.IsTour root.tour ∧ Node.unstack [root] = root.walk := by
  refine ⟨?_, root.isTour_tour, by simp [Node.unstack_eq_flatMap]⟩
  rw [traverse, traverseWithin, keeps.tours wf none [], callAll_filter_isHeard, Node.tour]
  simp

end Visitor

theorem Run.lawfulMonad (ρ : Type) : LawfulMonad (Run ρ) := by
  refine LawfulMonad.mk' (Run ρ) (fun x => ?_) Run.pure_bind Run.bind_assoc
  show Run.bind x Run.pure = x
  obtain ⟨result, records⟩ := x
  cases result <;> simp [Run.bind, Run.pure]

theorem Rule.keeps_visitor_nil (kinds : List String) (onEnter onLeave : Bool) :
    (visitor [] kinds onEnter onLeave).Keeps := by
  have keeps (phase : Phase) (n : Node) (parent : Option Node) :
      hook [] phase n parent = (fun _ => Verdict.keep) <$> hook [] phase n parent := rfl
  intro n h called parent
  unfold visitor at called
  split at called
  · cases onEnter <;> cases onLeave <;> simp at called
    all_goals rcases called with rfl | rfl
    all_goals exact keeps _ n parent
  · simp at called

def branchingPage : Node :=
  .block {} [.leaf {} (.text (.str "a")), .leaf {} (.text (.str "a")),
    .fork {} (.conditional (.str "ok")) (some (.emptyBlock))
      (some (.block {} [.leaf {} (.text (.str "no"))])),
    .inclusion {} (some (.fileReference {} (.str "part.pug") .null
      (some (.block {} [.leaf {} (.text (.str "part"))])))) none]

theorem tour_branchingPage :
    branchingPage.isWellFormed = true ∧
      ((Rule.visitor [] ["Text"] true true).traverse branchingPage =
        (do (Rule.visitor [] ["Text"] true true).callAll
              (branchingPage.tour.filter (Rule.visitor [] ["Text"] true true).isHeard)
            return branchingPage)) ∧
      branchingPage.IsTour branchingPage.tour := by
  have lawful := Run.lawfulMonad HookCall
  have wf : branchingPage.isWellFormed = true := by decide +kernel
  obtain ⟨run, tour, -⟩ := Visitor.tour_of_traverse (Rule.keeps_visitor_nil ["Text"] true true) wf
  exact ⟨wf, run, tour⟩

end PugComponents
