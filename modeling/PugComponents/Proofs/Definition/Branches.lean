import PugComponents.Proofs.Definition.Slots

/-! Slots in branches of which only one is rendered. Two routes part at a fork, or at a switch where they
enter arms with different expressions. The markers that they put at a fork differ, and none holds the
separator, so the labels differ as well. The marker of an arm holds its expression as it is written:
there the labels can only agree if one expression goes on with the separator where the other ends. -/

namespace PugComponents

namespace Text

abbrev Unseparated (s : String) : Prop := '>' ∉ s.toList

def GoesOn (s t : String) : Prop := ∃ more, t = s ++ ">" ++ more

/-- What follows a marker in a label: nothing, or a separator first. -/
def EndsMarker (cs : List Char) : Prop := ∀ c ∈ cs.head?, c = '>'

theorem exists_join_cons (s : String) (rest : List String) :
    ∃ cs, EndsMarker cs ∧ (join ">" (s :: rest)).toList = s.toList ++ cs := by
  cases rest with
  | nil => exact ⟨[], by simp [EndsMarker], by simp [join]⟩
  | cons t rest =>
    refine ⟨'>' :: (join ">" (t :: rest)).toList, by simp [EndsMarker], ?_⟩
    simp [join, String.toList_append]

theorem join_append_inj (front : List String) {s t : String} {rest others : List String} :
    join ">" (front ++ s :: rest) = join ">" (front ++ t :: others) ↔
      join ">" (s :: rest) = join ">" (t :: others) := by
  induction front with
  | nil => rfl
  | cons m front ih =>
    rw [← ih]
    cases front with
    | nil => simp [join, ← String.toList_inj, String.toList_append]
    | cons => simp [join, ← String.toList_inj, String.toList_append]

theorem eq_of_join_cons {s t : String} {rest others : List String} (whole : Unseparated s)
    (whole' : Unseparated t) (h : join ">" (s :: rest) = join ">" (t :: others)) : s = t := by
  have first : ∀ {u : String} (us : List String), Unseparated u →
      (join ">" (u :: us)).toList.takeWhile (· != '>') = u.toList := by
    intro u us whole
    obtain ⟨cs, ends, eq⟩ := exists_join_cons u us
    have passes : ∀ c ∈ u.toList, (c != '>') = true := by
      intro c hc
      simp only [bne_iff_ne, ne_eq]
      rintro rfl
      exact whole hc
    have stops : cs.takeWhile (· != '>') = [] := by
      cases cs with
      | nil => rfl
      | cons c cs => simp [ends c rfl]
    rw [eq, List.takeWhile_append_of_pos passes, stops, List.append_nil]
  rw [← String.toList_inj, ← first rest whole, ← first others whole', h]

theorem goesOn_of_join_cons {word s t : String} {rest others : List String} (differ : s ≠ t)
    (h : join ">" ((word ++ s) :: rest) = join ">" ((word ++ t) :: others)) :
    GoesOn s t ∨ GoesOn t s := by
  obtain ⟨cs, ends, eq⟩ := exists_join_cons (word ++ s) rest
  obtain ⟨ds, ends', eq'⟩ := exists_join_cons (word ++ t) others
  have longer : ∀ {u v : String} {more tail : List Char}, u ≠ v → v.toList = u.toList ++ more →
      EndsMarker (more ++ tail) → GoesOn u v := by
    intro u v more tail differ eq ends
    cases more with
    | nil => exact absurd (String.toList_inj.1 (by simpa using eq.symm)) differ
    | cons c more =>
      obtain rfl : c = '>' := ends c rfl
      exact ⟨String.ofList more, by simp [← String.toList_inj, String.toList_append, eq]⟩
  have same : s.toList ++ cs = t.toList ++ ds := by
    rw [h, eq', String.toList_append, String.toList_append, List.append_assoc,
      List.append_assoc] at eq
    exact (List.append_cancel_left eq).symm
  rcases List.append_eq_append_iff.1 same with ⟨more, longer', rfl⟩ | ⟨more, longer', rfl⟩
  · exact .inl (longer differ longer' ends)
  · exact .inr (longer differ.symm longer' ends')

theorem unseparated_append {s t : String} (first : Unseparated s) (second : Unseparated t) :
    Unseparated (s ++ t) := by
  simp [Unseparated, String.toList_append, first, second]

theorem unseparated_toString (n : Nat) : Unseparated (toString n) := by
  intro member
  rw [Nat.toString_eq_repr, Nat.toList_repr] at member
  have digit := Nat.isDigit_of_mem_toDigits (by decide) (by decide) member
  revert digit
  decide

theorem toList_toString_injective {m n : Nat} (h : (toString m).toList = (toString n).toList) :
    m = n := by
  rw [Nat.toString_eq_repr, Nat.toString_eq_repr, Nat.toList_repr, Nat.toList_repr] at h
  simpa using congrArg (fun digits => Nat.ofDigitChars 10 digits 0) h

end Text

namespace Node

open Text

/-- A block, or a node that a file stands for: what may stand between a switch and its arms. -/
def isGroup : Node → Bool
  | .seq .. | .inclusion .. | .extension .. => true
  | _ => false

/-- Two routes that go together up to a fork and enter different branches there. -/
inductive Forked : Route → Route → Prop where
  | mk (common : Route) (pos : Position) (head : Fork) (main alternate : Option Node) {b b' : Branch}
    (differ : b ≠ b') (route route' : Route) :
    Forked (common ++ (.fork pos head main alternate, b) :: route)
      (common ++ (.fork pos head main alternate, b') :: route')

/-- Two routes that go together up to a switch and enter arms with these expressions there. -/
inductive Armed (expr expr' : String) : Route → Route → Prop where
  | mk (common : Route) (switch pos pos' : Position) (test debug debug' : Json)
    (arms block block' : Option Node) {between between' : Route}
    (grouped : ∀ step ∈ between, step.1.isGroup = true)
    (grouped' : ∀ step ∈ between', step.1.isGroup = true) (route route' : Route) :
    Armed expr expr'
      (common ++ (.owner switch (.caseOf test) arms, .below) ::
        (between ++ (.owner pos (.whenArm (.str expr) debug) block, .below) :: route))
      (common ++ (.owner switch (.caseOf test) arms, .below) ::
        (between' ++ (.owner pos' (.whenArm (.str expr') debug') block', .below) :: route'))

/-- Two routes into branches of which only one is rendered: different branches of a test, of a chain of
tests or of a loop, or arms of a switch with different expressions. -/
def Exclusive (route route' : Route) : Prop :=
  Forked route route' ∨ ∃ expr expr', expr ≠ expr' ∧ Armed expr expr' route route'

/-- Two routes into arms of a switch that a label need not tell apart: one expression goes on with a
separator where the other ends. -/
def Blurred (route route' : Route) : Prop :=
  ∃ expr expr', Armed expr expr' route route' ∧ GoesOn expr expr'

theorem Armed.symm {expr expr' : String} {route route' : Route} (h : Armed expr expr' route route') :
    Armed expr' expr route' route := by
  cases h with
  | mk common switch pos pos' test debug debug' arms block block' grouped grouped' route route' =>
    exact .mk common switch pos' pos test debug' debug arms block' block grouped' grouped route' route

def armText? : Node → Option String
  | .owner _ (.whenArm (.str expr) _) _ => some expr
  | _ => none

def armTexts (route : Route) : List String := route.filterMap fun step => armText? step.1

theorem mem_armTexts_of_armed {expr expr' : String} {route route' : Route}
    (h : Armed expr expr' route route') : expr ∈ armTexts route ∧ expr' ∈ armTexts route' := by
  cases h with
  | mk => constructor <;> simp [armTexts, armText?]

section Markers

/-- A route into a fork goes on in one of its branches. -/
def Branching (route : Route) : Prop :=
  ∀ pos head main alternate b, (fork pos head main alternate, b) ∈ route → b ≠ .below

theorem branching_of_mem_routesUntil {stop : Node → Bool} {n m : Node} {route : Route}
    (reached : (route, m) ∈ n.routesUntil stop) : Branching route := by
  induction route generalizing n with
  | nil => intro _ _ _ _ _ member; cases member
  | cons step route ih =>
    rcases mem_routesUntil_step.1 reached with ⟨⟨⟩, -⟩ | ⟨-, b, c, rest, branch, reached, eq⟩
    obtain ⟨rfl, rfl⟩ := List.cons.inj eq
    intro pos head main alternate b' member
    rcases List.mem_cons.1 member with same | member
    · obtain ⟨rfl, rfl⟩ := Prod.mk.inj same
      rintro rfl
      simp [branches] at branch
    · exact ih reached pos head main alternate b' member

theorem exists_markers_append (common : Route) (n : Node) (b b' : Branch) (route route' : Route)
    (index : Nat) : ∃ front index',
      markers index (common ++ (n, b) :: route) = front ++ markers index' ((n, b) :: route) ∧
      markers index (common ++ (n, b') :: route') = front ++ markers index' ((n, b') :: route') := by
  induction common generalizing index with
  | nil => exact ⟨[], index, rfl, rfl⟩
  | cons step common ih =>
    have alike : goesOnChain step (common ++ (n, b) :: route) =
        goesOnChain step (common ++ (n, b') :: route') := by
      obtain ⟨m, branch⟩ := step
      cases branch <;> cases common <;> rfl
    have step_eq : ∀ rest, markers index (step :: rest) =
        if goesOnChain step rest then markers (index + 1) rest
        else (marker? index step).toList ++ markers 0 rest := fun _ => rfl
    simp only [List.cons_append, step_eq, ← alike]
    cases goesOnChain step (common ++ (n, b) :: route) with
    | true => exact ih (index + 1)
    | false =>
      obtain ⟨front, index', first, second⟩ := ih 0
      refine ⟨(marker? index step).toList ++ front, index', ?_, ?_⟩
      · rw [if_neg Bool.false_ne_true, first, List.append_assoc]
      · rw [if_neg Bool.false_ne_true, second, List.append_assoc]

/-- In the second branch of a test stands the next test of the chain, which is counted, or the last
branch of the chain. -/
theorem exists_markers_alternate {n : Node} (first : n.isConditional = true) {route : Route}
    (branching : Branching route) (index : Nat) : ∃ m rest,
      markers index ((n, .alternate) :: route) = m :: rest ∧
        (m = "else" ∨ ∃ i, index < i ∧ m = "else-if:" ++ toString i) := by
  have last : ∀ {m : Node} (i : Nat), m.isConditional = true →
      marker? i (m, .alternate) = some "else" := by
    intro m i isConditional
    cases m with
    | fork pos head main alternate => cases head <;> first | rfl | cases isConditional
    | _ => cases isConditional
  induction route generalizing n index with
  | nil => exact ⟨"else", [], by simp [markers, goesOnChain, last index first], .inl rfl⟩
  | cons step route ih =>
    obtain ⟨next, b⟩ := step
    cases isConditional : next.isConditional with
    | false =>
      refine ⟨"else", markers 0 ((next, b) :: route), ?_, .inl rfl⟩
      rw [markers]
      simp [goesOnChain, isConditional, last index first]
    | true =>
      have goesOn : goesOnChain (n, .alternate) ((next, b) :: route) = true := by
        simp [goesOnChain, first, isConditional]
      have deeper : Branching route :=
        fun pos head main alternate b member =>
          branching pos head main alternate b (List.mem_cons_of_mem _ member)
      rw [markers, goesOn, if_pos rfl]
      obtain ⟨pos, test, main, alternate, rfl⟩ :
          ∃ pos test main alternate, next = fork pos (.conditional test) main alternate := by
        cases next with
        | fork pos head main alternate =>
          cases head with
          | conditional test => exact ⟨pos, test, main, alternate, rfl⟩
          | each => cases isConditional
        | _ => cases isConditional
      cases b with
      | below => exact absurd rfl (branching _ _ _ _ _ (List.mem_cons_self ..))
      | main =>
        exact ⟨"else-if:" ++ toString (index + 1), markers 0 route, rfl,
          .inr ⟨index + 1, by omega, rfl⟩⟩
      -- The chain goes on behind that test, with one more test counted.
      | alternate =>
        obtain ⟨m, rest, eq, kind⟩ := ih isConditional deeper (index + 1)
        refine ⟨m, rest, eq, kind.imp_right ?_⟩
        rintro ⟨i, later, rfl⟩
        exact ⟨i, by omega, rfl⟩

theorem markers_grouped {between : Route} (grouped : ∀ step ∈ between, step.1.isGroup = true)
    (pos : Position) (head : Owner) (block : Option Node) (route : Route) (index : Nat) :
    markers index (between ++ (owner pos head block, .below) :: route) =
      ownerLabels head ++ markers 0 route := by
  induction between generalizing index with
  | nil => simp [markers, goesOnChain, marker?_owner]
  | cons step between ih =>
    obtain ⟨n, b⟩ := step
    rw [List.forall_mem_cons] at grouped
    have silent : marker? index (n, b) = none ∧ n.isConditional = false := by
      cases n with
      | seq | inclusion | extension => exact ⟨rfl, rfl⟩
      | _ => cases grouped.1
    have stays : goesOnChain (n, b) (between ++ (owner pos head block, .below) :: route) = false := by
      cases b <;> cases between <;> simp [goesOnChain, silent.2]
    rw [List.cons_append, markers, stays, if_neg Bool.false_ne_true, silent.1, ih grouped.2]
    rfl

end Markers

section Labels

variable {route route' : Route}

theorem exists_markers_of_branches {pos : Position} {head : Fork} {main alternate : Option Node}
    (branching : Branching route') (index : Nat) : ∃ m m' rest rest',
      markers index ((fork pos head main alternate, .main) :: route) = m :: rest ∧
      markers index ((fork pos head main alternate, .alternate) :: route') = m' :: rest' ∧
      Unseparated m ∧ Unseparated m' ∧ m ≠ m' := by
  cases head with
  | each obj val key =>
    refine ⟨"each", "each-else", markers 0 route, markers 0 route', rfl, ?_, by decide, by decide,
      by decide⟩
    cases route' <;> rfl
  | conditional test =>
    obtain ⟨m', rest', eq, kind⟩ := exists_markers_alternate (n := fork pos (.conditional test) main
      alternate) rfl branching index
    have numbered : ∀ i : Nat, Unseparated ("else-if:" ++ toString i) :=
      fun i => unseparated_append (by decide) (unseparated_toString i)
    refine ⟨if index = 0 then "if" else "else-if:" ++ toString index, m', markers 0 route, rest', rfl, eq,
      ?_, ?_, ?_⟩
    · split
      · decide
      · exact numbered index
    · rcases kind with rfl | ⟨i, -, rfl⟩
      · decide
      · exact numbered i
    · intro same
      have letters := congrArg String.toList same
      rcases kind with rfl | ⟨i, later, rfl⟩
      · split at letters <;> simp [String.toList_append] at letters
      · split at letters
        · simp [String.toList_append] at letters
        · simp only [String.toList_append, List.append_cancel_left_eq] at letters
          exact absurd (toList_toString_injective letters) (by omega)

theorem pathLabel_ne_of_forked (h : Forked route route') (branching : Branching route)
    (branching' : Branching route') : pathLabel route ≠ pathLabel route' := by
  cases h with
  | @mk common pos head main alternate b b' differ route route' =>
    have below : ∀ {b : Branch} {rest : Route},
        Branching (common ++ (fork pos head main alternate, b) :: rest) →
        b ≠ .below ∧ Branching rest := by
      intro b rest branching
      refine ⟨branching pos head main alternate b (by simp), fun pos head main alternate b member => ?_⟩
      exact branching pos head main alternate b (by simp [member])
    -- The branches come in either order, and it is the second one in which the chain goes on.
    have ordered : ∀ rest rest' : Route, Branching rest' →
        pathLabel (common ++ (fork pos head main alternate, .main) :: rest) ≠
          pathLabel (common ++ (fork pos head main alternate, .alternate) :: rest') := by
      intro rest rest' branching same
      obtain ⟨front, index, eq, eq'⟩ := exists_markers_append common
        (fork pos head main alternate) .main .alternate rest rest' 0
      obtain ⟨m, m', ms, ms', first, second, whole, whole', differ⟩ :=
        @exists_markers_of_branches rest rest' pos head main alternate branching index
      rw [pathLabel, pathLabel, eq, eq', first, second, join_append_inj] at same
      exact differ (eq_of_join_cons whole whole' same)
    have here := below branching
    have there := below branching'
    cases b <;> cases b' <;> first
      | exact absurd rfl differ
      | exact absurd rfl here.1
      | exact absurd rfl there.1
      | exact ordered _ _ there.2
      | exact (ordered _ _ here.2).symm

/-- Slots in different arms of a switch only have the same label if one expression goes on with a
separator where the other ends. -/
theorem goesOn_of_armed {expr expr' : String} (h : Armed expr expr' route route')
    (differ : expr ≠ expr') (same : pathLabel route = pathLabel route') :
    GoesOn expr expr' ∨ GoesOn expr' expr := by
  cases h with
  | @mk common switch pos pos' test debug debug' arms block block' between between' grouped grouped'
      route route' =>
    obtain ⟨front, index, eq, eq'⟩ := exists_markers_append common (owner switch (.caseOf test) arms)
      .below .below (between ++ (owner pos (.whenArm (.str expr) debug) block, .below) :: route)
      (between' ++ (owner pos' (.whenArm (.str expr') debug') block', .below) :: route') 0
    have below : ∀ {between : Route} (grouped : ∀ step ∈ between, step.1.isGroup = true)
        (pos : Position) (expr : String) (debug : Json) (block : Option Node) (route : Route),
        markers index ((owner switch (.caseOf test) arms, .below) ::
          (between ++ (owner pos (.whenArm (.str expr) debug) block, .below) :: route)) =
          ["case"] ++ ("when:" ++ expr) :: markers 0 route := by
      intro between grouped pos expr debug block route
      have arm := markers_grouped grouped pos (.whenArm (.str expr) debug) block route 0
      rw [markers, arm]
      rfl
    rw [pathLabel, pathLabel, eq, eq', below grouped, below grouped', ← List.append_assoc,
      ← List.append_assoc, join_append_inj] at same
    exact goesOn_of_join_cons differ same

/-- Slots in branches of which only one is rendered have different labels, unless a label need not tell
the arms apart in which they stand. -/
theorem blurred_of_exclusive (h : Exclusive route route') (branching : Branching route)
    (branching' : Branching route') (same : pathLabel route = pathLabel route') :
    Blurred route route' ∨ Blurred route' route := by
  rcases h with forked | ⟨expr, expr', differ, armed⟩
  · exact absurd same (pathLabel_ne_of_forked forked branching branching')
  · rcases goesOn_of_armed armed differ same with goesOn | goesOn
    · exact .inl ⟨expr, expr', armed, goesOn⟩
    · exact .inr ⟨expr', expr, armed.symm, goesOn⟩

end Labels

end Node

open Node Text

namespace Definition

variable {r : Reporter} {body : Node}

theorem exists_clashing_routes (wf : body.isWellFormed = true)
    (named : ∀ m ∈ body.walkUntil isCall, m.isSlot = true → ∃ name, m.slotName r = .ok name)
    {failure : Failure} (failed : collectSlots r [] (body.placeholders []) = .error failure) :
    ∃ f g first later, [f, g].Sublist body.slotRoutes ∧ Declares r f first ∧ Declares r g later ∧
      key first = key later ∧ failure = clash r first later := by
  obtain ⟨slots, declared⟩ := exists_declared named
  have repeats : ¬(slots.map key).Nodup := by
    intro nodup
    rw [collectSlots_of_nodup wf declared nodup] at failed
    cases failed
  obtain ⟨before, first, later, after, rfl, -, member, same, run⟩ :=
    exists_clash_of_repeats wf declared repeats
  rw [run] at failed
  obtain ⟨front, back, split, early, late⟩ := exists_split_of_forall₂ declared.flip
  obtain ⟨g, others, rfl⟩ : ∃ g others, back = g :: others := by
    cases late with
    | cons _ _ => exact ⟨_, _, rfl⟩
  obtain ⟨f, hf, declares⟩ := exists_of_forall₂_left early member
  have declares' : Declares r g later := by
    cases late with
    | cons here _ => exact here
  refine ⟨f, g, first, later, ?_, declares, declares', same, (Except.error.inj failed).symm⟩
  rw [split]
  exact (List.singleton_sublist.2 hf).append (List.singleton_sublist.2 (List.mem_cons_self ..))

/-- A slot may stand in several branches of which only one is rendered: its name is then no reason to
refuse the body, unless a label need not tell apart two arms in which it stands. Only such arms are
ever reported. -/
theorem exclusion_of_slotRoutes (wf : body.isWellFormed = true)
    (named : ∀ m ∈ body.walkUntil isCall, m.isSlot = true → ∃ name, m.slotName r = .ok name)
    (exclusive : body.slotRoutes.Pairwise fun f g =>
      f.2.slotName r = g.2.slotName r → Exclusive f.1 g.1) :
    ((∀ f ∈ body.slotRoutes, ∀ g ∈ body.slotRoutes,
        f.2.slotName r = g.2.slotName r → ¬Blurred f.1 g.1) →
      ∃ slots, List.Forall₂ (Declares r) body.slotRoutes slots ∧
        collectSlots r [] (body.placeholders []) = .ok slots) ∧
    ∀ failure, collectSlots r [] (body.placeholders []) = .error failure →
      ∃ f ∈ body.slotRoutes, ∃ g ∈ body.slotRoutes, ∃ first later, Declares r f first ∧
        Declares r g later ∧ first.name = later.name ∧ failure = clash r first later ∧
        (Blurred f.1 g.1 ∨ Blurred g.1 f.1) := by
  have branching : ∀ f ∈ body.slotRoutes, Branching f.1 :=
    fun f hf => branching_of_mem_routesUntil (mem_slotRoutes.1 hf).1
  have reported : ∀ failure, collectSlots r [] (body.placeholders []) = .error failure →
      ∃ f ∈ body.slotRoutes, ∃ g ∈ body.slotRoutes, ∃ first later, Declares r f first ∧
        Declares r g later ∧ first.name = later.name ∧ failure = clash r first later ∧
        (Blurred f.1 g.1 ∨ Blurred g.1 f.1) := by
    intro failure failed
    obtain ⟨f, g, first, later, pair, declares, declares', same, report⟩ :=
      exists_clashing_routes wf named failed
    obtain ⟨name, path⟩ := Prod.mk.inj same
    have hf : f ∈ body.slotRoutes := pair.subset (by simp)
    have hg : g ∈ body.slotRoutes := pair.subset (by simp)
    have parted := List.pairwise_pair.1 (exclusive.sublist pair)
    have sameName : f.2.slotName r = g.2.slotName r := by rw [declares.name, declares'.name, name]
    have sameLabel : pathLabel f.1 = pathLabel g.1 := by rw [← declares.path, ← declares'.path, path]
    exact ⟨f, hf, g, hg, first, later, declares, declares', name, report,
      blurred_of_exclusive (parted sameName) (branching f hf) (branching g hg) sameLabel⟩
  refine ⟨fun apart => ?_, reported⟩
  cases run : collectSlots r [] (body.placeholders []) with
  | ok slots => exact ⟨slots, declares_of_collected wf run, rfl⟩
  | error failure =>
    obtain ⟨f, hf, g, hg, first, later, declares, declares', name, -, blurred⟩ := reported failure run
    have sameName : f.2.slotName r = g.2.slotName r := by rw [declares.name, declares'.name, name]
    rcases blurred with blurred | blurred
    · exact absurd blurred (apart f hf g hg sameName)
    · exact absurd blurred (apart g hg f hf sameName.symm)

def switchArm (expr : String) (node : Node) : Node :=
  .owner {} (.whenArm (.str expr) (.bool false)) (some (block {} [node]))

def twoArms (first second : Node) : Node :=
  .owner {} (.caseOf (.str "kind")) (some (block {} [first, second]))

def armRoute (first second taken : Node) (route : Route) : Route :=
  (twoArms first second, .below) :: (block {} [first, second], .below) :: (taken, .below) :: route

theorem armed_twoArms (common : Route) {expr expr' : String} (node node' : Node) (route route' : Route) :
    Armed expr expr'
      (common ++ armRoute (switchArm expr node) (switchArm expr' node') (switchArm expr node) route)
      (common ++ armRoute (switchArm expr node) (switchArm expr' node') (switchArm expr' node')
        route') := by
  have block : ∀ step ∈ [(block {} [switchArm expr node, switchArm expr' node'], Branch.below)],
      step.1.isGroup = true := by simp [block, isGroup]
  exact .mk common {} {} {} (.str "kind") (.bool false) (.bool false) _ _ _ block block route route'

def iconSlot : Node := namedSlot "icon" []

def iconStep : Step := (block {} [iconSlot], .below)

/-- The slot in the first branch of a test, and in both arms of a switch in the other. -/
def statusArms : Node := twoArms (switchArm "'a'" iconSlot) (switchArm "'b'" iconSlot)

def statusTest : Node :=
  .fork {} (.conditional (.str "ready")) (some (block {} [iconSlot])) (some (block {} [statusArms]))

def statusBody : Node := block {} [statusTest]

def statusRoute (taken : Node) : Route :=
  [(statusBody, .below), (statusTest, .alternate), (block {} [statusArms], .below)] ++
    armRoute (switchArm "'a'" iconSlot) (switchArm "'b'" iconSlot) taken [iconStep]

theorem exclusion_statusBody :
    (statusBody.slotRoutes.Pairwise fun f g => f.2.slotName {} = g.2.slotName {} → Exclusive f.1 g.1) ∧
      ∃ slots, List.Forall₂ (Declares {}) statusBody.slotRoutes slots ∧
        collectSlots {} [] (statusBody.placeholders []) = .ok slots := by
  have fillable : statusBody.Fillable {} := by decide +kernel
  have routes : statusBody.slotRoutes =
      [([(statusBody, .below), (statusTest, .main), iconStep], iconSlot),
        (statusRoute (switchArm "'a'" iconSlot), iconSlot),
        (statusRoute (switchArm "'b'" iconSlot), iconSlot)] := rfl
  have exclusive : statusBody.slotRoutes.Pairwise fun f g =>
      f.2.slotName {} = g.2.slotName {} → Exclusive f.1 g.1 := by
    have forked : ∀ route route' : Route, Exclusive
        ((statusBody, .below) :: (statusTest, .main) :: route)
        ((statusBody, .below) :: (statusTest, .alternate) :: route') := fun route route' =>
      .inl (.mk [(statusBody, .below)] _ _ _ _ (by simp) route route')
    have armed : Exclusive (statusRoute (switchArm "'a'" iconSlot))
        (statusRoute (switchArm "'b'" iconSlot)) :=
      .inr ⟨"'a'", "'b'", by decide, armed_twoArms _ _ _ _ _⟩
    rw [routes]
    simp only [List.pairwise_cons, List.forall_mem_cons]
    exact ⟨⟨fun _ => forked _ _, fun _ => forked _ _, by simp⟩, ⟨fun _ => armed, by simp⟩, by simp⟩
  have texts : statusBody.slotRoutes.flatMap (fun f => armTexts f.1) = ["'a'", "'b'"] := rfl
  have quoted : ∀ f ∈ statusBody.slotRoutes, ∀ expr ∈ armTexts f.1, expr = "'a'" ∨ expr = "'b'" := by
    intro f hf expr member
    have listed : expr ∈ statusBody.slotRoutes.flatMap fun f => armTexts f.1 :=
      List.mem_flatMap.2 ⟨f, hf, member⟩
    simpa [texts] using listed
  refine ⟨exclusive, (exclusion_of_slotRoutes fillable.isWellFormed
    (fun m hm isSlot => fillable.named m (mem_walk_of_mem_walkUntil hm) isSlot) exclusive).1 ?_⟩
  rintro f hf g hg - ⟨expr, expr', armed, more, goesOn⟩
  obtain ⟨here, there⟩ := mem_armTexts_of_armed armed
  have letters := congrArg String.toList goesOn
  rcases quoted f hf expr here with rfl | rfl <;> rcases quoted g hg expr' there with rfl | rfl <;>
    simp [String.toList_append] at letters

def rowLoop : Node :=
  .fork {} (.each (.str "rows") (.str "row") .null) (some (block {} [iconSlot])) none

def lowArm : Node := switchArm "low" rowLoop

def lowerArm : Node := switchArm "low>each" iconSlot

def comparedBody : Node := block {} [twoArms lowArm lowerArm]

/-- The second slot is refused, although no rendering takes both arms. -/
theorem refused_comparedBody : comparedBody.isWellFormed = true ∧
    (∀ m ∈ comparedBody.walkUntil isCall, m.isSlot = true → ∃ name, m.slotName {} = .ok name) ∧
    (comparedBody.slotRoutes.Pairwise fun f g =>
      f.2.slotName {} = g.2.slotName {} → Exclusive f.1 g.1) ∧
    ∃ first later, collectSlots {} [] (comparedBody.placeholders []) = .error (clash {} first later) := by
  have fillable : comparedBody.Fillable {} := by decide +kernel
  refine ⟨fillable.isWellFormed,
    fun m hm isSlot => fillable.named m (mem_walk_of_mem_walkUntil hm) isSlot, ?_, ?_⟩
  · have routes : comparedBody.slotRoutes =
        [((comparedBody, .below) :: armRoute lowArm lowerArm lowArm
            [(block {} [rowLoop], .below), (rowLoop, .main), iconStep], iconSlot),
          ((comparedBody, .below) :: armRoute lowArm lowerArm lowerArm [iconStep], iconSlot)] := rfl
    rw [routes, List.pairwise_pair]
    exact fun _ => .inr ⟨"low", "low>each", by decide, armed_twoArms [(comparedBody, .below)] _ _ _ _⟩
  · let slot : SlotDefinition :=
      { name := "icon", content := block {} [], path := "case>when:low>each"
        location := { path := .str "case>when:low>each" } }
    exact ⟨slot, slot, rfl⟩

end Definition

end PugComponents
