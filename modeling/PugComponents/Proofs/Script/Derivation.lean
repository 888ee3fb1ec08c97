import PugComponents.Proofs.Script.Spelling
import PugComponents.Proofs.Script.States

/-! Trees on stacks. Every way down a stack passes trees that the productions admit, and the states on the
way fit the symbols of the trees. So a production that has come to its end in the state on top has the
symbols of the trees that were passed. -/

namespace PugComponents.Script

namespace ParseTree

def solid (trees : List ParseTree) : List ParseTree := trees.filter fun t => !t.isComment

theorem solid_cons_of_isComment {t : ParseTree} (h : t.isComment = true) (ts : List ParseTree) :
    solid (t :: ts) = solid ts := List.filter_cons_of_neg (by simp [h])

theorem solid_cons {t : ParseTree} (h : t.isComment = false) (ts : List ParseTree) :
    solid (t :: ts) = t :: solid ts := List.filter_cons_of_pos (by simp [h])

theorem solid_append (ts us : List ParseTree) : solid (ts ++ us) = solid ts ++ solid us :=
  List.filter_append ..

/-- A tree that the productions admit: the parts of every node, comments apart, have the symbols of its
production, and the pieces are spelled as their tokens tell. -/
inductive IsDerivation (g : Tables) : ParseTree → Prop where
  | leaf {token : Nat} {text : List Char} (spelled : g.Spells token text) (gap : List Char) (start stop : Nat)
    (isComment : Bool) : IsDerivation g (leaf token gap text start stop isComment)
  | node {production : Production} {parts : List ParseTree} {start stop : Nat} {weight : Int}
    (member : production ∈ g.productions)
    (symbols : (solid parts).map symbol = production.steps.toList.map Step.symbol)
    (below : ∀ t ∈ parts, IsDerivation g t) : IsDerivation g (node production parts start stop weight)

theorem IsDerivation.mem_productions {g : Tables} {production : Production} {parts : List ParseTree}
    {start stop : Nat} {weight : Int} (h : IsDerivation g (.node production parts start stop weight)) :
    production ∈ g.productions := by
  cases h with
  | node member => exact member

end ParseTree

open ParseTree Tables

variable {g : Tables} {start : Nat}

/-- A tree leads from one state to another. A comment changes nothing. -/
def Leads (g : Tables) (s : State) (t : ParseTree) (s' : State) : Prop :=
  if t.isComment then s' = s else g.goto? s t.symbol = some s'

namespace Stacks

/-- A way to a vertex that keeps to the states. -/
structure Admits (g : Tables) (s : Stacks) (i : Nat) (l : Link) : Prop where
  below : l.below < s.size
  tree : l.tree.IsDerivation g
  leads : Leads g (s.get l.below).state l.tree (s.get i).state

structure IsSound (g : Tables) (s : Stacks) : Prop where
  settled : ∀ i < s.size, g.IsSettled (s.get i).state
  links : ∀ i < s.size, ∀ l ∈ (s.get i).links, s.Admits g i l

/-- Vertices are added, but those known keep their states. -/
structure Grows (s s' : Stacks) : Prop where
  size : s.size ≤ s'.size
  state : ∀ i < s.size, (s'.get i).state = (s.get i).state

variable {s s' s'' : Stacks}

theorem Grows.refl (s : Stacks) : s.Grows s := ⟨Nat.le_refl _, fun _ _ => rfl⟩

theorem Grows.trans (h : s.Grows s') (h' : s'.Grows s'') : s.Grows s'' where
  size := Nat.le_trans h.size h'.size
  state i hi := (h'.state i (Nat.lt_of_lt_of_le hi h.size)).trans (h.state i hi)

theorem Admits.grows {i : Nat} {l : Link} (h : s.Admits g i l) (hi : i < s.size) (grows : s.Grows s') :
    s'.Admits g i l where
  below := Nat.lt_of_lt_of_le h.below grows.size
  tree := h.tree
  leads := by
    rw [grows.state _ h.below, grows.state i hi]
    exact h.leads

section Push

theorem get_push_top (s : Stacks) (below : Nat) (state : State) (position : Nat) (tree : ParseTree) :
    (s.push below state position tree).1.get s.size =
      ⟨state, position, [⟨tree, below⟩], (s.get below).weight + tree.weight⟩ := by
  simp [push, get, size, Array.getD]

theorem grows_push (s : Stacks) (below : Nat) (state : State) (position : Nat) (tree : ParseTree) :
    s.Grows (s.push below state position tree).1 where
  size := by simp
  state i hi := by rw [get_push hi]

theorem IsSound.push (sound : s.IsSound g) {below : Nat} {state : State} {tree : ParseTree}
    (settled : g.IsSettled state) (lt : below < s.size) (derivation : tree.IsDerivation g)
    (leads : Leads g (s.get below).state tree state) (position : Nat) :
    (s.push below state position tree).1.IsSound g := by
  have grows := s.grows_push below state position tree
  have cases {i : Nat} (hi : i < (s.push below state position tree).1.size) : i < s.size ∨ i = s.size := by
    rw [size_push] at hi
    omega
  constructor
  · intro i hi
    rcases cases hi with hi | rfl
    · rw [get_push hi]
      exact sound.settled i hi
    · rw [get_push_top]
      exact settled
  · intro i hi l hl
    rcases cases hi with hi | rfl
    · rw [get_push hi] at hl
      exact (sound.links i hi l hl).grows hi grows
    · rw [get_push_top] at hl
      obtain rfl := List.mem_singleton.1 hl
      refine ⟨Nat.lt_of_lt_of_le lt grows.size, derivation, ?_⟩
      rw [get_push_top, get_push lt]
      exact leads

end Push

section Links

theorem get_modify (s : Stacks) (i : Nat) (f : Vertex → Vertex) (j : Nat) :
    (s.modify i f).get j = if i = j ∧ j < s.size then f (s.get j) else s.get j := by
  unfold modify get size
  by_cases hj : j < s.vertices.size
  · by_cases same : i = j <;> simp [Array.getD, Array.getElem_modify, hj, same]
  · simp [Array.getD, hj]

@[simp] theorem size_modify (s : Stacks) (i : Nat) (f : Vertex → Vertex) : (s.modify i f).size = s.size := by
  simp [modify, size]

theorem IsSound.modify (sound : s.IsSound g) {i : Nat} {f : Vertex → Vertex}
    (state : ∀ v, (f v).state = v.state)
    (links : i < s.size → ∀ l ∈ (f (s.get i)).links, s.Admits g i l) :
    (s.modify i f).IsSound g ∧ s.Grows (s.modify i f) := by
  have grows : s.Grows (s.modify i f) := by
    refine ⟨by simp, fun j hj => ?_⟩
    rw [get_modify]
    split
    · exact state _
    · rfl
  refine ⟨⟨fun j hj => ?_, fun j hj l hl => ?_⟩, grows⟩
  · rw [size_modify] at hj
    rw [grows.state j hj]
    exact sound.settled j hj
  · rw [size_modify] at hj
    rw [get_modify] at hl
    split at hl
    · rename_i here
      obtain ⟨rfl, -⟩ := here
      exact (links hj l hl).grows hj grows
    · exact (sound.links j hj l hl).grows hj grows

theorem IsSound.foldl_add {add : Stacks → Link → Stacks} {i : Nat} {ls : List Link}
    (step : ∀ s l, s.IsSound g → i < s.size → s.Admits g i l → (add s l).IsSound g ∧ s.Grows (add s l))
    (sound : s.IsSound g) (hi : i < s.size) (admits : ∀ l ∈ ls, s.Admits g i l) :
    (ls.foldl add s).IsSound g ∧ s.Grows (ls.foldl add s) := by
  induction ls generalizing s with
  | nil => exact ⟨sound, .refl s⟩
  | cons l ls ih =>
    rw [List.forall_mem_cons] at admits
    obtain ⟨sound', grows⟩ := step s l sound hi admits.1
    obtain ⟨sound'', grows'⟩ := ih sound' (Nat.lt_of_lt_of_le hi grows.size)
      fun l' hl' => (admits.2 l' hl').grows hi grows
    exact ⟨sound'', grows.trans grows'⟩

theorem IsSound.admits_of_state_eq (sound : s.IsSound g) {i j : Nat} (hj : j < s.size)
    (same : (s.get i).state = (s.get j).state) : ∀ l ∈ (s.get j).links, s.Admits g i l := by
  intro l hl
  obtain ⟨below, tree, leads⟩ := sound.links j hj l hl
  exact ⟨below, tree, same ▸ leads⟩

theorem IsSound.state_eq_of_same (sound : s.IsSound g) {i j : Nat} (hi : i < s.size) (hj : j < s.size)
    (same : s.same i j = true) : (s.get i).state = (s.get j).state := by
  rw [Stacks.same, Bool.and_eq_true] at same
  exact (sound.settled i hi).eq_of_same (sound.settled j hj) same.2

theorem IsSound.addLink (sound : s.IsSound g) (fuel : Nat) {i : Nat} {l : Link} (hi : i < s.size)
    (admits : s.Admits g i l) : (addLink fuel s i l).IsSound g ∧ s.Grows (addLink fuel s i l) := by
  induction fuel generalizing s i l with
  | zero => exact ⟨sound, .refl s⟩
  | succ fuel ih =>
    -- the weight of a vertex can be changed at any time
    have raises {s : Stacks} (sound : s.IsSound g) (f : Vertex → Int) :
        (s.modify i fun v => { v with weight := f v }).IsSound g ∧
          s.Grows (s.modify i fun v => { v with weight := f v }) :=
      sound.modify (fun _ => rfl) fun hi l hl => sound.links i hi l hl
    rw [Stacks.addLink]
    dsimp only
    split
    · exact ⟨sound, .refl s⟩
    · split
      · rename_i k found
        obtain ⟨lt, like, -⟩ := List.findIdx?_eq_some_iff_getElem.1 found
        have known : (s.get i).links.getD k l ∈ (s.get i).links := by simp [lt]
        have like : ((s.get i).links.getD k l).below = l.below ∨
            s.same ((s.get i).links.getD k l).below l.below = true := by
          simpa [lt] using (Bool.and_eq_true_iff.1 like).2
        split
        · split
          · refine sound.modify (fun _ => rfl) fun _ l' hl' => ?_
            rcases List.mem_or_eq_of_mem_set hl' with hl' | rfl
            · exact sound.links i hi l' hl'
            · exact admits
          · exact ⟨sound, .refl s⟩
        · rename_i ne
          have lt' := (sound.links i hi _ known).below
          have same := sound.state_eq_of_same lt' admits.below (like.resolve_left ne)
          obtain ⟨sound', grows⟩ := sound.foldl_add (fun s l hs => ih hs) lt'
            (sound.admits_of_state_eq admits.below same)
          obtain ⟨sound'', grows'⟩ := raises sound' _
          exact ⟨sound'', grows.trans grows'⟩
      · split
        · exact ⟨sound, .refl s⟩
        · obtain ⟨sound', grows⟩ := sound.modify (i := i)
            (f := fun v => { v with links := v.links ++ [l] }) (fun _ => rfl) fun _ l' hl' => by
              rcases List.mem_append.1 hl' with hl' | hl'
              · exact sound.links i hi l' hl'
              · exact List.mem_singleton.1 hl' ▸ admits
          obtain ⟨sound'', grows'⟩ := raises sound' _
          exact ⟨sound'', grows.trans grows'⟩

theorem IsSound.merge (sound : s.IsSound g) {i j : Nat} (hi : i < s.size) (hj : j < s.size)
    (same : s.same i j = true) : (s.merge i j).IsSound g ∧ s.Grows (s.merge i j) :=
  sound.foldl_add (fun s _ hs => hs.addLink (s.size + 1)) hi
    (sound.admits_of_state_eq hj (sound.state_eq_of_same hi hj same))

end Links

section Ways

/-- A way down from a vertex, with the trees that are passed, the lowest first. -/
inductive Way (s : Stacks) (top : Nat) : List ParseTree → Nat → Prop where
  | here : Way s top [] top
  | down {trees : List ParseTree} {i : Nat} {l : Link} (way : Way s top trees i)
    (link : l ∈ (s.get i).links) : Way s top (l.tree :: trees) l.below

variable {top i : Nat} {trees : List ParseTree}

theorem Way.lt_size (way : Way s top trees i) (sound : s.IsSound g) (hi : top < s.size) : i < s.size := by
  induction way with
  | here => exact hi
  | down _ link ih => exact (sound.links _ ih _ link).below

theorem Way.isDerivation (way : Way s top trees i) (sound : s.IsSound g) (hi : top < s.size) :
    ∀ t ∈ trees, t.IsDerivation g := by
  induction way with
  | here => simp
  | down way link ih =>
    exact List.forall_mem_cons.2 ⟨(sound.links _ (way.lt_size sound hi) _ link).tree, ih⟩

theorem Way.of_link {l : Link} (link : l ∈ (s.get top).links) (way : Way s l.below trees i) :
    Way s top (trees ++ [l.tree]) i := by
  induction way with
  | here => exact .down .here link
  | down _ link ih => exact .down ih link

theorem getElem?_symbols (p : Production) (n : Nat) : (p.steps.toList.map Step.symbol)[n]? = p.symbol? n := by
  simp [Production.symbol?, Production.step?]

/-- The symbols of a production up to the item on top are those up to the item on the way, and then those
of the trees passed. -/
theorem Way.symbols (indexed : g.IsIndexed start) (way : Way s top trees i) (sound : s.IsSound g)
    (hi : top < s.size) {item : Item} (member : item ∈ (s.get top).state.items)
    (le : (solid trees).length ≤ item.dot) :
    ((g.production item.production).steps.toList.map Step.symbol).take item.dot =
        ((g.production item.production).steps.toList.map Step.symbol).take
          (item.dot - (solid trees).length) ++ (solid trees).map symbol ∧
      ((solid trees).length < item.dot → ∃ j ∈ (s.get i).state.items,
        j.production = item.production ∧ j.dot = item.dot - (solid trees).length) := by
  induction way with
  | here => exact ⟨by simp [solid], fun _ => ⟨item, member, rfl, by simp [solid]⟩⟩
  | @down trees i l way link ih =>
    have lt := way.lt_size sound hi
    have admits := sound.links i lt l link
    have leads := admits.leads
    cases comment : l.tree.isComment with
    -- A comment is no step: the item is as far as it was above.
    | true =>
      rw [solid_cons_of_isComment comment] at le ⊢
      rw [Leads, if_pos comment] at leads
      rw [← leads]
      exact ih le
    | false =>
      rw [solid_cons comment] at le ⊢
      rw [Leads, comment, if_neg Bool.false_ne_true] at leads
      rw [List.length_cons] at le ⊢
      obtain ⟨symbols, under⟩ := ih (Nat.le_of_succ_le le)
      obtain ⟨j, hj, same, dot⟩ := under le
      have passes := passes_of_goto? indexed (sound.settled _ admits.below) leads hj
      obtain ⟨below, dot'⟩ : ∃ n, item.dot - (solid trees).length = n + 1 :=
        Nat.exists_eq_add_one.2 (Nat.sub_pos_of_lt le)
      have rest : item.dot - ((solid trees).length + 1) = below := by omega
      have found := passes.symbol
      rw [same, dot, dot', Nat.add_sub_cancel] at found
      refine ⟨?_, fun more => ?_⟩
      · rw [symbols, dot', rest, List.take_add_one, getElem?_symbols, found]
        simp
      · rcases passes.before with ⟨one, -⟩ | ⟨k, hk, same', dot''⟩
        · omega
        · exact ⟨k, hk, same'.trans same, by omega⟩

theorem dot_of_complete (indexed : g.IsIndexed start) {state : State} (settled : g.IsSettled state)
    {item : Item} (member : item ∈ state.items) (complete : g.next? item = none) :
    item.dot = (g.production item.production).size ∧ 0 < item.dot := by
  have ends : (g.production item.production).size ≤ item.dot := by
    simpa [next?, Production.symbol?, Production.step?, Production.size] using complete
  rcases settled.passed item member with ⟨zero, isWhole⟩ | ⟨pos, passed⟩
  · have one := congrArg List.length indexed.symbols_whole
    rw [isWhole, zero] at ends
    simp only [Production.size, List.length_map, Array.length_toList, List.length_singleton] at one ends
    omega
  · have lt : item.dot - 1 < (g.production item.production).size := by
      simpa [Production.symbol?, Production.step?, Production.size] using passed
    exact ⟨by omega, pos⟩

/-- A production that is complete on top has the symbols of the trees on a way of its length. -/
theorem Way.symbols_of_complete (indexed : g.IsIndexed start) (way : Way s top trees i)
    (sound : s.IsSound g) (hi : top < s.size) {item : Item} (member : item ∈ (s.get top).state.items)
    (complete : g.next? item = none) (length : (solid trees).length = (g.production item.production).size) :
    g.production item.production ∈ g.productions ∧
      (solid trees).map symbol = (g.production item.production).steps.toList.map Step.symbol := by
  obtain ⟨dot, pos⟩ := dot_of_complete indexed (sound.settled top hi) member complete
  constructor
  · by_cases lt : item.production < g.productions.size
    · simp [production, Array.getD, lt]
    · rw [dot] at pos
      simp [production, Array.getD, lt, Production.size, default] at pos
  · have symbols := (way.symbols indexed sound hi member (by omega)).1
    rw [dot, length, Nat.sub_self, List.take_zero, List.nil_append] at symbols
    rw [← symbols, List.take_of_length_le (by simp [Production.size])]

theorem Way.solid_of_whole (indexed : g.IsIndexed start) (way : Way s top trees i) (sound : s.IsSound g)
    (hi : top < s.size) {item : Item} (member : item ∈ (s.get top).state.items)
    (isWhole : item.production = whole) (complete : g.next? item = none) :
    solid trees = [] ∧ item ∈ (s.get i).state.items ∨
      (∃ t, solid trees = [t] ∧ t.symbol = .phrase start) ∧ ∃ j ∈ (s.get i).state.items, j.dot = 0 := by
  have dot : item.dot = 1 := by
    rw [(dot_of_complete indexed (sound.settled top hi) member complete).1, isWhole]
    simpa [Production.size] using congrArg List.length indexed.symbols_whole
  induction way with
  | here => exact .inl ⟨rfl, member⟩
  | @down trees i l way link ih =>
    have lt := way.lt_size sound hi
    have admits := sound.links i lt l link
    have leads := admits.leads
    cases comment : l.tree.isComment with
    | true =>
      rw [Leads, if_pos comment] at leads
      rw [solid_cons_of_isComment comment, ← leads]
      exact ih
    | false =>
      rw [Leads, comment, if_neg Bool.false_ne_true] at leads
      have passes {j : Item} (hj : j ∈ (s.get i).state.items) :=
        passes_of_goto? indexed (sound.settled _ admits.below) leads hj
      rcases ih with ⟨none, member⟩ | ⟨-, j, hj, zero⟩
      · have passes := passes member
        have symbol : some l.tree.symbol = some (.phrase start) := by
          rw [← passes.symbol, dot, isWhole, ← getElem?_symbols, indexed.symbols_whole]
          rfl
        refine .inr ⟨⟨l.tree, by rw [solid_cons comment, none], Option.some.inj symbol⟩, ?_⟩
        rcases passes.before with ⟨-, notWhole⟩ | ⟨k, hk, -, zero⟩
        · exact absurd isWhole notWhole
        · exact ⟨k, hk, by omega⟩
      · exact absurd (passes hj).pos (by omega)

/-- A path on the way down from a vertex: it has passed as many steps as are not missing. -/
def IsPath (s : Stacks) (top steps : Nat) (p : Path) : Prop :=
  Way s top p.trees p.vertex ∧ (solid p.trees).length + p.missing = steps

theorem IsPath.extend {steps : Nat} {p p' : Path} (path : s.IsPath top steps p) (pos : 0 < p.missing)
    (h : p' ∈ s.extend p) : s.IsPath top steps p' := by
  obtain ⟨l, link, rfl⟩ := List.mem_map.1 h
  refine ⟨path.1.down link, ?_⟩
  have count := path.2
  cases comment : l.tree.isComment with
  | true => simpa [solid_cons_of_isComment comment] using count
  | false =>
    have one : p.missing - 1 + 1 = p.missing := Nat.sub_add_cancel pos
    simp only [solid_cons comment, List.length_cons, Bool.false_eq_true, if_false]
    omega

theorem isPath_of_mem_complete {steps : Nat} (fuel : Nat) {paths : List Path}
    (all : ∀ p ∈ paths, s.IsPath top steps p) :
    ∀ p ∈ s.complete fuel paths, s.IsPath top steps p ∧ p.missing = 0 := by
  induction fuel generalizing paths with
  | zero => simp [complete]
  | succ fuel ih =>
    intro p hp
    rw [complete] at hp
    dsimp only at hp
    split at hp
    · cases hp
    · rcases List.mem_append.1 hp with hp | hp
      · obtain ⟨hp, missing⟩ := List.mem_filter.1 hp
        exact ⟨all p hp, by simpa using missing⟩
      · refine ih (fun p' hp' => ?_) p hp
        have inside : ∃ ps ∈ (paths.filter fun p => decide (0 < p.missing)).map s.extend, p' ∈ ps := by
          rcases List.mem_append.1 (List.mem_of_mem_take hp') with hp' | hp'
          · obtain ⟨ps, hps, head⟩ := List.mem_filterMap.1 hp'
            exact ⟨ps, hps, List.mem_of_mem_head? head⟩
          · obtain ⟨ps, hps, tail⟩ := List.mem_flatMap.1 hp'
            exact ⟨ps, hps, List.mem_of_mem_tail tail⟩
        obtain ⟨ps, hps, hp'⟩ := inside
        obtain ⟨q, hq, rfl⟩ := List.mem_map.1 hps
        obtain ⟨hq, pos⟩ := List.mem_filter.1 hq
        exact (all q hq).extend (by simpa using pos) hp'

theorem way_of_mem_pop {steps : Nat} {ways : List (List ParseTree)} (h : (i, ways) ∈ s.pop top steps)
    (member : trees ∈ ways) : Way s top trees i ∧ (solid trees).length = steps := by
  obtain ⟨j, -, same⟩ := List.mem_map.1 h
  obtain ⟨rfl, rfl⟩ := Prod.mk.inj same
  obtain ⟨p, hp, rfl⟩ := List.mem_map.1 member
  obtain ⟨hp, vertex⟩ := List.mem_filter.1 hp
  have start : ∀ p ∈ [(⟨top, [], steps⟩ : Path)], s.IsPath top steps p := by
    simp [IsPath, solid, Way.here]
  obtain ⟨path, missing⟩ := isPath_of_mem_complete _ start p hp
  obtain rfl : p.vertex = j := by simpa using vertex
  exact ⟨path.1, by rw [← path.2, missing, Nat.add_zero]⟩

theorem exists_mem_of_mem_pop {steps : Nat} {ways : List (List ParseTree)}
    (h : (i, ways) ∈ s.pop top steps) : ∃ trees, trees ∈ ways := by
  obtain ⟨j, hj, same⟩ := List.mem_map.1 h
  obtain ⟨rfl, rfl⟩ := Prod.mk.inj same
  obtain ⟨p, hp, rfl⟩ := List.mem_map.1 (List.mem_eraseDups.1 hj)
  exact ⟨p.trees, List.mem_map_of_mem (List.mem_filter.2 ⟨hp, by simp⟩)⟩

theorem way_of_mem_toBottom (fuel : Nat) (h : trees ∈ s.toBottom fuel top) : ∃ i, Way s top trees i := by
  induction fuel generalizing top trees with
  | zero => cases h
  | succ fuel ih =>
    rw [toBottom] at h
    split at h
    · obtain rfl := List.mem_singleton.1 h
      exact ⟨top, .here⟩
    · obtain ⟨l, link, h⟩ := List.mem_flatMap.1 h
      obtain ⟨rest, hrest, rfl⟩ := List.mem_map.1 h
      obtain ⟨i, way⟩ := ih hrest
      exact ⟨i, way.of_link link⟩

end Ways

end Stacks

end PugComponents.Script
