import PugComponents.Proofs.Script.Derivation
import PugComponents.Proofs.Script.Lexemes
import PugComponents.Script.Readings
import Mathlib.Data.List.TakeWhile

/-! Reading keeps to the grammar. Whatever branches are followed, merged and given up, every stack holds
trees that the productions admit, and a reading that is taken as complete consists of one whole script and
comments. -/

namespace PugComponents.Script

open ParseTree Tables

variable {g : Tables} {start : Nat}

/-- A complete reading: comments apart it is a single script, or nothing at all. -/
structure IsComplete (g : Tables) (start : Nat) (trees : List ParseTree) : Prop where
  derivation : ∀ t ∈ trees, t.IsDerivation g
  single : solid trees = [] ∨ ∃ t, solid trees = [t] ∧ t.symbol = .phrase start

namespace Readings

structure IsSound (g : Tables) (start : Nat) (s : Readings) : Prop where
  graph : s.graph.IsSound g
  pos : 0 < s.graph.size
  tops : ∀ b ∈ s.branches, b.top < s.graph.size
  found : ∀ trees, s.found = some trees → IsComplete g start trees

/-- Vertices and branches are added; those known stay, and the others have the given text left. -/
structure Grows (s : Readings) (rest : List Char) (s' : Readings) : Prop where
  graph : s.graph.Grows s'.graph
  size : s.branches.size ≤ s'.branches.size
  branch : ∀ v < s.branches.size, s'.branch v = s.branch v
  added : ∀ v < s'.branches.size, s.branches.size ≤ v → (s'.branch v).rest = rest

variable {s s' s'' : Readings} {v : Nat} {rest : List Char}

theorem Grows.refl (s : Readings) (rest : List Char) : s.Grows rest s :=
  ⟨.refl _, Nat.le_refl _, fun _ _ => rfl, fun _ lt le => absurd lt (Nat.not_lt.2 le)⟩

theorem Grows.trans (h : s.Grows rest s') (h' : s'.Grows rest s'') : s.Grows rest s'' where
  graph := h.graph.trans h'.graph
  size := Nat.le_trans h.size h'.size
  branch v hv := (h'.branch v (Nat.lt_of_lt_of_le hv h.size)).trans (h.branch v hv)
  added v lt le := by
    by_cases known : v < s'.branches.size
    · rw [h'.branch v known]
      exact h.added v known le
    · exact h'.added v lt (Nat.not_lt.1 known)

theorem IsSound.top_lt (sound : s.IsSound g start) (v : Nat) : (s.branch v).top < s.graph.size := by
  unfold branch
  by_cases hv : v < s.branches.size
  · simpa [Array.getD, hv] using sound.tops _ (Array.getElem_mem hv)
  · rw [Array.getD, dif_neg hv]
    exact sound.pos

theorem Grows.top_state (grows : s.Grows rest s') (sound : s.IsSound g start) (hv : v < s.branches.size) :
    (s'.top (s'.branch v)).state = (s.top (s.branch v)).state := by
  rw [top, grows.branch v hv, grows.graph.state _ (sound.top_lt v), top]

theorem IsSound.with_graph (sound : s.IsSound g start) {graph : Stacks} (h : graph.IsSound g)
    (grows : s.graph.Grows graph) :
    ({ s with graph := graph } : Readings).IsSound g start ∧ ∀ rest,
      s.Grows rest { s with graph := graph } := by
  refine ⟨⟨h, Nat.lt_of_lt_of_le sound.pos grows.size, fun b hb => ?_, sound.found⟩, fun rest =>
    ⟨grows, Nat.le_refl _, fun _ _ => rfl, fun _ lt le => absurd lt (Nat.not_lt.2 le)⟩⟩
  exact Nat.lt_of_lt_of_le (sound.tops b hb) grows.size

section Push

theorem push_eq (s : Readings) (below : Nat) (state : State) (position : Nat) (tree : ParseTree) :
    s.push below state position tree =
      ({ s with graph := (s.graph.push below state position tree).1 }, s.graph.size) := by
  cases s
  rfl

/-- What holds after a tree was put on a stack: the new vertex has the state that was asked for. -/
structure Pushed (g : Tables) (start : Nat) (state : State) (s : Readings) (r : Readings × Nat) : Prop where
  sound : r.1.IsSound g start
  grows : ∀ rest, s.Grows rest r.1
  top_lt : r.2 < r.1.graph.size
  top : (r.1.graph.get r.2).state = state

theorem IsSound.push (sound : s.IsSound g start) {below : Nat} {state : State} {tree : ParseTree}
    (settled : g.IsSettled state) (lt : below < s.graph.size) (derivation : tree.IsDerivation g)
    (leads : Leads g (s.graph.get below).state tree state) (position : Nat) :
    Pushed g start state s (s.push below state position tree) := by
  obtain ⟨sound', grows⟩ := sound.with_graph (sound.graph.push settled lt derivation leads position)
    (s.graph.grows_push below state position tree)
  rw [push_eq]
  refine ⟨sound', grows, ?_, ?_⟩
  · simp
  · simp only [Stacks.get_push_top]

theorem Pushed.comments {state : State} {r : Readings × Nat} (pushed : Pushed g start state s r)
    (settled : g.IsSettled state) {comments : List ParseTree}
    (all : ∀ c ∈ comments, c.isComment = true ∧ c.IsDerivation g) :
    Pushed g start state s (comments.foldl (fun (s, top) c => s.push top state c.stop c) r) := by
  induction comments generalizing r with
  | nil => exact pushed
  | cons c comments ih =>
    obtain ⟨⟨isComment, derivation⟩, all⟩ := List.forall_mem_cons.1 all
    have leads : Leads g (r.1.graph.get r.2).state c state := by
      rw [Leads, if_pos isComment, pushed.top]
    have next := pushed.sound.push settled pushed.top_lt derivation leads c.stop
    have grows (rest : List Char) := (pushed.grows rest).trans (next.grows rest)
    exact ih ⟨next.sound, grows, next.top_lt, next.top⟩ all

end Push

section Phrases

theorem splitComments_append (trees : List ParseTree) :
    (splitComments trees).1 ++ (splitComments trees).2 = trees := by
  rw [splitComments, ← List.reverse_append, List.takeWhile_append_dropWhile, List.reverse_reverse]

theorem isComment_of_mem_splitComments {trees : List ParseTree} :
    ∀ c ∈ (splitComments trees).2, c.isComment = true := by
  intro c hc
  exact List.mem_takeWhile_imp (List.mem_reverse.1 hc)

structure Makes (g : Tables) (p : Production) (trees : List ParseTree) : Prop where
  member : p ∈ g.productions
  symbols : (solid trees).map symbol = p.steps.toList.map Step.symbol
  derivation : ∀ t ∈ trees, t.IsDerivation g

/-- A phrase, with the comments behind it, that keeps to the grammar. -/
structure IsPhrase (g : Tables) (p : Production) (r : ParseTree × List ParseTree) : Prop where
  derivation : r.1.IsDerivation g
  symbol : r.1.symbol = .phrase p.head
  notComment : r.1.isComment = false
  comments : ∀ c ∈ r.2, c.isComment = true ∧ c.IsDerivation g

theorem Makes.isPhrase {p : Production} {trees : List ParseTree} (makes : Makes g p trees) :
    IsPhrase g p (phraseOf p trees) := by
  have split := splitComments_append trees
  have inside {t : ParseTree} (ht : t ∈ (splitComments trees).1 ∨ t ∈ (splitComments trees).2) :
      t.IsDerivation g := makes.derivation t (split ▸ List.mem_append.2 ht)
  have same : solid (splitComments trees).1 = solid trees := by
    have none : solid (splitComments trees).2 = [] := by
      refine List.filter_eq_nil_iff.2 fun c hc => ?_
      simp [isComment_of_mem_splitComments c hc]
    rw [← split, solid_append, split, none, List.append_nil]
  exact ⟨.node makes.member (same ▸ makes.symbols) fun t ht => inside (.inl ht), rfl, rfl,
    fun c hc => ⟨isComment_of_mem_splitComments c hc, inside (.inr hc)⟩⟩

theorem isPhrase_of_preferred {p : Production} {ways : List (List ParseTree)}
    {r : ParseTree × List ParseTree} (makes : ∀ trees ∈ ways, Makes g p trees)
    (h : preferred p ways = some r) : IsPhrase g p r := by
  cases ways with
  | nil => cases h
  | cons trees more =>
    obtain ⟨first, others⟩ := List.forall_mem_cons.1 makes
    obtain rfl := Option.some.inj h
    have best := first.isPhrase
    revert best
    generalize phraseOf p trees = best
    clear h makes
    induction more generalizing best with
    | nil => exact id
    | cons trees more ih =>
      intro isPhrase
      obtain ⟨next, others⟩ := List.forall_mem_cons.1 others
      refine ih others _ ?_
      dsimp only
      split
      · exact next.isPhrase
      · exact isPhrase

end Phrases

section Reduce

theorem IsSound.merge (sound : s.IsSound g start) {a b : Branch} (ha : a.top < s.graph.size)
    (hb : b.top < s.graph.size) (meet : s.meet a b = true) :
    (s.merge a b).IsSound g start ∧ ∀ rest, s.Grows rest (s.merge a b) := by
  rw [Readings.meet, Bool.and_eq_true] at meet
  obtain ⟨graph, grows⟩ := sound.graph.merge ha hb meet.2
  exact sound.with_graph graph grows

theorem IsSound.join (sound : s.IsSound g start) {b : Branch} (hb : b.top < s.graph.size) :
    (s.join v b).IsSound g start ∧ s.Grows b.rest (s.join v b) := by
  unfold Readings.join
  split
  · rename_i j found
    have meet := List.find?_some found
    rw [Bool.and_eq_true] at meet
    exact (sound.merge (sound.top_lt j) hb meet.2).imp_right fun grows => grows b.rest
  · refine ⟨⟨sound.graph, sound.pos, fun c hc => ?_, sound.found⟩, .refl _, ?_, fun w hw => ?_,
      fun w hw le => ?_⟩
    · rcases Array.mem_push.1 hc with hc | rfl
      · exact sound.tops c hc
      · exact hb
    · simp
    · have hw' : w < s.branches.size + 1 := Nat.lt_succ_of_lt hw
      simp [branch, Array.getD, hw, hw', Array.getElem_push]
    · have hw' : w < s.branches.size + 1 := by simpa using hw
      simp [branch, Array.getD, hw', Array.getElem_push, Nat.not_lt.2 le]

theorem IsSound.goOn (indexed : g.IsIndexed start) (sound : s.IsSound g start) {p : Production} {base : Nat}
    {ways : List (List ParseTree)} (hbase : base < s.graph.size) (makes : ∀ trees ∈ ways, Makes g p trees) :
    (goOn g v p s base ways).IsSound g start ∧ s.Grows (s.branch v).rest (goOn g v p s base ways) := by
  unfold Readings.goOn
  split
  · exact ⟨sound, .refl s _⟩
  · split
    · rename_i phrase comments state preferred found
      have isPhrase := isPhrase_of_preferred makes preferred
      have settled := isSettled_of_goto? indexed (sound.graph.settled base hbase) found
      have leads : Leads g (s.graph.get base).state phrase state := by
        rw [Leads, isPhrase.notComment, if_neg Bool.false_ne_true, isPhrase.symbol, found]
      have pushed := (sound.push settled hbase isPhrase.derivation leads phrase.stop).comments settled
        isPhrase.comments
      obtain ⟨sound', grows⟩ := pushed.sound.join (b := ⟨_, (s.branch v).rest, .active⟩) pushed.top_lt
      exact ⟨sound', (pushed.grows _).trans grows⟩
    · exact ⟨sound, .refl s _⟩

theorem IsSound.reduce (indexed : g.IsIndexed start) (sound : s.IsSound g start) (hv : v < s.branches.size)
    {item : Item} (member : item ∈ (s.top (s.branch v)).state.items) (complete : g.next? item = none) :
    (s.reduce g v item.production).IsSound g start ∧
      s.Grows (s.branch v).rest (s.reduce g v item.production) := by
  have popped : ∀ r ∈ s.graph.pop (s.branch v).top (g.production item.production).size,
      r.1 < s.graph.size ∧ ∀ trees ∈ r.2, Makes g (g.production item.production) trees := by
    intro r hr
    refine ⟨?_, fun trees ht => ?_⟩
    · obtain ⟨trees, ht⟩ := Stacks.exists_mem_of_mem_pop hr
      exact (Stacks.way_of_mem_pop hr ht).1.lt_size sound.graph (sound.top_lt v)
    · obtain ⟨way, length⟩ := Stacks.way_of_mem_pop hr ht
      obtain ⟨known, symbols⟩ := way.symbols_of_complete indexed sound.graph (sound.top_lt v) member complete
        length
      exact ⟨known, symbols, way.isDerivation sound.graph (sound.top_lt v)⟩
  unfold Readings.reduce
  dsimp only
  clear member complete
  revert popped
  generalize s.graph.pop (s.branch v).top (g.production item.production).size = pops
  intro popped
  induction pops generalizing s with
  | nil => exact ⟨sound, .refl s _⟩
  | cons r pops ih =>
    obtain ⟨first, others⟩ := List.forall_mem_cons.1 popped
    obtain ⟨sound', grows⟩ := sound.goOn (v := v) indexed first.1 first.2
    obtain ⟨sound'', grows'⟩ := ih sound' (Nat.lt_of_lt_of_le hv grows.size) fun r hr =>
      ⟨Nat.lt_of_lt_of_le (others r hr).1 grows.graph.size, (others r hr).2⟩
    rw [grows.branch v hv] at grows'
    exact ⟨sound'', grows.trans grows'⟩

/-- What holds while several productions are ended side by side: a branch that is named as added lies
behind those known. -/
structure Reduced (g : Tables) (start : Nat) (s : Readings) (rest : List Char) (r : Readings × Option Nat) :
    Prop where
  sound : r.1.IsSound g start
  grows : s.Grows rest r.1
  added : ∀ i ∈ r.2, s.branches.size ≤ i ∧ i < r.1.branches.size

theorem IsSound.reduceAll (indexed : g.IsIndexed start) (sound : s.IsSound g start)
    (hv : v < s.branches.size) {ps : List Nat}
    (complete : ∀ p ∈ ps, ∃ i ∈ (s.top (s.branch v)).state.items, i.production = p ∧ g.next? i = none) :
    Reduced g start s (s.branch v).rest (s.reduceAll g v ps) := by
  unfold Readings.reduceAll
  have reduced : Reduced g start s (s.branch v).rest (s, none) := ⟨sound, .refl s _, by simp⟩
  revert reduced
  generalize ((s, none) : Readings × Option Nat) = r
  intro reduced
  induction ps generalizing r with
  | nil => exact reduced
  | cons p ps ih =>
    obtain ⟨⟨i, hi, rfl, ends⟩, others⟩ := List.forall_mem_cons.1 complete
    rw [← reduced.grows.top_state sound hv] at hi
    obtain ⟨sound', grows⟩ := reduced.sound.reduce indexed (Nat.lt_of_lt_of_le hv reduced.grows.size) hi ends
    rw [reduced.grows.branch v hv] at grows
    refine ih others _ ⟨sound', reduced.grows.trans grows, fun j hj => ?_⟩
    dsimp only at hj ⊢
    split at hj
    · rename_i lt
      obtain rfl := Option.some.inj hj
      exact ⟨reduced.grows.size, lt⟩
    · exact ⟨(reduced.added j hj).1, Nat.lt_of_lt_of_le (reduced.added j hj).2 grows.size⟩

end Reduce

section Act

theorem IsSound.setBranch (sound : s.IsSound g start) {b : Branch} (hb : b.top < s.graph.size) :
    (s.setBranch v b).IsSound g start := by
  refine ⟨sound.graph, sound.pos, fun c hc => ?_, sound.found⟩
  rcases Array.mem_or_eq_of_mem_setIfInBounds hc with hc | rfl
  · exact sound.tops c hc
  · exact hb

theorem branch_setBranch (hv : v < s.branches.size) (b : Branch) : (s.setBranch v b).branch v = b := by
  simp [setBranch, branch, Array.getD, hv]

theorem IsSound.setStatus (sound : s.IsSound g start) (status : Status) :
    (s.setStatus v status).IsSound g start := by
  refine ⟨sound.graph, sound.pos, fun c hc => ?_, sound.found⟩
  obtain ⟨w, hw, rfl⟩ := Array.mem_iff_getElem.1 hc
  rw [Readings.setStatus, Array.size_modify] at hw
  have known := sound.tops _ (Array.getElem_mem hw)
  simp only [Readings.setStatus, Array.getElem_modify]
  split <;> exact known

theorem IsSound.take (sound : s.IsSound g start) {state : State} {l : Lexeme} {token : Nat}
    {isComment : Bool} (settled : g.IsSettled state) (spelled : g.Spells token (l.text (s.branch v).rest))
    (leads : ∀ gap text start stop, Leads g (s.top (s.branch v)).state
      (.leaf token gap text start stop isComment) state) :
    (s.take v state l token isComment).IsSound g start := by
  have pushed (gap : List Char) (first last position : Nat) :=
    sound.push settled (sound.top_lt v) (.leaf spelled ..) (leads gap _ first last) position
  exact (pushed ..).sound.setBranch (pushed ..).top_lt

theorem IsSound.accept (indexed : g.IsIndexed start) (sound : s.IsSound g start) {item : Item}
    (member : item ∈ (s.top (s.branch v)).state.items) (isWhole : item.production = whole)
    (complete : g.next? item = none) : (s.accept v).IsSound g start := by
  have readings : ∀ trees ∈ s.graph.toBottom (s.graph.size + 1) (s.branch v).top,
      IsComplete g start trees := by
    intro trees ht
    obtain ⟨i, way⟩ := Stacks.way_of_mem_toBottom _ ht
    refine ⟨way.isDerivation sound.graph (sound.top_lt v), ?_⟩
    exact (way.solid_of_whole indexed sound.graph (sound.top_lt v) member isWhole complete).imp
      And.left And.left
  unfold Readings.accept
  refine IsSound.setStatus ?_ .done
  refine ⟨sound.graph, sound.pos, sound.tops, ?_⟩
  dsimp only
  have known := sound.found
  revert known
  generalize s.found = found
  generalize s.graph.toBottom (s.graph.size + 1) (s.branch v).top = all at readings ⊢
  induction all generalizing found with
  | nil => exact id
  | cons trees all ih =>
    intro known
    obtain ⟨first, others⟩ := List.forall_mem_cons.1 readings
    refine ih _ others fun best h => ?_
    cases found with
    | none => exact Option.some.inj h ▸ first
    | some best' =>
      obtain rfl := Option.some.inj h
      split
      · exact first
      · exact known best' rfl

theorem complete_of_mem_actions {state : State} (token : Nat) {p : Nat}
    (h : p ∈ (g.actions state token).filterMap (fun | .reduce p => some p | _ => none)) :
    ∃ i ∈ state.items, i.production = p ∧ g.next? i = none := by
  obtain ⟨action, member, isReduce⟩ := List.mem_filterMap.1 h
  cases action with
  | reduce p =>
    obtain rfl := Option.some.inj isReduce
    exact warrants_of_mem_actions member
  | _ => cases isReduce

theorem complete_of_accepts {state : State} {token : Nat}
    (h : (g.actions state token).any (fun | .accept => true | _ => false) = true) :
    ∃ i ∈ state.items, i.production = whole ∧ g.next? i = none := by
  obtain ⟨action, member, isAccept⟩ := List.any_eq_true.1 h
  cases action with
  | accept => exact warrants_of_mem_actions member
  | _ => cases isAccept

theorem goto?_of_shifts {state target : State} {token : Nat}
    (h : (g.actions state token).findSome? (fun | .shift target => some target | _ => none) = some target) :
    g.goto? state (.token token) = some target := by
  obtain ⟨action, member, isShift⟩ := List.exists_of_findSome?_eq_some h
  cases action with
  | shift target =>
    obtain rfl := Option.some.inj isShift
    exact warrants_of_mem_actions member
  | _ => cases isShift

/-- The branch that ending productions has added takes the place of the one they were ended on. -/
theorem Reduced.moved {rest : List Char} {r : Readings × Option Nat} (reduced : Reduced g start s rest r)
    (hv : v < s.branches.size) {i : Nat} (added : r.2 = some i) {s' : Readings}
    (h : s' = { r.1 with branches := (r.1.branches.eraseIdxIfInBounds i).setIfInBounds v (r.1.branch i) }) :
    s'.IsSound g start ∧ v < s'.branches.size ∧ (s'.branch v).rest = rest := by
  subst h
  obtain ⟨behind, lt⟩ := reduced.added i added
  have lt' : v < (r.1.branches.eraseIdxIfInBounds i).size := by
    simp only [Array.eraseIdxIfInBounds, dif_pos lt, Array.size_eraseIdx]
    omega
  refine ⟨⟨reduced.sound.graph, reduced.sound.pos, fun c hc => ?_, reduced.sound.found⟩, ?_, ?_⟩
  · rcases Array.mem_or_eq_of_mem_setIfInBounds hc with hc | rfl
    · rw [Array.eraseIdxIfInBounds, dif_pos lt] at hc
      exact reduced.sound.tops c (Array.mem_of_mem_eraseIdx hc)
    · exact reduced.sound.top_lt i
  · rwa [Array.size_setIfInBounds]
  · have moved := branch_setBranch (s := ⟨r.1.graph, r.1.branches.eraseIdxIfInBounds i, r.1.found⟩) lt'
      (r.1.branch i)
    rw [Readings.setBranch] at moved
    rw [moved, reduced.grows.added i lt behind]

/-- Whatever a piece admits on a branch is done soundly. -/
theorem IsSound.act (indexed : g.IsIndexed start) (l : Lexeme) (fuel : Nat) (sound : s.IsSound g start)
    (hv : v < s.branches.size) {token : Nat} (fits : g.Fits (s.branch v).rest { l with token := token }) :
    (act g v l fuel s token).IsSound g start := by
  induction fuel generalizing s token with
  | zero => exact sound.setStatus .stuck
  | succ fuel ih =>
    have settled := sound.graph.settled _ (sound.top_lt v)
    rw [Readings.act]
    dsimp only
    split
    · exact sound.take settled fits.spelled fun _ _ _ _ => by simp [Leads, ParseTree.isComment]
    · split
      · have empty : IsComplete g start [] := ⟨by simp, .inl rfl⟩
        have sound' : ({ s with found := some [] } : Readings).IsSound g start :=
          ⟨sound.graph, sound.pos, sound.tops, fun trees h => Option.some.inj h ▸ empty⟩
        exact sound'.setStatus .done
      · split
        · rename_i accepts
          obtain ⟨i, hi, isWhole, complete⟩ := complete_of_accepts accepts
          exact sound.accept indexed hi isWhole complete
        · have reduced := sound.reduceAll indexed hv fun _ => complete_of_mem_actions token
          generalize s.reduceAll g v _ = r at reduced ⊢
          have fits' : g.Fits (r.1.branch v).rest { l with token := token } := by
            rwa [reduced.grows.branch v hv]
          split
          · rename_i found
            have goto := goto?_of_shifts found
            refine reduced.sound.take (isSettled_of_goto? indexed settled goto) fits'.spelled fun _ _ _ _ => ?_
            rw [reduced.grows.top_state sound hv]
            exact goto
          -- The branch has taken the place of an added one, and the piece is still to be read.
          · rename_i added
            obtain ⟨sound', hv', rest⟩ := reduced.moved hv added rfl
            exact ih sound' hv' (rest.symm ▸ fits)
          · split
            · exact reduced.sound.setStatus .done
            · split
              -- Nothing goes on with the fixed word, so it is tried as any other word.
              · rename_i asWord
                have reserved : l.isReserved = true := by
                  simp only [Bool.and_eq_true] at asWord
                  exact asWord.1.1
                exact ih reduced.sound (Nat.lt_of_lt_of_le hv reduced.grows.size) (fits'.asWord reserved)
              · exact reduced.sound.setStatus .stuck

end Act

section Run

theorem IsSound.read (indexed : g.IsIndexed start) (spelled : g.IsSpelled) (length : Nat)
    (sound : s.IsSound g start) (hv : v < s.branches.size) : (s.read g length v).IsSound g start := by
  unfold Readings.read
  dsimp only
  split
  · exact sound.setStatus .stuck
  · rename_i l found
    exact sound.act indexed _ _ hv (fits_of_lexeme? spelled found)

theorem IsSound.catchUp (indexed : g.IsIndexed start) (spelled : g.IsSpelled) (length fuel : Nat)
    (sound : s.IsSound g start) (far : Nat) : (catchUp g length v fuel s far).1.IsSound g start := by
  induction fuel generalizing s far with
  | zero => exact sound
  | succ fuel ih =>
    rw [Readings.catchUp]
    split
    · rename_i active
      -- a branch that does not exist is done, not active
      have hv : v < s.branches.size := by
        by_contra outside
        rw [branch, Array.getD, dif_neg outside] at active
        cases active
      have sound' := sound.read indexed spelled length hv
      dsimp only
      split
      · exact sound'
      · exact ih sound' _
    · exact sound

theorem IsSound.keep (sound : s.IsSound g start) {bs : List Branch} {c : Branch}
    (all : ∀ b ∈ c :: bs, b.top < s.graph.size) :
    (s.keep bs c).1.IsSound g start ∧ s.graph.Grows (s.keep bs c).1.graph ∧
      ∀ b ∈ (s.keep bs c).2, b ∈ c :: bs := by
  induction bs generalizing c with
  | nil => exact ⟨sound, .refl _, fun _ => id⟩
  | cons b bs ih =>
    obtain ⟨hc, hb, hbs⟩ : c.top < s.graph.size ∧ b.top < s.graph.size ∧ ∀ b ∈ bs, b.top < s.graph.size := by
      simpa using all
    have others (c : Branch) (hc : c.top < s.graph.size) := ih (c := c) (List.forall_mem_cons.2 ⟨hc, hbs⟩)
    rw [Readings.keep]
    split
    · exact ⟨sound, .refl _, fun _ => List.mem_cons_of_mem _⟩
    · split
      · obtain ⟨sound', grows, inside⟩ := others c hc
        refine ⟨sound', grows, fun d hd => ?_⟩
        rcases List.mem_cons.1 (inside d hd) with rfl | hd
        · exact List.mem_cons_self
        · exact List.mem_cons_of_mem _ (List.mem_cons_of_mem _ hd)
      · split
        · rename_i meet
          obtain ⟨sound', grows⟩ := sound.merge hb hc meet
          exact ⟨sound', (grows b.rest).graph, fun _ => List.mem_cons_of_mem _⟩
        · split
          · obtain ⟨sound', grows, inside⟩ := others b hb
            exact ⟨sound', grows, fun d hd => by grind⟩
          · obtain ⟨sound', grows, inside⟩ := others c hc
            exact ⟨sound', grows, fun d hd => by grind⟩

theorem IsSound.keepAll (bs kept : List Branch) (sound : s.IsSound g start)
    (tops : ∀ b ∈ bs ++ kept, b.top < s.graph.size) {r : Readings × List Branch}
    (h : bs.foldl (fun (s, kept) b => s.keep kept b) (s, kept) = r) :
    r.1.IsSound g start ∧ ∀ b ∈ r.2, b.top < r.1.graph.size := by
  induction bs generalizing kept s with
  | nil =>
    obtain rfl := h
    exact ⟨sound, tops⟩
  | cons b bs ih =>
    obtain ⟨hb, hbs, hkept⟩ : b.top < s.graph.size ∧ (∀ b ∈ bs, b.top < s.graph.size) ∧
        ∀ b ∈ kept, b.top < s.graph.size := by
      simpa [or_imp, forall_and] using tops
    have all : ∀ c ∈ b :: kept, c.top < s.graph.size := List.forall_mem_cons.2 ⟨hb, hkept⟩
    obtain ⟨sound', grows, inside⟩ := sound.keep all
    refine ih _ sound' (List.forall_mem_append.2 ⟨fun c hc => ?_, fun c hc => ?_⟩) h
    · exact Nat.lt_of_lt_of_le (hbs c hc) grows.size
    · exact Nat.lt_of_lt_of_le (all c (inside c hc)) grows.size

theorem IsSound.condense (sound : s.IsSound g start) : s.condense.IsSound g start := by
  unfold Readings.condense
  obtain ⟨sound', tops⟩ := sound.keepAll (s.branches.toList.filter fun b => b.status ≠ .done) []
    (fun b hb => by
    rw [List.append_nil] at hb
    exact sound.tops b (Array.mem_toList_iff.1 (List.mem_of_mem_filter hb))) rfl
  refine ⟨sound'.graph, sound'.pos, fun b hb => ?_, sound'.found⟩
  rw [List.mem_toArray] at hb
  exact tops b (List.mem_of_mem_take (List.mem_of_mem_filter hb))

theorem isComplete_of_run (indexed : g.IsIndexed start) (spelled : g.IsSpelled) (length fuel : Nat)
    (sound : s.IsSound g start)
    (far : Nat) {trees : List ParseTree} (h : run g length fuel s far = some trees) :
    IsComplete g start trees := by
  have round : ∀ (vs : List Nat) (r : Readings × Nat), r.1.IsSound g start →
      (vs.foldl (fun (s, far) v => catchUp g length v (length + 2) s far) r).1.IsSound g start := by
    intro vs
    induction vs with
    | nil => exact fun _ => id
    | cons v vs ih => exact fun r sound => ih _ (sound.catchUp indexed spelled length _ _)
  induction fuel generalizing s far with
  | zero => exact sound.found trees h
  | succ fuel ih =>
    rw [Readings.run] at h
    generalize List.range (maxBranches + spareBranches + 1) = vs at h
    split at h
    · exact sound.found trees h
    · exact ih (round vs (s, far) sound).condense _ h

end Run

theorem isSound_initial (g : Tables) (start : Nat) (cs : List Char) :
    (⟨.empty g.initial, #[⟨0, cs, .active⟩], none⟩ : Readings).IsSound g start where
  graph := by
    have only {i : Nat} (hi : i < (Stacks.empty g.initial).size) : i = 0 := by
      simpa [Stacks.empty, Stacks.size] using hi
    refine ⟨fun i hi => ?_, fun i hi l hl => ?_⟩
    · obtain rfl := only hi
      exact g.isSettled_initial
    · obtain rfl := only hi
      cases hl
  pos := by simp [Stacks.empty, Stacks.size]
  tops := by simp [Stacks.empty, Stacks.size]
  found := by simp

end Readings

/-- The trees of a text that is a script keep to the grammar: comments apart they are one script. -/
theorem Tables.isComplete_of_parse? (indexed : g.IsIndexed start) (spelled : g.IsSpelled) {cs : List Char}
    {trees : List ParseTree} (h : g.parse? cs = some trees) : IsComplete g start trees :=
  Readings.isComplete_of_run indexed spelled _ _ (Readings.isSound_initial g start cs) _ h

end PugComponents.Script
