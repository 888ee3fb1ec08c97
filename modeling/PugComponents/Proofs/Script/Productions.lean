import PugComponents.Proofs.Script.Spelling
import PugComponents.Proofs.Script.States
import Mathlib.Data.List.Basic

/-! The tables of a grammar. They list the productions that the rules admit, and say rightly with which
symbol a production begins. The number of a phrase tells the rule that it comes from. -/

namespace PugComponents.Script

open Tables

namespace Tables

section Starting

theorem getD_modify {α : Type} (table : Array (Array α)) (n : Nat) (f : Array α → Array α) (m : Nat) :
    (table.modify n f).getD m #[] =
      if n = m ∧ m < table.size then f (table.getD m #[]) else table.getD m #[] := by
  by_cases hm : m < table.size
  · by_cases same : n = m <;> simp [Array.getD, Array.getElem_modify, hm, same]
  · simp [Array.getD, hm]

theorem mem_of_mem_foldl {n p : Nat} {number : Symbol → Option Nat} (ps : List (Production × Nat))
    (table : Array (Array Nat))
    (h : p ∈ (ps.foldl (fun table (p, i) =>
      match p.symbol? 0 >>= number with
      | some n => table.modify n (·.push i)
      | none => table) table).getD n #[]) :
    p ∈ table.getD n #[] ∨ ∃ q, (q, p) ∈ ps ∧ (q.symbol? 0 >>= number) = some n := by
  induction ps generalizing table with
  | nil => exact .inl h
  | cons first ps ih =>
    obtain ⟨q, i⟩ := first
    rcases ih _ h with h | ⟨q', hq', found⟩
    · dsimp only at h
      split at h
      · rename_i m found
        rw [getD_modify] at h
        split at h
        · rename_i here
          rcases Array.mem_push.1 h with h | rfl
          · exact .inl h
          · exact .inr ⟨q, List.mem_cons_self, here.1 ▸ found⟩
        · exact .inl h
      · exact .inl h
    · exact .inr ⟨q', List.mem_cons_of_mem _ hq', found⟩

theorem mem_starting {productions : List Production} {size n p : Nat} {number : Symbol → Option Nat}
    (h : p ∈ (starting productions size number).getD n #[]) :
    ∃ q, productions[p]? = some q ∧ (q.symbol? 0 >>= number) = some n := by
  rcases mem_of_mem_foldl _ _ h with h | ⟨q, hq, found⟩
  · simp [Array.getD] at h
  · exact ⟨q, List.mem_zipIdx_iff_getElem?.1 hq, found⟩

end Starting

theorem size_firstOfKinds (n : Numbering) (rules : List Rule) (rounds : Nat) {known : Array TokenSet}
    (size : known.size = rules.length) : (firstOfKinds n rules rounds known).size = rules.length := by
  induction rounds generalizing known with
  | zero => exact size
  | succ rounds ih =>
    rw [firstOfKinds]
    split
    · exact size
    · exact ih (by simp)

variable (rules : List (Kind × Rule)) (ladders : List (List Grammar.Rung)) (start : Kind)

theorem isIndexed_ofGrammar : (ofGrammar rules ladders start).IsIndexed start.ctorIdx where
  begins symbol p h := by
    have known {number : Symbol → Option Nat} {size n : Nat}
        (h : p ∈ (starting (Production.all (.ofRules (rules.map Prod.snd)) (rules.map Prod.snd)
          start.ctorIdx) size number).getD n #[]) :
        ((ofGrammar rules ladders start).production p).symbol? 0 >>= number = some n := by
      obtain ⟨q, hq, found⟩ := mem_starting h
      obtain ⟨lt, rfl⟩ := List.getElem?_eq_some_iff.1 hq
      simpa [production, ofGrammar, Array.getD, lt] using found
    cases symbol with
    | token n | phrase n =>
      obtain ⟨symbol, first, number⟩ := Option.bind_eq_some_iff.1 (known h)
      cases symbol <;> cases number
      exact first
  symbols_whole := rfl
  firsts_size_le := by
    have empty : (Array.replicate (rules.map Prod.snd).length (∅ : TokenSet)).size =
        (rules.map Prod.snd).length := Array.size_replicate
    have size := size_firstOfKinds (.ofRules (rules.map Prod.snd)) (rules.map Prod.snd)
      ((rules.map Prod.snd).length + 1) empty
    have firsts : (ofGrammar rules ladders start).firsts.size = (rules.map Prod.snd).length +
        (Numbering.ofRules (rules.map Prod.snd)).runs.length := by
      rw [← size]
      simp [ofGrammar, Numbering.ofRules]
    exact Nat.le_of_eq firsts

end Tables

theorem isIndexed_scriptTables : scriptTables.IsIndexed Kind.program.ctorIdx := by
  rw [scriptTables]
  exact isIndexed_ofGrammar ..

theorem Tables.isSpelled_ofGrammar (rules : List (Kind × Rule)) (ladders : List (List Grammar.Rung))
    (start : Kind) :
    (ofGrammar rules ladders start).IsSpelled := by
  obtain ⟨spelled, listed, signs, words⟩ : ∃ spelled : List (String × Nat),
      (∀ w ∈ spelled, (ofGrammar rules ladders start).tokens.getD w.2 .ending = .text w.1) ∧
      (ofGrammar rules ladders start).signs =
        (spelled.filter fun w => !isFixedWord w.1).map (fun w => (w.1.toList, w.2)) ∧
      (ofGrammar rules ladders start).words = spelled.filter fun w => isFixedWord w.1 := by
    refine ⟨_, fun w member => ?_, rfl, rfl⟩
    obtain ⟨⟨t, i⟩, known, found⟩ := List.mem_filterMap.1 member
    cases t with
    | text s =>
      obtain rfl := Option.some.inj found
      obtain ⟨lt, same⟩ := List.getElem?_eq_some_iff.1 (List.mem_zipIdx_iff_getElem?.1 known)
      simpa [ofGrammar, Array.getD, lt] using same
    | _ => cases found
  constructor
  · rw [signs]
    intro sign member
    obtain ⟨w, known, rfl⟩ := List.mem_map.1 member
    rw [String.ofList_toList]
    exact listed w (List.mem_filter.1 known).1
  · rw [words]
    exact fun w member => listed w (List.mem_filter.1 member).1

theorem isSpelled_scriptTables : scriptTables.IsSpelled := by
  rw [scriptTables]
  exact isSpelled_ofGrammar ..

theorem Tables.getElem?_kinds_ofGrammar (rules : List (Kind × Rule)) (ladders : List (List Grammar.Rung))
    (start : Kind) (i : Nat) : (ofGrammar rules ladders start).kinds[i]? = rules[i]?.map Prod.fst := by
  simp [ofGrammar]

theorem Tables.tokens_ofGrammar (rules : List (Kind × Rule)) (ladders : List (List Grammar.Rung))
    (start : Kind) : (ofGrammar rules ladders start).tokens =
      (Numbering.ofRules (rules.map Prod.snd)).tokens.toArray := rfl

/-- Where a production comes from: it stands for a whole script, it is one of the sequences that a rule
admits, or it makes a run of repeated parts longer or begins one. -/
inductive Origin (n : Numbering) (rules : List Rule) (start : Nat) (p : Production) : Prop where
  | whole (head : p.head = n.kinds + n.runs.length)
    (steps : p.steps.toList = [{ symbol := .phrase start }])
  | rule {r : Rule} {s : Sequence} (rule : rules[p.head]? = some r) (member : s ∈ r.expand n)
    (steps : p.steps.toList = s.steps)
  | longer {item : Rule} (run : item ∈ n.runs) (head : p.head = n.run item)
    (steps : p.steps.toList = [{ symbol := .phrase (n.run item) }, { symbol := .phrase (n.run item) }])
  | single {item : Rule} {s : Sequence} (run : item ∈ n.runs) (head : p.head = n.run item)
    (member : s ∈ item.expand n) (steps : p.steps.toList = s.steps)

theorem Production.exists_of_mem_ofSequences {head : Nat} {sequences : List Sequence} {p : Production}
    (h : p ∈ ofSequences head sequences) : p.head = head ∧ ∃ s ∈ sequences, p.steps.toList = s.steps := by
  obtain ⟨s, hs, rfl⟩ := List.mem_map.1 h
  exact ⟨rfl, s, List.mem_of_mem_filter hs, rfl⟩

theorem Production.origin_of_mem_all {n : Numbering} {rules : List Rule} {start : Nat} {p : Production}
    (h : p ∈ all n rules start) : Origin n rules start p := by
  rcases List.mem_cons.1 h with rfl | h
  · exact .whole rfl rfl
  · have listed : p ∈ (rules.zipIdx.flatMap fun r => ofSequences r.2 (r.1.expand n)) ++
        n.runs.flatMap (ofRun n) := by
      rcases List.mem_append.1 h with h | h <;> exact List.mem_of_mem_filter h
    rcases List.mem_append.1 listed with h | h
    · obtain ⟨⟨r, i⟩, hr, h⟩ := List.mem_flatMap.1 h
      obtain ⟨rfl, s, hs, steps⟩ := exists_of_mem_ofSequences h
      exact .rule (List.mem_zipIdx_iff_getElem?.1 hr) hs steps
    · obtain ⟨item, run, h⟩ := List.mem_flatMap.1 h
      obtain ⟨head, s, hs, steps⟩ := exists_of_mem_ofSequences h
      rcases List.mem_cons.1 hs with rfl | hs
      · exact .longer run head steps
      · exact .single run head hs steps

/-- Productions with a negative weight only come first. -/
theorem Production.mem_all_of_mem {n : Numbering} {rules : List Rule} {start : Nat} {p : Production}
    (h : p ∈ (rules.zipIdx.flatMap fun r => ofSequences r.2 (r.1.expand n)) ++ n.runs.flatMap (ofRun n)) :
    p ∈ all n rules start := by
  refine List.mem_cons_of_mem _ (List.mem_append.2 ?_)
  by_cases negative : p.weight < 0
  · exact .inl (List.mem_filter.2 ⟨h, decide_eq_true negative⟩)
  · exact .inr (List.mem_filter.2 ⟨h, decide_eq_true (Int.not_lt.1 negative)⟩)

theorem Production.mem_ofSequences {head : Nat} {sequences : List Sequence} {s : Sequence}
    (member : s ∈ sequences) (steps : s.steps ≠ []) :
    ⟨head, s.steps.toArray, s.weight⟩ ∈ ofSequences head sequences :=
  List.mem_map.2 ⟨s, List.mem_filter.2 ⟨member, by simpa using steps⟩, rfl⟩

theorem Production.mem_all_of_rule {n : Numbering} {rules : List Rule} {start head : Nat} {r : Rule}
    {s : Sequence} (rule : rules[head]? = some r) (member : s ∈ r.expand n) (steps : s.steps ≠ []) :
    ⟨head, s.steps.toArray, s.weight⟩ ∈ all n rules start :=
  mem_all_of_mem (List.mem_append_left _ (List.mem_flatMap.2
    ⟨(r, head), List.mem_zipIdx_iff_getElem?.2 rule, mem_ofSequences member steps⟩))

theorem Production.mem_all_of_run {n : Numbering} {rules : List Rule} {start : Nat} {item : Rule}
    {s : Sequence} (run : item ∈ n.runs)
    (member : s ∈
      ⟨[{ symbol := .phrase (n.run item) }, { symbol := .phrase (n.run item) }], 0⟩ :: item.expand n)
    (steps : s.steps ≠ []) : ⟨n.run item, s.steps.toArray, s.weight⟩ ∈ all n rules start :=
  mem_all_of_mem (List.mem_append_right _ (List.mem_flatMap.2 ⟨item, run, mem_ofSequences member steps⟩))

theorem Rule.steps_ne_nil {n : Numbering} {r : Rule} (solid : r.isNullable = false) {s : Sequence}
    (member : s ∈ r.expand n) : s.steps ≠ [] := by
  induction r generalizing s with
  | nothing => cases solid
  | token | phrase | oneOrMore =>
    obtain rfl := List.mem_singleton.1 member
    exact List.cons_ne_nil _ _
  | both a b iha ihb =>
    obtain ⟨sa, ha, hs⟩ := List.mem_flatMap.1 member
    obtain ⟨sb, hb, rfl⟩ := List.mem_map.1 hs
    rcases Bool.and_eq_false_iff.1 solid with solid | solid
    · exact List.append_ne_nil_of_left_ne_nil (iha solid ha) _
    · exact List.append_ne_nil_of_right_ne_nil _ (ihb solid hb)
  | either a b iha ihb =>
    obtain ⟨solida, solidb⟩ := Bool.or_eq_false_iff.1 solid
    rcases List.mem_append.1 (List.mem_eraseDups.1 member) with ha | hb
    · exact iha solida ha
    · exact ihb solidb hb
  | weighted _ r ih =>
    obtain ⟨s, hs, rfl⟩ := List.mem_map.1 member
    show s.steps ≠ []
    exact ih solid hs
  | ranked _ _ r ih | renamed _ r ih | part _ r ih =>
    obtain ⟨s, hs, rfl⟩ := List.mem_map.1 member
    simpa [Sequence.map] using ih solid hs

theorem Tables.origin_of_mem_productions {rules : List (Kind × Rule)} {ladders : List (List Grammar.Rung)}
    {start : Kind} {p : Production} (h : p ∈ (ofGrammar rules ladders start).productions) :
    Origin (.ofRules (rules.map Prod.snd)) (rules.map Prod.snd) start.ctorIdx p :=
  Production.origin_of_mem_all (List.mem_toArray.1 h)

namespace Numbering

variable {n : Numbering} {rules : List Rule}

theorem run_injective {a b : Rule} (ha : a ∈ n.runs) (h : n.run a = n.run b) : a = b := by
  have index : n.runs.idxOf a = n.runs.idxOf b := Nat.add_left_cancel h
  exact (List.idxOf_inj ha).1 index

theorem run_lt {item : Rule} (h : item ∈ n.runs) : n.run item < n.kinds + n.runs.length :=
  Nat.add_lt_add_left (List.idxOf_lt_length_of_mem h) _

theorem kinds_le_run (item : Rule) : n.kinds ≤ n.run item := Nat.le_add_right ..

theorem kinds_ofRules (rules : List Rule) : (ofRules rules).kinds = rules.length := rfl

theorem mem_tokens_ofRules {r : Rule} (h : r ∈ rules) {t : Token} (ht : t ∈ r.tokens) :
    t ∈ (ofRules rules).tokens :=
  List.mem_eraseDups.2 (List.mem_append_right _ (List.mem_flatMap.2 ⟨r, h, ht⟩))

theorem mem_runs_ofRules {r item : Rule} (h : r ∈ rules) (hitem : item ∈ r.repeated) :
    item ∈ (ofRules rules).runs :=
  List.mem_eraseDups.2 (List.mem_flatMap.2 ⟨r, h, hitem⟩)

theorem exists_of_mem_runs_ofRules {item : Rule} (h : item ∈ (ofRules rules).runs) :
    ∃ r ∈ rules, item ∈ r.repeated := by
  simpa [ofRules, List.mem_flatMap] using h

theorem getD_tokens {t : Token} (h : t ∈ n.tokens) (other : Token) :
    n.tokens.toArray.getD (n.token t) other = t := by
  have lt : n.tokens.idxOf t < n.tokens.length := List.idxOf_lt_length_of_mem h
  simp [Array.getD, Numbering.token, lt]

end Numbering

theorem Origin.of_rule {n : Numbering} {rules : List Rule} {start : Nat} {p : Production}
    (origin : Origin n rules start p) (kinds : n.kinds = rules.length) {r : Rule}
    (rule : rules[p.head]? = some r) : ∃ s ∈ r.expand n, p.steps.toList = s.steps := by
  have lt : p.head < n.kinds := kinds ▸ (List.getElem?_eq_some_iff.1 rule).1
  cases origin with
  | whole head => omega
  | rule rule' member steps =>
    obtain rfl := Option.some.inj (rule.symm.trans rule')
    exact ⟨_, member, steps⟩
  | @longer item run head _ | @single item _ run head _ _ =>
    have := n.kinds_le_run item
    omega

theorem Origin.of_run {n : Numbering} {rules : List Rule} {start : Nat} {p : Production}
    (origin : Origin n rules start p) (kinds : n.kinds = rules.length) {item : Rule} (run : item ∈ n.runs)
    (head : p.head = n.run item) :
    p.steps.toList = [{ symbol := .phrase (n.run item) }, { symbol := .phrase (n.run item) }] ∨
      ∃ s ∈ item.expand n, p.steps.toList = s.steps := by
  cases origin with
  | whole head' => exact absurd (head.symm.trans head') (Nat.ne_of_lt (Numbering.run_lt run))
  | rule rule _ _ =>
    have lt := (List.getElem?_eq_some_iff.1 rule).1
    have := n.kinds_le_run item
    omega
  | @longer item' run' head' steps =>
    obtain rfl := Numbering.run_injective run (head.symm.trans head')
    exact .inl steps
  | @single item' s run' head' member steps =>
    obtain rfl := Numbering.run_injective run (head.symm.trans head')
    exact .inr ⟨s, member, steps⟩

end PugComponents.Script
