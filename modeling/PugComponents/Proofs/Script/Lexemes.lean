import PugComponents.Proofs.Script.Spelling
import PugComponents.Script.Lexeme

/-! Every piece that is found in a text is spelled as its token tells. A piece that is spelled like a fixed
word is spelled like any other word, too. -/

namespace PugComponents.Script

namespace Lexeme

/-- The text of a piece, without the white space before it. -/
def text (l : Lexeme) (cs : List Char) : List Char := (cs.drop l.gap).take l.length

theorem eq_or_of_longer {best : Option Lexeme} {l m : Lexeme} (h : longer best l = some m) :
    m = l ∨ best = some m := by
  cases best with
  | none => exact .inl (Option.some.inj h).symm
  | some b =>
    rw [longer] at h
    split at h
    · exact .inl (Option.some.inj h).symm
    · exact .inr h

theorem of_foldl_longer {α : Type} {Q : Lexeme → Prop} {f : α → Lexeme} {as : List α}
    (each : ∀ a ∈ as, Q (f a))
    {best : Option Lexeme} (known : ∀ m ∈ best, Q m) :
    ∀ m ∈ as.foldl (fun best a => longer best (f a)) best, Q m := by
  induction as generalizing best with
  | nil => exact known
  | cons a as ih =>
    obtain ⟨first, others⟩ := List.forall_mem_cons.1 each
    refine ih others fun m hm => ?_
    rcases eq_or_of_longer hm with rfl | hm
    · exact first
    · exact known m hm

end Lexeme

namespace Tables

/-- A piece at the start of a text is spelled as its token tells. -/
structure Fits (g : Tables) (cs : List Char) (l : Lexeme) : Prop where
  spelled : g.Spells l.token (l.text cs)
  reserved : l.isReserved = true → g.Spells (g.token .word) (l.text cs)

variable {g : Tables} {expected : TokenSet} {cs : List Char} {l : Lexeme}

theorem Fits.asWord (fits : g.Fits cs l) (reserved : l.isReserved = true) :
    g.Fits cs { l with token := g.token .word } where
  spelled := fits.reserved reserved
  reserved := fits.reserved

theorem spells_token {t : Token} {text : List Char} (spells : t.Spells text) : g.Spells (g.token t) text := by
  by_cases known : t ∈ g.tokens
  · have lt : g.tokens.idxOf t < g.tokens.size := Array.idxOf_lt_length_of_mem known
    have found : (g.tokens[g.tokens.idxOf t] == t) = true := Array.findIdx_getElem (w := lt)
    have same : g.tokens.getD (g.token t) .ending = t := by
      simpa [Tables.token, Array.getD, lt] using found
    exact (spells_iff same).2 spells
  · have same : g.tokens.getD (g.token t) .ending = .ending := by
      simp [Tables.token, Array.getD, Array.idxOf_eq_size known]
    exact (spells_iff same).2 trivial

theorem fits_of_token {t : Token} {gap length : Nat} (spells : t.Spells ((cs.drop gap).take length)) :
    g.Fits cs ⟨g.token t, gap, length, false⟩ where
  spelled := spells_token spells
  reserved := nofun

theorem fits_of_ternary? {rest : List Char} (h : g.ternary? cs rest = some l) : g.Fits cs l := by
  obtain ⟨n, -, rfl⟩ := Option.map_eq_some_iff.1 h
  exact fits_of_token trivial

theorem fits_of_expectedPiece? (h : g.expectedPiece? expected cs = some l) : g.Fits cs l := by
  have one {t : Token} {n : Nat} (h : some (g.piece t n) = some l) (free : ∀ text, t.Spells text) :
    g.Fits cs l := by
    obtain rfl := Option.some.inj h
    exact fits_of_token (free _)
  unfold expectedPiece? at h
  dsimp only at h
  split at h
  · split at h
    · cases h
    · split at h
      · exact one h fun _ => trivial
      · cases h
  · split at h
    · split at h
      · exact one h fun _ => trivial
      · split at h
        · exact fits_of_ternary? h
        · cases h
    · split at h
      · exact fits_of_ternary? h
      · split at h
        · cases h
        · split at h
          · cases h
          · exact one h fun _ => trivial

theorem fits_of_literalPiece? (h : g.literalPiece? expected cs = some l) : g.Fits cs l := by
  obtain ⟨⟨t, form⟩, member, found⟩ := List.exists_of_findSome?_eq_some h
  dsimp only at found
  split at found
  · cases found
  · obtain rfl := Option.some.inj found
    have free : ∀ text, t.Spells text := by
      simp only [List.mem_cons, List.not_mem_nil, or_false, Prod.mk.injEq] at member
      rcases member with ⟨rfl, -⟩ | ⟨rfl, -⟩ | ⟨rfl, -⟩ <;> exact fun _ => trivial
    exact fits_of_token (free _)

theorem longestSign_cases (g : Tables) (expected : TokenSet) (cs : List Char) :
    (g.longestSign expected cs).2 = 0 ∨ ∃ s ∈ g.signs, g.longestSign expected cs = (s.2, s.1.length) ∧
      s.1 <+: cs := by
  unfold longestSign
  refine List.foldlRecOn
    (motive := fun best => best.2 = 0 ∨ ∃ s ∈ g.signs, best = (s.2, s.1.length) ∧ s.1 <+: cs)
    _ _ ?_ fun best known s member => ?_
  · exact .inl rfl
  dsimp only
  split
  · rename_i better
    have starts : s.1.isPrefixOf cs = true := (Bool.and_eq_true_iff.1 better).2
    exact .inr ⟨s, member, rfl, List.isPrefixOf_iff_prefix.1 starts⟩
  · exact known

theorem fits_of_wordLexeme (spelled : g.IsSpelled) (gap : Nat) :
    g.Fits cs (g.wordLexeme expected gap ((cs.drop gap).take (wordLength (cs.drop gap)))) := by
  generalize found : (cs.drop gap).take (wordLength (cs.drop gap)) = word
  have text : (cs.drop gap).take word.length = word := by
    rw [← found, List.length_take]
    exact List.take_eq_take_min.symm
  have asWord : g.Spells (g.token .word) word := spells_token ⟨cs.drop gap, found.symm⟩
  unfold wordLexeme
  split
  · rename_i n known
    refine ⟨?_, fun _ => by rwa [Lexeme.text, text]⟩
    rw [Lexeme.text, text]
    dsimp only
    split
    · obtain ⟨before, after, split, -⟩ := List.lookup_eq_some_iff.1 known
      have fixed := spelled.words (String.ofList word, n) (by rw [split]; simp)
      exact (spells_iff fixed).2 (String.toList_ofList ..).symm
    · exact asWord
  · exact ⟨by rwa [Lexeme.text, text], nofun⟩

theorem fits_of_longestSign (spelled : g.IsSpelled) {gap : Nat}
    (pos : 0 < (g.longestSign expected (cs.drop gap)).2) :
    g.Fits cs ⟨(g.longestSign expected (cs.drop gap)).1, gap,
      (g.longestSign expected (cs.drop gap)).2, false⟩ where
  spelled := by
    rcases g.longestSign_cases expected (cs.drop gap) with none | ⟨s, member, same, starts⟩
    · exact absurd none (Nat.ne_of_gt pos)
    · rw [same, Lexeme.text, ← List.prefix_iff_eq_take.1 starts]
      exact (spells_iff (spelled.signs s member)).2 (String.toList_ofList ..).symm
  reserved := nofun

theorem fits_of_plainPiece? (spelled : g.IsSpelled) (h : g.plainPiece? expected cs = some l) :
    g.Fits cs l := by
  unfold plainPiece? at h
  dsimp only at h
  generalize attached : List.foldl _ none (List.filter _ [(Token.escape, _), _, _]) = best at h
  have known : ∀ m ∈ best, g.Fits cs m := by
    rw [← attached]
    refine Lexeme.of_foldl_longer (fun a member => ?_) (by simp)
    have listed := (List.mem_filter.1 member).1
    simp only [List.mem_cons, List.not_mem_nil, or_false] at listed
    rcases listed with rfl | rfl | rfl <;> exact fits_of_token trivial
  split at h
  · obtain rfl := Option.some.inj h
    cases best with
    | none => exact fits_of_token trivial
    | some m => exact known m rfl
  · generalize gathered : List.foldl _ best (List.filter _ [(g.token .comment, _), _, _, _, _]) = best' at h
    have known' : ∀ m ∈ best', g.Fits cs m := by
      rw [← gathered]
      refine Lexeme.of_foldl_longer (fun a member => ?_) known
      obtain ⟨listed, pos⟩ := List.mem_filter.1 member
      have pos : 0 < a.2 := of_decide_eq_true pos
      simp only [List.mem_cons, List.not_mem_nil, or_false] at listed
      rcases listed with rfl | rfl | rfl | rfl | rfl
      · exact fits_of_token trivial
      · exact fits_of_longestSign spelled pos
      · refine fits_of_token ⟨cs.drop (countWhile isSpace cs), ?_⟩
        dsimp only [lengthOf] at pos ⊢
        split at pos
        · rw [if_pos ‹_›]
        · exact absurd pos (Nat.lt_irrefl 0)
      · exact fits_of_token trivial
      · exact fits_of_token trivial
    split at h
    · rcases Lexeme.eq_or_of_longer h with rfl | found
      · exact fits_of_wordLexeme spelled _
      · exact known' l found
    · exact known' l h

/-- Every piece that is found is spelled as its token tells. -/
theorem fits_of_lexeme? (spelled : g.IsSpelled) (h : g.lexeme? expected cs = some l) : g.Fits cs l := by
  have cases : g.expectedPiece? expected cs = some l ∨ g.literalPiece? expected cs = some l ∨
      g.plainPiece? expected cs = some l := by
    unfold lexeme? at h
    cases first : g.expectedPiece? expected cs with
    | some m => exact .inl (by rw [first] at h; exact h)
    | none =>
      rw [first] at h
      cases second : g.literalPiece? expected cs with
      | some m => exact .inr (.inl (by rw [second] at h; exact h))
      | none => exact .inr (.inr (by rw [second] at h; exact h))
  rcases cases with h | h | h
  · exact fits_of_expectedPiece? h
  · exact fits_of_literalPiece? h
  · exact fits_of_plainPiece? spelled h

end Tables

end PugComponents.Script
