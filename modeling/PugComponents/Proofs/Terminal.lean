import PugComponents.Diagnostic
import Mathlib.Data.List.Forall2

/-! Colours can be taken out again. A text is coloured by putting escape sequences around parts of it;
each is removed as a whole, whatever text follows, and no other character is. So a diagnostic reads the
same with colours and without, however many lines its hint has. -/

namespace PugComponents

namespace Terminal

/-- No escape sequence begins in the text. -/
abbrev IsPlain (text : String) : Prop := '\x1b' ∉ text.toList

/-- A text that begins with `colored` and goes on in any way is stripped to `plain` and what is left of
the rest. -/
def Reduces (colored plain : List Char) : Prop :=
  ∀ rest, stripFrom 0 (colored ++ rest) = plain ++ stripFrom 0 rest

theorem stripFrom_length_append (cs rest : List Char) :
    stripFrom cs.length (cs ++ rest) = stripFrom 0 rest := by
  induction cs with
  | nil => rfl
  | cons c cs ih => rw [List.length_cons, List.cons_append, stripFrom, ih]

theorem stripFrom_escape {cs : List Char} {n : Nat} (found : sequenceLength? cs = some n) :
    stripFrom 0 ('\x1b' :: cs) = stripFrom n cs := by
  rw [stripFrom, if_pos rfl, found]

/-- A sequence ends with the first character behind its parameters if that can end one. -/
theorem sequenceLength?_bracket {parameters : List Char} (numeric : ∀ c ∈ parameters, isParameter c = true)
    {last : Char} (ends : isFinal last = true) (notParameter : isParameter last = false)
    (notIntermediate : isIntermediate last = false) (rest : List Char) :
    sequenceLength? ('[' :: (parameters ++ last :: rest)) = some (parameters.length + 2) := by
  have taken : (parameters ++ last :: rest).takeWhile isParameter = parameters := by
    rw [List.takeWhile_append_of_pos numeric, List.takeWhile_cons_of_neg (by simp [notParameter]),
      List.append_nil]
  have dropped : (parameters ++ last :: rest).dropWhile isParameter = last :: rest := by
    rw [List.dropWhile_append_of_pos numeric, List.dropWhile_cons_of_neg (by simp [notParameter])]
  simp [sequenceLength?, taken, dropped, notIntermediate, ends]

namespace Style

theorem isParameter_of_mem_code {s : Style} {c : Char} (h : c ∈ s.code) : isParameter c = true := by
  have numeric : s.code.all isParameter = true := by cases s <;> rfl
  exact List.all_eq_true.1 numeric c h

end Style

namespace Reduces

variable {colored plain colored' plain' : List Char}

theorem nil : Reduces [] [] := fun _ => rfl

theorem append (first : Reduces colored plain) (second : Reduces colored' plain') :
    Reduces (colored ++ colored') (plain ++ plain') := by
  intro rest
  rw [List.append_assoc, first, second, List.append_assoc]

theorem of_not_mem {cs : List Char} (h : '\x1b' ∉ cs) : Reduces cs cs := by
  intro rest
  induction cs with
  | nil => rfl
  | cons c cs ih =>
    rw [List.mem_cons, not_or] at h
    rw [List.cons_append, stripFrom, if_neg (Ne.symm h.1), ih h.2, List.cons_append]

theorem sequence (s : Style) : Reduces s.sequence [] := by
  intro rest
  have found : sequenceLength? ('[' :: (s.code ++ 'm' :: rest)) = some (s.code.length + 2) :=
    sequenceLength?_bracket (fun _ => Style.isParameter_of_mem_code) (by decide) (by decide) (by decide) rest
  calc stripFrom 0 (s.sequence ++ rest)
      = stripFrom 0 ('\x1b' :: '[' :: (s.code ++ 'm' :: rest)) := by simp [Style.sequence]
    _ = stripFrom (s.code.length + 2) ('[' :: (s.code ++ 'm' :: rest)) := stripFrom_escape found
    _ = stripFrom ('[' :: (s.code ++ ['m'])).length ('[' :: (s.code ++ ['m']) ++ rest) := by simp
    _ = stripFrom 0 rest := stripFrom_length_append _ rest

theorem sequences (styles : List Style) : Reduces (styles.flatMap Style.sequence) [] := by
  induction styles with
  | nil => exact nil
  | cons s styles ih => exact (sequence s).append ih

theorem styled {text : List Char} (h : '\x1b' ∉ text) (styles : List Style) :
    Reduces (Terminal.styled styles text) text := by
  unfold Terminal.styled
  split
  · exact of_not_mem h
  · have around := ((sequences styles).append (of_not_mem h)).append (sequence .reset)
    rwa [List.nil_append, List.append_nil] at around

theorem stripFrom_eq (h : Reduces colored plain) : stripFrom 0 colored = plain := by
  have whole := h []
  rwa [List.append_nil, stripFrom_nil, List.append_nil] at whole

end Reduces

def Paints (colored plain : String) : Prop := Reduces colored.toList plain.toList

namespace Paints

variable {colored plain colored' plain' text : String}

theorem refl (h : IsPlain text) : Paints text text := Reduces.of_not_mem h

theorem append (first : Paints colored plain) (second : Paints colored' plain') :
    Paints (colored ++ colored') (plain ++ plain') := by
  unfold Paints
  rw [String.toList_append, String.toList_append]
  exact Reduces.append first second

theorem colorize (h : IsPlain text) (colors : Bool) (styles : List Style) :
    Paints (Terminal.colorize colors styles text) text := by
  cases colors with
  | false => exact refl h
  | true =>
    unfold Paints Terminal.colorize
    rw [if_pos rfl, String.toList_ofList]
    exact Reduces.styled h styles

theorem paint (h : IsPlain text) (colors : Bool) (role : Role) : Paints (role.paint colors text) text :=
  colorize h colors role.styles

theorem join {sep : String} (h : IsPlain sep) {colored plain : List String}
    (each : List.Forall₂ Paints colored plain) : Paints (Text.join sep colored) (Text.join sep plain) := by
  induction each with
  | nil => exact Reduces.nil
  | cons first others ih =>
    cases others with
    | nil => exact first
    | cons _ _ => exact (first.append (refl h)).append ih

theorem strip_eq (h : Paints colored plain) : strip colored = plain := by
  rw [strip, h.stripFrom_eq, String.ofList_toList]

end Paints

end Terminal

namespace Text

theorem mem_of_mem_splitLines {cs line : List Char} {c : Char} (hline : line ∈ splitLines cs)
    (hc : c ∈ line) : c ∈ cs := by
  fun_induction splitLines cs generalizing line with
  | case1 => cases hline
  | case2 cs ih =>
    rcases List.mem_cons.1 hline with rfl | hline
    · cases hc
    · exact List.mem_cons_of_mem _ (List.mem_cons_of_mem _ (ih hline hc))
  | case3 d cs _ _ ih =>
    rcases List.mem_cons.1 hline with rfl | hline
    · cases hc
    · exact List.mem_cons_of_mem _ (ih hline hc)
  | case4 d cs _ _ none ih =>
    obtain rfl := List.mem_singleton.1 hline
    exact List.mem_cons.2 (.inl (List.mem_singleton.1 hc))
  | case5 d cs _ _ first others found ih =>
    rcases List.mem_cons.1 hline with rfl | hline
    · rcases List.mem_cons.1 hc with rfl | hc
      · exact List.mem_cons_self
      · exact List.mem_cons_of_mem _ (ih (found ▸ List.mem_cons_self) hc)
    · exact List.mem_cons_of_mem _ (ih (found ▸ List.mem_cons_of_mem _ hline) hc)

theorem isPlain_of_mem_lines {text line : String} (h : Terminal.IsPlain text) (hline : line ∈ lines text) :
    Terminal.IsPlain line := by
  obtain ⟨cs, hcs, rfl⟩ := List.mem_map.1 hline
  rw [Terminal.IsPlain, String.toList_ofList]
  exact fun hc => h (mem_of_mem_splitLines hcs hc)

end Text

namespace ErrorCode

theorem isPlain_text (code : ErrorCode) : Terminal.IsPlain code.text := by cases code <;> decide

theorem toList_docs (code : ErrorCode) :
    code.docs.toList = "docs/errors.md#".toList ++ code.text.toList.map Char.toLower := by
  rw [← String.toList_map]
  exact String.toList_append

theorem isPlain_docs (code : ErrorCode) : Terminal.IsPlain code.docs := by
  rw [Terminal.IsPlain, toList_docs, List.mem_append, not_or]
  exact ⟨by decide, by cases code <;> decide⟩

end ErrorCode

namespace Diagnostic

open Terminal

structure IsPlain (d : Diagnostic) : Prop where
  message : Terminal.IsPlain d.cause.message
  location : ∀ loc ∈ d.location, Terminal.IsPlain loc.format
  hint : ∀ hint ∈ d.cause.hint, Terminal.IsPlain hint

theorem paints_hintLines {hint : String} (h : Terminal.IsPlain hint) (colors : Bool) :
    List.Forall₂ Paints (hintLines colors hint) (hintLines false hint) := by
  have plain : ∀ line ∈ Text.lines hint, Terminal.IsPlain line := fun _ => Text.isPlain_of_mem_lines h
  unfold hintLines
  generalize Text.lines hint = lines at plain
  cases lines with
  | nil => exact .nil
  | cons line lines =>
    rw [List.forall_mem_cons] at plain
    refine .cons ((Paints.refl (by decide)).append (Paints.paint plain.1 colors _)) ?_
    rw [List.forall₂_map_left_iff, List.forall₂_map_right_iff, List.forall₂_same]
    exact fun line hline => (Paints.refl (by decide)).append (Paints.paint (plain.2 line hline) colors _)

theorem paints_compactLines {d : Diagnostic} (h : d.IsPlain) (colors : Bool) :
    List.Forall₂ Paints (compactLines colors d) (compactLines false d) := by
  unfold compactLines
  refine List.rel_append (List.rel_append (List.rel_append ?code ?place) ?hint) ?docs
  case code =>
    cases d.cause.code? with
    | none => exact .cons (Paints.refl h.message) .nil
    | some code =>
      exact .cons (((Paints.paint code.isPlain_text colors _).append (Paints.refl (by decide))).append
        (Paints.refl h.message)) .nil
  case place =>
    cases found : d.location with
    | none => exact .nil
    | some loc =>
      exact .cons ((Paints.refl (by decide)).append (Paints.paint (h.location loc found) colors _)) .nil
  case hint =>
    cases found : d.cause.hint with
    | none => exact .nil
    | some hint =>
      dsimp only
      split
      · exact .nil
      · exact paints_hintLines (h.hint hint found) colors
  case docs =>
    cases d.cause.code? with
    | none => exact .nil
    | some code => exact .cons ((Paints.refl (by decide)).append (Paints.paint code.isPlain_docs colors _)) .nil

/-- Colours change nothing but the escape sequences: a diagnostic in colour is stripped to the diagnostic
without colours, and any text in any styles to the text. -/
theorem strip_of_isPlain {d : Diagnostic} (h : d.IsPlain) :
    (∀ colors, strip (d.compact colors) = d.compact false) ∧
      ∀ colors styles text, Terminal.IsPlain text → strip (colorize colors styles text) = text :=
  ⟨fun colors => (Paints.join (by decide) (paints_compactLines h colors)).strip_eq,
    fun colors styles _ plain => (Paints.colorize plain colors styles).strip_eq⟩

def readingReport : Diagnostic where
  cause := .externalVariable "user" "Greeting"
  location := some { line := .int 12, column := .int 3, filename := .str "page.pug" }

theorem strip_readingReport :
    readingReport.IsPlain ∧ strip (readingReport.compact true) = readingReport.compact false ∧
      strip (colorize true [.brightRed, .bold] "PT-CMP-001") = "PT-CMP-001" := by
  have plain : readingReport.IsPlain := {
    message := by decide
    location := by
      rintro _ ⟨⟩
      decide +kernel
    hint := by
      rintro _ ⟨⟩
      decide +kernel }
  obtain ⟨whole, part⟩ := strip_of_isPlain plain
  exact ⟨plain, whole true, part true _ _ (by decide)⟩

end Diagnostic

end PugComponents
