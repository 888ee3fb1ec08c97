import PugComponents.Proofs.Script.Search
import PugComponents.Script.TextScan

/-! How the text of an object pattern is read. It is cut at its commas, and each piece at its first equals
sign and its first colon; white space around names and keys is left out. Where white space and names are
what they are taken for, the keys and bindings of an entry come out as they stand in it. -/

namespace PugComponents

namespace Text

def IsGap (cs : List Char) : Prop := ∀ c ∈ cs, isBlank c = true

structure IsTight (cs : List Char) : Prop where
  ne_nil : cs ≠ []
  head : ∀ c ∈ cs.head?, isBlank c = false
  last : ∀ c ∈ cs.getLast?, isBlank c = false

theorem not_mem_of_forall {p : Char → Bool} {c : Char} {cs : List Char} (stop : p c = false)
    (all : ∀ d ∈ cs, p d = true) : c ∉ cs :=
  fun member => Bool.false_ne_true (stop.symm.trans (all c member))

theorem isGap_nil : IsGap [] := by simp [IsGap]

theorem IsTight.of_forall {cs : List Char} (ne_nil : cs ≠ []) (solid : ∀ c ∈ cs, isBlank c = false) :
    IsTight cs where
  ne_nil := ne_nil
  head c hc := solid c (List.mem_of_mem_head? hc)
  last c hc := solid c (List.mem_of_mem_getLast? hc)

theorem IsTight.exists_concat {cs : List Char} (h : IsTight cs) : ∃ front c, cs = front ++ [c] :=
  ⟨cs.dropLast, cs.getLast h.ne_nil, (List.dropLast_concat_getLast h.ne_nil).symm⟩

theorem IsTight.append {cs ds : List Char} (h : IsTight cs) (mid : List Char) (h' : IsTight ds) :
    IsTight (cs ++ (mid ++ ds)) := by
  obtain ⟨c, cs', rfl⟩ := List.exists_cons_of_ne_nil h.ne_nil
  obtain ⟨ds', d, rfl⟩ := h'.exists_concat
  refine ⟨by simp, h.head, ?_⟩
  rw [← List.append_assoc mid, ← List.append_assoc, List.getLast?_concat]
  simpa using h'.last

section Trimming

variable {p : Char → Bool} {cs ds : List Char} {c : Char}

theorem dropEndWhile_cons (stop : p c = false) (cs : List Char) :
    dropEndWhile p (c :: cs) = c :: dropEndWhile p cs := by
  rw [dropEndWhile]
  cases dropEndWhile p cs <;> simp [stop]

theorem dropEndWhile_append_cons (stop : p c = false) (cs ds : List Char) :
    dropEndWhile p (cs ++ c :: ds) = cs ++ c :: dropEndWhile p ds := by
  induction cs with
  | nil => exact dropEndWhile_cons stop ds
  | cons d cs ih =>
    rw [List.cons_append, dropEndWhile, ih]
    cases cs <;> rfl

theorem dropEndWhile_eq_nil (all : ∀ c ∈ cs, p c = true) : dropEndWhile p cs = [] := by
  induction cs with
  | nil => rfl
  | cons c cs ih =>
    rw [List.forall_mem_cons] at all
    rw [dropEndWhile, ih all.2]
    simp [all.1]

theorem trimChars_append_of_isGap (gap : IsGap cs) (ds : List Char) :
    trimChars (cs ++ ds) = trimChars ds := by
  rw [trimChars, trimWhile, List.dropWhile_append_of_pos gap, trimChars, trimWhile]

theorem trimChars_of_isGap (gap : IsGap cs) : trimChars cs = [] := by
  have same := trimChars_append_of_isGap gap []
  rwa [List.append_nil] at same

theorem trimChars_append (head : ∀ c ∈ cs.head?, isBlank c = false) (ne_nil : cs ≠ []) (ds : List Char) :
    trimChars (cs ++ ds) = dropEndWhile isBlank (cs ++ ds) := by
  cases cs with
  | nil => exact absurd rfl ne_nil
  | cons c cs =>
    have stop := head c rfl
    rw [trimChars, trimWhile, List.cons_append, List.dropWhile_cons_of_neg (by simp [stop])]

theorem IsTight.trimChars_append (tight : IsTight cs) (gap : IsGap ds) : trimChars (cs ++ ds) = cs := by
  rw [Text.trimChars_append tight.head tight.ne_nil]
  obtain ⟨front, c, rfl⟩ := tight.exists_concat
  have stop := tight.last c (by simp)
  rw [List.append_assoc, List.singleton_append, dropEndWhile_append_cons stop, dropEndWhile_eq_nil gap]

theorem IsTight.trimChars (tight : IsTight cs) : trimChars cs = cs := by
  have same := tight.trimChars_append isGap_nil
  rwa [List.append_nil] at same

end Trimming

section Cutting

variable {sep : Char} {cs : List Char}

theorem splitAll_append (free : sep ∉ cs) (ds : List Char) :
    splitAll sep (cs ++ sep :: ds) = cs :: splitAll sep ds := by
  induction cs with
  | nil => simp [splitAll]
  | cons c cs ih =>
    rw [List.mem_cons, not_or] at free
    rw [List.cons_append, splitAll, if_neg (Ne.symm free.1), ih free.2]

theorem beforeFirst_append (free : sep ∉ cs) (ds : List Char) : beforeFirst sep (cs ++ sep :: ds) = cs := by
  have passes : ∀ c ∈ cs, (c != sep) = true := fun c hc => bne_iff_ne.2 fun same => free (same ▸ hc)
  rw [beforeFirst, List.takeWhile_append_of_pos passes]
  simp

theorem beforeFirst_of_not_mem (free : sep ∉ cs) : beforeFirst sep cs = cs := by
  have passes : ∀ c ∈ cs, (c != sep) = true := fun c hc => bne_iff_ne.2 fun same => free (same ▸ hc)
  exact List.takeWhile_eq_self_iff.2 passes

theorem afterFirst?_append (free : sep ∉ cs) (ds : List Char) :
    afterFirst? sep (cs ++ sep :: ds) = some ds := by
  induction cs with
  | nil => simp [afterFirst?]
  | cons c cs ih =>
    rw [List.mem_cons, not_or] at free
    rw [List.cons_append, afterFirst?, if_neg (Ne.symm free.1), ih free.2]

theorem afterFirst?_of_not_mem (free : sep ∉ cs) : afterFirst? sep cs = none := by
  induction cs with
  | nil => rfl
  | cons c cs ih =>
    rw [List.mem_cons, not_or] at free
    rw [afterFirst?, if_neg (Ne.symm free.1), ih free.2]

end Cutting

end Text

namespace Script.TextScan

open Text

def targetNames (target : List Char) : List String × List String :=
  match afterFirst? ':' target with
  | some binding =>
    ([stripQuotes (String.ofList (trimChars (beforeFirst ':' target)))], [String.ofList (trimChars binding)])
  | none => ([String.ofList (trimChars target)], [String.ofList (trimChars target)])

/-- A text does not start with the dots of a rest, whatever follows it. -/
def IsUndotted (cs : List Char) : Prop := ∀ c ∈ cs.head?, c = '.' → ∃ d ∈ cs.tail.head?, d ≠ '.'

theorem IsUndotted.append {cs : List Char} (undotted : IsUndotted cs) (ne_nil : cs ≠ []) (ds : List Char) :
    IsUndotted (cs ++ ds) := by
  obtain ⟨c, cs, rfl⟩ := List.exists_cons_of_ne_nil ne_nil
  intro d first dot
  obtain ⟨e, next, other⟩ := undotted d first dot
  obtain ⟨cs, rfl⟩ := List.head?_eq_some_iff.1 (Option.mem_def.1 next)
  exact ⟨e, rfl, other⟩

theorem dropStart?_eq_none {cs : List Char} (ne_nil : cs ≠ []) (undotted : IsUndotted cs) (ds : List Char) :
    dropStart? ['.', '.', '.'] (cs ++ ds) = none := by
  obtain ⟨c, cs, rfl⟩ := List.exists_cons_of_ne_nil ne_nil
  by_cases dot : c = '.'
  · obtain ⟨d, next, other⟩ := undotted c rfl dot
    obtain ⟨cs, rfl⟩ := List.head?_eq_some_iff.1 (Option.mem_def.1 next)
    simp [dropStart?, Ne.symm other]
  · simp [dropStart?, Ne.symm dot]

section Entries

variable {gap head gap' : List Char}

theorem entryNames_of_isGap (blank : IsGap gap) : entryNames gap = ([], []) := by
  simp [entryNames, trimChars_of_isGap blank]

theorem entryNames_of_trimChars {entry rest : List Char} (ne_nil : head ≠ []) (undotted : IsUndotted head)
    (trimmed : trimChars entry = head ++ rest) : entryNames entry = targetNames
      (beforeFirst '=' (head ++ rest)) := by
  have nonempty : (head ++ rest).isEmpty = false := by simp [ne_nil]
  rw [entryNames, trimmed]
  simp only [nonempty, dropStart?_eq_none ne_nil undotted]
  rfl

theorem entryNames_of_target (before : IsGap gap) (tight : IsTight head) (undotted : IsUndotted head)
    (bare : '=' ∉ head) (after : IsGap gap') : entryNames (gap ++ (head ++ gap')) = targetNames head := by
  have trimmed : trimChars (gap ++ (head ++ gap')) = head ++ [] := by
    rw [trimChars_append_of_isGap before, tight.trimChars_append after, List.append_nil]
  rw [entryNames_of_trimChars tight.ne_nil undotted trimmed, List.append_nil, beforeFirst_of_not_mem bare]

theorem entryNames_of_default (before : IsGap gap) (tight : IsTight head) (undotted : IsUndotted head)
    (bare : '=' ∉ head) (after : IsGap gap') (rest : List Char) :
    entryNames (gap ++ (head ++ (gap' ++ '=' :: rest))) = targetNames (head ++ gap') := by
  have free : '=' ∉ head ++ gap' := by
    simpa using ⟨bare, not_mem_of_forall (by decide) after⟩
  have trimmed : trimChars (gap ++ (head ++ (gap' ++ '=' :: rest))) =
      head ++ (gap' ++ '=' :: dropEndWhile isBlank rest) := by
    rw [trimChars_append_of_isGap before, trimChars_append tight.head tight.ne_nil, ← List.append_assoc,
      dropEndWhile_append_cons (by decide), List.append_assoc]
  rw [entryNames_of_trimChars tight.ne_nil undotted trimmed, ← List.append_assoc, beforeFirst_append free]

theorem targetNames_of_name {name : List Char} (tight : IsTight name) (colonless : ':' ∉ name)
    (after : IsGap gap) : targetNames (name ++ gap) = ([String.ofList name], [String.ofList name]) := by
  have free : ':' ∉ name ++ gap := by simpa using ⟨colonless, not_mem_of_forall (by decide) after⟩
  rw [targetNames, afterFirst?_of_not_mem free, tight.trimChars_append after]

theorem targetNames_of_pair {key name between : List Char} (keyTight : IsTight key) (colonless : ':' ∉ key)
    (before : IsGap gap) (middle : IsGap between) (tight : IsTight name) (after : IsGap gap') :
    targetNames (key ++ (gap ++ ':' :: (between ++ (name ++ gap')))) =
      ([stripQuotes (String.ofList key)], [String.ofList name]) := by
  have free : ':' ∉ key ++ gap := by simpa using ⟨colonless, not_mem_of_forall (by decide) before⟩
  rw [targetNames, ← List.append_assoc key, afterFirst?_append free, beforeFirst_append free]
  dsimp only
  rw [keyTight.trimChars_append before, trimChars_append_of_isGap middle, tight.trimChars_append after]

theorem entryNames_of_rest {name between : List Char} (before : IsGap gap) (middle : IsGap between)
    (tight : IsTight name) (after : IsGap gap') :
    entryNames (gap ++ ('.' :: '.' :: '.' :: (between ++ (name ++ gap')))) = ([], [String.ofList name]) := by
  have solid : ∀ c ∈ List.replicate 3 '.', isBlank c = false := fun c member =>
    List.eq_of_mem_replicate member ▸ by decide
  have dots : IsTight ['.', '.', '.'] := .of_forall (by simp) solid
  have trimmed : trimChars (gap ++ ('.' :: '.' :: '.' :: (between ++ (name ++ gap')))) =
      '.' :: '.' :: '.' :: (between ++ name) := by
    have whole := (dots.append between tight).trimChars_append after
    rw [trimChars_append_of_isGap before]
    simpa using whole
  rw [entryNames, trimmed]
  simp [dropStart?, trimChars_append_of_isGap middle, tight.trimChars]

end Entries

end Script.TextScan

end PugComponents
