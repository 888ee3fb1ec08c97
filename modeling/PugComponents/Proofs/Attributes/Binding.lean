import PugComponents.Proofs.Attributes.Forwarding
import PugComponents.Proofs.Characters
import PugComponents.Proofs.Json.ReadBack

/-! What the attributes of a call are bound to in a body with declared keys. `Binds` says it without the
program: every name that was given has one entry in one of the two objects, with the last value, and the
caller's variables among the values are handed in as parameters of the scope, each in the place of its
argument. Values that are made of more than a variable stay as they were written. -/

namespace PugComponents

open Node Outcome

/-- The script around a body with declared keys: the parameters and the arguments of its scope, and the
entries of the objects `$props` and `$attrs`. -/
structure Prologue where
  parameters : List String
  arguments : List String
  props : List (String × String)
  attrs : List (String × String)

namespace Prologue

def literal (entries : List (String × String)) : String :=
  "\x7b" ++ Text.join ", " (entries.map fun entry => quotedKey entry.1 ++ ": " ++ entry.2) ++ "\x7d"

def opening (p : Prologue) : String :=
  if p.parameters.isEmpty then "\x7b" else ";((" ++ Text.join ", " p.parameters ++ ") => \x7b"

def closing (p : Prologue) : String :=
  if p.arguments.isEmpty then "\x7d" else "\x7d)(" ++ Text.join ", " p.arguments ++ ")"

def around (p : Prologue) (pos : Position) (nodes : List Node) : List Node :=
  [statementNode pos p.opening, statementNode pos ("const $props = " ++ literal p.props),
    statementNode pos ("const $attrs = " ++ literal p.attrs)] ++ nodes ++ [statementNode pos p.closing]

/-- A value as the caller sees it: a parameter is the argument in its place. -/
def restore (p : Prologue) (value : String) : String :=
  ((p.parameters.zip p.arguments).lookup value).getD value

/-- What the script around a body is to bind for the given attributes. -/
structure Binds (usage : Usage) (given : List (String × String)) (p : Prologue) : Prop where
  props_names : p.props.map Prod.fst = (givenNames given).filter fun name => name ∈ usage.props
  attrs_names : p.attrs.map Prod.fst = (givenNames given).filter fun name => name ∉ usage.props
  once : ∀ name ∈ given.map Prod.fst, ((p.props ++ p.attrs).map Prod.fst).count name = 1
  keys_nodup : ((p.props ++ p.attrs).map fun entry => quotedKey entry.1).Nodup
  /-- A variable is handed in as a parameter; all else is written as it was given. -/
  value : ∀ entry ∈ p.props ++ p.attrs, ∃ source, lastGiven? given entry.1 = some source ∧
    entry.2 = (if isVariableReference source then parameterFor (Text.trim source) else source) ∧
    Text.trim (p.restore entry.2) = Text.trim source ∧
    (isVariableReference source → Text.trim source ∈ p.arguments ∧
      p.parameters.idxOf (parameterFor (Text.trim source)) = p.arguments.idxOf (Text.trim source))
  parameters_nodup : p.parameters.Nodup
  arguments_length : p.arguments.length = p.parameters.length
  /-- Without variables the scope is a plain block. -/
  plain : p.opening = "\x7b" ∧ p.closing = "\x7d" ↔
    ∀ name source, lastGiven? given name = some source → ¬ isVariableReference source

theorem applyFallthrough_around {p : Prologue} {pos : Position} {component : String} {usage : Option Usage}
    {nodes out : List Node} (h : (applyFallthrough component usage (p.around pos nodes)).result = .ok out) :
    out = p.around pos (nodes.map (forwardAtRoot (forwarded? usage nodes))) := by
  have statements : ∀ m ∈ [statementNode pos p.opening, statementNode pos ("const $props = " ++
      literal p.props), statementNode pos ("const $attrs = " ++ literal p.attrs)] ++
        [statementNode pos p.closing], IsStatement pos m := by simp [IsStatement]
  exact PugComponents.applyFallthrough_around statements h

end Prologue

section References

theorem nameChar_of_isPlainName {cs : List Char} (plain : isPlainName cs = true) :
    ∀ c ∈ cs, (isNameLetter c || c.isDigit) = true := by
  cases cs with
  | nil => simp
  | cons c cs =>
    simp only [isPlainName, Bool.and_eq_true, List.all_eq_true] at plain
    refine List.forall_mem_cons.2 ⟨?_, plain.2⟩
    rw [plain.1, Bool.true_or]

theorem isPlainName_append {cs ds : List Char} (plain : isPlainName cs = true)
    (more : ∀ c ∈ ds, (isNameLetter c || c.isDigit) = true) : isPlainName (cs ++ ds) = true := by
  cases cs with
  | nil => cases plain
  | cons c cs =>
    simp only [isPlainName, Bool.and_eq_true, List.all_eq_true] at plain
    simp only [List.cons_append, isPlainName, Bool.and_eq_true, List.all_eq_true, List.mem_append]
    exact ⟨plain.1, fun d hd => hd.elim (plain.2 d) (more d)⟩

theorem trimChars_of_isPlainName {cs : List Char} (plain : isPlainName cs = true) :
    Text.trimChars cs = cs :=
  Text.trimChars_eq_self fun c hc => isBlank_eq_false_of_nameChar (nameChar_of_isPlainName plain c hc)

theorem isVariableReference_iff {source : String} : isVariableReference source = true ↔
    isPlainName (Text.trim source).toList = true ∧ Text.trim source ∉ valueNames := by
  simp [isVariableReference]

theorem trim_of_isPlainName {x : String} (plain : isPlainName x.toList = true) : Text.trim x = x := by
  rw [Text.trim, trimChars_of_isPlainName plain, String.ofList_toList]

theorem parameterFor_injective : Function.Injective parameterFor := by
  intro x y same
  simpa [parameterFor] using same

theorem isVariableReference_parameterFor {x : String} (plain : isPlainName x.toList = true) :
    isVariableReference (parameterFor x) = true := by
  have chars : (parameterFor x).toList = "__pug_arg_".toList ++ x.toList := by simp [parameterFor]
  have name : isPlainName (parameterFor x).toList = true := by
    rw [chars]
    exact isPlainName_append (by decide) (nameChar_of_isPlainName plain)
  rw [isVariableReference_iff, trim_of_isPlainName name]
  refine ⟨name, fun listed => ?_⟩
  have starts : ∀ value ∈ valueNames, value.toList.head? ≠ some '_' := by decide
  refine starts _ listed ?_
  rw [chars]
  rfl

theorem isVariableReference_congr {source other : String} (same : Text.trim source = Text.trim other) :
    isVariableReference source = isVariableReference other := by
  rw [Bool.eq_iff_iff, isVariableReference_iff, isVariableReference_iff, same]

end References

section Emitted

theorem quotedKey_injective : Function.Injective quotedKey := by
  intro key other same
  have chars : Json.quoted key = Json.quoted other := String.ofList_injective same
  have read : ∀ (s : String) (n : Nat), s.toList.length < n →
      Json.readQuoted? n (Json.quoted s).tail = some (s.toList, []) := fun s n room => by
    simpa [Json.quoted] using Json.readQuoted?_flatMap room []
  have first := read key (key.toList.length + other.toList.length + 1) (by omega)
  rw [chars, read other _ (by omega)] at first
  exact (String.toList_injective (Prod.mk.inj (Option.some.inj first)).1).symm

variable {usage : Usage} {entries : List (String × String)} {entry : String × String}

def variablesOf (entries : List (String × String)) : List String :=
  (((entries.map Prod.snd).filter isVariableReference).map Text.trim).eraseDups

theorem mem_variablesOf {x : String} : x ∈ variablesOf entries ↔
    ∃ entry ∈ entries, isVariableReference entry.2 = true ∧ Text.trim entry.2 = x := by
  simp only [variablesOf, List.mem_eraseDups, List.mem_map, List.mem_filter]
  constructor
  · rintro ⟨source, ⟨⟨entry, listed, rfl⟩, reference⟩, rfl⟩
    exact ⟨entry, listed, reference, rfl⟩
  · rintro ⟨entry, listed, reference, rfl⟩
    exact ⟨entry.2, ⟨⟨entry, listed, rfl⟩, reference⟩, rfl⟩

theorem isPlainName_of_mem_variablesOf {x : String} (h : x ∈ variablesOf entries) :
    isPlainName x.toList = true := by
  obtain ⟨entry, -, reference, rfl⟩ := mem_variablesOf.1 h
  exact (isVariableReference_iff.1 reference).1

theorem emitted_variablesOf (listed : entry ∈ entries) : Bindings.emitted (variablesOf entries) entry.2 =
    if isVariableReference entry.2 then parameterFor (Text.trim entry.2) else entry.2 := by
  have captured : Text.trim entry.2 ∈ variablesOf entries ↔ isVariableReference entry.2 = true := by
    rw [mem_variablesOf]
    constructor
    · rintro ⟨other, -, reference, same⟩
      rwa [isVariableReference_congr same] at reference
    · exact fun reference => ⟨entry, listed, reference, rfl⟩
  simp only [Bindings.emitted, List.contains_iff_mem, captured]

namespace Prologue

def declared (usage : Usage) (entries : List (String × String)) : List (String × String) :=
  entries.filter fun entry => usage.props.contains entry.1

def undeclared (usage : Usage) (entries : List (String × String)) : List (String × String) :=
  entries.filter fun entry => !usage.props.contains entry.1

/-- The order in which the values are looked through for variables. -/
def propsFirst (usage : Usage) (entries : List (String × String)) : List (String × String) :=
  declared usage entries ++ undeclared usage entries

theorem mem_propsFirst : entry ∈ propsFirst usage entries ↔ entry ∈ entries := by
  simp only [propsFirst, declared, undeclared, List.mem_append, List.mem_filter]
  cases usage.props.contains entry.1 <;> simp

def emit (names : List String) (entries : List (String × String)) : List (String × String) :=
  entries.map fun entry => (entry.1, Bindings.emitted names entry.2)

def ofEntries (usage : Usage) (entries : List (String × String)) : Prologue where
  parameters := (variablesOf (propsFirst usage entries)).map parameterFor
  arguments := variablesOf (propsFirst usage entries)
  props := emit (variablesOf (propsFirst usage entries)) (declared usage entries)
  attrs := emit (variablesOf (propsFirst usage entries)) (undeclared usage entries)

theorem props_append_attrs : (ofEntries usage entries).props ++ (ofEntries usage entries).attrs =
    emit (variablesOf (propsFirst usage entries)) (propsFirst usage entries) := by
  simp only [ofEntries, emit, propsFirst, List.map_append]

theorem map_fst_emit (names : List String) : (emit names entries).map Prod.fst = entries.map Prod.fst := by
  rw [emit, List.map_map]
  rfl

end Prologue

namespace Bindings

theorem mapM_sourceOf (entries : List (String × String)) :
    (ofEntries entries).mapM (fun p => sourceOf p.2) = .ok (entries.map Prod.snd) := by
  rw [ofEntries, List.mapM_map]
  exact List.mapM_pure

theorem captured_ofEntries (entries : List (String × String)) :
    captured (ofEntries entries) = .ok (variablesOf entries) := by
  rw [captured, mapM_sourceOf]
  rfl

theorem objectStatement_ofEntries (name : String) (names : List String) (pos : Position)
    (entries : List (String × String)) : (ofEntries entries).objectStatement name names pos =
      .ok (statementNode pos
        ("const " ++ name ++ " = " ++ Prologue.literal (Prologue.emit names entries))) := by
  have pairs : (ofEntries entries).mapM (fun p => do
      let source ← sourceOf p.2
      return quotedKey p.1 ++ ": " ++ emitted names source) =
        .ok (entries.map fun entry => quotedKey entry.1 ++ ": " ++ emitted names entry.2) := by
    rw [ofEntries, List.mapM_map]
    exact List.mapM_pure
  rw [objectStatement, objectLiteral, pairs, Prologue.literal, Prologue.emit, List.map_map]
  rfl

theorem scopeStatements_eq {p : Prologue} (named : p.parameters = p.arguments.map parameterFor)
    (pos : Position) :
    scopeStatements p.arguments pos = (statementNode pos p.opening, statementNode pos p.closing) := by
  rw [scopeStatements, Prologue.opening, Prologue.closing, named]
  cases p.arguments <;> rfl

theorem bindAround_ofEntries (usage : Usage) (entries : List (String × String)) (pos : Position)
    (nodes : List Node) : (ofEntries entries).bindAround (some usage) pos nodes =
      .ok ((Prologue.ofEntries usage entries).around pos nodes) := by
  have props : (ofEntries entries).props usage = ofEntries (Prologue.declared usage entries) :=
    List.filter_map
  have attrs : (ofEntries entries).attrs usage = ofEntries (Prologue.undeclared usage entries) :=
    List.filter_map
  have both : ofEntries (Prologue.declared usage entries) ++ ofEntries (Prologue.undeclared usage entries) =
      ofEntries (Prologue.propsFirst usage entries) := (List.map_append).symm
  rw [bindAround, props, attrs, both, captured_ofEntries]
  simp only [objectStatement_ofEntries]
  have scope : scopeStatements (variablesOf (Prologue.propsFirst usage entries)) pos = _ :=
    scopeStatements_eq (p := Prologue.ofEntries usage entries) rfl pos
  show Except.ok (_ :: _ :: _ :: nodes ++ [_]) = _
  rw [scope]
  rfl

end Bindings

end Emitted

section Restored

theorem lookup_zip_map {f : String → String} (injective : Function.Injective f) (names : List String)
    (x : String) : ((names.map f).zip names).lookup (f x) = if x ∈ names then some x else none := by
  induction names with
  | nil => rfl
  | cons name names ih =>
    rw [List.map_cons, List.zip_cons_cons, List.lookup_cons]
    by_cases same : x = name
    · simp [same]
    · rw [beq_false_of_ne (mt (@injective x name) same)]
      simp [ih, same]

theorem lookup_zip_eq_none {f : String → String} {names : List String} {v : String}
    (other : ∀ name ∈ names, v ≠ f name) : ((names.map f).zip names).lookup v = none := by
  rw [List.lookup_eq_none_iff]
  rintro ⟨parameter, argument⟩ paired
  obtain ⟨name, listed, rfl⟩ := List.mem_map.1 (List.of_mem_zip paired).1
  simpa using other name listed

theorem idxOf_map {f : String → String} (injective : Function.Injective f) (names : List String)
    (x : String) : (names.map f).idxOf (f x) = names.idxOf x := by
  induction names with
  | nil => rfl
  | cons name names ih => simp only [List.map_cons, List.idxOf_cons, ih, injective.beq_eq]

theorem restore_ofEntries {usage : Usage} {entries : List (String × String)} {entry : String × String}
    (listed : entry ∈ Prologue.propsFirst usage entries) :
    (Prologue.ofEntries usage entries).restore
        (Bindings.emitted (variablesOf (Prologue.propsFirst usage entries)) entry.2) =
      if isVariableReference entry.2 then Text.trim entry.2 else entry.2 := by
  rw [emitted_variablesOf listed, Prologue.restore, Prologue.ofEntries]
  split
  · rename_i reference
    rw [lookup_zip_map parameterFor_injective, if_pos (mem_variablesOf.2 ⟨entry, listed, reference, rfl⟩)]
    rfl
  · rename_i verbatim
    rw [lookup_zip_eq_none]
    · rfl
    · intro name captured same
      rw [same] at verbatim
      exact verbatim (isVariableReference_parameterFor (isPlainName_of_mem_variablesOf captured))

end Restored

section Bound

variable {usage : Usage} {given entries : List (String × String)}

namespace Bindings.Collects

variable (h : (Bindings.ofEntries entries).Collects given)
include h

theorem map_fst_eq : entries.map Prod.fst = givenNames given := by
  rw [← h.names, Bindings.ofEntries, List.map_map]
  rfl

theorem lastGiven?_eq {entry : String × String} (listed : entry ∈ entries) :
    lastGiven? given entry.1 = some entry.2 := by
  obtain ⟨source, last, text⟩ := h.value (entry.1, .str entry.2) (List.mem_map_of_mem listed)
  rw [last, Json.str.inj text]

theorem mem_of_lastGiven? {name source : String} (last : lastGiven? given name = some source) :
    (name, source) ∈ entries := by
  have called : name ∈ givenNames given := by
    obtain ⟨before, after, reversed, -⟩ := List.lookup_eq_some_iff.1 last
    have pair : (name, source) ∈ given := by
      rw [← List.mem_reverse, reversed]
      simp
    exact List.mem_eraseDups.2 (List.mem_map_of_mem pair)
  rw [← h.map_fst_eq] at called
  obtain ⟨entry, listed, rfl⟩ := List.mem_map.1 called
  obtain rfl : entry.2 = source := Option.some.inj ((h.lastGiven?_eq listed).symm.trans last)
  exact listed

end Bindings.Collects

theorem Prologue.names_perm : (((ofEntries usage entries).props ++
    (ofEntries usage entries).attrs).map Prod.fst).Perm (entries.map Prod.fst) := by
  rw [props_append_attrs, map_fst_emit]
  exact (List.filter_append_perm _ entries).map Prod.fst

theorem Prologue.opening_eq_iff : ((ofEntries usage entries).opening = "\x7b" ∧
    (ofEntries usage entries).closing = "\x7d") ↔ variablesOf (propsFirst usage entries) = [] := by
  simp only [opening, closing, ofEntries, List.isEmpty_map, List.isEmpty_iff]
  constructor
  · rintro ⟨opens, -⟩
    by_contra nonempty
    rw [if_neg nonempty] at opens
    have first := congrArg (fun text => text.toList.head?) opens
    simp at first
  · intro empty
    simp [empty]

/-- The script that is put around a body binds what the attributes give. -/
theorem binds_ofEntries (h : (Bindings.ofEntries entries).Collects given) (usage : Usage) :
    (Prologue.ofEntries usage entries).Binds usage given where
  props_names := by
    rw [Prologue.ofEntries, Prologue.map_fst_emit, ← h.map_fst_eq, List.filter_map]
    simp [Prologue.declared, Function.comp_def]
  attrs_names := by
    rw [Prologue.ofEntries, Prologue.map_fst_emit, ← h.map_fst_eq, List.filter_map]
    simp [Prologue.undeclared, Function.comp_def]
  once name called := by
    rw [Prologue.names_perm.count_eq, h.map_fst_eq]
    exact List.count_eq_one_of_mem (nodup_eraseDups _) (List.mem_eraseDups.2 called)
  keys_nodup := by
    have names : (((Prologue.ofEntries usage entries).props ++
        (Prologue.ofEntries usage entries).attrs).map Prod.fst).Nodup := by
      rw [Prologue.names_perm.nodup_iff, h.map_fst_eq]
      exact nodup_eraseDups _
    simpa [List.map_map, Function.comp_def] using names.map quotedKey_injective
  value entry listed := by
    rw [Prologue.props_append_attrs] at listed
    obtain ⟨own, known, rfl⟩ := List.mem_map.1 listed
    refine ⟨own.2, h.lastGiven?_eq (Prologue.mem_propsFirst.1 known), emitted_variablesOf known, ?_, ?_⟩
    · rw [restore_ofEntries known]
      split
      · rename_i reference
        exact trim_of_isPlainName (isVariableReference_iff.1 reference).1
      · rfl
    · intro reference
      exact ⟨mem_variablesOf.2 ⟨own, known, reference, rfl⟩, idxOf_map parameterFor_injective _ _⟩
  parameters_nodup := (nodup_eraseDups _).map parameterFor_injective
  arguments_length := (List.length_map _).symm
  plain := by
    rw [Prologue.opening_eq_iff, List.eq_nil_iff_forall_not_mem]
    constructor
    · intro nothing name source last reference
      have listed := h.mem_of_lastGiven? last
      exact nothing _ (mem_variablesOf.2 ⟨_, Prologue.mem_propsFirst.2 listed, reference, rfl⟩)
    · intro verbatim x captured
      obtain ⟨entry, listed, reference, -⟩ := mem_variablesOf.1 captured
      exact verbatim entry.1 entry.2 (h.lastGiven?_eq (Prologue.mem_propsFirst.1 listed)) reference

end Bound

/-- In a body with declared keys the attributes of a call are bound by a prologue that depends on nothing
but what they give: each name has one entry, in `$props` if it is declared there and in `$attrs`
otherwise, and the variables among the values come back as arguments in the places of their parameters. -/
theorem binding_of_given {attrs : List Attribute} {given : List (String × String)}
    (gives : List.Forall₂ Attribute.Gives attrs given) (usage : Usage) :
    ∃ (b : Bindings) (p : Prologue), Bindings.ofAttributes attrs = .ok b ∧ p.Binds usage given ∧
      ∀ (component : String) (pos : Position) (nodes : List Node),
        b.bindAround (some usage) pos nodes = .ok (p.around pos nodes) ∧
        ((∀ n ∈ nodes, n.isWellFormed = true) → ∃ inner, List.Forall₂ Forwards nodes inner ∧
          (injectAttributes component (some usage) b pos nodes).result = .ok (p.around pos inner)) := by
  obtain ⟨b, made, collects⟩ := collects_ofAttributes gives
  obtain ⟨entries, rfl⟩ := collects.areTexts.exists_entries
  refine ⟨_, Prologue.ofEntries usage entries, made, binds_ofEntries collects usage, ?_⟩
  intro component pos nodes
  have binding := Bindings.bindAround_ofEntries usage entries pos nodes
  refine ⟨binding, fun wf => ?_⟩
  have sure : Sure (injectAttributes component (some usage) (.ofEntries entries) pos nodes).result :=
    sure_injectAttributes (Bindings.areTexts_ofEntries entries) wf
  obtain ⟨out, injection⟩ := sure.exists_ok
  obtain ⟨bound, binding', forwarding⟩ := Run.result_bind_eq_ok.1 injection
  obtain rfl : _ = bound := Except.ok.inj (binding.symm.trans binding')
  refine ⟨_, ?_, injection.trans (congrArg Except.ok (Prologue.applyFallthrough_around forwarding))⟩
  exact List.forall₂_map_right_iff.2 (List.forall₂_same.2 fun n _ => forwards_forwardAtRoot _ n)

/-- A card with a title that is given twice, and a bare and a negated attribute. -/
def cardAttributes : List Attribute :=
  [{ name := .str "title", val := .str "draft" }, { name := .str "class", val := .str "'wide'" },
    { name := .str "title", val := .str " heading " }, { name := .str "open" },
    { name := .str "hidden", val := .bool false }, { name := .str "id", val := .str "heading + 1" }]

def cardGiven : List (String × String) :=
  [("title", "draft"), ("class", "'wide'"), ("title", " heading "), ("open", "open"), ("hidden", "false"),
    ("id", "heading + 1")]

theorem binding_of_cardAttributes :
    ∃ (b : Bindings) (p : Prologue), Bindings.ofAttributes cardAttributes = .ok b ∧
      p.Binds { props := ["title", "open"] } cardGiven ∧
      p.props.map Prod.fst = ["title", "open"] ∧ p.attrs.map Prod.fst = ["class", "hidden", "id"] ∧
      ∀ value, ("title", value) ∈ p.props → value = "__pug_arg_heading" := by
  have gives : List.Forall₂ Attribute.Gives cardAttributes cardGiven := by
    refine .cons (.script rfl rfl) (.cons (.script rfl rfl) (.cons (.script rfl rfl) (.cons (.own rfl rfl)
      (.cons (.negated rfl rfl) (.cons (.script rfl rfl) .nil)))))
  obtain ⟨b, p, made, binds, -⟩ := binding_of_given gives { props := ["title", "open"] }
  refine ⟨b, p, made, binds, ?_, ?_, ?_⟩
  · exact binds.props_names.trans (by decide +kernel)
  · exact binds.attrs_names.trans (by decide +kernel)
  · intro value listed
    obtain ⟨source, last, emitted, -⟩ := binds.value _ (List.mem_append_left _ listed)
    have heading : lastGiven? cardGiven "title" = some " heading " := by decide +kernel
    obtain rfl : " heading " = source := Option.some.inj (heading.symm.trans last)
    exact emitted.trans (by decide +kernel)

end PugComponents
