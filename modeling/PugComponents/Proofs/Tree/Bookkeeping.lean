import PugComponents.Proofs.Tree.RoundTrip
import Mathlib.Data.List.Forall2

/-! What a loader writes down besides the tree. An object may have entries that its kind does not know, a
list of nodes may have null entries, and a line that is not known may be left out, null or zero. Values
that differ in nothing else are read alike, at any depth, and fail alike. -/

namespace PugComponents

namespace Kind

def ownFields : Kind → List String
  | .block => ["nodes"]
  | .namedBlock => ["nodes", "name", "mode"]
  | .tag => ["name", "attrs", "attributeBlocks", "block", "selfClosing", "isInline"]
  | .interpolatedTag => ["expr", "attrs", "attributeBlocks", "block", "selfClosing", "isInline"]
  | .mixin => ["name", "args", "call", "attrs", "attributeBlocks", "block"]
  | .mixinBlock => []
  | .yieldBlock => []
  | .text => ["val"]
  | .comment => ["val", "buffer"]
  | .blockComment => ["val", "buffer", "block"]
  | .code => ["val", "buffer", "mustEscape", "isInline", "block"]
  | .doctype => ["val"]
  | .filter => ["name", "attrs", "block"]
  | .conditional => ["test", "consequent", "alternate"]
  | .each => ["obj", "val", "key", "block", "alternate"]
  | .whileLoop => ["test", "block"]
  | .caseOf => ["expr", "block"]
  | .whenArm => ["expr", "block", "debug"]
  | .inclusion => ["file", "block"]
  | .extension => ["file"]
  | .rawInclusion => ["file", "filters"]
  | .fileReference => ["path", "fullPath", "ast"]

def fields (k : Kind) : List String := ["line", "column", "filename"] ++ k.ownFields

end Kind

theorem Node.members_toJson (n : Node) : n.toJson.members.map Prod.fst = "type" :: n.kind.fields := by
  cases n with
  | leaf pos head => cases head <;> rfl
  | seq pos head nodes => cases head <;> rfl
  | owner pos head block => cases head <;> rfl
  | fork pos head main alternate => cases head <;> rfl
  | _ => rfl

def childFields : List String := ["block", "consequent", "alternate", "ast", "file"]

def composedFields : List String := ["nodes", "attrs", "attributeBlocks"] ++ childFields

namespace Json

/-- A line that says nothing: it is left out, null or zero. -/
inductive IsUnknownLine : Option Json → Prop
  | absent : IsUnknownLine none
  | null : IsUnknownLine (some .null)
  | zero : IsUnknownLine (some (.int 0))

inductive SameScalar (key : String) : Option Json → Option Json → Prop
  | same (v : Option Json) : SameScalar key v v
  | line {v w : Option Json} (isLine : key = "line") (left : IsUnknownLine v) (right : IsUnknownLine w) :
    SameScalar key v w

/-- The same value, or two objects whose fields, as far as they are known, have the same values. -/
inductive SameRecord (known : List String) : Json → Json → Prop
  | same (v : Json) : SameRecord known v v
  | obj {fields fields' : List (String × Json)}
    (alike : ∀ key ∈ known, SameScalar key (fields.lookup key) (fields'.lookup key)) :
    SameRecord known (.obj fields) (.obj fields')

def SameAttribute : Json → Json → Prop :=
  SameRecord ["name", "val", "mustEscape", "line", "column", "filename"]

def SameSpread : Json → Json → Prop := SameRecord ["val", "line", "column", "filename"]

def kindOf? (fields : List (String × Json)) : Option Kind :=
  (fields.lookup "type").bind fun v => v.str?.bind Kind.ofName?

mutual

/-- Two values in the place of a node that differ in bookkeeping only. Objects of no known kind only have
to agree in their type and their place. -/
inductive SameNode : Json → Json → Prop
  | stray {v w : Json} (unknown : kindOf? v.members = none)
    (alike : SameRecord ["type", "line", "column", "filename"] v w) : SameNode v w
  | known {fields fields' : List (String × Json)} {kind : Kind} (isKind : kindOf? fields = some kind)
    (type : fields'.lookup "type" = fields.lookup "type")
    (alike : ∀ key ∈ kind.fields, SameField key (fields.lookup key) (fields'.lookup key)) :
    SameNode (.obj fields) (.obj fields')

inductive SameField : String → Option Json → Option Json → Prop
  | scalar {key : String} {v w : Option Json} (alike : SameScalar key v w) : SameField key v w
  | child {key : String} {v w : Json} (isChild : key ∈ childFields) (alike : SameNode v w) :
    SameField key (some v) (some w)
  | nodes {vs ws : List Json} (alike : SameNodes vs ws) :
    SameField "nodes" (some (.arr vs)) (some (.arr ws))
  | attrs {vs ws : List Json} (alike : List.Forall₂ SameAttribute vs ws) :
    SameField "attrs" (some (.arr vs)) (some (.arr ws))
  | spreads {vs ws : List Json} (alike : List.Forall₂ SameSpread vs ws) :
    SameField "attributeBlocks" (some (.arr vs)) (some (.arr ws))

/-- Two lists of nodes that differ in bookkeeping only: either may have null entries anywhere. -/
inductive SameNodes : List Json → List Json → Prop
  | nil : SameNodes [] []
  | nullLeft {vs ws : List Json} (rest : SameNodes vs ws) : SameNodes (.null :: vs) ws
  | nullRight {vs ws : List Json} (rest : SameNodes vs ws) : SameNodes vs (.null :: ws)
  | cons {v w : Json} {vs ws : List Json} (first : SameNode v w) (rest : SameNodes vs ws) :
    SameNodes (v :: vs) (w :: ws)

end

end Json

namespace Json

def nodeLine (v : Option Json) : Json :=
  if (v.getD (.int 0)).isNull then .int 0 else v.getD (.int 0)

theorem IsUnknownLine.lineOrZero_eq {v : Option Json} (h : IsUnknownLine v) :
    (v.getD .null).lineOrZero = .int 0 := by
  cases h <;> rfl

theorem IsUnknownLine.nodeLine_eq {v : Option Json} (h : IsUnknownLine v) : nodeLine v = .int 0 := by
  cases h <;> rfl

namespace SameScalar

variable {key : String} {v w : Option Json}

theorem eq (h : SameScalar key v w) (ne : key ≠ "line") : v = w := by
  cases h with
  | same => rfl
  | line isLine => exact absurd isLine ne

theorem lineOrZero_eq (h : SameScalar key v w) : (v.getD .null).lineOrZero = (w.getD .null).lineOrZero := by
  cases h with
  | same => rfl
  | line _ left right => rw [left.lineOrZero_eq, right.lineOrZero_eq]

end SameScalar

section Records

variable {known : List String} {fields fields' : List (String × Json)} {v w : Json}

theorem position_eq (places : ["line", "column", "filename"] ⊆ known)
    (alike : ∀ key ∈ known, SameScalar key (fields.lookup key) (fields'.lookup key)) :
    (Json.obj fields).position = (Json.obj fields').position := by
  have line := (alike "line" (places (by decide))).lineOrZero_eq
  have column := (alike "column" (places (by decide))).eq (by decide)
  have filename := (alike "filename" (places (by decide))).eq (by decide)
  simp only [position, getD, get?_obj, line, column, filename]

theorem SameAttribute.ofJson_eq (h : SameAttribute v w) : Attribute.ofJson v = Attribute.ofJson w := by
  cases h with
  | same => rfl
  | obj alike =>
    have position := position_eq (by decide) alike
    have name := (alike "name" (by decide)).eq (by decide)
    have val := (alike "val" (by decide)).eq (by decide)
    have mustEscape := (alike "mustEscape" (by decide)).eq (by decide)
    simp only [Attribute.ofJson, getD, get?_obj, position, name, val, mustEscape]

theorem SameSpread.ofJson_eq (h : SameSpread v w) : Spread.ofJson v = Spread.ofJson w := by
  cases h with
  | same => rfl
  | obj alike =>
    have position := position_eq (by decide) alike
    have val := (alike "val" (by decide)).eq (by decide)
    simp only [Spread.ofJson, position, val]

/-- A reader that does not tell apart what is related reads related lists alike. -/
theorem mapM_eq_of_forall₂ {α : Type} {R : Json → Json → Prop} {f : Json → Except Failure α}
    (each : ∀ v w, R v w → f v = f w) {vs ws : List Json} (h : List.Forall₂ R vs ws) :
    vs.mapM f = ws.mapM f := by
  induction h with
  | nil => rfl
  | cons first _ ih => rw [List.mapM_cons, List.mapM_cons, each _ _ first, ih]

end Records

end Json

namespace Readings

open Json

/-- What is read from a field is the same in two objects, whichever way the field is read. -/
structure Agree (key : String) (a b : Option Reading) : Prop where
  scalar : key ∉ composedFields → key ≠ "line" → a.map Reading.value = b.map Reading.value
  line : key = "line" → nodeLine (a.map Reading.value) = nodeLine (b.map Reading.value)
  child : key ∈ childFields →
    a.map (fun r => if r.value.isNull then .ok none else r.node.map some) =
      b.map fun r => if r.value.isNull then .ok none else r.node.map some
  nodes : key = "nodes" → a.map Reading.nodes = b.map Reading.nodes
  attrs : key = "attrs" →
    a.map (fun r => Attribute.listOfJson r.value) = b.map fun r => Attribute.listOfJson r.value
  spreads : key = "attributeBlocks" →
    a.map (fun r => Spread.listOfJson r.value) = b.map fun r => Spread.listOfJson r.value

variable {rs rs' : Readings} {key : String}

theorem Agree.refl (a : Option Reading) : Agree key a a :=
  ⟨fun _ _ => rfl, fun _ => rfl, fun _ => rfl, fun _ => rfl, fun _ => rfl, fun _ => rfl⟩

section Ways

/-! Every field is read in one way only. -/

variable {r r' : Reading}

theorem Agree.of_line {a b : Option Reading}
    (line : nodeLine (a.map Reading.value) = nodeLine (b.map Reading.value)) : Agree "line" a b where
  scalar _ ne := absurd rfl ne
  line _ := line
  child := by simp [childFields]
  nodes := by simp
  attrs := by simp
  spreads := by simp

theorem Agree.of_child (isChild : key ∈ childFields)
    (child : (if r.value.isNull then .ok none else r.node.map some) =
      if r'.value.isNull then .ok none else r'.node.map some) : Agree key (some r) (some r') where
  scalar ne := absurd (List.mem_append_right _ isChild) ne
  line is := by simp [is, childFields] at isChild
  child _ := congrArg some child
  nodes is := by simp [is, childFields] at isChild
  attrs is := by simp [is, childFields] at isChild
  spreads is := by simp [is, childFields] at isChild

theorem Agree.of_nodes (nodes : r.nodes = r'.nodes) : Agree "nodes" (some r) (some r') where
  scalar := by simp [composedFields]
  line := by simp
  child := by simp [childFields]
  nodes _ := congrArg some nodes
  attrs := by simp
  spreads := by simp

theorem Agree.of_attrs (attrs : Attribute.listOfJson r.value = Attribute.listOfJson r'.value) :
    Agree "attrs" (some r) (some r') where
  scalar := by simp [composedFields]
  line := by simp
  child := by simp [childFields]
  nodes := by simp
  attrs _ := congrArg some attrs
  spreads := by simp

theorem Agree.of_spreads (spreads : Spread.listOfJson r.value = Spread.listOfJson r'.value) :
    Agree "attributeBlocks" (some r) (some r') where
  scalar := by simp [composedFields]
  line := by simp
  child := by simp [childFields]
  nodes := by simp
  attrs := by simp
  spreads _ := congrArg some spreads

end Ways

theorem scalar_eq_getD (rs : Readings) (key : String) (default : Json) :
    rs.scalar key default = ((rs.lookup key).map Reading.value).getD default := by
  rw [scalar]
  cases rs.lookup key <;> rfl

theorem required_eq (rs : Readings) (key : String) : rs.required key =
    (((rs.lookup key).map Reading.value).map Except.ok).getD (.error (.fault .missingField)) := by
  rw [required]
  cases rs.lookup key <;> rfl

theorem child_eq (rs : Readings) (key : String) (default : Option Node) : rs.child key default =
    ((rs.lookup key).map fun r => if r.value.isNull then .ok none else r.node.map some).getD
      (.ok default) := by
  rw [child]
  cases rs.lookup key <;> rfl

theorem nodes_eq (rs : Readings) : rs.nodes = ((rs.lookup "nodes").map Reading.nodes).getD (.ok []) := by
  rw [nodes]
  cases rs.lookup "nodes" <;> rfl

theorem attrs_eq (rs : Readings) : rs.attrs =
    ((rs.lookup "attrs").map fun r => Attribute.listOfJson r.value).getD (.ok []) := by
  rw [attrs]
  cases rs.lookup "attrs" <;> rfl

theorem spreads_eq (rs : Readings) : rs.spreads =
    ((rs.lookup "attributeBlocks").map fun r => Spread.listOfJson r.value).getD (.ok []) := by
  rw [spreads]
  cases rs.lookup "attributeBlocks" <;> rfl

theorem build_congr {kind : Kind} (agree : ∀ key ∈ kind.fields, Agree key (rs.lookup key) (rs'.lookup key)) :
    rs.build kind = rs'.build kind := by
  have position : rs.position = rs'.position := by
    have line := (agree "line" (by simp [Kind.fields])).line rfl
    have column := (agree "column" (by simp [Kind.fields])).scalar (by decide) (by decide)
    have filename := (agree "filename" (by simp [Kind.fields])).scalar (by decide) (by decide)
    simp only [nodeLine] at line
    simp only [Readings.position, scalar_eq_getD, line, column, filename]
  have scalar (key : String) (member : key ∈ kind.ownFields) (isScalar : key ∉ composedFields ∧ key ≠ "line")
      (default : Json) : rs.scalar key default = rs'.scalar key default := by
    rw [scalar_eq_getD, scalar_eq_getD, (agree key
      (List.mem_append_right _ member)).scalar isScalar.1 isScalar.2]
  have required (key : String) (member : key ∈ kind.ownFields)
    (isScalar : key ∉ composedFields ∧ key ≠ "line") :
      rs.required key = rs'.required key := by
    rw [required_eq, required_eq, (agree key (List.mem_append_right _ member)).scalar isScalar.1 isScalar.2]
  have child (key : String) (member : key ∈ kind.ownFields) (isChild : key ∈ childFields)
      (default : Option Node) : rs.child key default = rs'.child key default := by
    rw [child_eq, child_eq, (agree key (List.mem_append_right _ member)).child isChild]
  have nodes (member : "nodes" ∈ kind.ownFields) : rs.nodes = rs'.nodes := by
    rw [nodes_eq, nodes_eq, (agree _ (List.mem_append_right _ member)).nodes rfl]
  have attrs (member : "attrs" ∈ kind.ownFields) : rs.attrs = rs'.attrs := by
    rw [attrs_eq, attrs_eq, (agree _ (List.mem_append_right _ member)).attrs rfl]
  have spreads (member : "attributeBlocks" ∈ kind.ownFields) : rs.spreads = rs'.spreads := by
    rw [spreads_eq, spreads_eq, (agree _ (List.mem_append_right _ member)).spreads rfl]
  clear agree
  cases kind <;>
    simp (disch := decide) only [build, element, position, scalar, required, child, nodes, attrs, spreads]

end Readings

namespace Reading

open Json

theorem node_of_kindOf? {fields : List (String × Json)} {kind : Kind} (isKind : kindOf? fields = some kind) :
    (ofFields fields).node = (ofFields fields).build kind := by
  obtain ⟨v, found, named⟩ := Option.bind_eq_some_iff.1 isKind
  obtain ⟨name, text, known⟩ := Option.bind_eq_some_iff.1 named
  obtain rfl : v = .str name := by
    cases v with
    | str s => rw [Option.some.inj text]
    | _ => cases text
  simp only [Readings.node, Readings.scalar_ofFields, found, Option.getD_some, known]

theorem node_of_kindOf?_none {fields : List (String × Json)} (unknown : kindOf? fields = none) :
    (ofFields fields).node =
      .error (unexpectedNode ((fields.lookup "type").getD .null).display
        (some (ofFields fields).location)) := by
  rw [Readings.node, Readings.scalar_ofFields]
  cases found : fields.lookup "type" with
  | none => rfl
  | some v =>
    cases v with
    | str name =>
      have stray : Kind.ofName? name = none := by simpa [kindOf?, found] using unknown
      simp only [Option.getD_some, stray, Json.display]
    | _ => rfl

theorem location_eq {fields fields' : List (String × Json)}
    (alike : ∀ key ∈ ["type", "line", "column", "filename"],
      SameScalar key (fields.lookup key) (fields'.lookup key)) :
    (ofFields fields).location = (ofFields fields').location := by
  have line := (alike "line" (by decide)).lineOrZero_eq
  have column := (alike "column" (by decide)).eq (by decide)
  have filename := (alike "filename" (by decide)).eq (by decide)
  simp only [Readings.location, Readings.scalar_ofFields, line, column, filename]

theorem node_ofJson_obj (fields : List (String × Json)) :
    (ofJson (.obj fields)).node = (ofFields fields).node := by
  simp only [ofJson]

theorem collect_null (rs : List Reading) : collect (ofJson .null :: rs) = collect rs := by
  rw [collect, value_ofJson]
  rfl

mutual

/-- Values that differ in bookkeeping only are read as the same node, or fail alike. -/
theorem node_eq_of_sameNode {v w : Json} : SameNode v w →
    (ofJson v).node = (ofJson w).node ∧ v.isNull = w.isNull
  | .stray unknown alike => by
    cases alike with
    | same => exact ⟨rfl, rfl⟩
    | @obj fields fields' alike =>
      have type := (alike "type" (by decide)).eq (by decide)
      have unknown : kindOf? fields = none := unknown
      have unknown' : kindOf? fields' = none := by rwa [kindOf?, ← type]
      refine ⟨?_, rfl⟩
      rw [node_ofJson_obj, node_ofJson_obj, node_of_kindOf?_none unknown, node_of_kindOf?_none unknown', type,
        location_eq alike]
  | @SameNode.known fields fields' kind isKind type alike => by
    have isKind' : kindOf? fields' = some kind := by rwa [kindOf?, type]
    refine ⟨?_, rfl⟩
    rw [node_ofJson_obj, node_ofJson_obj, node_of_kindOf? isKind, node_of_kindOf? isKind']
    refine Readings.build_congr fun key member => ?_
    rw [lookup_ofFields, lookup_ofFields]
    exact agree_of_sameField (alike key member)
termination_by structural h => h

theorem agree_of_sameField {key : String} {v w : Option Json} : SameField key v w →
    Readings.Agree key (v.map ofJson) (w.map ofJson)
  | .scalar alike => by
    cases alike with
    | same => exact .refl _
    | line isLine left right =>
      subst isLine
      refine .of_line ?_
      simp only [Option.map_map, Function.comp_def, value_ofJson, Option.map_id']
      rw [left.nodeLine_eq, right.nodeLine_eq]
  | .child isChild alike => by
    obtain ⟨node, isNull⟩ := node_eq_of_sameNode alike
    refine .of_child isChild ?_
    simp only [value_ofJson, isNull, node]
  | .nodes alike => by
    refine .of_nodes ?_
    rw [ofJson, ofJson]
    exact collect_eq_of_sameNodes alike
  | .attrs alike => by
    refine .of_attrs ?_
    rw [value_ofJson, value_ofJson]
    exact mapM_eq_of_forall₂ (R := SameAttribute) (fun _ _ h => h.ofJson_eq) alike
  | .spreads alike => by
    refine .of_spreads ?_
    rw [value_ofJson, value_ofJson]
    exact mapM_eq_of_forall₂ (R := SameSpread) (fun _ _ h => h.ofJson_eq) alike
termination_by structural h => h

theorem collect_eq_of_sameNodes {vs ws : List Json} : SameNodes vs ws →
    collect (ofItems vs) = collect (ofItems ws)
  | .nil => rfl
  | .nullLeft rest => by
    rw [ofItems, collect_null]
    exact collect_eq_of_sameNodes rest
  | .nullRight rest => by
    rw [ofItems.eq_def (.null :: _), collect_null]
    exact collect_eq_of_sameNodes rest
  | .cons first rest => by
    obtain ⟨node, isNull⟩ := node_eq_of_sameNode first
    simp only [ofItems, collect, value_ofJson, isNull, node, collect_eq_of_sameNodes rest]
termination_by structural h => h

end

end Reading

open Json

/-- Values that differ only in what a loader writes down beside the tree spell the same tree, or fail with
the same reason at the same place. -/
theorem Node.ofJson_eq_of_sameNode {v w : Json} (h : SameNode v w) : Node.ofJson v = Node.ofJson w :=
  (Reading.node_eq_of_sameNode h).1

section Example

def loadedPage (last : Json) : Json := .obj [
  ("type", .str "Block"), ("loader", .str "views"), ("line", .null),
  ("nodes", .arr [.null, .obj [
    ("start", .int 3), ("type", .str "Tag"), ("name", .str "a"), ("line", .int 2),
    ("attrs", .arr [.obj [("type", .str "Attribute"), ("name", .str "href"), ("line", .int 0)]]),
    ("attributeBlocks", .arr [.obj [("val", .str "rest"), ("end", .int 9)]]),
    ("block", .obj [("type", .str "Block"), ("nodes", .arr [last])])]])]

def plainPage (last : Json) : Json := .obj [
  ("type", .str "Block"),
  ("nodes", .arr [.obj [
    ("type", .str "Tag"), ("line", .int 2), ("name", .str "a"),
    ("block", .obj [("type", .str "Block"), ("line", .int 0), ("nodes", .arr [.null, last])]),
    ("attributeBlocks", .arr [.obj [("val", .str "rest"), ("line", .null)]]),
    ("attrs", .arr [.obj [("name", .str "href")]])]])]

theorem sameNode_loadedPage {last last' : Json} (alike : SameNode last last') :
    SameNode (loadedPage last) (plainPage last') := by
  have href : SameAttribute (.obj [("type", .str "Attribute"), ("name", .str "href"), ("line", .int 0)])
      (.obj [("name", .str "href")]) := by
    refine .obj ?_
    simp only [List.forall_mem_cons]
    exact ⟨.same _, .same _, .same _, .line rfl .zero .absent, .same _, .same _, by simp⟩
  have rest : SameSpread (.obj [("val", .str "rest"), ("end", .int 9)])
      (.obj [("val", .str "rest"), ("line", .null)]) := by
    refine .obj ?_
    simp only [List.forall_mem_cons]
    exact ⟨.same _, .line rfl .absent .null, .same _, .same _, by simp⟩
  have block : SameNode (.obj [("type", .str "Block"), ("nodes", .arr [last])])
      (.obj [("type", .str "Block"), ("line", .int 0), ("nodes", .arr [.null, last'])]) := by
    refine .known (show kindOf? _ = some .block from rfl) rfl ?_
    simp only [Kind.fields, Kind.ownFields, List.cons_append, List.nil_append, List.forall_mem_cons]
    exact ⟨.scalar (.line rfl .absent .zero), .scalar (.same _), .scalar (.same _),
      .nodes (.nullRight (.cons alike .nil)), by simp⟩
  refine .known (show kindOf? _ = some .block from rfl) rfl ?_
  simp only [Kind.fields, Kind.ownFields, List.cons_append, List.nil_append, List.forall_mem_cons]
  refine ⟨.scalar (.line rfl .null .absent), .scalar (.same _), .scalar (.same _),
    .nodes (.nullLeft (.cons (.known (show kindOf? _ = some .tag from rfl) rfl ?_) .nil)), by simp⟩
  simp only [Kind.fields, Kind.ownFields, List.cons_append, List.nil_append, List.forall_mem_cons]
  exact ⟨.scalar (.same _), .scalar (.same _), .scalar (.same _), .scalar (.same _),
    .attrs (.cons href .nil), .spreads (.cons rest .nil), .child (by decide) block,
    .scalar (.same _), .scalar (.same _), by simp⟩

def strayNode (entries : List (String × Json)) : Json :=
    .obj (entries ++ [("type", .str "Slide"), ("line", .int 4)])

theorem sameNode_strayNode : SameNode (strayNode [("val", .null)]) (strayNode []) := by
  refine .stray (show kindOf? _ = none from rfl) (.obj ?_)
  simp only [List.forall_mem_cons]
  exact ⟨.same _, .same _, .same _, .same _, by simp⟩

theorem ofJson_eq_loadedPage :
    SameNode (loadedPage (strayNode [("val", .null)])) (plainPage (strayNode [])) ∧
      Node.ofJson (loadedPage (strayNode [("val", .null)])) = Node.ofJson (plainPage (strayNode [])) ∧
      Node.ofJson (plainPage (strayNode [])) = .error (unexpectedNode "Slide" (some { line := .int 4 })) := by
  have alike := sameNode_loadedPage sameNode_strayNode
  exact ⟨alike, Node.ofJson_eq_of_sameNode alike, by rfl⟩

end Example

end PugComponents
