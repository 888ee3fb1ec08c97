import PugComponents.Attributes.Fallthrough
import PugComponents.Proofs.Outcome
import PugComponents.Tree.Decode
import PugComponents.Tree.Encode

/-! Trees that are written and read again. Reading settles what a value leaves open: a line that is
missing, null or, on attributes, empty in any way becomes zero, null entries go, and fields that are
absent take the defaults of their kind. `IsRead` has the trees that are settled in this way; every tree
that was read is one of them, and what is written of such a tree is read as the same tree. -/

namespace PugComponents

open Outcome

theorem Json.lineOrZero_lineOrZero (v : Json) : v.lineOrZero.lineOrZero = v.lineOrZero := by
  by_cases truthy : v.isTruthy = true
  · have same : v.lineOrZero = v := if_pos truthy
    rw [same, same]
  · have zero : v.lineOrZero = .int 0 := if_neg truthy
    rw [zero]
    rfl

def Position.HasLine (p : Position) : Prop := p.line.lineOrZero = p.line

namespace Node

/-- All nodes directly inside a node, also those that a walk does not come to. -/
def parts : Node → List Node
  | .leaf .. => []
  | .seq _ _ nodes => nodes
  | .owner _ _ block => block.toList
  | .fork _ _ main alternate => main.toList ++ alternate.toList
  | .inclusion _ file block => file.toList ++ block.toList
  | .extension _ file => file.toList
  | .rawInclusion _ file _ => file.toList
  | .fileReference _ _ _ ast => ast.toList

/-- No node of the tree has a null line, and no attribute or spread an empty one other than zero. -/
inductive IsRead : Node → Prop where
  | intro {n : Node} (line : n.pos.line.isNull = false)
    (attrs : ∀ a ∈ n.attrs?.getD [], a.pos.HasLine)
    (spreads : ∀ s ∈ n.spreads?.getD [], s.pos.HasLine)
    (below : ∀ m ∈ n.parts, IsRead m) : IsRead n

theorem isRead_of_undecorated {n : Node} (line : n.pos.line.isNull = false) (attrs : n.attrs? = none)
    (spreads : n.spreads? = none) (below : ∀ m ∈ n.parts, m.IsRead) : n.IsRead :=
  .intro line (by simp [attrs]) (by simp [spreads]) below

theorem isRead_emptyBlock : emptyBlock.IsRead :=
  isRead_of_undecorated rfl rfl rfl (by simp [parts, emptyBlock, block])

theorem isRead_noFile : Readings.noFile.IsRead :=
  isRead_of_undecorated rfl rfl rfl (by simp [parts, Readings.noFile])

end Node

section Reading

theorem forall_mem_of_mapM {α β : Type} {f : α → Except Failure β} {Q : β → Prop}
    (each : ∀ a b, f a = .ok b → Q b) {as : List α} {bs : List β} (h : as.mapM f = .ok bs) :
    ∀ b ∈ bs, Q b := by
  intro b hb
  obtain ⟨a, -, run⟩ := exists_of_mem_mapM h hb
  exact each a b run

theorem Json.hasLine_position (v : Json) : v.position.HasLine := Json.lineOrZero_lineOrZero _

theorem Attribute.hasLine_of_ofJson {v : Json} {a : Attribute} (h : ofJson v = .ok a) :
    a.pos.HasLine := by
  unfold ofJson at h
  split at h
  · split at h
    · cases h
    · cases h
      exact Json.hasLine_position _
  · cases h

theorem Attribute.hasLine_of_listOfJson {v : Json} {as : List Attribute} (h : listOfJson v = .ok as) :
    ∀ a ∈ as, a.pos.HasLine := by
  unfold listOfJson at h
  split at h
  · exact forall_mem_of_mapM (fun _ _ => hasLine_of_ofJson) h
  · cases h
    simp
  · cases h
    simp
  · cases h

theorem Spread.hasLine_of_ofJson {v : Json} {s : Spread} (h : ofJson v = .ok s) : s.pos.HasLine := by
  unfold ofJson at h
  split at h
  · cases h
    rfl
  · split at h
    · cases h
    · cases h
      exact Json.hasLine_position _
  · cases h

theorem Spread.hasLine_of_listOfJson {v : Json} {ss : List Spread} (h : listOfJson v = .ok ss) :
    ∀ s ∈ ss, s.pos.HasLine := by
  have bare : ∀ {α : Type} (text : α → String) (xs : List α),
      ∀ s ∈ xs.map fun x => ({ val := .str (text x) } : Spread), s.pos.HasLine := by
    intro α text xs s hs
    obtain ⟨x, -, rfl⟩ := List.mem_map.1 hs
    rfl
  unfold listOfJson at h
  split at h
  · exact forall_mem_of_mapM (fun _ _ => hasLine_of_ofJson) h
  · cases h
    exact bare String.singleton _
  · cases h
    exact bare Prod.fst _
  · cases h

structure Reading.Sound (r : Reading) : Prop where
  node : ∀ n, r.node = .ok n → n.IsRead
  nodes : ∀ ns, r.nodes = .ok ns → ∀ n ∈ ns, n.IsRead

namespace Readings

variable {rs : Readings}

def Sound (rs : Readings) : Prop := ∀ key r, rs.lookup key = some r → r.Sound

theorem line_position (rs : Readings) : rs.position.line.isNull = false := by
  simp only [position]
  split
  · rfl
  · rename_i present
    simpa using present

theorem hasLine_of_attrs {as : List Attribute} (h : rs.attrs = .ok as) : ∀ a ∈ as, a.pos.HasLine := by
  unfold attrs at h
  split at h
  · cases h
    simp
  · exact Attribute.hasLine_of_listOfJson h

theorem hasLine_of_spreads {ss : List Spread} (h : rs.spreads = .ok ss) : ∀ s ∈ ss, s.pos.HasLine := by
  unfold spreads at h
  split at h
  · cases h
    simp
  · exact Spread.hasLine_of_listOfJson h

variable (sound : rs.Sound)
include sound

theorem isRead_of_nodes {ns : List Node} (h : rs.nodes = .ok ns) : ∀ n ∈ ns, n.IsRead := by
  unfold nodes at h
  split at h
  · cases h
    simp
  · rename_i r found
    exact (sound _ r found).nodes ns h

theorem isRead_of_child {key : String} {default o : Option Node}
    (byDefault : ∀ n ∈ default, n.IsRead) (h : rs.child key default = .ok o) : ∀ n ∈ o, n.IsRead := by
  unfold child at h
  split at h
  · cases h
    exact byDefault
  · rename_i r found
    split at h
    · cases h
      simp
    · cases read : r.node with
      | error e =>
        rw [read] at h
        cases h
      | ok n =>
        rw [read] at h
        cases h
        have isRead := (sound _ r found).node n read
        simpa using isRead

theorem isRead_of_element {key : String} {e : Element} {block : Option Node}
    (h : rs.element key = .ok (e, block)) :
    (∀ a ∈ e.attrs, a.pos.HasLine) ∧ (∀ s ∈ e.spreads, s.pos.HasLine) ∧ ∀ n ∈ block, n.IsRead := by
  simp only [element, bind_eq_ok, pure_eq_ok, Prod.mk.injEq] at h
  obtain ⟨as, attrs, ss, spreads, b, child, _, -, rfl, rfl⟩ := h
  exact ⟨hasLine_of_attrs attrs, hasLine_of_spreads spreads, isRead_of_child sound (by simp) child⟩

theorem isRead_of_build {kind : Kind} {n : Node} (h : rs.build kind = .ok n) : n.IsRead := by
  have line := line_position rs
  have child : ∀ {key : String} {o : Option Node}, rs.child key = .ok o → ∀ m ∈ o, m.IsRead :=
    isRead_of_child sound (by simp)
  have block : ∀ {key : String} {o : Option Node},
      rs.child key (some Node.emptyBlock) = .ok o → ∀ m ∈ o, m.IsRead :=
    isRead_of_child sound (by simpa using Node.isRead_emptyBlock)
  have file : ∀ {key : String} {o : Option Node},
      rs.child key (some noFile) = .ok o → ∀ m ∈ o, m.IsRead :=
    isRead_of_child sound (by simpa using Node.isRead_noFile)
  cases kind <;> simp only [build, bind_eq_ok, pure_eq_ok] at h
  case block | namedBlock =>
    obtain ⟨ns, read, rfl⟩ := h
    exact Node.isRead_of_undecorated line rfl rfl (isRead_of_nodes sound read)
  case tag | interpolatedTag =>
    obtain ⟨⟨e, b⟩, read, rfl⟩ := h
    obtain ⟨attrs, spreads, below⟩ := isRead_of_element sound read
    exact .intro line attrs spreads fun m hm => below m (Option.mem_toList.1 hm)
  case mixin =>
    obtain ⟨as, attrs, ss, spreads, b, read, name, -, rfl⟩ := h
    exact .intro line (hasLine_of_attrs attrs) (hasLine_of_spreads spreads)
      fun m hm => child read m (Option.mem_toList.1 hm)
  case filter =>
    obtain ⟨as, attrs, b, read, rfl⟩ := h
    exact .intro line (hasLine_of_attrs attrs) (by simp [Node.spreads?])
      fun m hm => child read m (Option.mem_toList.1 hm)
  case conditional | each =>
    obtain ⟨main, first, alternate, second, rfl⟩ := h
    refine Node.isRead_of_undecorated line rfl rfl fun m hm => ?_
    simp only [Node.parts, List.mem_append, Option.mem_toList] at hm
    exact hm.elim (block first m) (child second m)
  case inclusion =>
    obtain ⟨f, first, b, second, rfl⟩ := h
    refine Node.isRead_of_undecorated line rfl rfl fun m hm => ?_
    simp only [Node.parts, List.mem_append, Option.mem_toList] at hm
    exact hm.elim (file first m) (child second m)
  case whileLoop | caseOf =>
    obtain ⟨b, read, rfl⟩ := h
    exact Node.isRead_of_undecorated line rfl rfl fun m hm => block read m (Option.mem_toList.1 hm)
  case extension | rawInclusion =>
    obtain ⟨f, read, rfl⟩ := h
    exact Node.isRead_of_undecorated line rfl rfl fun m hm => file read m (Option.mem_toList.1 hm)
  case blockComment | code | whenArm | fileReference =>
    obtain ⟨b, read, rfl⟩ := h
    exact Node.isRead_of_undecorated line rfl rfl fun m hm => child read m (Option.mem_toList.1 hm)
  case mixinBlock | yieldBlock | text | comment | doctype =>
    subst h
    exact Node.isRead_of_undecorated line rfl rfl (by simp [Node.parts])

theorem isRead_of_node {n : Node} (h : rs.node = .ok n) : n.IsRead := by
  unfold node at h
  split at h
  · split at h
    · exact isRead_of_build sound h
    · cases h
  · cases h

end Readings

namespace Reading

theorem isRead_of_collect {rs : List Reading} (sound : ∀ r ∈ rs, r.Sound) {ns : List Node}
    (h : collect rs = .ok ns) : ∀ n ∈ ns, n.IsRead := by
  induction rs generalizing ns with
  | nil =>
    simp only [collect, Except.ok.injEq] at h
    simp [← h]
  | cons r rs ih =>
    rw [List.forall_mem_cons] at sound
    rw [collect] at h
    split at h
    · exact ih sound.2 h
    · simp only [bind_eq_ok, pure_eq_ok] at h
      obtain ⟨n, read, others, rest, rfl⟩ := h
      exact List.forall_mem_cons.2 ⟨sound.1.node n read, ih sound.2 rest⟩

mutual

theorem sound_ofJson : (v : Json) → (ofJson v).Sound
  | .obj fields => by
    have below : Readings.Sound (ofFields fields) := sound_ofFields fields
    unfold ofJson
    refine ⟨fun n h => Readings.isRead_of_node below h, fun ns h => ?_⟩
    cases fields with
    | nil =>
      cases h
      simp
    | cons => cases h
  | .arr items => by
    have below := sound_ofItems items
    rw [ofJson]
    exact ⟨fun n h => (by cases h), fun ns h => isRead_of_collect below h⟩
  | .str s => by
    rw [ofJson]
    refine ⟨fun n h => (by cases h), fun ns h => ?_⟩
    dsimp only at h
    split at h
    · cases h
      simp
    · cases h
  | .null | .bool _ | .int _ | .real _ => by
    rw [ofJson]
    · exact ⟨fun n h => (by cases h), fun ns h => (by cases h)⟩
    all_goals simp
termination_by structural v => v

theorem sound_ofItems : (vs : List Json) → ∀ r ∈ ofItems vs, r.Sound
  | [] => by simp [ofItems]
  | v :: vs => by
    rw [ofItems, List.forall_mem_cons]
    exact ⟨sound_ofJson v, sound_ofItems vs⟩
termination_by structural vs => vs

theorem sound_ofFields : (fs : List (String × Json)) → Readings.Sound (ofFields fs)
  | [] => by simp [ofFields, Readings.Sound]
  | (k, v) :: fs => by
    intro key r found
    rw [ofFields, List.lookup_cons] at found
    split at found
    · cases found
      exact sound_ofJson v
    · exact sound_ofFields fs key r found
termination_by structural fs => fs

end

end Reading

end Reading

section Writing

theorem mapM_map_of_forall_mem {α β : Type} {write : α → β} {read : β → Except Failure α} {as : List α}
    (each : ∀ a ∈ as, read (write a) = .ok a) : (as.map write).mapM read = .ok as := by
  induction as with
  | nil => rfl
  | cons a as ih =>
    rw [List.forall_mem_cons] at each
    rw [List.map_cons, List.mapM_cons, each.1, ih each.2]
    rfl

theorem Attribute.ofJson_toJson {a : Attribute} (line : a.pos.HasLine) : ofJson a.toJson = .ok a := by
  have place : a.toJson.position = a.pos := by
    have same : (a.toJson.getD "line" .null).lineOrZero = a.pos.line := line
    rw [Json.position, same]
    rfl
  have read : ofJson a.toJson = .ok { a with pos := a.toJson.position } := rfl
  rw [read, place]

theorem Attribute.listOfJson_toJson {as : List Attribute} (lines : ∀ a ∈ as, a.pos.HasLine) :
    listOfJson (attrsField as).2 = .ok as :=
  mapM_map_of_forall_mem fun a ha => ofJson_toJson (lines a ha)

theorem Spread.ofJson_toJson {s : Spread} (line : s.pos.HasLine) : ofJson s.toJson = .ok s := by
  have place : s.toJson.position = s.pos := by
    have same : (s.toJson.getD "line" .null).lineOrZero = s.pos.line := line
    rw [Json.position, same]
    rfl
  have read : ofJson s.toJson = .ok { s with pos := s.toJson.position } := rfl
  rw [read, place]

theorem Spread.listOfJson_toJson {ss : List Spread} (lines : ∀ s ∈ ss, s.pos.HasLine) :
    listOfJson (spreadsField ss).2 = .ok ss :=
  mapM_map_of_forall_mem fun s hs => ofJson_toJson (lines s hs)

namespace Node

def Returns (n : Node) : Prop := ofJson n.toJson = .ok n

theorem isNull_toJson (n : Node) : n.toJson.isNull = false := by
  cases n <;> rw [toJson] <;> rfl

end Node

namespace Reading

theorem value_ofJson (v : Json) : (ofJson v).value = v := by
  cases v <;> unfold ofJson <;> rfl

theorem lookup_ofFields (fs : List (String × Json)) (key : String) :
    (ofFields fs).lookup key = (fs.lookup key).map ofJson := by
  induction fs with
  | nil => simp [ofFields]
  | cons f fs ih =>
    rw [ofFields, List.lookup_cons, List.lookup_cons]
    cases key == f.1 with
    | true => rfl
    | false => exact ih

theorem collect_toJsonAll {ns : List Node} (each : ∀ n ∈ ns, n.Returns) :
    collect (ofItems (Node.toJsonAll ns)) = .ok ns := by
  induction ns with
  | nil => rw [Node.toJsonAll, ofItems, collect]
  | cons n ns ih =>
    rw [List.forall_mem_cons] at each
    have first : (ofJson n.toJson).node = .ok n := each.1
    rw [Node.toJsonAll, ofItems, collect, value_ofJson, Node.isNull_toJson, first, ih each.2]
    rfl

end Reading

namespace Readings

open Reading

variable {fs : List (String × Json)} {key : String}

theorem scalar_ofFields (default : Json) :
    scalar (ofFields fs) key default = (fs.lookup key).getD default := by
  rw [scalar, lookup_ofFields]
  cases fs.lookup key with
  | none => rfl
  | some v => exact value_ofJson v

theorem required_ofFields {v : Json} (found : fs.lookup key = some v) :
    required (ofFields fs) key = .ok v := by
  rw [required, lookup_ofFields, found]
  exact congrArg Except.ok (value_ofJson v)

theorem attrs_ofFields {as : List Attribute} (lines : ∀ a ∈ as, a.pos.HasLine)
    (found : fs.lookup "attrs" = some (attrsField as).2) : attrs (ofFields fs) = .ok as := by
  rw [attrs, lookup_ofFields, found, ← Attribute.listOfJson_toJson lines]
  exact congrArg Attribute.listOfJson (value_ofJson _)

theorem spreads_ofFields {ss : List Spread} (lines : ∀ s ∈ ss, s.pos.HasLine)
    (found : fs.lookup "attributeBlocks" = some (spreadsField ss).2) :
    spreads (ofFields fs) = .ok ss := by
  rw [spreads, lookup_ofFields, found, ← Spread.listOfJson_toJson lines]
  exact congrArg Spread.listOfJson (value_ofJson _)

theorem nodes_ofFields {ns : List Node} (each : ∀ n ∈ ns, n.Returns)
    (found : fs.lookup "nodes" = some (.arr (Node.toJsonAll ns))) : nodes (ofFields fs) = .ok ns := by
  rw [nodes, lookup_ofFields, found, ← collect_toJsonAll each]
  rw [Option.map_some, ofJson]

/-- A child that is written is read whatever the default: a missing one is written as null. -/
theorem child_ofFields {o default : Option Node} (each : ∀ n ∈ o, n.Returns)
    (found : fs.lookup key = some (Node.toJsonOption o)) :
    child (ofFields fs) key default = .ok o := by
  rw [child, lookup_ofFields, found, Option.map_some]
  dsimp only
  rw [value_ofJson]
  cases o with
  | none => rfl
  | some n =>
    have same : (ofJson n.toJson).node = .ok n := each n rfl
    rw [Node.toJsonOption, Node.isNull_toJson, same]
    rfl

theorem element_ofFields {e : Element} {block : Option Node} {kind : Kind} {pos : Position}
    (attrs : ∀ a ∈ e.attrs, a.pos.HasLine) (spreads : ∀ s ∈ e.spreads, s.pos.HasLine)
    (below : ∀ n ∈ block, n.Returns) (label : key = "name" ∨ key = "expr") :
    element (ofFields (Node.objectOf kind pos (e.fields key (Node.toJsonOption block))).members) key =
      .ok (e, block) := by
  rcases label with rfl | rfl <;>
  · rw [element, attrs_ofFields attrs rfl, spreads_ofFields spreads rfl, child_ofFields below rfl,
      required_ofFields rfl, scalar_ofFields, scalar_ofFields]
    rfl

end Readings

namespace Node

open Reading Readings

theorem position_objectOf {kind : Kind} {pos : Position} {fs : List (String × Json)}
    (line : pos.line.isNull = false) :
    Readings.position (ofFields (objectOf kind pos fs).members) = pos := by
  have read : Readings.position (ofFields (objectOf kind pos fs).members) =
      { pos with line := if pos.line.isNull then .int 0 else pos.line } := by
    simp only [Readings.position, scalar_ofFields]
    rfl
  rw [read, line]
  rfl

theorem ofJson_objectOf (kind : Kind) (pos : Position) (fs : List (String × Json)) :
    ofJson (objectOf kind pos fs) = Readings.build (ofFields (objectOf kind pos fs).members) kind := by
  have type : Readings.scalar (ofFields (objectOf kind pos fs).members) "type" .null = .str kind.name :=
    scalar_ofFields _
  have read : ofJson (objectOf kind pos fs) = Readings.node (ofFields (objectOf kind pos fs).members) := by
    rw [ofJson, objectOf, Reading.ofJson]
    rfl
  rw [read, Readings.node, type]
  simp only [Kind.ofName?_name]

section Shapes

variable {pos : Position} (line : pos.line.isNull = false)
include line

theorem returns_leaf (head : Leaf) : (leaf pos head).Returns := by
  rw [Returns, toJson, ofJson_objectOf]
  cases head <;>
  · simp only [Leaf.kind, Readings.build, position_objectOf line, scalar_ofFields]
    rfl

theorem returns_seq (head : Sequence) {ns : List Node} (each : ∀ n ∈ ns, n.Returns) :
    (seq pos head ns).Returns := by
  rw [Returns, toJson, ofJson_objectOf]
  cases head <;>
  · simp only [Sequence.kind, Readings.build, position_objectOf line, scalar_ofFields]
    rw [nodes_ofFields each rfl]
    rfl

theorem returns_owner {head : Owner} {block : Option Node}
    (attrs : ∀ a ∈ (owner pos head block).attrs?.getD [], a.pos.HasLine)
    (spreads : ∀ s ∈ (owner pos head block).spreads?.getD [], s.pos.HasLine)
    (below : ∀ n ∈ block, n.Returns) : (owner pos head block).Returns := by
  rw [Returns, toJson, ofJson_objectOf]
  cases head <;>
    simp only [Owner.kind, Owner.fields, Readings.build, position_objectOf line, scalar_ofFields]
  case tag e =>
    rw [element_ofFields attrs spreads below (.inl rfl)]
    rfl
  case interpolatedTag e =>
    rw [element_ofFields attrs spreads below (.inr rfl)]
    rfl
  case mixin m =>
    rw [attrs_ofFields attrs rfl, spreads_ofFields spreads rfl, child_ofFields below rfl,
      required_ofFields rfl]
    rfl
  case filter name as =>
    rw [attrs_ofFields attrs rfl, child_ofFields below rfl]
    rfl
  all_goals
    rw [child_ofFields below rfl]
    rfl

theorem returns_fork (head : Fork) {main alternate : Option Node} (first : ∀ n ∈ main, n.Returns)
    (second : ∀ n ∈ alternate, n.Returns) : (fork pos head main alternate).Returns := by
  rw [Returns, toJson, ofJson_objectOf]
  cases head <;>
  · simp only [Fork.kind, Readings.build, position_objectOf line, scalar_ofFields]
    rw [child_ofFields first rfl, child_ofFields second rfl]
    rfl

theorem returns_inclusion {file block : Option Node} (first : ∀ n ∈ file, n.Returns)
    (second : ∀ n ∈ block, n.Returns) : (inclusion pos file block).Returns := by
  rw [Returns, toJson, ofJson_objectOf, Readings.build, position_objectOf line,
    child_ofFields first rfl, child_ofFields second rfl]
  rfl

theorem returns_extension {file : Option Node} (below : ∀ n ∈ file, n.Returns) :
    (extension pos file).Returns := by
  rw [Returns, toJson, ofJson_objectOf, Readings.build, position_objectOf line,
    child_ofFields below rfl]
  rfl

theorem returns_rawInclusion (filters : Json) {file : Option Node} (below : ∀ n ∈ file, n.Returns) :
    (rawInclusion pos file filters).Returns := by
  rw [Returns, toJson, ofJson_objectOf, Readings.build, position_objectOf line,
    child_ofFields below rfl, scalar_ofFields]
  rfl

theorem returns_fileReference (path fullPath : Json) {ast : Option Node}
    (below : ∀ n ∈ ast, n.Returns) : (fileReference pos path fullPath ast).Returns := by
  rw [Returns, toJson, ofJson_objectOf, Readings.build, position_objectOf line,
    child_ofFields below rfl]
  simp only [scalar_ofFields]
  rfl

end Shapes

theorem returns_of_isRead {n : Node} (isRead : n.IsRead) : n.Returns := by
  induction isRead with
  | @intro n line attrs spreads _ below =>
    have one : ∀ {o : Option Node}, n.parts = o.toList → ∀ m ∈ o, m.Returns := by
      intro o only m hm
      exact below m (only ▸ Option.mem_toList.2 hm)
    have two : ∀ {o o' : Option Node}, n.parts = o.toList ++ o'.toList →
        (∀ m ∈ o, m.Returns) ∧ ∀ m ∈ o', m.Returns := by
      intro o o' both
      rw [both] at below
      exact ⟨fun m hm => below m (List.mem_append_left _ (Option.mem_toList.2 hm)),
        fun m hm => below m (List.mem_append_right _ (Option.mem_toList.2 hm))⟩
    cases n with
    | leaf pos head => exact returns_leaf line head
    | seq pos head nodes => exact returns_seq line head below
    | owner pos head block => exact returns_owner line attrs spreads (one rfl)
    | fork pos head main alternate => exact returns_fork line head (two rfl).1 (two rfl).2
    | inclusion pos file block => exact returns_inclusion line (two rfl).1 (two rfl).2
    | extension pos file => exact returns_extension line (one rfl)
    | rawInclusion pos file filters => exact returns_rawInclusion line filters (one rfl)
    | fileReference pos path fullPath ast => exact returns_fileReference line path fullPath (one rfl)

end Node

end Writing

/-- What was read comes back when it is written and read again, so writing what was read settles a
value for good and tells the trees that were read apart. -/
theorem roundTrip_of_ofJson {v : Json} {tree : Node} (read : Node.ofJson v = .ok tree) :
    Node.ofJson tree.toJson = .ok tree ∧
      (Node.ofJson tree.toJson).map Node.toJson = (Node.ofJson v).map Node.toJson ∧
      ∀ v' tree', Node.ofJson v' = .ok tree' → tree'.toJson = tree.toJson → tree' = tree := by
  have returns : ∀ {v : Json} {n : Node}, Node.ofJson v = .ok n → Node.ofJson n.toJson = .ok n :=
    fun h => Node.returns_of_isRead ((Reading.sound_ofJson _).node _ h)
  have back := returns read
  refine ⟨back, by rw [back, read], fun v' tree' read' same => ?_⟩
  have back' := returns read'
  rw [same, back] at back'
  exact (Except.ok.inj back').symm

/-- A block without a line around a null entry and a tag whose attribute has an empty line, whose
first spread is a bare text, and whose branches are left out. -/
def looseBlock : Json :=
  .obj [("type", .str "Block"), ("line", .null),
    ("nodes", .arr [.null,
      .obj [("type", .str "Tag"), ("name", .arr [.real .notANumber]), ("unknown", .bool true),
        ("attrs", .arr [.obj [("name", .str "id"), ("line", .str "")]]),
        ("attributeBlocks", .arr [.str "rest", .obj [("val", .null), ("line", .bool false)]]),
        ("block", .obj [("type", .str "Conditional"), ("test", .int 3)])]])]

theorem roundTrip_looseBlock :
    ∃ tree, Node.ofJson looseBlock = .ok tree ∧ Node.ofJson tree.toJson = .ok tree ∧
      (Node.ofJson tree.toJson).map Node.toJson = (Node.ofJson looseBlock).map Node.toJson ∧
      ∀ v' tree', Node.ofJson v' = .ok tree' → tree'.toJson = tree.toJson → tree' = tree := by
  obtain ⟨tree, read⟩ := Outcome.exists_ok_of_isOk
    (show (Node.ofJson looseBlock).isOk = true by decide +kernel)
  exact ⟨tree, read, roundTrip_of_ofJson read⟩

end PugComponents
