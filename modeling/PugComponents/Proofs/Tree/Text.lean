import PugComponents.Proofs.Json.ReadBack
import PugComponents.Proofs.Tree.RoundTrip

/-! Trees as texts. What a tree records is kept in its JSON, next to keys that are distinct for every
kind; so if the recorded values come back from a text, the JSON of the whole tree does. -/

namespace PugComponents

/-! The values that the parts of a tree record. -/

def Position.values (p : Position) : List Json := [p.line, p.column, p.filename]

def Attribute.values (a : Attribute) : List Json := [a.name, a.val, a.mustEscape] ++ a.pos.values

def Spread.values (s : Spread) : List Json := s.val :: s.pos.values

def Element.values (e : Element) : List Json :=
  [e.label, e.selfClosing, e.isInline] ++ e.attrs.flatMap Attribute.values ++
    e.spreads.flatMap Spread.values

def MixinHead.values (m : MixinHead) : List Json :=
  [m.name, m.args, m.call] ++ m.attrs.flatMap Attribute.values ++ m.spreads.flatMap Spread.values

def Leaf.values : Leaf → List Json
  | .text val => [val]
  | .comment val buffer => [val, buffer]
  | .doctype val => [val]
  | .mixinBlock => []
  | .yieldBlock => []

def Sequence.values : Sequence → List Json
  | .plain => []
  | .named name mode => [name, mode]

def Owner.values : Owner → List Json
  | .tag element => element.values
  | .interpolatedTag element => element.values
  | .mixin head => head.values
  | .blockComment val buffer => [val, buffer]
  | .code val buffer mustEscape isInline => [val, buffer, mustEscape, isInline]
  | .filter name attrs => name :: attrs.flatMap Attribute.values
  | .caseOf expr => [expr]
  | .whenArm expr debug => [expr, debug]
  | .whileLoop test => [test]

def Fork.values : Fork → List Json
  | .conditional test => [test]
  | .each obj val key => [obj, val, key]

namespace Node

mutual

/-- All values that a tree records, also in the parts that a walk does not come to. -/
def values : Node → List Json
  | .leaf pos head => pos.values ++ head.values
  | .seq pos head nodes => pos.values ++ head.values ++ valuesAll nodes
  | .owner pos head block => pos.values ++ head.values ++ valuesOption block
  | .fork pos head main alternate =>
    pos.values ++ head.values ++ (valuesOption main ++ valuesOption alternate)
  | .inclusion pos file block => pos.values ++ (valuesOption file ++ valuesOption block)
  | .extension pos file => pos.values ++ valuesOption file
  | .rawInclusion pos file filters => pos.values ++ [filters] ++ valuesOption file
  | .fileReference pos path fullPath ast => pos.values ++ [path, fullPath] ++ valuesOption ast

def valuesAll : List Node → List Json
  | [] => []
  | n :: ns => values n ++ valuesAll ns

def valuesOption : Option Node → List Json
  | none => []
  | some n => values n

end

end Node

def AllHold (P : Json → Prop) (vs : List Json) : Prop := ∀ v ∈ vs, P v

section AllHold

variable {P : Json → Prop}

@[simp] theorem allHold_nil : AllHold P [] := by simp [AllHold]

@[simp] theorem allHold_cons {v : Json} {vs : List Json} : AllHold P (v :: vs) ↔ P v ∧ AllHold P vs :=
  List.forall_mem_cons

@[simp] theorem allHold_append {vs ws : List Json} : AllHold P (vs ++ ws) ↔ AllHold P vs ∧ AllHold P ws :=
  List.forall_mem_append

theorem allHold_flatMap {α : Type} {f : α → List Json} {xs : List α} :
    AllHold P (xs.flatMap f) ↔ ∀ x ∈ xs, AllHold P (f x) := by
  simp only [AllHold, List.mem_flatMap]
  grind

end AllHold

namespace Json

/-- A property that a list has exactly if its items do, and an object without repeated keys exactly if its
members do. Words and texts have it. -/
structure IsInherited (P : Json → Prop) : Prop where
  null : P .null
  str : ∀ s, P (.str s)
  arr : ∀ {items}, P (.arr items) ↔ AllHold P items
  obj : ∀ {fields : List (String × Json)}, (fields.map Prod.fst).Nodup →
    (P (.obj fields) ↔ AllHold P (fields.map Prod.snd))

end Json

section Writing

variable {P : Json → Prop} (inherited : Json.IsInherited P)
include inherited

theorem Attribute.holds_toJson {a : Attribute} : P a.toJson ↔ AllHold P a.values :=
  inherited.obj (by simp [Position.fields])

theorem Spread.holds_toJson {s : Spread} : P s.toJson ↔ AllHold P s.values := by
  have members : P s.toJson ↔ AllHold P (.str "AttributeBlock" :: s.values) :=
    inherited.obj (by simp [Position.fields])
  rw [members, allHold_cons, and_iff_right (inherited.str _)]

theorem holds_attrsField {attrs : List Attribute} :
    P (attrsField attrs).2 ↔ AllHold P (attrs.flatMap Attribute.values) := by
  have items : P (attrsField attrs).2 ↔ AllHold P (attrs.map Attribute.toJson) := inherited.arr
  rw [items, allHold_flatMap, AllHold, List.forall_mem_map]
  exact forall₂_congr fun _ _ => Attribute.holds_toJson inherited

theorem holds_spreadsField {spreads : List Spread} :
    P (spreadsField spreads).2 ↔ AllHold P (spreads.flatMap Spread.values) := by
  have items : P (spreadsField spreads).2 ↔ AllHold P (spreads.map Spread.toJson) := inherited.arr
  rw [items, allHold_flatMap, AllHold, List.forall_mem_map]
  exact forall₂_congr fun _ _ => Spread.holds_toJson inherited

namespace Node

def HasOwnKeys (fields : List (String × Json)) : Prop :=
  ("type" :: "line" :: "column" :: "filename" :: fields.map Prod.fst).Nodup

theorem holds_objectOf {kind : Kind} {pos : Position} {fields : List (String × Json)}
    (keys : HasOwnKeys fields) :
    P (objectOf kind pos fields) ↔ AllHold P pos.values ∧ AllHold P (fields.map Prod.snd) := by
  have members : P (objectOf kind pos fields) ↔
      AllHold P (.str kind.name :: (pos.fields ++ fields).map Prod.snd) := inherited.obj keys
  rw [members, allHold_cons, and_iff_right (inherited.str _), List.map_append, allHold_append]
  rfl

section Heads

variable {block main alternate : Json}

theorem holds_element {key : String} {e : Element} :
    AllHold P ((e.fields key block).map Prod.snd) ↔ AllHold P e.values ∧ P block := by
  simp only [Element.fields, Element.values, List.map_cons, List.map_nil, allHold_cons, allHold_append,
    holds_attrsField inherited, holds_spreadsField inherited, allHold_nil]
  tauto

theorem holds_owner {head : Owner} :
    AllHold P ((head.fields block).map Prod.snd) ↔ AllHold P head.values ∧ P block := by
  cases head with
  | tag e | interpolatedTag e => exact holds_element inherited
  | mixin m =>
    simp only [Owner.fields, Owner.values, MixinHead.values, List.map_cons, List.map_nil, allHold_cons,
      allHold_append, holds_attrsField inherited, holds_spreadsField inherited, allHold_nil]
    tauto
  | filter name attrs =>
    simp only [Owner.fields, Owner.values, List.map_cons, List.map_nil, allHold_cons,
      holds_attrsField inherited, allHold_nil]
    tauto
  | blockComment | code | caseOf | whenArm | whileLoop =>
    simp only [Owner.fields, Owner.values, List.map_cons, List.map_nil, allHold_cons, allHold_nil]
    tauto

omit inherited in
theorem holds_fork {head : Fork} : AllHold P ((head.fields main alternate).map Prod.snd) ↔
    AllHold P head.values ∧ P main ∧ P alternate := by
  cases head with
  | conditional | each =>
    simp only [Fork.fields, Fork.values, List.map_cons, List.map_nil, allHold_cons, allHold_nil]
    tauto

end Heads

section Keys

omit inherited

theorem hasOwnKeys_leaf (head : Leaf) : HasOwnKeys head.fields := by
  cases head <;> simp [HasOwnKeys, Leaf.fields]

theorem hasOwnKeys_seq (head : Sequence) (nodes : Json) : HasOwnKeys (("nodes", nodes) :: head.fields) := by
  cases head <;> simp [HasOwnKeys, Sequence.fields]

theorem hasOwnKeys_owner (head : Owner) (block : Json) : HasOwnKeys (head.fields block) := by
  cases head <;> simp [HasOwnKeys, Owner.fields, Element.fields, attrsField, spreadsField]

theorem hasOwnKeys_fork (head : Fork) (main alternate : Json) : HasOwnKeys (head.fields main alternate) := by
  cases head <;> simp [HasOwnKeys, Fork.fields]

end Keys

omit inherited

mutual

theorem holds_toJson (inherited : Json.IsInherited P) : (n : Node) → (P n.toJson ↔ AllHold P n.values)
  | .leaf pos head => by
    rw [toJson, values, holds_objectOf inherited (hasOwnKeys_leaf head), allHold_append]
    cases head <;> rfl
  | .seq pos head nodes => by
    rw [toJson, values, holds_objectOf inherited (hasOwnKeys_seq head _), List.map_cons, allHold_cons,
      inherited.arr, holds_toJsonAll inherited nodes]
    cases head with
    | plain | named =>
      simp only [Sequence.fields, Sequence.values, List.map_cons, List.map_nil, allHold_cons, allHold_append,
        allHold_nil]
      tauto
  | .owner pos head block => by
    rw [toJson, values, holds_objectOf inherited (hasOwnKeys_owner head _), holds_owner inherited,
      holds_toJsonOption inherited block, allHold_append, allHold_append, and_assoc]
  | .fork pos head main alternate => by
    rw [toJson, values, holds_objectOf inherited (hasOwnKeys_fork head _ _), holds_fork,
      holds_toJsonOption inherited main, holds_toJsonOption inherited alternate]
    simp
  | .inclusion pos file block => by
    rw [toJson, values, holds_objectOf inherited (by simp [HasOwnKeys])]
    simp [holds_toJsonOption inherited file, holds_toJsonOption inherited block]
  | .extension pos file => by
    rw [toJson, values, holds_objectOf inherited (by simp [HasOwnKeys])]
    simp [holds_toJsonOption inherited file]
  | .rawInclusion pos file filters => by
    rw [toJson, values, holds_objectOf inherited (by simp [HasOwnKeys])]
    simp [holds_toJsonOption inherited file, and_comm]
  | .fileReference pos path fullPath ast => by
    rw [toJson, values, holds_objectOf inherited (by simp [HasOwnKeys])]
    simp [holds_toJsonOption inherited ast]
termination_by structural n => n

theorem holds_toJsonAll (inherited : Json.IsInherited P) :
    (ns : List Node) → (AllHold P (toJsonAll ns) ↔ AllHold P (valuesAll ns))
  | [] => by rw [toJsonAll, valuesAll]
  | n :: ns => by
    rw [toJsonAll, valuesAll, allHold_cons, allHold_append, holds_toJson inherited n,
      holds_toJsonAll inherited ns]
termination_by structural ns => ns

theorem holds_toJsonOption (inherited : Json.IsInherited P) :
    (o : Option Node) → (P (toJsonOption o) ↔ AllHold P (valuesOption o))
  | none => by
    rw [toJsonOption, valuesOption]
    exact iff_of_true inherited.null allHold_nil
  | some n => by rw [toJsonOption, valuesOption, holds_toJson inherited n]
termination_by structural o => o

end

end Node

end Writing

section Texts

variable {n : Node} {indent : Option Int}

end Texts

end PugComponents
