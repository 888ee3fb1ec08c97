import PugComponents.Failure
import PugComponents.Json.Write
import PugComponents.Tree.Node

/-! A tree as JSON: every object carries its `type`, its place and all fields of its kind, in a fixed
order. -/

namespace PugComponents

namespace Position

def fields (p : Position) : List (String × Json) :=
  [("line", p.line), ("column", p.column), ("filename", p.filename)]

end Position

namespace Location

def toJson (loc : Location) : Json :=
  .obj [("line", loc.line), ("column", loc.column), ("filename", loc.filename), ("path", loc.path)]

end Location

namespace Attribute

def toJson (a : Attribute) : Json :=
  .obj ([("name", a.name), ("val", a.val), ("mustEscape", a.mustEscape)] ++ a.pos.fields)

end Attribute

namespace Spread

def toJson (s : Spread) : Json :=
  .obj ([("type", .str "AttributeBlock"), ("val", s.val)] ++ s.pos.fields)

end Spread

def attrsField (attrs : List Attribute) : String × Json := ("attrs", .arr (attrs.map Attribute.toJson))

def spreadsField (spreads : List Spread) : String × Json :=
  ("attributeBlocks", .arr (spreads.map Spread.toJson))

namespace Leaf

def fields : Leaf → List (String × Json)
  | .text val => [("val", val)]
  | .comment val buffer => [("val", val), ("buffer", buffer)]
  | .doctype val => [("val", val)]
  | .mixinBlock => []
  | .yieldBlock => []

end Leaf

namespace Sequence

def fields : Sequence → List (String × Json)
  | .plain => []
  | .named name mode => [("name", name), ("mode", mode)]

end Sequence

namespace Element

def fields (key : String) (e : Element) (block : Json) : List (String × Json) :=
  [(key, e.label), attrsField e.attrs, spreadsField e.spreads, ("block", block),
    ("selfClosing", e.selfClosing), ("isInline", e.isInline)]

end Element

namespace Owner

def fields (block : Json) : Owner → List (String × Json)
  | .tag e => e.fields "name" block
  | .interpolatedTag e => e.fields "expr" block
  | .mixin m =>
    [("name", m.name), ("args", m.args), ("call", m.call), attrsField m.attrs,
      spreadsField m.spreads, ("block", block)]
  | .blockComment val buffer => [("val", val), ("buffer", buffer), ("block", block)]
  | .code val buffer mustEscape isInline =>
    [("val", val), ("buffer", buffer), ("mustEscape", mustEscape), ("isInline", isInline),
      ("block", block)]
  | .filter name attrs => [("name", name), attrsField attrs, ("block", block)]
  | .caseOf expr => [("expr", expr), ("block", block)]
  | .whenArm expr debug => [("expr", expr), ("block", block), ("debug", debug)]
  | .whileLoop test => [("test", test), ("block", block)]

end Owner

namespace Fork

def fields (main alternate : Json) : Fork → List (String × Json)
  | .conditional test => [("test", test), ("consequent", main), ("alternate", alternate)]
  | .each obj val key =>
    [("obj", obj), ("val", val), ("key", key), ("block", main), ("alternate", alternate)]

end Fork

namespace Node

def objectOf (kind : Kind) (pos : Position) (fields : List (String × Json)) : Json :=
  .obj (("type", .str kind.name) :: (pos.fields ++ fields))

mutual

def toJson : Node → Json
  | .leaf pos head => objectOf head.kind pos head.fields
  | .seq pos head nodes => objectOf head.kind pos (("nodes", .arr (toJsonAll nodes)) :: head.fields)
  | .owner pos head block => objectOf head.kind pos (head.fields (toJsonOption block))
  | .fork pos head main alternate =>
    objectOf head.kind pos (head.fields (toJsonOption main) (toJsonOption alternate))
  | .inclusion pos file block =>
    objectOf .inclusion pos [("file", toJsonOption file), ("block", toJsonOption block)]
  | .extension pos file => objectOf .extension pos [("file", toJsonOption file)]
  | .rawInclusion pos file filters =>
    objectOf .rawInclusion pos [("file", toJsonOption file), ("filters", filters)]
  | .fileReference pos path fullPath ast =>
    objectOf .fileReference pos [("path", path), ("fullPath", fullPath), ("ast", toJsonOption ast)]

def toJsonAll : List Node → List Json
  | [] => []
  | n :: ns => toJson n :: toJsonAll ns

def toJsonOption : Option Node → Json
  | none => .null
  | some n => toJson n

end

def toText (indent : Option Int) (n : Node) : Except Failure String :=
  match Layout.ofIndent? indent with
  | none => .error (.fault .indentTooWide)
  | some layout =>
    if n.toJson.isShort then .ok (n.toJson.render layout) else .error (.fault .tooManyDigits)

end Node

end PugComponents
