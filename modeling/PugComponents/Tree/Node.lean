import PugComponents.Location

/-! The tree of a parsed template. Nodes are sorted by the children they have: leaves, sequences, owners
of one optional block, forks with two branches, and references to other files. What a kind records
besides its children is its head. Recorded values are kept as they were read, whatever their kind,
and every child may be missing. -/

namespace PugComponents

/-- `name=val` on an element; a bare attribute has the value `true`. -/
structure Attribute where
  name : Json
  val : Json := .bool true
  mustEscape : Json := .bool true
  pos : Position := {}

structure Spread where
  val : Json
  pos : Position := {}

/-- The head of an element. The label is its name or, for a computed name, the expression. -/
structure Element where
  label : Json
  attrs : List Attribute := []
  spreads : List Spread := []
  selfClosing : Json := .bool false
  isInline : Json := .bool false

structure MixinHead where
  name : Json
  args : Json := .null
  call : Json := .bool false
  attrs : List Attribute := []
  spreads : List Spread := []

inductive Leaf where
  | text (val : Json)
  | comment (val buffer : Json)
  | doctype (val : Json)
  | mixinBlock
  | yieldBlock

/-- A plain block, or a named block of template inheritance. -/
inductive Sequence where
  | plain
  | named (name mode : Json)

inductive Owner where
  | tag (element : Element)
  | interpolatedTag (element : Element)
  | mixin (head : MixinHead)
  | blockComment (val buffer : Json)
  | code (val buffer mustEscape isInline : Json)
  | filter (name : Json) (attrs : List Attribute)
  | caseOf (expr : Json)
  | whenArm (expr debug : Json)
  | whileLoop (test : Json)

inductive Fork where
  | conditional (test : Json)
  | each (obj val key : Json)

inductive Node where
  | leaf (pos : Position) (head : Leaf)
  | seq (pos : Position) (head : Sequence) (nodes : List Node)
  | owner (pos : Position) (head : Owner) (block : Option Node)
  | fork (pos : Position) (head : Fork) (main alternate : Option Node)
  | inclusion (pos : Position) (file block : Option Node)
  | extension (pos : Position) (file : Option Node)
  | rawInclusion (pos : Position) (file : Option Node) (filters : Json)
  | fileReference (pos : Position) (path fullPath : Json) (ast : Option Node)

inductive Kind where
  | block | namedBlock | tag | interpolatedTag | mixin | mixinBlock | yieldBlock | text | comment
  | blockComment | code | doctype | filter | conditional | each | whileLoop | caseOf | whenArm
  | inclusion | extension | rawInclusion | fileReference
deriving DecidableEq

namespace Kind

def all : List Kind :=
  [.block, .namedBlock, .tag, .interpolatedTag, .mixin, .mixinBlock, .yieldBlock, .text, .comment,
    .blockComment, .code, .doctype, .filter, .conditional, .each, .whileLoop, .caseOf, .whenArm,
    .inclusion, .extension, .rawInclusion, .fileReference]

theorem mem_all (k : Kind) : k ∈ all := by cases k <;> decide

def name : Kind → String
  | .block => "Block"
  | .namedBlock => "NamedBlock"
  | .tag => "Tag"
  | .interpolatedTag => "InterpolatedTag"
  | .mixin => "Mixin"
  | .mixinBlock => "MixinBlock"
  | .yieldBlock => "YieldBlock"
  | .text => "Text"
  | .comment => "Comment"
  | .blockComment => "BlockComment"
  | .code => "Code"
  | .doctype => "Doctype"
  | .filter => "Filter"
  | .conditional => "Conditional"
  | .each => "Each"
  | .whileLoop => "While"
  | .caseOf => "Case"
  | .whenArm => "When"
  | .inclusion => "Include"
  | .extension => "Extends"
  | .rawInclusion => "RawInclude"
  | .fileReference => "FileReference"

def ofName? (s : String) : Option Kind := all.find? fun k => k.name == s

theorem ofName?_name (k : Kind) : ofName? k.name = some k := by cases k <;> decide

end Kind

namespace Leaf

def kind : Leaf → Kind
  | .text _ => .text
  | .comment .. => .comment
  | .doctype _ => .doctype
  | .mixinBlock => .mixinBlock
  | .yieldBlock => .yieldBlock

end Leaf

namespace Sequence

def kind : Sequence → Kind
  | .plain => .block
  | .named .. => .namedBlock

end Sequence

namespace Owner

def kind : Owner → Kind
  | .tag _ => .tag
  | .interpolatedTag _ => .interpolatedTag
  | .mixin _ => .mixin
  | .blockComment .. => .blockComment
  | .code .. => .code
  | .filter .. => .filter
  | .caseOf _ => .caseOf
  | .whenArm .. => .whenArm
  | .whileLoop _ => .whileLoop

/-- A loop and a switch cannot do without their block. -/
def needsBlock : Owner → Bool
  | .caseOf _ | .whileLoop _ => true
  | _ => false

end Owner

namespace Fork

def kind : Fork → Kind
  | .conditional _ => .conditional
  | .each .. => .each

end Fork

namespace Node

instance : Inhabited Node := ⟨.leaf {} .yieldBlock⟩

def kind : Node → Kind
  | .leaf _ head => head.kind
  | .seq _ head _ => head.kind
  | .owner _ head _ => head.kind
  | .fork _ head _ _ => head.kind
  | .inclusion .. => .inclusion
  | .extension .. => .extension
  | .rawInclusion .. => .rawInclusion
  | .fileReference .. => .fileReference

def pos : Node → Position
  | .leaf pos _ => pos
  | .seq pos _ _ => pos
  | .owner pos _ _ => pos
  | .fork pos _ _ _ => pos
  | .inclusion pos _ _ => pos
  | .extension pos _ => pos
  | .rawInclusion pos _ _ => pos
  | .fileReference pos _ _ _ => pos

def location (n : Node) : Location := Location.ofPosition n.pos

def block (pos : Position) (nodes : List Node) : Node := .seq pos .plain nodes

def emptyBlock (pos : Position := {}) : Node := block pos []

def nodes? : Node → Option (List Node)
  | .seq _ _ nodes => some nodes
  | _ => none

def block? : Node → Option (Option Node)
  | .owner _ _ block => some block
  | .fork _ (.each ..) main _ => some main
  | .inclusion _ _ block => some block
  | _ => none

def tag? : Node → Option Element
  | .owner _ (.tag element) _ => some element
  | _ => none

def attrs? : Node → Option (List Attribute)
  | .owner _ (.tag element) _ => some element.attrs
  | .owner _ (.interpolatedTag element) _ => some element.attrs
  | .owner _ (.mixin head) _ => some head.attrs
  | .owner _ (.filter _ attrs) _ => some attrs
  | _ => none

/-- An Include or Extends whose file is no file reference. -/
def isMisfiled : Node → Bool
  | .inclusion _ (some (.fileReference ..)) _ => false
  | .inclusion _ (some _) _ => true
  | .extension _ (some (.fileReference ..)) => false
  | .extension _ (some _) => true
  | _ => false

@[simp] theorem kind_block (pos : Position) (nodes : List Node) :
    (block pos nodes).kind = .block := rfl

@[simp] theorem nodes?_block (pos : Position) (nodes : List Node) :
    (block pos nodes).nodes? = some nodes := rfl

end Node

end PugComponents
