import PugComponents.Proofs.Tree.Rebuilt

/-! Well-formed trees: every recorded value has the type of its field, and every child is of a kind that
its place admits. Tags stand only in blocks there, since all other places hold blocks, or the next test
of a conditional. A node that is rebuilt from well-formed pieces is well-formed. -/

namespace PugComponents

namespace Json

def isText : Json → Bool
  | .str _ => true
  | _ => false

def isFlag : Json → Bool
  | .bool _ => true
  | _ => false

def isInteger : Json → Bool
  | .int _ => true
  | _ => false

def isObject : Json → Bool
  | .obj _ => true
  | _ => false

def isNullOr (p : Json → Bool) (v : Json) : Bool := v.isNull || p v

def isObjectList : Json → Bool
  | .arr items => items.all isObject
  | _ => false

end Json

def Position.isTyped (p : Position) : Bool :=
  p.line.isInteger && p.column.isNullOr Json.isInteger && p.filename.isNullOr Json.isText

def Attribute.isTyped (a : Attribute) : Bool :=
  a.name.isText && (a.val.isText || a.val.isFlag) && a.mustEscape.isFlag && a.pos.isTyped

def Spread.isTyped (s : Spread) : Bool := s.val.isText && s.pos.isTyped

def Element.isTyped (e : Element) : Bool :=
  e.label.isText && e.attrs.all Attribute.isTyped && e.spreads.all Spread.isTyped &&
    e.selfClosing.isFlag && e.isInline.isFlag

def MixinHead.isTyped (m : MixinHead) : Bool :=
  m.name.isText && m.args.isNullOr Json.isText && m.call.isFlag && m.attrs.all Attribute.isTyped &&
    m.spreads.all Spread.isTyped

def Leaf.isTyped : Leaf → Bool
  | .text val => val.isText
  | .comment val buffer => val.isText && buffer.isFlag
  | .doctype val => val.isText
  | .mixinBlock => true
  | .yieldBlock => true

def Sequence.isTyped : Sequence → Bool
  | .plain => true
  | .named name mode => name.isText && mode.isText

def Owner.isTyped : Owner → Bool
  | .tag element => element.isTyped
  | .interpolatedTag element => element.isTyped
  | .mixin head => head.isTyped
  | .blockComment val buffer => val.isText && buffer.isFlag
  | .code val buffer mustEscape isInline =>
    val.isText && buffer.isFlag && mustEscape.isFlag && isInline.isFlag
  | .filter name attrs => name.isText && attrs.all Attribute.isTyped
  | .caseOf expr => expr.isText
  | .whenArm expr debug => expr.isText && debug.isFlag
  | .whileLoop test => test.isText

def Fork.isTyped : Fork → Bool
  | .conditional test => test.isText
  | .each obj val key => obj.isText && val.isText && key.isNullOr Json.isText

namespace Node

def isConditional : Node → Bool
  | .fork _ (.conditional _) _ _ => true
  | _ => false

def isFileReference : Node → Bool
  | .fileReference .. => true
  | _ => false

/-- What may stand in the alternative of a fork: a block or, in a conditional, the next test. -/
def isAlternativeOf (head : Fork) (n : Node) : Bool :=
  match head with
  | .conditional _ => n.isBlock || n.isConditional
  | .each .. => n.isBlock

mutual

/-- Every recorded value has the type of its field, and every child is of a kind that its place admits.
This includes what is no child for a walk: the tree of a file, and the block below an inclusion. -/
def isWellFormed : Node → Bool
  | .leaf pos head => pos.isTyped && head.isTyped
  | .seq pos head nodes => pos.isTyped && head.isTyped && areWellFormed nodes
  | .owner pos head block =>
    pos.isTyped && head.isTyped && (block.isSome || !head.needsBlock) &&
      isWellFormedPart isBlock block
  | .fork pos head main alternate =>
    pos.isTyped && head.isTyped && main.isSome && isWellFormedPart isBlock main &&
      isWellFormedPart (isAlternativeOf head) alternate
  | .inclusion pos file block =>
    pos.isTyped && file.isSome && isWellFormedPart isFileReference file &&
      isWellFormedPart isBlock block
  | .extension pos file => pos.isTyped && file.isSome && isWellFormedPart isFileReference file
  | .rawInclusion pos file filters =>
    pos.isTyped && filters.isObjectList && file.isSome && isWellFormedPart isFileReference file
  | .fileReference pos path fullPath ast =>
    pos.isTyped && path.isText && fullPath.isNullOr Json.isText && isWellFormedPart isBlock ast

def areWellFormed : List Node → Bool
  | [] => true
  | n :: ns => isWellFormed n && areWellFormed ns

def isWellFormedPart (admits : Node → Bool) : Option Node → Bool
  | none => true
  | some n => admits n && isWellFormed n

end

section Parts

attribute [local simp] isWellFormed areWellFormed isWellFormedPart

theorem areWellFormed_iff {ns : List Node} :
    areWellFormed ns = true ↔ ∀ n ∈ ns, n.isWellFormed = true := by
  induction ns with
  | nil => simp
  | cons n ns ih => simp [ih]

theorem isWellFormedPart_iff {admits : Node → Bool} {o : Option Node} :
    isWellFormedPart admits o = true ↔ ∀ n ∈ o, admits n = true ∧ n.isWellFormed = true := by
  cases o <;> simp

theorem isWellFormed_seq {pos : Position} {head : Sequence} {nodes : List Node} :
    (seq pos head nodes).isWellFormed = true ↔
      pos.isTyped = true ∧ head.isTyped = true ∧ ∀ n ∈ nodes, n.isWellFormed = true := by
  simp [areWellFormed_iff, and_assoc]

theorem isWellFormed_block {pos : Position} {nodes : List Node} (typed : pos.isTyped = true)
    (wf : ∀ n ∈ nodes, n.isWellFormed = true) : (block pos nodes).isWellFormed = true :=
  isWellFormed_seq.2 ⟨typed, rfl, wf⟩

theorem isWellFormed_owner {pos : Position} {head : Owner} {block : Option Node} :
    (owner pos head block).isWellFormed = true ↔
      pos.isTyped = true ∧ head.isTyped = true ∧ (block.isSome = true ∨ head.needsBlock = false) ∧
        ∀ n ∈ block, n.isBlock = true ∧ n.isWellFormed = true := by
  simp [isWellFormedPart_iff, and_assoc]

theorem isWellFormed_owner_of_head {pos : Position} {head head' : Owner} {block : Option Node}
    (typed : head.isTyped = true → head'.isTyped = true) (needs : head'.needsBlock = head.needsBlock)
    (wf : (owner pos head block).isWellFormed = true) :
    (owner pos head' block).isWellFormed = true := by
  obtain ⟨posTyped, headTyped, needed, parts⟩ := isWellFormed_owner.1 wf
  exact isWellFormed_owner.2 ⟨posTyped, typed headTyped, needs ▸ needed, parts⟩

theorem isWellFormed_fork {pos : Position} {head : Fork} {main alternate : Option Node} :
    (fork pos head main alternate).isWellFormed = true ↔
      pos.isTyped = true ∧ head.isTyped = true ∧ main.isSome = true ∧
        (∀ n ∈ main, n.isBlock = true ∧ n.isWellFormed = true) ∧
        ∀ n ∈ alternate, n.isAlternativeOf head = true ∧ n.isWellFormed = true := by
  simp [isWellFormedPart_iff, and_assoc]

theorem isWellFormed_fileReference {pos : Position} {path fullPath : Json} {ast : Option Node} :
    (fileReference pos path fullPath ast).isWellFormed = true ↔
      (pos.isTyped = true ∧ path.isText = true ∧ fullPath.isNullOr Json.isText = true) ∧
        ∀ n ∈ ast, n.isBlock = true ∧ n.isWellFormed = true := by
  simp [isWellFormedPart_iff, and_assoc]

def IsFile (file : Option Node) : Prop :=
  ∃ n, file = some n ∧ n.isFileReference = true ∧ n.isWellFormed = true

theorem isSome_and_isWellFormedPart_iff {file : Option Node} :
    file.isSome = true ∧ isWellFormedPart isFileReference file = true ↔ IsFile file := by
  cases file <;> simp [IsFile]

theorem isWellFormed_inclusion {pos : Position} {file block : Option Node} :
    (inclusion pos file block).isWellFormed = true ↔
      pos.isTyped = true ∧ IsFile file ∧ ∀ n ∈ block, n.isBlock = true ∧ n.isWellFormed = true := by
  rw [← isSome_and_isWellFormedPart_iff]
  simp [@isWellFormedPart_iff isBlock, and_assoc]

theorem isWellFormed_extension {pos : Position} {file : Option Node} :
    (extension pos file).isWellFormed = true ↔ pos.isTyped = true ∧ IsFile file := by
  rw [← isSome_and_isWellFormedPart_iff]
  simp [and_assoc]

end Parts

theorem isBlock_bare (n : Node) : n.bare.isBlock = n.isBlock := by cases n <;> rfl

theorem isConditional_bare (n : Node) : n.bare.isConditional = n.isConditional := by
  cases n with
  | fork pos head main alternate => cases head <;> rfl
  | _ => rfl

theorem isAlternativeOf_bare (head : Fork) (n : Node) :
    n.bare.isAlternativeOf head = n.isAlternativeOf head := by
  cases head <;> simp [isAlternativeOf, isBlock_bare, isConditional_bare]

theorem isWellFormed_of_mem_file {file : Option Node} {c : Node} (wf : IsFile file)
    (hc : c ∈ ast? file) : c.isBlock = true ∧ c.isWellFormed = true := by
  obtain ⟨n, rfl, isFile, wf⟩ := wf
  cases n with
  | fileReference pos path fullPath ast => exact (isWellFormed_fileReference.1 wf).2 c hc
  | _ => simp [isFileReference] at isFile

theorem isWellFormed_of_mem_children {n c : Node} (wf : n.isWellFormed = true)
    (hc : c ∈ n.children) : c.isWellFormed = true := by
  cases n with
  | leaf => simp [children] at hc
  | seq pos head nodes => exact (isWellFormed_seq.1 wf).2.2 c hc
  | owner pos head block =>
    exact ((isWellFormed_owner.1 wf).2.2.2 c (Option.mem_toList.1 hc)).2
  | fork pos head main alternate =>
    obtain ⟨-, -, -, first, second⟩ := isWellFormed_fork.1 wf
    simp only [children, List.mem_append, Option.mem_toList] at hc
    rcases hc with hc | hc
    · exact (first c hc).2
    · exact (second c hc).2
  | inclusion pos file block =>
    exact (isWellFormed_of_mem_file (isWellFormed_inclusion.1 wf).2.1 (Option.mem_toList.1 hc)).2
  | extension pos file =>
    exact (isWellFormed_of_mem_file (isWellFormed_extension.1 wf).2 (Option.mem_toList.1 hc)).2
  | rawInclusion => simp [children] at hc
  | fileReference => simp [children] at hc

theorem isWellFormed_of_mem_walk {n m : Node} (wf : n.isWellFormed = true) (hm : m ∈ n.walk) :
    m.isWellFormed = true := by
  induction n using childInduction with
  | step n ih =>
    rcases mem_walk_iff.1 hm with rfl | ⟨c, hc, hm⟩
    · exact wf
    · exact ih c hc (isWellFormed_of_mem_children wf hc) hm

theorem callCheck_of_isWellFormed {n : Node} (wf : n.isWellFormed = true) :
    n.callCheck = .ok n.isCall := by
  cases found : n.tag? with
  | none => simp [callCheck, labelFault?, found]
  | some element =>
    obtain ⟨pos, block, rfl⟩ := exists_owner_of_tag? found
    have typed := (isWellFormed_owner.1 wf).2.1
    obtain ⟨label, _⟩ := element
    cases label <;> simp [Owner.isTyped, Element.isTyped, Json.isText] at typed
    simp [callCheck, labelFault?, tag?]

theorem isMisfiled_of_isWellFormed {n : Node} (wf : n.isWellFormed = true) : n.isMisfiled = false := by
  cases n with
  | inclusion pos file block =>
    obtain ⟨m, rfl, isFile, -⟩ := (isWellFormed_inclusion.1 wf).2.1
    cases m with
    | fileReference => rfl
    | _ => cases isFile
  | extension pos file =>
    obtain ⟨m, rfl, isFile, -⟩ := (isWellFormed_extension.1 wf).2
    cases m with
    | fileReference => rfl
    | _ => cases isFile
  | _ => rfl

theorem lacks_isMisfiled {n : Node} (wf : n.isWellFormed = true) : n.Lacks isMisfiled :=
  fun _ hm => isMisfiled_of_isWellFormed (isWellFormed_of_mem_walk wf hm)

theorem isTyped_pos {n : Node} (wf : n.isWellFormed = true) : n.pos.isTyped = true := by
  cases n <;> simp only [isWellFormed, Bool.and_eq_true] at wf <;> tauto

theorem isBlock_or_isConditional {n c : Node} (wf : n.isWellFormed = true)
    (notBlock : n.isBlock = false) (hc : c ∈ n.children) :
    c.isBlock = true ∨ c.isConditional = true := by
  cases n with
  | leaf => simp [children] at hc
  | seq => simp [isBlock] at notBlock
  | owner pos head block =>
    exact .inl ((isWellFormed_owner.1 wf).2.2.2 c (Option.mem_toList.1 hc)).1
  | fork pos head main alternate =>
    obtain ⟨-, -, -, first, second⟩ := isWellFormed_fork.1 wf
    simp only [children, List.mem_append, Option.mem_toList] at hc
    rcases hc with hc | hc
    · exact .inl (first c hc).1
    · have admitted := (second c hc).1
      cases head with
      | conditional test => simpa [isAlternativeOf] using admitted
      | each obj val key => exact .inl admitted
  | inclusion pos file block =>
    have file := (isWellFormed_inclusion.1 wf).2.1
    exact .inl (isWellFormed_of_mem_file file (Option.mem_toList.1 hc)).1
  | extension pos file =>
    have file := (isWellFormed_extension.1 wf).2
    exact .inl (isWellFormed_of_mem_file file (Option.mem_toList.1 hc)).1
  | rawInclusion => simp [children] at hc
  | fileReference => simp [children] at hc

theorem tag?_of_mem_children {n c : Node} (wf : n.isWellFormed = true) (notBlock : n.isBlock = false)
    (hc : c ∈ n.children) : c.tag? = none := by
  have kind := isBlock_or_isConditional wf notBlock hc
  cases c with
  | owner => simp [isBlock, isConditional] at kind
  | _ => rfl

section Rebuilding

variable {P : Node → List Node → Prop} {R : Node → Node → Prop}

theorem isSome_eq_of_rel {o o' : Option Node} (h : Option.Rel R o o') : o'.isSome = o.isSome := by
  cases h <;> rfl

theorem admits_of_rel {admits : Node → Bool} {o o' : Option Node} (h : Option.Rel R o o')
    (byHead : ∀ n, admits n.bare = admits n) (kept : ∀ c ∈ o, ∀ c', R c c' → c'.bare = c.bare)
    (before : ∀ c ∈ o, admits c = true ∧ c.isWellFormed = true)
    (after : ∀ c' ∈ o', c'.isWellFormed = true) :
    ∀ c' ∈ o', admits c' = true ∧ c'.isWellFormed = true := by
  cases h with
  | none => simp
  | @some c c' related =>
    intro d hd
    obtain rfl : c' = d := by simpa using hd
    refine ⟨?_, after c' rfl⟩
    rw [← byHead, kept c rfl c' related, byHead]
    exact (before c rfl).1

theorem isFile_of_rebuilt {file file' : Option Node} (h : RebuiltFile R file file')
    (kept : ∀ c ∈ ast? file, ∀ c', R c c' → c'.bare = c.bare) (before : IsFile file)
    (after : ∀ c' ∈ ast? file', c'.isWellFormed = true) : IsFile file' := by
  obtain ⟨n, rfl, -, wf⟩ := before
  cases h with
  | some pos path fullPath child =>
    obtain ⟨typed, parts⟩ := isWellFormed_fileReference.1 wf
    refine ⟨_, rfl, rfl, isWellFormed_fileReference.2 ⟨typed, ?_⟩⟩
    exact admits_of_rel child isBlock_bare kept parts after

/-- A node that is rebuilt around well-formed children is well-formed, if whatever does not stand in a
block keeps its kind. -/
theorem Rebuilt.isWellFormed {n n' : Node} (h : Rebuilt P R n n') (wf : n.isWellFormed = true)
    (kept : n.isBlock = false → ∀ c ∈ n.children, ∀ c', R c c' → c'.bare = c.bare)
    (after : ∀ m ∈ n'.children, m.isWellFormed = true) : n'.isWellFormed = true := by
  cases h with
  | leaf => exact wf
  | seq pos head _ =>
    obtain ⟨typed, headTyped, -⟩ := isWellFormed_seq.1 wf
    exact isWellFormed_seq.2 ⟨typed, headTyped, after⟩
  | owner pos head child =>
    obtain ⟨typed, headTyped, needed, parts⟩ := isWellFormed_owner.1 wf
    refine isWellFormed_owner.2 ⟨typed, headTyped, isSome_eq_of_rel child ▸ needed, ?_⟩
    exact admits_of_rel child isBlock_bare (fun c hc => kept rfl c (Option.mem_toList.2 hc)) parts
      fun c hc => after c (Option.mem_toList.2 hc)
  | fork pos head first second =>
    obtain ⟨typed, headTyped, needed, mainParts, otherParts⟩ := isWellFormed_fork.1 wf
    have kept := kept rfl
    simp only [children, List.mem_append, Option.mem_toList] at kept after
    refine isWellFormed_fork.2 ⟨typed, headTyped, isSome_eq_of_rel first ▸ needed, ?_, ?_⟩
    · exact admits_of_rel first isBlock_bare (fun c hc => kept c (.inl hc)) mainParts
        fun c hc => after c (.inl hc)
    · exact admits_of_rel second (isAlternativeOf_bare head) (fun c hc => kept c (.inr hc)) otherParts
        fun c hc => after c (.inr hc)
  | inclusion pos block tree =>
    obtain ⟨typed, file, block⟩ := isWellFormed_inclusion.1 wf
    refine isWellFormed_inclusion.2 ⟨typed, ?_, block⟩
    exact isFile_of_rebuilt tree (fun c hc => kept rfl c (Option.mem_toList.2 hc)) file
      fun c hc => after c (Option.mem_toList.2 hc)
  | extension pos tree =>
    obtain ⟨typed, file⟩ := isWellFormed_extension.1 wf
    refine isWellFormed_extension.2 ⟨typed, ?_⟩
    exact isFile_of_rebuilt tree (fun c hc => kept rfl c (Option.mem_toList.2 hc)) file
      fun c hc => after c (Option.mem_toList.2 hc)
  | rawInclusion => exact wf
  | fileReference => exact wf

end Rebuilding

end Node

end PugComponents
