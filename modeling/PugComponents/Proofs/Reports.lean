import PugComponents.Failure
import PugComponents.Proofs.Tree.Calls

/-! Failures that are reported at a node of the template. The cause says which nodes it can be about, by
their names, and the location is the place of such a node, with the file of the template where the node
records none. -/

namespace PugComponents

/-- The location is that of a node at the position, for a template of the given name. -/
structure Location.StandsFor (filename : Json) (pos : Position) (loc : Location) : Prop where
  line : loc.line = pos.line
  column : loc.column = pos.column
  own : pos.filename.isTruthy = true → loc.filename = pos.filename
  given : pos.filename.isTruthy = false → filename.isTruthy = true → loc.filename = filename

namespace Location

variable {filename : Json} {pos : Position} {loc : Location}

theorem standsFor_withFilename (line : loc.line = pos.line) (column : loc.column = pos.column)
    (file : loc.filename = pos.filename) : (loc.withFilename filename).StandsFor filename pos := by
  cases own : pos.filename.isTruthy <;> cases given : filename.isTruthy <;>
    constructor <;> simp_all [withFilename]

theorem StandsFor.withFilename (h : loc.StandsFor filename pos) :
    (loc.withFilename filename).StandsFor filename pos := by
  have same : loc.withFilename filename = loc ∨ filename.isTruthy = true ∧
      loc.filename.isTruthy = false := by
    unfold Location.withFilename
    cases loc.filename.isTruthy <;> cases filename.isTruthy <;> simp
  rcases same with same | ⟨named, unnamed⟩
  · rw [same]
    exact h
  · cases own : pos.filename.isTruthy with
    | true =>
      rw [h.own own, own] at unnamed
      cases unnamed
    | false =>
      rw [h.given own named, named] at unnamed
      cases unnamed

end Location

/-- The nodes that a cause can be about. -/
def Cause.Blames : Cause → Node → Prop
  | .componentNotFound name _, n => n.calledName? = some name
  | .recursiveCall cycle, n => n.isCall = true ∧ n.calledName? = cycle.getLast?
  | .slotNotDefined .., n => n.isCall = true
  | .duplicateSlotProvided _, n => n.isSlot = true ∨ n.isCall = true
  | .duplicateSlotDefinition .., n => n.isSlot = true
  | .duplicateComponent .., n => n.isDefinition = true
  | .externalVariable .., n => n.isDefinition = true
  | .invalidDefinition .., n => n.isDefinition = true ∨ n.isSlot = true
  | _, _ => False

theorem Cause.blames_complete (r : Reporter) (cause : Cause) (n : Node) :
    (r.complete cause).Blames n ↔ cause.Blames n := by
  cases cause <;> rfl

theorem Cause.blames_iff_of_label?_eq {cause : Cause} {n n' : Node} (h : n'.label? = n.label?) :
    cause.Blames n' ↔ cause.Blames n := by
  cases cause <;>
    simp only [Cause.Blames, Node.calledName?_eq_of_label?_eq h, Node.isCall_eq_of_label?_eq h,
      Node.isSlot_eq_of_label?_eq h, Node.isDefinition_eq_of_label?_eq h]

theorem Cause.exists_label?_of_blames {cause : Cause} {n : Node} (h : cause.Blames n) :
    ∃ label, n.label? = some label := by
  have tagged : ∀ {m : Node}, m.isCall = true ∨ m.isSlot = true ∨ m.isDefinition = true →
      ∃ label, m.label? = some label := by
    intro m named
    cases found : m.tag? with
    | some element => exact ⟨element.label, by simp [Node.label?, found]⟩
    | none =>
      simp [Node.isCall_eq_false_of_tag? found, Node.isSlot, Node.isDefinition, Node.isTagNamed,
        found] at named
  cases cause <;> simp only [Cause.Blames] at h <;> refine tagged ?_ <;> try tauto
  exact .inl (Node.isCall_of_calledName? h)

def Failure.Reports (r : Reporter) (e : Failure) (n : Node) : Prop :=
  ∃ d loc, e = .diagnostic d ∧ d.location = some loc ∧ loc.StandsFor r.filename n.pos ∧
    d.cause.Blames n

/-- The failure is a report about a node of the page. -/
def Failure.ReportsIn (r : Reporter) (page : Node) (e : Failure) : Prop :=
  ∃ n ∈ page.walk, e.Reports r n

namespace Failure

variable {r : Reporter} {cause : Cause} {n page : Node} {e : Failure}

theorem reports_at {loc : Location} (place : loc.StandsFor r.filename n.pos) (blames : cause.Blames n) :
    (Failure.diagnostic (r.report cause (some loc))).Reports r n :=
  ⟨_, _, rfl, rfl, place.withFilename, (Cause.blames_complete r cause n).2 blames⟩

theorem reports_location (blames : cause.Blames n) :
    (Failure.diagnostic (r.report cause (some n.location))).Reports r n :=
  ⟨_, _, rfl, rfl, Location.standsFor_withFilename rfl rfl rfl,
    (Cause.blames_complete r cause n).2 blames⟩

theorem Reports.reportsIn (h : e.Reports r n) (stems : page.StemsFrom n) : e.ReportsIn r page := by
  obtain ⟨d, loc, rfl, located, place, blames⟩ := h
  obtain ⟨label, labelled⟩ := Cause.exists_label?_of_blames blames
  obtain ⟨origin, member, marked⟩ :=
    stems n (Node.self_mem_walk n) _ (Node.mark?_eq_some_iff.2 ⟨rfl, labelled⟩)
  obtain ⟨same, labelled'⟩ := Node.mark?_eq_some_iff.1 marked
  refine ⟨origin, member, d, loc, rfl, located, same ▸ place, ?_⟩
  exact (Cause.blames_iff_of_label?_eq (labelled'.trans labelled.symm)).2 blames

end Failure

def reportedCode? {α : Type} : Except Failure α → Option ErrorCode
  | .error (.diagnostic d) => d.cause.code?
  | _ => none

theorem exists_error_of_reportedCode? {α : Type} {x : Except Failure α} {code : ErrorCode}
    (h : reportedCode? x = some code) :
    ∃ d, x = .error (.diagnostic d) ∧ d.cause.code? = some code := by
  unfold reportedCode? at h
  split at h
  · exact ⟨_, rfl, h⟩
  · cases h

theorem Cause.eq_expansionDepth_of_code? {cause : Cause} (h : cause.code? = some .expansionDepth) :
    cause = .expansionDepth := by
  cases cause <;> simp_all [Cause.code?]

end PugComponents
