import PugComponents.Json.Display

/-! Where something stands in a template. A position is what a node records; a location adds the
label of the control flow around it, which only diagnostics show. Recorded values are kept as they
were read, whatever their kind. -/

namespace PugComponents

structure Position where
  line : Json := .int 0
  column : Json := .null
  filename : Json := .null

instance : Inhabited Position := ⟨{}⟩

structure Location where
  line : Json := .int 0
  column : Json := .null
  filename : Json := .null
  path : Json := .null

namespace Location

def ofPosition (p : Position) : Location :=
  { line := p.line, column := p.column, filename := p.filename }

def withPath (loc : Location) (path : String) : Location := { loc with path := .str path }

/-- The location with `filename` where it records none. -/
def withFilename (loc : Location) (filename : Json) : Location :=
  if loc.filename.isTruthy || !filename.isTruthy then loc else { loc with filename := filename }

def format (loc : Location) : String :=
  (if loc.filename.isTruthy then loc.filename.display else "<unknown>") ++
    ":line " ++ loc.line.display ++
    (if loc.column.isNull then "" else ":column " ++ loc.column.display)

@[simp] theorem withFilename_path (loc : Location) (filename : Json) :
    (loc.withFilename filename).path = loc.path := by
  unfold withFilename; split <;> rfl

@[simp] theorem withFilename_line (loc : Location) (filename : Json) :
    (loc.withFilename filename).line = loc.line := by
  unfold withFilename; split <;> rfl

end Location

end PugComponents
