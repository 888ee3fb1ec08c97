import PugComponents.Registry

/-! Finding the definitions of a tree. They are registered in walk order; what was registered before a
failure stays registered. -/

namespace PugComponents

/-- The registry after some steps, with what came of them. -/
structure Detection where
  registry : Registry
  outcome : Recorded Unit

namespace Detection

def registerTag (analysis : Definition.Analysis) (config : Config) (reg : Registry) (tag : Node) :
    Recorded Registry := do
  let d ← Definition.ofNode config tag analysis
  let reg ← reg.register config.reporter d
  if config.debug.isTruthy then
    Run.note (.registered d.name d.location d.slotNames d.usage.isSome)
  return reg

/-- One step: a `component` tag is registered. The children of a node whose file is no file reference
cannot be looked at. -/
def step (analysis : Definition.Analysis) (config : Config) (reg : Registry) (n : Node) :
    Recorded Registry :=
  if n.isDefinition then registerTag analysis config reg n
  else if n.isMisfiled then Run.fail (.fault .missingPart)
  else return reg

def ofList (analysis : Definition.Analysis) (config : Config) : Registry → List Node → Detection
  | reg, [] => ⟨reg, return ()⟩
  | reg, n :: ns =>
    let first := step analysis config reg n
    match first.result with
    | .error e => ⟨reg, ⟨.error e, first.records⟩⟩
    | .ok next =>
      let others := ofList analysis config next ns
      ⟨others.registry, ⟨others.outcome.result, first.records ++ others.outcome.records⟩⟩

def ofTree (config : Config) (reg : Registry) (root : Node) (analysis : Definition.Analysis := {}) :
    Detection :=
  ofList analysis config reg root.walk

end Detection

end PugComponents
