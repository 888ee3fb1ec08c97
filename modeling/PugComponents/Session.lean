import PugComponents.Cleanup
import PugComponents.Detection
import PugComponents.Expansion

/-! The whole way of a template: its definitions are registered, its calls expanded, the definitions
dropped and the files it includes put in their places. A session keeps the components from one
template to the next. -/

namespace PugComponents

/-- A compilation unit: its options, and the components that were registered so far. -/
structure Session where
  config : Config := {}
  registry : Registry := Registry.empty

namespace Session

/-- A nesting that is too deep is reported at the root of the template. -/
def reportDepth (config : Config) (root : Node) : Failure → Failure
  | .fault .tooDeep =>
    .diagnostic (config.reporter.report .expansionDepth (some root.location))
  | e => e

def finish (config : Config) (reg : Registry) (root : Node) : Recorded Node := do
  let expanded ← (Expansion.mk reg config).tree [] root
  let kept ← expanded.removeDefinitions
  kept.flatten

def announce (config : Config) (reg : Registry) : Recorded Unit :=
  if config.debug.isTruthy then Run.note (.expanded config.filename reg.size) else return ()

/-- All passes over a template. Definitions stay registered, also if a later one fails. -/
def transform (s : Session) (root : Node) (analysis : Definition.Analysis := {}) :
    Session × Recorded Node :=
  let detection := Detection.ofTree s.config s.registry root analysis
  let run : Recorded Node := do
    detection.outcome
    let tree ← finish s.config detection.registry root
    announce s.config detection.registry
    return tree
  ({ s with registry := detection.registry },
    { run with result := run.result.mapError (reportDepth s.config root) })

def detect (s : Session) (root : Node) : Session × Recorded Node :=
  let detection := Detection.ofTree s.config s.registry root
  ({ s with registry := detection.registry }, do
    detection.outcome
    return root)

def register (s : Session) (n : Node) : Session × Recorded Unit :=
  let run : Recorded Registry := do
    let d ← Definition.ofNode s.config n
    s.registry.register s.config.reporter d
  match run.result with
  | .ok reg => ({ s with registry := reg }, ⟨.ok (), run.records⟩)
  | .error e => (s, ⟨.error e, run.records⟩)

def expandTree (s : Session) (stack : List String) (root : Node) : Recorded Node :=
  (Expansion.mk s.registry s.config).tree stack root

/-- The block that takes the place of a call inside the given components. -/
def expandCall (s : Session) (stack : List String) (call : Node) : Recorded Node := do
  let x := Expansion.mk s.registry s.config
  let nodes ← x.call stack call
  let d ← x.target stack call
  return Node.block d.pos nodes

def clear (s : Session) : Session := { s with registry := Registry.empty }

end Session

def expand (config : Config) (root : Node) (analysis : Definition.Analysis := {}) : Recorded Node :=
  (Session.transform { config := config } root analysis).2

end PugComponents
