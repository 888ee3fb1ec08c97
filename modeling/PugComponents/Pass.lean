import PugComponents.Tree.Node

/-! The passes that a template goes through, and the kinds of nodes at which each of them acts. -/

namespace PugComponents

inductive Pass where
  | detect | expand | remove | flatten
deriving DecidableEq

namespace Pass

def actsOnEnter : Pass → Kind → Bool
  | .detect, .tag => true
  | .remove, .tag => true
  | .flatten, .inclusion => true
  | .flatten, .extension => true
  | _, _ => false

def actsOnLeave : Pass → Kind → Bool
  | .expand, .block => true
  | .expand, .namedBlock => true
  | .flatten, .block => true
  | .flatten, .namedBlock => true
  | _, _ => false

end Pass

end PugComponents
