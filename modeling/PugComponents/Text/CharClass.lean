/-! Character classes given by tables of code point ranges, both ends included. -/

namespace PugComponents.Text

def inRanges (table : List (Nat × Nat)) (c : Char) : Bool :=
  table.any fun r => r.1 ≤ c.toNat && c.toNat ≤ r.2

/-- Membership in ranges that hold every second code point, counted from the first. -/
def inAlternating (table : List (Nat × Nat)) (c : Char) : Bool :=
  table.any fun r => r.1 ≤ c.toNat && c.toNat ≤ r.2 && (c.toNat - r.1) % 2 == 0

end PugComponents.Text
