import PugComponents.Slots.Name

/-! The content that a call provides, by slot: what stands below its slots, and all else but comments
for the default slot. -/

namespace PugComponents

/-- Content by slot name, in the order in which it is given. -/
abbrev Provided := List (String × Node)

namespace Provided

def has (p : Provided) (name : String) : Bool := p.any fun entry => entry.1 == name

def addSlots (r : Reporter) : Provided → List Node → Except Failure Provided
  | provided, [] => .ok provided
  | provided, slot :: slots => do
    let name ← slot.slotName r
    if provided.has name then
      .error (.diagnostic (r.report (.duplicateSlotProvided name) (some slot.location)))
    else
      let content := ((slot.block?.getD none).getD (Node.emptyBlock slot.pos))
      addSlots r (provided ++ [(name, content)]) slots

/-- The content for the default slot: all that is neither a slot nor a comment. -/
def bareNodes (nodes : List Node) : List Node := nodes.filter fun n => !n.isSlot && !n.isComment

def ofNodes (r : Reporter) (call : Node) (nodes : List Node) : Except Failure Provided := do
  let provided ← addSlots r [] (nodes.filter Node.isSlot)
  if (bareNodes nodes).isEmpty then return provided
  else if provided.has defaultSlot then
    .error (.diagnostic (r.report (.duplicateSlotProvided defaultSlot) (some call.location)))
  else return provided ++ [(defaultSlot, Node.block call.pos (bareNodes nodes))]

def ofCall (r : Reporter) (call : Node) : Except Failure Provided :=
  match call.block? with
  | none => .error (.fault .missingPart)
  | some none => .ok []
  | some (some block) =>
    match block.nodes? with
    | some nodes => ofNodes r call nodes
    | none => .error (.fault .missingPart)

/-- The content for one slot: what is provided, or else its default, or else nothing. -/
def content (p : Provided) (name : String) (default : Option Node) : Node :=
  ((p.lookup name).or default).getD Node.emptyBlock

/-- All slots that are provided have to be among the defined ones; content for the default slot is
always accepted. -/
def check (r : Reporter) (defined : List String) (location : Location) (p : Provided) :
    Except Failure Unit :=
  match p.find? fun entry => entry.1 != defaultSlot && !defined.contains entry.1 with
  | some entry =>
    .error (.diagnostic (r.report (.slotNotDefined entry.1 defined) (some location)))
  | none => .ok ()

end Provided

end PugComponents
