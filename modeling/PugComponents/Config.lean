import PugComponents.Failure
import PugComponents.NameSet
import PugComponents.Text.Blank

/-! Options of an expansion. An option may be spelled in two ways. A mapping takes the first spelling
that has a value and ignores keys it does not know; overrides take the second spelling when both are
given and refuse keys they do not know. -/

namespace PugComponents

inductive ScopeMode where
  | error | warn | off
deriving DecidableEq

namespace ScopeMode

def name : ScopeMode → String
  | .error => "error"
  | .warn => "warn"
  | .off => "off"

def ofJson (v : Json) : Except Failure ScopeMode :=
  match v with
  | .str "error" => .ok .error
  | .str "warn" => .ok .warn
  | .str "off" => .ok .off
  | v => .error (.invalidMode v)

end ScopeMode

structure Config where
  mode : ScopeMode := .error
  /-- Names that every component may read. -/
  allowedGlobals : List String := []
  /-- Values that are listed among these names and are no texts, so that no name is one of them. -/
  otherAllowed : List Json := []
  debug : Json := .bool false
  /-- The file that diagnostics name where a node records none. -/
  filename : Json := .null

namespace Config

def reporter (c : Config) : Reporter := { filename := c.filename }

/-- Whether a value can be a member of a set: a list or an object cannot. -/
def isMember : Json → Bool
  | .arr _ | .obj _ => false
  | _ => true

/-- What is listed: names, and other values beside them. -/
structure Listing where
  names : List String := []
  others : List Json := []

/-- The members of a collection of names: list entries, object keys, or characters of a text. -/
def namesOf : Json → Except Failure Listing
  | .arr items =>
    if items.all isMember then
      .ok { names := items.filterMap Json.str?, others := items.filter fun v => v.str?.isNone }
    else .error (.fault .wrongKind)
  | .obj fields => .ok { names := fields.map Prod.fst }
  | .str s => .ok { names := s.toList.map String.singleton }
  | _ => .error (.fault .wrongKind)

def splitNames (s : String) : List String :=
  ((Text.splitAll ',' s.toList).map Text.trimChars).filterMap fun cs =>
    if cs.isEmpty then none else some (String.ofList cs)

/-- Like `namesOf`, with a text read as names that commas separate. -/
def listedNames : Json → Except Failure Listing
  | .str s => .ok { names := splitNames s }
  | v => namesOf v

structure Settings where
  mode : Option Json := none
  allowedGlobals : Option Json := none
  debug : Option Json := none
  filename : Option Json := none

def modeKeys : List String := ["scope_isolation", "scopeIsolation"]
def allowedKeys : List String := ["allowed_globals", "allowedGlobals"]

def knownKeys : List String := modeKeys ++ allowedKeys ++ ["debug", "filename"]

/-- The value under the first of some keys that has one which is not null. -/
def firstSet (m : List (String × Json)) (keys : List String) : Option Json :=
  keys.findSome? fun key => match m.lookup key with
    | some v => if v.isNull then none else some v
    | none => none

/-- The value under the last of some keys that is present. -/
def lastGiven (m : List (String × Json)) (keys : List String) : Option Json :=
  keys.reverse.findSome? fun key => m.lookup key

/-- The configuration with the settings applied: the names are read before the mode. -/
def apply (c : Config) (s : Settings) : Except Failure Config := do
  let allowed ← match s.allowedGlobals with
    | some v => listedNames v
    | none => .ok { names := c.allowedGlobals, others := c.otherAllowed }
  let mode ← match s.mode with
    | some v => ScopeMode.ofJson v
    | none => .ok c.mode
  return { mode := mode, allowedGlobals := allowed.names, otherAllowed := allowed.others
           debug := s.debug.getD c.debug, filename := s.filename.getD c.filename }

def ofMapping (m : List (String × Json)) : Except Failure Config :=
  apply {}
    { mode := firstSet m modeKeys, allowedGlobals := firstSet m allowedKeys
      debug := firstSet m ["debug"], filename := firstSet m ["filename"] }

/-- The keys that name no option, in alphabetical order. -/
def unknownKeys (m : List (String × Json)) : List String :=
  NameSet.ofList ((m.map Prod.fst).filter fun key => !knownKeys.contains key)

def merged (c : Config) (m : List (String × Json)) : Except Failure Config :=
  if m.isEmpty then .ok c
  else if unknownKeys m ≠ [] then .error (.unknownOptions (unknownKeys m))
  else c.apply
    { mode := lastGiven m modeKeys, allowedGlobals := lastGiven m allowedKeys
      debug := lastGiven m ["debug"], filename := lastGiven m ["filename"] }

/-- A configuration from its four fields, spelled in one way; a text of names is taken character by
character, and the mode is read before the names. -/
def ofFields (m : List (String × Json)) : Except Failure Config := do
  if m.any fun f => !(["scope_isolation", "allowed_globals", "debug", "filename"].contains f.1) then
    .error (.fault .wrongKind)
  else
    let mode ← match m.lookup "scope_isolation" with
      | some v => ScopeMode.ofJson v
      | none => .ok .error
    let allowed ← match m.lookup "allowed_globals" with
      | some v => namesOf v
      | none => .ok {}
    return { mode := mode, allowedGlobals := allowed.names, otherAllowed := allowed.others
             debug := (m.lookup "debug").getD (.bool false)
             filename := (m.lookup "filename").getD .null }

@[simp] theorem merged_nil (c : Config) : c.merged [] = .ok c := rfl

end Config

end PugComponents
