/-! ANSI colouring of diagnostics. A styled text is the escape sequences of its styles, the text and
one reset; `strip` removes every escape sequence. -/

namespace PugComponents.Terminal

inductive Style where
  | reset | bold | dim | cyan | yellow | green | brightRed | brightBlue
deriving DecidableEq

namespace Style

def code : Style → List Char
  | .reset => ['0']
  | .bold => ['1']
  | .dim => ['2']
  | .cyan => ['3', '6']
  | .yellow => ['3', '3']
  | .green => ['3', '2']
  | .brightRed => ['9', '1']
  | .brightBlue => ['9', '4']

def sequence (s : Style) : List Char := '\x1b' :: '[' :: s.code ++ ['m']

def ofName? : String → Option Style
  | "reset" => some .reset
  | "bold" => some .bold
  | "dim" => some .dim
  | "cyan" => some .cyan
  | "yellow" => some .yellow
  | "green" => some .green
  | "bright_red" => some .brightRed
  | "bright_blue" => some .brightBlue
  | _ => none

end Style

/-- The text between the sequences of its styles and a reset; a text without styles stays bare. -/
def styled (styles : List Style) (text : List Char) : List Char :=
  if styles.isEmpty then text
  else styles.flatMap Style.sequence ++ text ++ Style.reset.sequence

def colorize (colors : Bool) (styles : List Style) (text : String) : String :=
  if colors then String.ofList (styled styles text.toList) else text

inductive Role where
  | errorCode | location | hint | aside | docs
deriving DecidableEq

def Role.styles : Role → List Style
  | .errorCode => [.brightRed, .bold]
  | .location => [.cyan]
  | .hint => [.green]
  | .aside => [.dim]
  | .docs => [.brightBlue]

def Role.paint (role : Role) (colors : Bool) (text : String) : String :=
  colorize colors role.styles text

def isParameter (c : Char) : Bool := '0' ≤ c && c ≤ '?'
def isIntermediate (c : Char) : Bool := ' ' ≤ c && c ≤ '/'
def isFinal (c : Char) : Bool := '@' ≤ c && c ≤ '~'

def isSingle (c : Char) : Bool := ('@' ≤ c && c ≤ 'Z') || ('\\' ≤ c && c ≤ '_')

/-- What follows an escape sequence whose introducer has just been read: the number of characters
that still belong to it. -/
def sequenceLength? : List Char → Option Nat
  | '[' :: rest =>
    let parameters := rest.takeWhile isParameter
    let rest := rest.dropWhile isParameter
    let intermediates := rest.takeWhile isIntermediate
    match rest.dropWhile isIntermediate with
    | c :: _ => if isFinal c then some (parameters.length + intermediates.length + 2) else none
    | [] => none
  | c :: _ => if isSingle c then some 1 else none
  | [] => none

/-- The characters outside escape sequences; `skip` of them still belong to the last one. -/
def stripFrom : Nat → List Char → List Char
  | _, [] => []
  | skip + 1, _ :: cs => stripFrom skip cs
  | 0, c :: cs =>
    if c = '\x1b' then
      match sequenceLength? cs with
      | some n => stripFrom n cs
      | none => c :: stripFrom 0 cs
    else c :: stripFrom 0 cs

def strip (text : String) : String := String.ofList (stripFrom 0 text.toList)

/-- Whether diagnostics are coloured: a non-empty request decides, then a non-empty refusal, then
whether the output is a terminal. -/
def detect (force refuse : Option String) (isTerminal : Bool) : Bool :=
  if force.getD "" != "" then true
  else if refuse.getD "" != "" then false
  else isTerminal

@[simp] theorem styled_nil (text : List Char) : styled [] text = text := rfl

@[simp] theorem stripFrom_nil (skip : Nat) : stripFrom skip [] = [] := by cases skip <;> rfl

end PugComponents.Terminal
