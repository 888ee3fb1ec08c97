import PugComponents.Attributes.Bindings
import PugComponents.Attributes.Fallthrough
import PugComponents.Attributes.Prologue
import PugComponents.Attributes.Unescape
import PugComponents.Cleanup
import PugComponents.Config
import PugComponents.Definition
import PugComponents.Definition.Placeholders
import PugComponents.Detection
import PugComponents.Diagnostic
import PugComponents.Expansion
import PugComponents.Failure
import PugComponents.Json.Basic
import PugComponents.Json.Display
import PugComponents.Json.Read
import PugComponents.Json.Write
import PugComponents.Location
import PugComponents.NameSet
import PugComponents.Pass
import PugComponents.Proofs.Attributes.Given
import PugComponents.Proofs.Attributes.Injection
import PugComponents.Proofs.Cleanup.Flattening
import PugComponents.Proofs.Cleanup.Removal
import PugComponents.Proofs.Definition.Declared
import PugComponents.Proofs.Definition.Detected
import PugComponents.Proofs.Definition.Reports
import PugComponents.Proofs.Definition.Unescape
import PugComponents.Proofs.Expansion.Agreement
import PugComponents.Proofs.Expansion.Call
import PugComponents.Proofs.Expansion.CallGraph
import PugComponents.Proofs.Expansion.Diagnosis
import PugComponents.Proofs.Expansion.Idempotence
import PugComponents.Proofs.Expansion.Instantiation
import PugComponents.Proofs.Expansion.Invoked
import PugComponents.Proofs.Expansion.Limits
import PugComponents.Proofs.Expansion.Nesting
import PugComponents.Proofs.Expansion.NormalForm
import PugComponents.Proofs.Expansion.Options
import PugComponents.Proofs.Expansion.Recursion
import PugComponents.Proofs.Expansion.Siblings
import PugComponents.Proofs.Expansion.Surroundings
import PugComponents.Proofs.Expansion.Tree
import PugComponents.Proofs.Failures
import PugComponents.Proofs.Outcome
import PugComponents.Proofs.Reports
import PugComponents.Proofs.Session
import PugComponents.Proofs.Slots.Filling
import PugComponents.Proofs.Slots.Loose
import PugComponents.Proofs.Slots.Provided
import PugComponents.Proofs.Slots.Reports
import PugComponents.Proofs.Tree.Calls
import PugComponents.Proofs.Tree.Lineage
import PugComponents.Proofs.Tree.Marks
import PugComponents.Proofs.Tree.Rebuilt
import PugComponents.Proofs.Tree.RoundTrip
import PugComponents.Proofs.Tree.Vocabulary
import PugComponents.Proofs.Tree.WellFormed
import PugComponents.Proofs.Value
import PugComponents.Record
import PugComponents.Registry
import PugComponents.Scope
import PugComponents.Script.Automaton
import PugComponents.Script.Fragment
import PugComponents.Script.Grammar
import PugComponents.Script.Grammar.Classes
import PugComponents.Script.Grammar.Declarations
import PugComponents.Script.Grammar.Expressions
import PugComponents.Script.Grammar.Functions
import PugComponents.Script.Grammar.Modules
import PugComponents.Script.Grammar.Shared
import PugComponents.Script.Grammar.Statements
import PugComponents.Script.Grammar.Types
import PugComponents.Script.Kind
import PugComponents.Script.Lexeme
import PugComponents.Script.Lexical
import PugComponents.Script.Names
import PugComponents.Script.Parse
import PugComponents.Script.ParseTree
import PugComponents.Script.Phrase
import PugComponents.Script.Production
import PugComponents.Script.Readings
import PugComponents.Script.Rule
import PugComponents.Script.Search
import PugComponents.Script.Stacks
import PugComponents.Script.Tables
import PugComponents.Script.TextScan
import PugComponents.Session
import PugComponents.Slots.Filling
import PugComponents.Slots.Name
import PugComponents.Slots.Provided
import PugComponents.Terminal
import PugComponents.Text.Blank
import PugComponents.Text.CharClass
import PugComponents.Text.Lines
import PugComponents.Text.Printable
import PugComponents.Text.Split
import PugComponents.Text.Uppercase
import PugComponents.Text.Word
import PugComponents.Traversal
import PugComponents.Traversal.Rule
import PugComponents.Tree.Decode
import PugComponents.Tree.Encode
import PugComponents.Tree.Node
import PugComponents.Tree.Survey
import PugComponents.Tree.Vocabulary
import PugComponents.Tree.Walk
import PugComponents.Usage
import PugComponents.Proofs.Json.ReadBack
import PugComponents.Proofs.Tree.Text
import PugComponents.Proofs.Slots.Resolution
import PugComponents.Proofs.Slots.Termination
import PugComponents.Proofs.Attributes.Bearing
import PugComponents.Proofs.Expansion.Escaping
import PugComponents.Proofs.Attributes.Forwarding
import PugComponents.Proofs.Attributes.Binding
import PugComponents.Proofs.Expansion.PassThrough
import PugComponents.Proofs.Tree.Routes
import PugComponents.Proofs.Definition.Placeholders
import PugComponents.Proofs.Definition.Slots
import PugComponents.Proofs.Slots.Offered
import PugComponents.Proofs.Expansion.Provision
import PugComponents.Proofs.Tree.Thinned
import PugComponents.Proofs.Slots.Thinned
import PugComponents.Proofs.Attributes.Thinned
import PugComponents.Proofs.Expansion.Thinned
import PugComponents.Proofs.Definition.Thinned
import PugComponents.Proofs.Definition.Hoisted
import PugComponents.Proofs.Expansion.Hoisting
import PugComponents.Proofs.Definition.Branches
import PugComponents.Proofs.Slots.Entries
import PugComponents.Proofs.Cleanup.Order
import PugComponents.Proofs.Cleanup.Commutation
import PugComponents.Proofs.Expansion.Included
import PugComponents.Proofs.Traversal.Tour
import PugComponents.Proofs.Traversal.Order
import PugComponents.Proofs.Traversal.Watched
import PugComponents.Proofs.Traversal.Repair
import PugComponents.Proofs.Definition.Scope
import PugComponents.Proofs.Script.Spelling
import PugComponents.Proofs.Script.Lexemes
import PugComponents.Proofs.Script.States
import PugComponents.Proofs.Script.Derivation
import PugComponents.Proofs.Script.Readings
import PugComponents.Proofs.Script.Productions
import PugComponents.Proofs.Script.Outline
import PugComponents.Proofs.Script.Shapes
import PugComponents.Proofs.Script.Regular
import PugComponents.Proofs.Script.Reads
import PugComponents.Proofs.Tree.Bookkeeping
import PugComponents.Proofs.Script.Destructured
import PugComponents.Proofs.Definition.Derived
import PugComponents.Proofs.Characters
import PugComponents.Proofs.Script.Search
import PugComponents.Proofs.Script.TextReads
import PugComponents.Proofs.Script.Shown
import PugComponents.Proofs.Script.EntryText
import PugComponents.Proofs.Script.Patterns
import PugComponents.Proofs.Script.TwoReadings
import PugComponents.Proofs.Config
import PugComponents.Proofs.Traversal.Detector
import PugComponents.Proofs.Registry
import PugComponents.Proofs.Terminal
