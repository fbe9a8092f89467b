import LittleLisp.Action
import LittleLisp.Bindings
import LittleLisp.Builtin
import LittleLisp.Config
import LittleLisp.Config.Cursor
import LittleLisp.Config.Document
import LittleLisp.Config.File
import LittleLisp.Config.Lexeme
import LittleLisp.Config.Scalar
import LittleLisp.Config.Scalar.Block
import LittleLisp.Config.Scalar.Reader
import LittleLisp.Console
import LittleLisp.Console.History
import LittleLisp.Console.Input
import LittleLisp.Console.Request
import LittleLisp.Directory
import LittleLisp.Fault
import LittleLisp.Host.Method
import LittleLisp.Host.Sample
import LittleLisp.Host.Type
import LittleLisp.Host.Value
import LittleLisp.Machine
import LittleLisp.Number
import LittleLisp.Number.Literal
import LittleLisp.Number.Shortest
import LittleLisp.Pattern
import LittleLisp.Pattern.Compiler
import LittleLisp.Pattern.Expansion
import LittleLisp.Position
import LittleLisp.Prelude
import LittleLisp.Rule
import LittleLisp.Session
import LittleLisp.Slice
import LittleLisp.Store
import LittleLisp.Text
import LittleLisp.Text.Blank
import LittleLisp.Text.Printable
import LittleLisp.Text.Quoted
import LittleLisp.Token
import LittleLisp.Token.Reader
import LittleLisp.Tree
import LittleLisp.Tree.Builder
import LittleLisp.Value
import LittleLisp.Value.Text
import LittleLisp.Main
import LittleLisp.Proofs.Bounds
import LittleLisp.Proofs.Expansion.Bounds
import LittleLisp.Proofs.Policy
import LittleLisp.Proofs.Policy.Data
import LittleLisp.Proofs.Policy.Pattern
import LittleLisp.Proofs.Policy.Machine
import LittleLisp.Proofs.Policy.Session
import LittleLisp.Proofs.Purity
import LittleLisp.Proofs.Expansion.Reference
import LittleLisp.Proofs.Expansion.Table
import LittleLisp.Proofs.ShortCircuit
import LittleLisp.Proofs.Expansion.Matching
import LittleLisp.Proofs.Expansion.Writing
import LittleLisp.Proofs.Expansion
import LittleLisp.Proofs.Expansion.Tokens
import LittleLisp.Proofs.Capability.Recording
import LittleLisp.Proofs.Capability
import LittleLisp.Proofs.Reading.Glyphs
import LittleLisp.Proofs.Reading.Lexeme
import LittleLisp.Proofs.Reading.Layout
import LittleLisp.Proofs.Reading.Brackets
import LittleLisp.Proofs.Reading.Moving
import LittleLisp.Proofs.Reading.Lines
import LittleLisp.Proofs.Reading.Comments
import LittleLisp.Proofs.Reading.Strings
import LittleLisp.Proofs.Reading.RoundTrip
import LittleLisp.Proofs.Loading
import LittleLisp.Proofs.Dialogue
import LittleLisp.Proofs.Expansion.Renaming
import LittleLisp.Proofs.Faults
import LittleLisp.Proofs.Reading.Sigils
import LittleLisp.Proofs.Reading.Printed
import LittleLisp.Proofs.Expansion.Head
import LittleLisp.Proofs.Reading.Outline
import LittleLisp.Proofs.Expansion.Acceptance
import LittleLisp.Proofs.Definitions
import LittleLisp.Proofs.Definitions.Sketched
import LittleLisp.Proofs.Prelude
import LittleLisp.Proofs.Provenance
import LittleLisp.Proofs.Provenance.Session
import LittleLisp.Proofs.Attribution.Refusal
import LittleLisp.Proofs.Attribution
import LittleLisp.Proofs.Nesting.Families
import LittleLisp.Proofs.Nesting
import LittleLisp.Proofs.Nesting.Rules
import LittleLisp.Proofs.Expansion.WellFormed
import LittleLisp.Proofs.Prelude.Forms
import LittleLisp.Proofs.Prelude.Junctions
import LittleLisp.Proofs.Prelude.Parallel
import LittleLisp.Proofs.Prelude.Mapping
import LittleLisp.Proofs.Special
import LittleLisp.Proofs.Special.Cond
import LittleLisp.Proofs.Special.Lambda
import LittleLisp.Proofs.Special.Define
import LittleLisp.Proofs.Maps
import LittleLisp.Proofs.Reading.Data
import LittleLisp.Proofs.Special.Quote
import LittleLisp.Proofs.Crossing.Rules
import LittleLisp.Proofs.Crossing.Admission
import LittleLisp.Proofs.Numbers
import LittleLisp.Proofs.Crossing.Return
import LittleLisp.Proofs.Keywords
import LittleLisp.Proofs.Maps.Printing
import LittleLisp.Proofs.Course
import LittleLisp.Proofs.Course.Binders
import LittleLisp.Proofs.Course.Calls
import LittleLisp.Proofs.Course.Machine
import LittleLisp.Proofs.Course.Growth
import LittleLisp.Proofs.Course.Session
