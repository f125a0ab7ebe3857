import PathDoc.Text.Ranges
import PathDoc.Text.Blank
import PathDoc.Text.Letter
import PathDoc.Text.Numeral
import PathDoc.Json.Binary64
import PathDoc.Json.Decimal
import PathDoc.Json.Value
import PathDoc.Json.Reader
import PathDoc.Json.Printer
import PathDoc.Path.Index
import PathDoc.Path.Segment
import PathDoc.Path.Location
import PathDoc.Path.Printer
import PathDoc.Path.Grammar
import PathDoc.Path.Reader
import PathDoc.Tree.Children
import PathDoc.Tree.Frontier
import PathDoc.Tree.Query
import PathDoc.Tree.Slots
import PathDoc.Tree.Permission
import PathDoc.Tree.Write
import PathDoc.Tree.Removal
import PathDoc.Refusal
import PathDoc.Draft
import PathDoc.Session
import PathDoc.CommandLine
import PathDoc.Main
import PathDoc.Proofs.Positions
import PathDoc.Proofs.Steps
import PathDoc.Proofs.Targets
import PathDoc.Proofs.Descent
import PathDoc.Proofs.Loops
import PathDoc.Proofs.Opening
import PathDoc.Proofs.Induction
import PathDoc.Proofs.Straight
import PathDoc.Proofs.Frame
import PathDoc.Proofs.Blame
import PathDoc.Proofs.Equality
import PathDoc.Proofs.Parsed
import PathDoc.Proofs.Drafts
import PathDoc.Proofs.ReadBack
import PathDoc.Proofs.Extension
import PathDoc.Proofs.Preservation
import PathDoc.Proofs.Cutting
import PathDoc.Proofs.Uprooting
import PathDoc.Proofs.Taking
import PathDoc.Proofs.Blanks
import PathDoc.Proofs.Spelling
import PathDoc.Proofs.Carving
import PathDoc.Proofs.Denoting
import PathDoc.Proofs.Agreement
import PathDoc.Proofs.Dots
import PathDoc.Proofs.Printing
import PathDoc.Proofs.Repetition
import PathDoc.Proofs.WellFormedness
import PathDoc.Proofs.Monotonicity
import PathDoc.Proofs.Composition
import PathDoc.Proofs.Languages
import PathDoc.Proofs.OneStep
import PathDoc.Proofs.Independence
import PathDoc.Proofs.Capacity
import PathDoc.Proofs.Order
import PathDoc.Proofs.Idle
import PathDoc.Proofs.Pointing
import PathDoc.Proofs.Leading
import PathDoc.Proofs.Frontiers
import PathDoc.Proofs.Reading
import PathDoc.Proofs.Equivalence
import PathDoc.Proofs.Overwriting
import PathDoc.Proofs.Scaffolding
import PathDoc.Proofs.Room
import PathDoc.Proofs.Plucking
import PathDoc.Proofs.OpenSpans
import PathDoc.Proofs.Reordering
import PathDoc.Proofs.Restoring
import PathDoc.Proofs.Arguments
import PathDoc.Proofs.Words
import PathDoc.Proofs.Guarding
import PathDoc.Proofs.Threshold
import PathDoc.Proofs.Lens
