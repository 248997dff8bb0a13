import Arbor.Derivation.Journal
import Arbor.Numeral.Fixed
import Arbor.Plant
import Arbor.Proofs.Numeral.Bits
import Arbor.Proofs.Numeral.Reading
import Arbor.Proofs.Numeral.Writing
import Arbor.Proofs.Numeral.Zeros
import Arbor.Proofs.Numeral.Product
import Arbor.Proofs.Numeral.Order
import Arbor.Proofs.Numeral.Rounding
import Arbor.Proofs.Expr.Grammar
import Arbor.Proofs.Expr.Derivation
import Arbor.Proofs.Expr.Parsing
import Arbor.Proofs.Expr.Agreement
import Arbor.Proofs.Expr.Variables
import Arbor.Proofs.Expr.Printing
import Arbor.Proofs.Text.Lines
import Arbor.Proofs.Rule.Grammar
import Arbor.Proofs.Rule.Phase
import Arbor.Proofs.Rule.Reading
import Arbor.Proofs.Rule.Verdict
import Arbor.Proofs.Rule.Templates
import Arbor.Proofs.Rule.Printing
import Arbor.Proofs.Rule.Weights
import Arbor.Proofs.Rule.Parameters
import Arbor.Proofs.Word.Text
import Arbor.Proofs.Text.Blanks
import Arbor.Proofs.Rule.Plain
import Arbor.Proofs.Rule.Gaps
import Arbor.Proofs.Grammar.Groups
import Arbor.Proofs.Grammar.Supply
import Arbor.Proofs.Grammar.Table
import Arbor.Proofs.Grammar.Storage
import Arbor.Proofs.Derivation.ParallelStep
import Arbor.Proofs.Derivation.Failure
import Arbor.Proofs.Derivation.ProperWords
import Arbor.Proofs.Derivation.Homomorphism
import Arbor.Proofs.Derivation.Order
import Arbor.Proofs.Derivation.Counterpart
import Arbor.Proofs.Derivation.Marks
import Arbor.Proofs.Derivation.Shapes
import Arbor.Proofs.Derivation.Depth
import Arbor.Proofs.Derivation.Renaming
import Arbor.Proofs.Derivation.Roulette
import Arbor.Proofs.Derivation.Overflow
import Arbor.Proofs.Derivation.Growth
import Arbor.Proofs.Geometry.Orthonormal
import Arbor.Proofs.Turtle.Step
import Arbor.Proofs.Turtle.Journey
import Arbor.Proofs.Turtle.Branch
import Arbor.Proofs.Turtle.Polygon
import Arbor.Proofs.Turtle.Account
import Arbor.Proofs.Turtle.Relabelling
import Arbor.Proofs.Turtle.Pieces
import Arbor.Proofs.Turtle.Renaming
import Arbor.Proofs.Turtle.Fault
import Arbor.Proofs.Turtle.Interruption
import Arbor.Proofs.Turtle.Unbalanced
import Arbor.Proofs.Turtle.Record
import Arbor.Proofs.Turtle.Inert
import Arbor.Proofs.Turtle.Range
import Arbor.Proofs.Turtle.Path
import Arbor.Proofs.Turtle.Frames
import Arbor.Proofs.Drawing.Bounds
import Arbor.Proofs.Settings.Requirement
import Arbor.Proofs.Settings.Schema
import Arbor.Proofs.Settings.Reading
import Arbor.Proofs.Settings.Faults
import Arbor.Proofs.Plant.History
