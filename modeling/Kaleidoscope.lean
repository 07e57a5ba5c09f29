import Kaleidoscope.Text.LineEnds
import Kaleidoscope.Text.Utf8
import Kaleidoscope.Main
import Kaleidoscope.Session
import Kaleidoscope.Node.Surface
import Kaleidoscope.Node.Document
import Kaleidoscope.Node.Drawing
import Kaleidoscope.Proofs.Passage
import Kaleidoscope.Proofs.Rules
import Kaleidoscope.Proofs.Derivation
import Kaleidoscope.Proofs.Acceptance
import Kaleidoscope.Proofs.Grouping
import Kaleidoscope.Proofs.Operators
import Kaleidoscope.Proofs.Climbing
import Kaleidoscope.Proofs.Accounting
import Kaleidoscope.Proofs.Lexemes
import Kaleidoscope.Proofs.Printing
import Kaleidoscope.Proofs.RoundTrip
import Kaleidoscope.Proofs.Decomposition
import Kaleidoscope.Proofs.Boundary
import Kaleidoscope.Proofs.Layout
import Kaleidoscope.Proofs.Building
import Kaleidoscope.Proofs.Places
import Kaleidoscope.Proofs.Inscription
import Kaleidoscope.Proofs.WellFormed
import Kaleidoscope.Proofs.Onward
import Kaleidoscope.Proofs.Tracking
import Kaleidoscope.Proofs.Ranking
import Kaleidoscope.Proofs.Interruption
import Kaleidoscope.Proofs.Causality
import Kaleidoscope.Proofs.Headroom
import Kaleidoscope.Proofs.Exits
import Kaleidoscope.Proofs.Viability
import Kaleidoscope.Proofs.Lookahead
import Kaleidoscope.Proofs.Rounding
import Kaleidoscope.Proofs.Numerals
import Kaleidoscope.Proofs.Sessions
import Kaleidoscope.Proofs.Lines
import Kaleidoscope.Proofs.WrittenForms
import Kaleidoscope.Proofs.Preorder
import Kaleidoscope.Proofs.Indentation
import Kaleidoscope.Proofs.Outlines
import Kaleidoscope.Proofs.Decoding
import Kaleidoscope.Proofs.Forest
import Kaleidoscope.Proofs.Rebuilding
import Kaleidoscope.Proofs.Quoting
import Kaleidoscope.Proofs.DotReader
import Kaleidoscope.Proofs.DotText
import Kaleidoscope.Proofs.Labelling
import Kaleidoscope.Proofs.Walks
import Kaleidoscope.Proofs.Rereading
import Kaleidoscope.Proofs.Literals
import Kaleidoscope.Proofs.Encoding
import Kaleidoscope.Proofs.Options
import Kaleidoscope.Proofs.Invocation
import Kaleidoscope.Proofs.Revisions
import Kaleidoscope.Proofs.Exports
import Kaleidoscope.Proofs.Footprints
