import ExprLang.Main
import ExprLang.Tree.Equality
import ExprLang.Proofs.Contract
import ExprLang.Proofs.Invariant
import ExprLang.Proofs.Scan
import ExprLang.Proofs.Termination
import ExprLang.Proofs.ByteView
import ExprLang.Proofs.Tokenization
import ExprLang.Proofs.Grammar
import ExprLang.Proofs.Window
import ExprLang.Proofs.Soundness
import ExprLang.Proofs.Completeness
import ExprLang.Proofs.Acceptance
import ExprLang.Proofs.Visits
import ExprLang.Proofs.Blocks
import ExprLang.Proofs.Shape
import ExprLang.Proofs.Lexemes
import ExprLang.Proofs.Rereading
import ExprLang.Proofs.Rederivation
import ExprLang.Proofs.Guards
import ExprLang.Proofs.RoundTrip
import ExprLang.Proofs.Alike
import ExprLang.Proofs.Pieces
import ExprLang.Proofs.SideBySide
import ExprLang.Proofs.Course
import ExprLang.Proofs.Statements
import ExprLang.Proofs.Failures
import ExprLang.Proofs.Cascade
import ExprLang.Proofs.Alignment
import ExprLang.Proofs.Concatenation
import ExprLang.Proofs.Wrapping
import ExprLang.Proofs.Barrier
import ExprLang.Proofs.Enclosure
import ExprLang.Proofs.Unambiguous
import ExprLang.Proofs.Layout
import ExprLang.Proofs.Provenance
import ExprLang.Proofs.CutOff
import ExprLang.Proofs.ErrorOrder
import ExprLang.Proofs.Operations
import ExprLang.Proofs.Spacing
import ExprLang.Proofs.Cursors
import ExprLang.Proofs.Layers
import ExprLang.Proofs.Climbing
import ExprLang.Proofs.Extent
import ExprLang.Proofs.Lines
import ExprLang.Proofs.Positions
import ExprLang.Proofs.LineTexts
import ExprLang.Proofs.Reports
import ExprLang.Proofs.Carets
import ExprLang.Proofs.Transcripts
import ExprLang.Proofs.Skipping
