import Predictive.Main
import Predictive.Proofs.Derivation
import Predictive.Proofs.Leftmost
import Predictive.Proofs.Follow
import Predictive.Proofs.Run
import Predictive.Proofs.Soundness
import Predictive.Proofs.Invariant
import Predictive.Proofs.Completeness
import Predictive.Proofs.First
import Predictive.Proofs.Cells
import Predictive.Proofs.LeftRecursion
import Predictive.Proofs.Completion
import Predictive.Proofs.Prediction
import Predictive.Proofs.Unambiguity
import Predictive.Proofs.Spelling
import Predictive.Proofs.Reading
import Predictive.Proofs.Building
import Predictive.Proofs.Representation
import Predictive.Proofs.Layout
import Predictive.Proofs.RoundTrip
import Predictive.Proofs.Shape
import Predictive.Proofs.Acceptance
import Predictive.Proofs.ViablePrefix
import Predictive.Proofs.Columns
import Predictive.Proofs.Inclusion
import Predictive.Proofs.TableReport
import Predictive.Proofs.Extension
import Predictive.Proofs.Renumbering
import Predictive.Proofs.Steps
import Predictive.Proofs.Documents
import Predictive.Proofs.CommandLine
import Predictive.Proofs.Printing
import Predictive.Proofs.Answers
import Predictive.Proofs.Agreement
import Predictive.Proofs.Guards
import Predictive.Proofs.Alignment
import Predictive.Proofs.Grid
import Predictive.Proofs.Lookahead
import Predictive.Proofs.Separation
import Predictive.Proofs.Passes
import Predictive.Proofs.Log
import Predictive.Proofs.Typesetting
import Predictive.Proofs.Separators
import Predictive.Proofs.Lossless
import Predictive.Proofs.Volume
import Predictive.Proofs.Verbosity
import Predictive.Proofs.Rescans
