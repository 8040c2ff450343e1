import LineCalc.Main
import LineCalc.Proofs.Recording
import LineCalc.Proofs.Grammar
import LineCalc.Proofs.Recognition
import LineCalc.Proofs.Computing
import LineCalc.Proofs.Summation
import LineCalc.Proofs.Acceptance
import LineCalc.Proofs.Blame
import LineCalc.Proofs.Lookahead
import LineCalc.Proofs.Causes
import LineCalc.Proofs.Misfit
import LineCalc.Proofs.Scanning
import LineCalc.Proofs.Pointing
import LineCalc.Proofs.Footprint
import LineCalc.Proofs.Isolation
import LineCalc.Proofs.Readability
import LineCalc.Proofs.Leftover
import LineCalc.Proofs.Parentheses
import LineCalc.Proofs.Columns
import LineCalc.Proofs.Spacing
import LineCalc.Proofs.Tiling
import LineCalc.Proofs.Batching
import LineCalc.Proofs.Dialogue
import LineCalc.Proofs.Assignment
import LineCalc.Proofs.Powers
import LineCalc.Proofs.Commands
import LineCalc.Proofs.Legality
import LineCalc.Proofs.Polynomials
import LineCalc.Proofs.Rereading
import LineCalc.Proofs.Register
import LineCalc.Proofs.Asking
import LineCalc.Proofs.Height
import LineCalc.Proofs.Bounds
