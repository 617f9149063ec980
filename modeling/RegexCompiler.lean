import RegexCompiler.Grammar
import RegexCompiler.Inspection
import RegexCompiler.Main
import RegexCompiler.Proofs.Simulation
import RegexCompiler.Proofs.Determinization
import RegexCompiler.Proofs.Layout
import RegexCompiler.Proofs.Thompson
import RegexCompiler.Proofs.Reordering
import RegexCompiler.Proofs.Counting
import RegexCompiler.Proofs.Recognition
import RegexCompiler.Proofs.Rendering
import RegexCompiler.Proofs.Acceptance
import RegexCompiler.Proofs.Numbering
import RegexCompiler.Proofs.Decoding
import RegexCompiler.Proofs.Operands
import RegexCompiler.Proofs.Scanning
import RegexCompiler.Proofs.Faults
import RegexCompiler.Proofs.Rounds
import RegexCompiler.Proofs.Closure
import RegexCompiler.Proofs.Emptiness
import RegexCompiler.Proofs.Exhaustion
import RegexCompiler.Proofs.Trim
import RegexCompiler.Proofs.Renaming
import RegexCompiler.Proofs.Respelling
import RegexCompiler.Proofs.Deferral
import RegexCompiler.Proofs.Wiring
import RegexCompiler.Proofs.Pointing
import RegexCompiler.Proofs.Outcomes
import RegexCompiler.Proofs.Overflow
import RegexCompiler.Proofs.Signs
import RegexCompiler.Proofs.Findings
import RegexCompiler.Proofs.Labels
import RegexCompiler.Proofs.Literals
import RegexCompiler.Proofs.Reassociation
import RegexCompiler.Proofs.Lockstep
import RegexCompiler.Proofs.Uniformity
import RegexCompiler.Proofs.Typing
import RegexCompiler.Proofs.Histories
import RegexCompiler.Proofs.Legibility
import RegexCompiler.Proofs.Representation
import RegexCompiler.Proofs.Refinement
import RegexCompiler.Proofs.Levels
import RegexCompiler.Proofs.Recall
