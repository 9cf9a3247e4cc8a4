import IntegerProgram.Optimum
import IntegerProgram.Proofs.Exact
import IntegerProgram.Scalar.Rational
import IntegerProgram.Proofs.Matrix
import IntegerProgram.Proofs.Tableau.Elimination
import IntegerProgram.Proofs.Tableau.Bland
import IntegerProgram.Proofs.Box
import IntegerProgram.Proofs.LinearProgram.StandardForm
import IntegerProgram.Proofs.Tableau.Stages
import IntegerProgram.Proofs.Tableau.Cycling
import IntegerProgram.Proofs.LinearProgram.TwoPhase
import IntegerProgram.Proofs.LinearProgram.Phases
import IntegerProgram.Proofs.LinearProgram.Certificates
import IntegerProgram.Proofs.LinearProgram.PivotBound
import IntegerProgram.Proofs.LinearProgram.Checkpoints
import IntegerProgram.Proofs.Lawful
import IntegerProgram.Proofs.BranchBound.Runs
import IntegerProgram.Proofs.BranchBound.Nodes
import IntegerProgram.Proofs.BranchBound.Partition
import IntegerProgram.Proofs.BranchBound.Termination
import IntegerProgram.Proofs.Rounding
import IntegerProgram.Proofs.BranchBound.Completeness
import IntegerProgram.Proofs.BranchBound.Relaxation
import IntegerProgram.Proofs.Encoding
import IntegerProgram.Proofs.Optimum
import IntegerProgram.Proofs.Soundness
import IntegerProgram.Proofs.Binary64.Unpacked
import IntegerProgram.Proofs.Binary64.Packing
import IntegerProgram.Proofs.Binary64.Arithmetic
import IntegerProgram.Proofs.Binary64.Whole
import IntegerProgram.Proofs.BranchBound.DepthFirst
import IntegerProgram.Proofs.BranchBound.Budget
import IntegerProgram.Proofs.BranchBound.Incumbent
import IntegerProgram.Proofs.BranchBound.Conservation
import IntegerProgram.Proofs.Parity
import IntegerProgram.Proofs.Tables
import IntegerProgram.Proofs.Tableau.InPlace
import IntegerProgram.Proofs.LinearProgram.InPlace
import IntegerProgram.Proofs.BranchBound.Faults
import IntegerProgram.Proofs.Binary64.NonFinite
import IntegerProgram.Proofs.BranchBound.Integrality
import IntegerProgram.Proofs.LinearProgram.Truncation
import IntegerProgram.Proofs.LinearProgram.Artificials
import IntegerProgram.Proofs.BranchBound.Merging
import IntegerProgram.Proofs.Binary64.Overflow
import IntegerProgram.Proofs.Tableau.Embedding
import IntegerProgram.Proofs.LinearProgram.InfiniteCaps
import IntegerProgram.Proofs.Compressed
import IntegerProgram.Proofs.Products
import IntegerProgram.Proofs.BranchBound.Branching
import IntegerProgram.Proofs.Binary64.Residual
import IntegerProgram.Proofs.Tableau.RatioTest
import IntegerProgram.Proofs.Tableau.Redundancy
