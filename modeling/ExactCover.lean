import ExactCover.Main
import ExactCover.Ring.Circle
import ExactCover.Proofs.Board
import ExactCover.Proofs.Threads
import ExactCover.Proofs.Coherence
import ExactCover.Proofs.Building
import ExactCover.Proofs.Histories
import ExactCover.Proofs.Representation
import ExactCover.Proofs.ExactCovers
import ExactCover.Proofs.SearchRuns
import ExactCover.Proofs.Enumeration
import ExactCover.Proofs.Relations
import ExactCover.Proofs.Justification
import ExactCover.Proofs.Unavoidable
import ExactCover.Proofs.Soundness
import ExactCover.Proofs.SolverRuns
import ExactCover.Proofs.Placements
import ExactCover.Proofs.Counting
import ExactCover.Proofs.Givens
import ExactCover.Proofs.Names
import ExactCover.Proofs.Rectangles
import ExactCover.Proofs.Reversal
import ExactCover.Proofs.ChangeLog
import ExactCover.Proofs.PlainSearch
import ExactCover.Proofs.Refinement
import ExactCover.Proofs.Progress
import ExactCover.Proofs.Interleaving
import ExactCover.Proofs.Truncation
import ExactCover.Proofs.Patterns.Basic
import ExactCover.Proofs.Sudoku.Deducing
import ExactCover.Proofs.Sudoku.Grammar
import ExactCover.Proofs.Sudoku.Parsing
import ExactCover.Proofs.Sudoku.Layouts
import ExactCover.Proofs.Sudoku.RoundTrip
import ExactCover.Proofs.Patterns.Triples
import ExactCover.Proofs.Patterns.Wings
import ExactCover.Proofs.Patterns.Pairs
import ExactCover.Proofs.Capping
import ExactCover.Proofs.Costs
import ExactCover.Proofs.Balance
import ExactCover.Proofs.Sudoku.Bounds
