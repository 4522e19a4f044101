import WarmSimplex.Edit
import WarmSimplex.InPlace
import WarmSimplex.Plain.Edit
import WarmSimplex.Plain.Solution
import WarmSimplex.Text
import WarmSimplex.TwoPhase
import WarmSimplex.TwoPhase.Dense
import WarmSimplex.Proofs.Dictionary
import WarmSimplex.Proofs.Dictionary.Pivot
import WarmSimplex.Proofs.Dictionary.Bases
import WarmSimplex.Proofs.Dictionary.Bland
import WarmSimplex.Proofs.Dictionary.Uniqueness
import WarmSimplex.Proofs.Feasible
import WarmSimplex.Proofs.Tableau
import WarmSimplex.Proofs.Tableau.Encoding
import WarmSimplex.Proofs.Tableau.Building
import WarmSimplex.Proofs.Moves
import WarmSimplex.Proofs.Run
import WarmSimplex.Proofs.StoredForms
import WarmSimplex.Proofs.Origin
import WarmSimplex.Proofs.History
import WarmSimplex.Proofs.RowEquations
import WarmSimplex.Proofs.Certificates
import WarmSimplex.Proofs.Session
import WarmSimplex.Proofs.Verdicts
import WarmSimplex.Proofs.Optimality
import WarmSimplex.Proofs.Basis
import WarmSimplex.Proofs.TwoPhase.Phase
import WarmSimplex.Proofs.TwoPhase.InitialRow
import WarmSimplex.Proofs.TwoPhase.Start
import WarmSimplex.Proofs.TwoPhase.Artificials
import WarmSimplex.Proofs.Answer
import WarmSimplex.Proofs.TwoPhase.FirstPhase
import WarmSimplex.Proofs.TwoPhase.Termination
import WarmSimplex.Proofs.Resolve
import WarmSimplex.Proofs.Agreement
import WarmSimplex.Proofs.RatioTests
import WarmSimplex.Proofs.LowestIndex
import WarmSimplex.Proofs.Phases
import WarmSimplex.Proofs.Shape
import WarmSimplex.Proofs.Shape.Checked
import WarmSimplex.Proofs.PathIndependence
import WarmSimplex.Proofs.Duality
import WarmSimplex.Proofs.Ending
import WarmSimplex.Proofs.Budget
import WarmSimplex.Proofs.Reports
import WarmSimplex.Proofs.Resuming
import WarmSimplex.Proofs.Unbounded
import WarmSimplex.Proofs.Appending
import WarmSimplex.Proofs.BasicSolutions
import WarmSimplex.Proofs.Intervals
import WarmSimplex.Proofs.CostRanges
import WarmSimplex.Proofs.RhsRanges
import WarmSimplex.Proofs.Staged
import WarmSimplex.Proofs.Rates
import WarmSimplex.Proofs.Selections
import WarmSimplex.Proofs.Drift
import WarmSimplex.Proofs.InPlace
import WarmSimplex.Proofs.SetAside
import WarmSimplex.Proofs.Violations
import WarmSimplex.Proofs.Cancellation
import WarmSimplex.Proofs.Access
import WarmSimplex.Proofs.TwoPhase.Layout
import WarmSimplex.Proofs.TwoPhase.Filling
import WarmSimplex.Proofs.TwoPhase.Turns
import WarmSimplex.Proofs.TwoPhase.Course
import WarmSimplex.Proofs.TwoPhase.ArtificialBasis
import WarmSimplex.Proofs.Plain.Layout
import WarmSimplex.Proofs.Plain.Building
import WarmSimplex.Proofs.Plain.Solve
import WarmSimplex.Proofs.Plain.Solution
import WarmSimplex.Proofs.Plain.Edit
