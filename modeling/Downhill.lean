import Downhill.Scalar.Basic
import Downhill.Scalar.Binary
import Downhill.Decimal.Rounded
import Downhill.Linear.Mat
import Downhill.Linear.Vec
import Downhill.Failure
import Downhill.Failure.Message
import Downhill.Run
import Downhill.Objective.AugmentedLagrangian
import Downhill.Objective.Basic
import Downhill.Objective.Noisy
import Downhill.Objective.Quadratic
import Downhill.Objective.Restricted
import Downhill.Objective.Separable
import Downhill.Objective.Valley
import Downhill.Projection.Ball
import Downhill.Projection.Box
import Downhill.Residual.Analytic
import Downhill.Residual.LeastSquares
import Downhill.Solve.ConjugateGradient
import Downhill.Solve.IncompleteCholesky
import Downhill.Search.Params
import Downhill.Search.ProjectedBacktracking
import Downhill.Search.WolfePowell
import Downhill.Method.ImplicitFiltering
import Downhill.Method.LevenbergMarquardt
import Downhill.Method.Newton
import Downhill.Method.Outcome
import Downhill.Method.ProjectedNewton
import Downhill.Method.QuasiNewton
import Downhill.Proofs.Binary
import Downhill.Proofs.Calls
import Downhill.Proofs.Caps
import Downhill.Proofs.Determinism
import Downhill.Proofs.Exact.Banded
import Downhill.Proofs.Exact.Differences
import Downhill.Proofs.Exact.Euclidean
import Downhill.Proofs.Exact.Matrix
import Downhill.Proofs.Exact.Quadratic
import Downhill.Proofs.Exact.Separable
import Downhill.Proofs.Journal
import Downhill.Proofs.Loop
import Downhill.Proofs.Method.AffineGradient
import Downhill.Proofs.Method.Convergence
import Downhill.Proofs.Method.CurvatureGrowth
import Downhill.Proofs.Method.DampingRecord
import Downhill.Proofs.Method.Decrease
import Downhill.Proofs.Method.Definiteness
import Downhill.Proofs.Method.EvaluationCounts
import Downhill.Proofs.Method.FeasibleQueries
import Downhill.Proofs.Method.FilteringCounts
import Downhill.Proofs.Method.ImplicitFiltering
import Downhill.Proofs.Method.InnerLoop
import Downhill.Proofs.Method.Journal
import Downhill.Proofs.Method.LevenbergMarquardt
import Downhill.Proofs.Method.LinearFit
import Downhill.Proofs.Method.Newton
import Downhill.Proofs.Method.ProjectedNewton
import Downhill.Proofs.Method.QuadraticSearch
import Downhill.Proofs.Method.QuasiNewton
import Downhill.Proofs.Method.Recorded
import Downhill.Proofs.Method.ReducedHessian
import Downhill.Proofs.Method.Rejections
import Downhill.Proofs.Method.Report
import Downhill.Proofs.Method.ScaleCertificate
import Downhill.Proofs.Method.ScaleDescent
import Downhill.Proofs.Method.ScaleRange
import Downhill.Proofs.Method.SecantUpdate
import Downhill.Proofs.Method.SplitLoop
import Downhill.Proofs.Method.StrictDescent
import Downhill.Proofs.Method.TruncatedDescent
import Downhill.Proofs.Method.Truncation
import Downhill.Proofs.Method.WarmStart
import Downhill.Proofs.Objective
import Downhill.Proofs.Objective.ClosedForms
import Downhill.Proofs.Objective.Derivatives
import Downhill.Proofs.Objective.Journal
import Downhill.Proofs.Objective.Lengths
import Downhill.Proofs.Objective.Multipliers
import Downhill.Proofs.Projection.Nearest
import Downhill.Proofs.Projection.Onto
import Downhill.Proofs.Projection.Tangent
import Downhill.Proofs.Residual.Affine
import Downhill.Proofs.Run
import Downhill.Proofs.Scalar
import Downhill.Proofs.Search.GivenState
import Downhill.Proofs.Search.Journal
import Downhill.Proofs.Search.LeastHalving
import Downhill.Proofs.Search.Parabola
import Downhill.Proofs.Search.ProjectedBacktracking
import Downhill.Proofs.Search.SteepestDescent
import Downhill.Proofs.Search.WolfeBrackets
import Downhill.Proofs.Search.WolfeConditions
import Downhill.Proofs.Search.WolfePhases
import Downhill.Proofs.Search.WolfeTermination
import Downhill.Proofs.Solve.Certificate
import Downhill.Proofs.Solve.CholeskyFactor
import Downhill.Proofs.Solve.Conjugacy
import Downhill.Proofs.Solve.DiagonalDominance
import Downhill.Proofs.Solve.FactoredSystems
import Downhill.Proofs.Solve.Failures
import Downhill.Proofs.Solve.FiniteTermination
import Downhill.Proofs.Solve.IncompleteFactor
import Downhill.Proofs.Solve.Iteration
import Downhill.Proofs.Solve.Shifts
import Downhill.Proofs.Solve.SplitDescent
import Downhill.Proofs.Solve.Triangular
import Downhill.Proofs.Tally
