import InteriorPoint.Session
import InteriorPoint.Function.Derivative
import InteriorPoint.Kkt.Environment
import InteriorPoint.Text.Description
import InteriorPoint.Text.LogLine
import InteriorPoint.Text.Message
import InteriorPoint.Proofs.Function.ConstraintList
import InteriorPoint.Proofs.Function.DualityGap
import InteriorPoint.Proofs.Function.FiniteGradient
import InteriorPoint.Proofs.Function.HessianSymmetry
import InteriorPoint.Proofs.Function.NestedDomain
import InteriorPoint.Proofs.Function.QuadraticDerivatives
import InteriorPoint.Proofs.Function.QuadraticExpansion
import InteriorPoint.Proofs.Function.ViolationExit
import InteriorPoint.Proofs.Function.WellFormed
import InteriorPoint.Proofs.Kkt.BlockDecrement
import InteriorPoint.Proofs.Kkt.BlockRefinement
import InteriorPoint.Proofs.Kkt.EmptyEquations
import InteriorPoint.Proofs.Kkt.FiniteSystem
import InteriorPoint.Proofs.Kkt.HomogeneousStep
import InteriorPoint.Proofs.Kkt.InertiaCheck
import InteriorPoint.Proofs.Kkt.ReducedRefinement
import InteriorPoint.Proofs.Kkt.RegularizedInertia
import InteriorPoint.Proofs.Kkt.Superposition
import InteriorPoint.Proofs.Kkt.Totality
import InteriorPoint.Proofs.Kkt.UndefinedSystem
import InteriorPoint.Proofs.Kkt.Units
import InteriorPoint.Proofs.Linear.FirstAsymmetry
import InteriorPoint.Proofs.Linear.FirstRefusal
import InteriorPoint.Proofs.Linear.InfiniteEntries
import InteriorPoint.Proofs.Linear.Scaled
import InteriorPoint.Proofs.Linear.SparseTriangle
import InteriorPoint.Proofs.Linear.StorageOrder
import InteriorPoint.Proofs.Newton.AffineInvariance
import InteriorPoint.Proofs.Newton.AsymmetricStep
import InteriorPoint.Proofs.Newton.BarrierStep
import InteriorPoint.Proofs.Newton.EquationsRun
import InteriorPoint.Proofs.Newton.Feasibility
import InteriorPoint.Proofs.Newton.QuadraticRun
import InteriorPoint.Proofs.Newton.SearchContract
