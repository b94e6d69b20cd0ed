import Castan.Expr.NumberToken
import Castan.Solver.CexTransparent
import Castan.Havoc.ReconcileSound
import Castan.Basic.KTest
import Castan.Support.TreeStream
import Castan.Solver.SolverChain
import Castan.Solver.IndependentRight
import Castan.Core.IndirectCall
import Castan.Solver.MapOfSetsIterator
import Castan.Support.ImmutableTreeVersions
import Castan.Core.Constant
import Castan.Cache.GenericPointerSound
import Castan.Core.MergeSound
import Castan.Solver.RangeEvaluator
import Castan.Solver.GetRange
import Castan.Cache.ContentionSetFile
import Castan.Core.SeedInfoSound
import Castan.Core.ExecuteAlloc
import Castan.Search.CostMapTermination
import Castan.Search.CostMapEntries
import Castan.Cache.ContentionSetMissCost
import Castan.Solver.STPConstant
