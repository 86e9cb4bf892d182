import Triangulator.Verification.BtLookups
import Triangulator.Verification.CombPmcs
import Triangulator.Verification.FixedSizeHyper
import Triangulator.Verification.RefinementRuns
import Triangulator.Verification.AspAnswers
import Triangulator.Verification.McsMOrder
import Triangulator.Verification.PmcTests
import Triangulator.Verification.HypertreewidthSat
import Triangulator.Verification.HypertreewidthComb
import Triangulator.Verification.TreewidthComb
import Triangulator.Verification.Setcover
import Triangulator.Verification.TreewidthSat
import Triangulator.Verification.GraphRuns
import Triangulator.Verification.VertexMaps
import Triangulator.Verification.HyperGraphRuns
import Triangulator.Verification.Degree2Exhaustive
import Triangulator.Verification.StaticVectors
import Triangulator.Verification.SelectionNetwork
import Triangulator.Verification.Main
import Triangulator.Verification.SatSolver
import Triangulator.Verification.FrozenEnumerators
