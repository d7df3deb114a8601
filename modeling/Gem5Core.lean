import Gem5Core.ValuePred.Statistics
import Gem5Core.ValuePred.Attribution
import Gem5Core.ValuePred.Majority
import Gem5Core.ValuePred.Agreement
import Gem5Core.ValuePred.Convergence
import Gem5Core.Pred.RasRecovery
import Gem5Core.Pred.RasExact
import Gem5Core.Pred.TageExact
import Gem5Core.Pred.TageRollover
import Gem5Core.Pred.PathHash
import Gem5Core.Pred.LoopConvergence
import Gem5Core.Pred.PlaceholderTraining
import Gem5Core.Pred.TournamentExact
import Gem5Core.Base.SatCounter
import Gem5Core.Base.CircularQueue
import Gem5Core.Pred.SimpleBtb
import Gem5Core.Pred.CorrectorExact
import Gem5Core.Pred.GehlAgreement
import Gem5Core.Pred.Interleaving
import Gem5Core.Pred.IndirectCorrection
import Gem5Core.O3.SurpriseBranch
import Gem5Core.O3.OldestViolator
import Gem5Core.Pred.LoopCounting
import Gem5Core.Pred.PerceptronPurity
import Gem5Core.O3.LifoUndo
import Gem5Core.O3.FetchTargets
import Gem5Core.O3.FetchFollows
import Gem5Core.O3.RobCapacity
import Gem5Core.O3.RenameRollback
import Gem5Core.O3.RenameConservation
import Gem5Core.O3.StoreSetLearning
import Gem5Core.O3.MemDepBarriers
import Gem5Core.O3.InstQueueWakeups
import Gem5Core.O3.LsqCoherence
import Gem5Core.Sim.EventqOrder
import Gem5Core.Mem.TreePlru
import Gem5Core.O3.FuPool
import Gem5Core.Plots.Trend
import Gem5Core.O3.IewRedirect
import Gem5Core.O3.ReadyList
import Gem5Core.O3.LsqStall
