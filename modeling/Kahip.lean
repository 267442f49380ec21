import Kahip.Graph
import Kahip.Commit
import Kahip.Unroll
import Kahip.Recalc
import Kahip.History
import Kahip.LocalSearch
import Kahip.Explore
import Kahip.ApplyMoves
import Kahip.Batch
import Kahip.QueueKeys
import Kahip.CommitSafety
import Kahip.ReplayableLogs
import Kahip.RoundGain
import Kahip.LoneCommit
import Kahip.QuotientRefinement
import Kahip.Coarse
import Kahip.Contract
import Kahip.FastContract
import Kahip.ShardedContract
import Kahip.Contraction
import Kahip.Kaffpa
