import Nusantara.Core.ProgramAddress
import Nusantara.Runtime.Robustness
import Nusantara.Validator.Voting
import Nusantara.Validator.RootMoves
import Nusantara.Consensus.Convergence
import Nusantara.Validator.Mirror
import Nusantara.Validator.Survival
import Nusantara.Processors.Credits
import Nusantara.Validator.BoundaryTree
import Nusantara.Validator.Deletion
import Nusantara.Validator.Snapshot
import Nusantara.Consensus.CommitmentRuns
import Nusantara.Consensus.TowerRuns
import Nusantara.Validator.TreeRuns
import Nusantara.Consensus.ForkVotes
import Nusantara.Processors.TokenRuns
import Nusantara.Processors.LoaderRuns
import Nusantara.Consensus.GpuPoh
import Nusantara.Validator.Slashing
import Nusantara.Tpu.Forwarder
