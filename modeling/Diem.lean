import Diem.ChainFinality
import Diem.EpochIsolation
import Diem.BufferManagerRuns
import Diem.BlockStoreRuns
import Diem.StatePruner
import Diem.StateProofRounds
import Diem.TransactionAuthenticator
import Diem.SlidingNonce
import Diem.ReplayProtection
import Diem.MempoolEligibility
import Diem.MempoolTimeline
import Diem.TtlCacheSpec
import Diem.MempoolRefusals
import Diem.NetworkIdentity
import Diem.TransactionLists
import Diem.BroadcastLoops
import Diem.AccountStateProofs
import Diem.LeaderReputation
import Diem.TimeoutCerts
import Diem.DataStreamingService
import Diem.PerKeyQueue
import Diem.DiscoveredPeers
import Diem.PostorderNumbering
