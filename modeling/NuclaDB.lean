import NuclaDB.GroupCommit
import NuclaDB.HnswSchedule
import NuclaDB.PqFullProbe
import NuclaDB.HnswTiers
import NuclaDB.HnswRepresentation
import NuclaDB.SegmentSafety
import NuclaDB.SegmentStates
import NuclaDB.FollowSync
import NuclaDB.FollowRotation
import NuclaDB.EngineAtomicity
import NuclaDB.ClusterCalls
import NuclaDB.StoreQuota
import NuclaDB.StoreDeadlock
import NuclaDB.StoreEngines
import NuclaDB.RouterSearch
import NuclaDB.Failover
import NuclaDB.HealthChecker
import NuclaDB.StoreBatches
import NuclaDB.Paging
import NuclaDB.ConcurrentGet
import NuclaDB.ConcurrentSearch
import NuclaDB.FollowerConsistency
import NuclaDB.HnswHeaps
import NuclaDB.HnswDescent
import NuclaDB.HnswDiversity
import NuclaDB.HnswVisited
import NuclaDB.HnswBlocks
import NuclaDB.Gateway
import NuclaDB.StoreFilterLimit
import NuclaDB.StoreStats
import NuclaDB.PqKmeans
import NuclaDB.TopologyWatch
import NuclaDB.FollowSignal
