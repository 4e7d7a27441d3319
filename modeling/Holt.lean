import Holt.Checkpoint.Images
import Holt.Checkpoint.Waves
import Holt.Concurrent.Admission
import Holt.Concurrent.Commits
import Holt.Concurrent.HybridLatch
import Holt.Concurrent.Listings
import Holt.Concurrent.Read
import Holt.Database.Handles
import Holt.Database.Reopen
import Holt.Heap
import Holt.Journal.GroupCommit
import Holt.Journal.InPlace
import Holt.Journal.Requests
import Holt.Journal.Retries
import Holt.Journal.Sessions
import Holt.Simd
import Holt.Store.BufferPool
import Holt.Store.Eviction
import Holt.Store.File.Batched
import Holt.Store.File.Damage
import Holt.Store.File.Faults
import Holt.Store.File.Ring
import Holt.Store.Locking
import Holt.Tree.Reference
import Holt.Walker.Footprint
import Holt.Walker.InnerMap
import Holt.Walker.MergePass
