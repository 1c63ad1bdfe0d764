import StorageRuntime.MutexWaiterProofs
import StorageRuntime.SemaphoreWakeupProofs
import StorageRuntime.TimedResultProofs
import StorageRuntime.RingQueueProofs
import StorageRuntime.StealPassProofs
import StorageRuntime.GenerationWrapProofs
import StorageRuntime.ExecutorStopProofs
import StorageRuntime.QueueStepsProofs
import StorageRuntime.PoolStatsProofs
import StorageRuntime.PoolAlignmentProofs
import StorageRuntime.AffineDrainProofs
import StorageRuntime.BusyServiceProofs
import StorageRuntime.TaskStatsProofs
import StorageRuntime.SubmittedWorkProofs
import StorageRuntime.TimerThreadProofs
import StorageRuntime.IdleLevelProofs
import StorageRuntime.ChaseLevInvariantProofs
import StorageRuntime.RetiredArrayProofs
import StorageRuntime.SizeClassListProofs
import StorageRuntime.NumaRoutingProofs
import StorageRuntime.WhenAllProofs
import StorageRuntime.CoroStateProofs
import StorageRuntime.TaskFrameProofs
import StorageRuntime.IoReentryProofs
import StorageRuntime.RingGroupProofs
import StorageRuntime.SpdkTransferProofs
import StorageRuntime.IoBackendProofs
import StorageRuntime.IoErrorProofs
import StorageRuntime.FeedbackLoopProofs
import StorageRuntime.MetricWindowProofs
