import UnifyPrototype.SerialTaskQueue.Model
import UnifyPrototype.SerialTaskQueue.Steps
import UnifyPrototype.SerialTaskQueue.Ownership
import UnifyPrototype.SerialTaskQueue.Wakeup
import UnifyPrototype.SerialTaskQueue.Order
import UnifyPrototype.SerialTaskQueue.Pause
import UnifyPrototype.SerialTaskQueueChain.Model
import UnifyPrototype.SerialTaskQueueChain.Family
import UnifyPrototype.SerialTaskQueueChain.Steps
import UnifyPrototype.SerialTaskQueue.Tasks
import UnifyPrototype.SerialTaskQueue.Threads
import UnifyPrototype.SerialTaskQueue.Progress
import UnifyPrototype.SerialTaskQueue.Destructor
import UnifyPrototype.SerialTaskQueue.Teardown
import UnifyPrototype.SerialTaskQueue.Stuck
import UnifyPrototype.SerialTaskQueueChain.Placement
import UnifyPrototype.SerialTaskQueueChain.Ledger
import UnifyPrototype.SerialTaskQueueChain.Holding
import UnifyPrototype.SerialTaskQueueChain.Bearing
import UnifyPrototype.SerialTaskQueueChain.Order
import UnifyPrototype.SerialTaskQueueChain.Exclusive
import UnifyPrototype.SerialTaskQueueChains.Model
import UnifyPrototype.SerialTaskQueueChains.Counts
import UnifyPrototype.SerialTaskQueueChains.Deadlock
import UnifyPrototype.LimitedTaskQueue.Model
import UnifyPrototype.LimitedTaskQueue.Steps
import UnifyPrototype.LimitedTaskQueue.Claims
import UnifyPrototype.ControlFlow.Model
import UnifyPrototype.ControlFlow.Steps
import UnifyPrototype.ControlFlow.Quiescence
import UnifyPrototype.ControlFlow.Delivery
import UnifyPrototype.ControlFlow.Requests
import UnifyPrototype.ControlFlow.Evaluation
import UnifyPrototype.ControlFlow.Forest
import UnifyPrototype.ControlFlow.Soundness
import UnifyPrototype.ControlFlow.Inert
import UnifyPrototype.ControlFlow.Counters
import UnifyPrototype.ControlFlow.Transitions
import UnifyPrototype.ControlFlow.Frames
import UnifyPrototype.ControlFlow.LastHolder
import UnifyPrototype.WaitingTask.Model
import UnifyPrototype.WaitingTask.Steps
import UnifyPrototype.WaitingTask.References
import UnifyPrototype.WaitingTask.Failure
import UnifyPrototype.WaitingTask.Once
import UnifyPrototype.WaitingTask.FirstFailure
import UnifyPrototype.WaitingTaskList.Model
import UnifyPrototype.WaitingTaskList.Steps
import UnifyPrototype.WaitingTaskList.Waiting
import UnifyPrototype.WaitingTaskList.Nodes
import UnifyPrototype.WaitingTaskList.Places
import UnifyPrototype.WaitingTaskList.Released
import UnifyPrototype.WaitingTaskList.Single
import UnifyPrototype.WaitingTaskList.Deleted
import UnifyPrototype.WaitingTaskList.Epochs
import UnifyPrototype.WaitingTaskList.Reset
import UnifyPrototype.WaitingTaskList.Preset
import UnifyPrototype.Utils.Cost
import UnifyPrototype.WaitingTaskList.Progress
import UnifyPrototype.SerialTaskQueue.Work
import UnifyPrototype.SerialTaskQueue.Paused
import UnifyPrototype.ChainFirst.Model
import UnifyPrototype.ChainFirst.Fold
import UnifyPrototype.ChainFirst.LastTask
import UnifyPrototype.ChainFirst.Stages
import UnifyPrototype.ChainFirst.Run
import UnifyPrototype.ChainFirst.RunLast
import UnifyPrototype.ChainFirst.Correspondence
import UnifyPrototype.ThreadSafeOutputFileStream.Model
import UnifyPrototype.ThreadSafeOutputFileStream.Order
import UnifyPrototype.ThreadSafeOutputFileStream.Stranded
import UnifyPrototype.ThreadSafeOutputFileStream.Moments
import UnifyPrototype.LimitedTaskQueue.Order
import UnifyPrototype.LimitedTaskQueue.Limit
import UnifyPrototype.ProductHandling.Model
import UnifyPrototype.ProductHandling.Declared
import UnifyPrototype.ProductHandling.Finalize
import UnifyPrototype.ProductHandling.Defaults
import UnifyPrototype.ProductHandling.History
import UnifyPrototype.ProductHandling.Lookup
import UnifyPrototype.ThreadSafeAddOnlyContainer.Model
import UnifyPrototype.ThreadSafeAddOnlyContainer.Held
import UnifyPrototype.ThreadSafeAddOnlyContainer.Retries
import UnifyPrototype.Utils.Linked
import UnifyPrototype.Utils.Lockstep
import UnifyPrototype.Holders.Model
import UnifyPrototype.Holders.Counted
import UnifyPrototype.Holders.Agreement
import UnifyPrototype.LimitedTaskQueue.Assign
import UnifyPrototype.LimitedTaskQueue.Resumers
import UnifyPrototype.FinalWaitingTask.Model
import UnifyPrototype.FinalWaitingTask.Waits
import UnifyPrototype.Cms.Assign
import UnifyPrototype.Utils.Loops
import UnifyPrototype.Utils.Text
import UnifyPrototype.TypeDemangler.Model
import UnifyPrototype.TypeDemangler.Depth
import UnifyPrototype.TypeDemangler.Replace
import UnifyPrototype.Utils.Brackets
import UnifyPrototype.TypeDemangler.Remove
import UnifyPrototype.Utils.Reading
import UnifyPrototype.TypeDemangler.Const
import UnifyPrototype.TypeDemangler.Suffixes
import UnifyPrototype.TypeDemangler.Pipeline
import UnifyPrototype.TypeDemangler.Result
import UnifyPrototype.Utils.Rewriting
import UnifyPrototype.TypeDemangler.Types
import UnifyPrototype.TypeDemangler.Spelling
import UnifyPrototype.TypeDemangler.Defaults
import UnifyPrototype.TypeDemangler.Qualifiers
import UnifyPrototype.TypeDemangler.Numbers
import UnifyPrototype.TypeDemangler.Dictionary
import UnifyPrototype.TypeDemangler.Told
import UnifyPrototype.Cms.Model
import UnifyPrototype.Utils.Lines
import UnifyPrototype.Cms.Report
