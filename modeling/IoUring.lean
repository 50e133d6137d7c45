import IoUring.Base.Machine
import IoUring.Base.Chain
import IoUring.Base.Observe
import IoUring.Base.Residues
import IoUring.Base.Placement
import IoUring.Base.Slots
import IoUring.Base.Linearize
import IoUring.Exec.IntrusiveQueue
import IoUring.Exec.Launch
import IoUring.Exec.LaunchInvariant
import IoUring.Exec.LaunchOrder
import IoUring.Exec.MakeFifo
import IoUring.Exec.QueueLinearize
import IoUring.Exec.TaskMapPlacement
import IoUring.Exec.OperationRestart
import IoUring.Exec.OperationEffects
import IoUring.Exec.OperationStopSeen
import IoUring.Exec.OperationUninstall
import IoUring.Exec.OperationSweep
import IoUring.Exec.OperationReuse
import IoUring.Exec.OperationCancel
import IoUring.Exec.RunLoopInflight
import IoUring.Exec.RunLoopBuckets
import IoUring.Exec.RunLoopHandOver
import IoUring.Exec.RunLoopReaping
import IoUring.Exec.RunLoopProgress
import IoUring.Exec.RunLoopWild
import IoUring.Coroutine.ContextDrain
import IoUring.Coroutine.ContextResult
import IoUring.Coroutine.ContextChain
import IoUring.Coroutine.ContextMultishot
import IoUring.Coroutine.ContextDelivery
import IoUring.Coroutine.ContextSubmit
import IoUring.Coroutine.Construction
import IoUring.Coroutine.FramesSafe
import IoUring.Coroutine.Fifo
import IoUring.Coroutine.ProvidedBuffersConserved
import IoUring.Coroutine.ContextSwitchSafe
import IoUring.Base.Barrier
import IoUring.Coroutine.DrainServerClients
import IoUring.Echo.ServerEcho
import IoUring.Echo.Agreement
import IoUring.Base.Ledger
import IoUring.Base.Turns
import IoUring.Coroutine.ContextRun
import IoUring.Coroutine.ContextRunServed
import IoUring.Coroutine.FramesFreed
import IoUring.Exec.TaskMapBalance
import IoUring.Cat
import IoUring.Coroutine.SwitchQueue
