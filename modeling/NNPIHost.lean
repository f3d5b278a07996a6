import NNPIHost.Exec.Run
import NNPIHost.Fifo.Circular
import NNPIHost.Ring.Refinement
import NNPIHost.Ipc.Events
import NNPIHost.CommandList.Card
import NNPIHost.HostRes.Locks
import NNPIHost.Copy.Executions
import NNPIHost.Context.CriticalError
import NNPIHost.Context.FatalRelease
import NNPIHost.WaitQueue.Discipline
import NNPIHost.Context.CreateReply
import NNPIHost.Ida.Allocator
import NNPIHost.Context.Markers
import NNPIHost.Context.ObjectIds
import NNPIHost.ErrorList.Replies
import NNPIHost.Ring.Senders
import NNPIHost.Context.ListLocks
import NNPIHost.ErrorList.Records
import NNPIHost.ErrorList.Failures
import NNPIHost.DevRes.Locality
import NNPIHost.DevNet.Ids
import NNPIHost.CommandList.Ids
import NNPIHost.Context.Waits
import NNPIHost.HostRes.Waits
import NNPIHost.CommandList.Batches
import NNPIHost.CommandList.Gate
import NNPIHost.CommandList.Rollback
import NNPIHost.CommandList.Regroup
import NNPIHost.Context.Finish
import NNPIHost.SubLoad.Sources
import NNPIHost.InfReq.Page
import NNPIHost.DevRes.Create
import NNPIHost.Context.ScheduleMessages
import NNPIHost.CommandList.Refresh
import NNPIHost.Context.WaitError
import NNPIHost.Context.Recover
import NNPIHost.Context.ReplyKeys
import NNPIHost.Ring.PushPop
import NNPIHost.Exec.Stream
import NNPIHost.Ida.Coalesced
import NNPIHost.CommandList.Rows
import NNPIHost.Context.KillAll
import NNPIHost.DevRes.FromFile
import NNPIHost.Device.ChannelFds
import NNPIHost.ErrorList.Buffer
import NNPIHost.Context.Destruction
import NNPIHost.Context.Paired
import NNPIHost.Codec.Schema
import NNPIHost.Context.ActiveContexts
import NNPIHost.Device.Table
import NNPIHost.Ipc.Requests
import NNPIHost.CommandList.Waits
import NNPIHost.Context.Agreement
import NNPIHost.Context.Barrier
import NNPIHost.Copy.Races
import NNPIHost.HostRes.CpuSync
