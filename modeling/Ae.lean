import Ae.SafeStream.Reassembly
import Ae.SafeStream.AckHonesty
import Ae.SafeStream.SendPosition
import Ae.SafeStream.SentMessages
import Ae.SafeStream.SentFrontier
import Ae.SafeStream.Rejection
import Ae.SafeStream.Resync
import Ae.SafeStream.WriteAgreement
import Ae.Transport.Framing
import Ae.MStream.Overwriting
import Ae.MStream.Soundness
import Ae.MStream.Cost
import Ae.Api.Correspondence
import Ae.Api.Received
import Ae.DomainStorage.Sync
import Ae.DomainStorage.Restart
import Ae.Api.Reentrancy
import Ae.WriteAction.Buffering
import Ae.Tasks.TaskSubscriptions
import Ae.ConnectionManager.CloudLookup
import Ae.Crypto.Nonces
import Ae.SafeStream.MaximalEmission
import Ae.CloudConnections.Quarantine
import Ae.CloudConnections.Restreaming
import Ae.CloudConnections.ReplicaWrites
import Ae.CloudConnections.RetryBudget
import Ae.SafeStream.FailedWrites
import Ae.SafeStream.StopExactness
import Ae.ConnectionManager.NewestConfig
import Ae.CloudConnections.MessageListening
import Ae.CloudConnections.Pings
import Ae.Transport.ModemSending
import Ae.ServerConnections.Writability
import Ae.Obj.CopyCompleteness
import Ae.SerialPorts.AtRequest
import Ae.Modems.Sim7070
import Ae.Types.AddressParser
import Ae.MStream.WindowResizing
import Ae.Actions.PoolSlots
import Ae.Types.RingLaws
import Ae.Executors.WithTimeout
import Ae.Tasks.DelayedQueue
import Ae.Tele.Metrics
import Ae.AeActions.Telemetry
import Ae.ConnectivityPolicy.SuspendBlock
import Ae.Tele.CircularLog
import Ae.Crypto.SyncProvider
import Ae.Ptr.Assignment
import Ae.Actions.Stages
import Ae.Registration.ProofOfWork
import Ae.Events.Retention
import Ae.Obj.ClassSelection
import Ae.Types.UidText
import Ae.ClientMessages.Ports
