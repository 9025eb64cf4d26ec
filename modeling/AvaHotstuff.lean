import AvaHotstuff.Totality
import AvaHotstuff.Recertification
import AvaHotstuff.Proposing
import AvaHotstuff.UpdateOrder
import AvaHotstuff.ExecutionOrder
import AvaHotstuff.Broadcast
import AvaHotstuff.Verification
import AvaHotstuff.VoteOrder
import AvaHotstuff.CommandArgs
import AvaHotstuff.Complaints
import AvaHotstuff.EchoReady
import AvaHotstuff.ReconfigNet
import AvaHotstuff.ReconfigTotality
import AvaHotstuff.Aggregation
import AvaHotstuff.QuorumReached
import AvaHotstuff.Messages
import AvaHotstuff.Handlers
import AvaHotstuff.TwoStep
import AvaHotstuff.Flooding
import AvaHotstuff.Leaders
import AvaHotstuff.Recipients
import AvaHotstuff.Outbox
import AvaHotstuff.LeaveSets
import AvaHotstuff.FixedProposer
import AvaHotstuff.Startup
import AvaHotstuff.PromiseAll
import AvaHotstuff.CertificateChecks
import AvaHotstuff.ClientCallbacks
import AvaHotstuff.TailProposals
import AvaHotstuff.VoteCollection
import AvaHotstuff.OwnChain
import AvaHotstuff.PacingLock
import AvaHotstuff.Batching
import AvaHotstuff.LeaderRotation
import AvaHotstuff.BlockCache
import AvaHotstuff.CertificateFlow
import AvaHotstuff.Accesses
import AvaHotstuff.CallAccess
import AvaHotstuff.HandlerAccess
import AvaHotstuff.Prune
import AvaHotstuff.Canonical
import AvaHotstuff.Fetching
import AvaHotstuff.Redelivery
import AvaHotstuff.Tails
import AvaHotstuff.Enrolment
import AvaHotstuff.ComplaintCounts
import AvaHotstuff.WaitForQC
import AvaHotstuff.Link
import AvaHotstuff.Logs
import AvaHotstuff.Responsive
