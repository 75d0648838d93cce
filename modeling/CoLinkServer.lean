import CoLinkServer.Interleaving
import CoLinkServer.RelyGuarantee
import CoLinkServer.SeparatedText
import CoLinkServer.StorageKeys
import CoLinkServer.VersionedMap
import CoLinkServer.BasicStorage
import CoLinkServer.BasicStorageRefinement
import CoLinkServer.BasicStorageRuns
import CoLinkServer.SelfDelimiting
import CoLinkServer.TaskData
import CoLinkServer.Decisions
import CoLinkServer.TaskService
import CoLinkServer.TaskSystem
import CoLinkServer.TaskOperations
import CoLinkServer.ThreadTraces
import CoLinkServer.ReverseConnections
import CoLinkServer.ConcreteRuns
import CoLinkServer.TaskTraces
import CoLinkServer.HandlerTraces
import CoLinkServer.TaskRecords
import CoLinkServer.TaskVersions
import CoLinkServer.StatusOrder
import CoLinkServer.Consent
import CoLinkServer.TaskKeys
import CoLinkServer.Authorization
import CoLinkServer.StorageService
import CoLinkServer.TokenService
import CoLinkServer.SignedDecisions
import CoLinkServer.ProtocolPackages
import CoLinkServer.ProtocolOperators
import CoLinkServer.FinalDecisions
import CoLinkServer.MergedDecisions
import CoLinkServer.AnnouncementTraces
import CoLinkServer.Announcements
import CoLinkServer.VerdictTraces
import CoLinkServer.InitiatorStatus
import CoLinkServer.HonestMessages
import CoLinkServer.DecisionSources
import CoLinkServer.SplitDecisions
import CoLinkServer.VersionTimes
import CoLinkServer.SoloRuns
import CoLinkServer.Subscription
import CoLinkServer.KeyPaths
import CoLinkServer.SubscriptionCounts
import CoLinkServer.SubscriptionStorage
import CoLinkServer.SubscriptionFailures
import CoLinkServer.SubscriptionReplay
import CoLinkServer.SubscriptionOwners
import CoLinkServer.SoloTasks
import CoLinkServer.ReverseStreams
import CoLinkServer.Deliveries
import CoLinkServer.Broadcasts
import CoLinkServer.Creation
import CoLinkServer.Confirmation
import CoLinkServer.ConsentChecks
import CoLinkServer.SignedStatements
import CoLinkServer.DirectExchange
import CoLinkServer.RedisStream
import CoLinkServer.ConsentRefresh
import CoLinkServer.WireFormat
import CoLinkServer.Schedules
import CoLinkServer.UserInit
import CoLinkServer.StartOrder
import CoLinkServer.ThreadAssumptions
import CoLinkServer.DefinedHandlers
import CoLinkServer.SharedLocks
import CoLinkServer.ChangeTraces
import CoLinkServer.ChangeOrder
import CoLinkServer.RunningInstances
import CoLinkServer.Admissions
import CoLinkServer.Placements
import CoLinkServer.CallsReturn
import CoLinkServer.SubscriberTraces
import CoLinkServer.SubscriberRuns
import CoLinkServer.Subscribers
import CoLinkServer.EntryTraces
import CoLinkServer.TaskIndex
