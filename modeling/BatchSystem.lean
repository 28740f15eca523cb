import BatchSystem.Core.LTS
import BatchSystem.Core.Lists
import BatchSystem.Core.Progress
import BatchSystem.Core.Json
import BatchSystem.Core.JsonRead
import BatchSystem.Core.Lines
import BatchSystem.Core.FirstWins
import BatchSystem.Core.LeaseQueue
import BatchSystem.Core.RowLocks
import BatchSystem.Domain.Models
import BatchSystem.Queue.Table
import BatchSystem.Queue.Repository
import BatchSystem.Queue.Transactions
import BatchSystem.Queue.Exclusive
import BatchSystem.Queue.Frame
import BatchSystem.Queue.LeaseSpec
import BatchSystem.Queue.SkipLocked
import BatchSystem.Queue.PassedOver
import BatchSystem.Queue.OneByOne
import BatchSystem.Queue.InOrder
import BatchSystem.Storage.LocalStorage
import BatchSystem.Service.JobRepository
import BatchSystem.Service.Download
import BatchSystem.Core.Batching
import BatchSystem.Ingest.Validation
import BatchSystem.Ingest.Ingestor
import BatchSystem.Ingest.Accepted
import BatchSystem.Ingest.Acceptance
import BatchSystem.Ingest.Reasons
import BatchSystem.Ingest.Isolation
import BatchSystem.Engine.Worker
import BatchSystem.Engine.Retry
import BatchSystem.Engine.Pool
import BatchSystem.Engine.Books
import BatchSystem.Engine.Owner
import BatchSystem.Engine.Fencing
import BatchSystem.Engine.Attempts
import BatchSystem.Engine.Durable
import BatchSystem.Engine.Contents
import BatchSystem.Engine.Recovery
import BatchSystem.Engine.Duplicates
import BatchSystem.Engine.Leases
import BatchSystem.Engine.Queued
import BatchSystem.Engine.Heartbeat
import BatchSystem.Engine.Rows
import BatchSystem.Engine.Run
import BatchSystem.Engine.RunBooks
import BatchSystem.Engine.RunEnds
import BatchSystem.Engine.Sequential
import BatchSystem.Engine.Clients
import BatchSystem.Engine.Apart
import BatchSystem.Engine.Metrics
import BatchSystem.Inference.MockClient
import BatchSystem.Service.Lifecycle
import BatchSystem.Service.System
import BatchSystem.Service.Crew
import BatchSystem.Service.Completion
import BatchSystem.Service.JobStates
import BatchSystem.Service.Restart
import BatchSystem.Service.Resume
import BatchSystem.Service.Pipeline
import BatchSystem.Service.ModelUse
import BatchSystem.Service.Submit
import BatchSystem.Service.Report
import BatchSystem.Service.Reading
import BatchSystem.Service.Totals
import BatchSystem.Service.Quiescent
import BatchSystem.Service.Replay
import BatchSystem.Service.WorkLeft
import BatchSystem.Service.Ends
