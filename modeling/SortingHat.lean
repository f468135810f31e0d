import SortingHat.Effect.Rules
import SortingHat.Effect.Invariant
import SortingHat.Posix.FileSystem
import SortingHat.Version.Chain
import SortingHat.Rules
import SortingHat.Text.Base64
import SortingHat.Text.Json
import SortingHat.Journal.Table
import SortingHat.Text.FileName
import SortingHat.Text.Lossy
import SortingHat.Posix.Below
import SortingHat.World
import SortingHat.Journal.Program
import SortingHat.Fs
import SortingHat.Agent
import SortingHat.Service.Base
import SortingHat.Service.Scan
import SortingHat.Service.Facts
import SortingHat.Service.Review
import SortingHat.Service.Move
import SortingHat.Service.Recovery
import SortingHat.Run
import SortingHat.Journal.Interleaving
import SortingHat.Journal.Capacity
import SortingHat.Journal.Pruning
import SortingHat.Service.Queue
import SortingHat.Service.Steps
import SortingHat.Service.Requests
import SortingHat.Service.Runs
import SortingHat.Service.Evidence
import SortingHat.Service.Recovered
import SortingHat.Service.Restart
import SortingHat.Service.Resume
import SortingHat.Replay
import SortingHat.Service.Stability
import SortingHat.Service.Walk
import SortingHat.Journal.Atomicity
import SortingHat.Service.Deeds
import SortingHat.Service.Ledger
import SortingHat.Service.Conduct
import SortingHat.Service.Endings
import SortingHat.Service.Retention
import SortingHat.Service.Opening
import SortingHat.Service.Refusal
import SortingHat.Service.Integrity
import SortingHat.Service.Route
import SortingHat.Service.Sources
import SortingHat.Service.Stale
import SortingHat.Service.Reopening
import SortingHat.Service.Forgetting
import SortingHat.Text.Measure
import SortingHat.Service.Alone
import SortingHat.Service.Survey
import SortingHat.Service.Exhaustion
import SortingHat.Transfer
import SortingHat.Service.Custody
import SortingHat.Service.Choice
import SortingHat.Service.Directories
import SortingHat.Service.References
import SortingHat.Service.Sightings
import SortingHat.Service.Decoding
import SortingHat.Service.Halfway
import SortingHat.Service.Origin
import SortingHat.Service.Advice
import SortingHat.StagedCopy
import SortingHat.Daemon.Protocol
import SortingHat.Daemon.Dispatch
import SortingHat.Daemon.Answers
import SortingHat.Service.Proposing
import SortingHat.Daemon.Queue
import SortingHat.Service.Naming
import SortingHat.Effect.Monitor
import SortingHat.Service.Looking
import SortingHat.Service.Mutation
import SortingHat.Text.Stream
import SortingHat.Text.Decode
import SortingHat.Service.Body
import SortingHat.Daemon.Codec
import SortingHat.Daemon.Client
import SortingHat.Daemon.Command
