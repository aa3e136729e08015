import Memline.Lib.Effect
import Memline.Lib.Reachability
import Memline.Lib.Table
import Memline.Payload
import Memline.PairStore
import Memline.World
import Memline.Mem0
import Memline.Staleness
import Memline.Ops
import Memline.Mutations
import Memline.Supersession
import Memline.Runs
import Memline.Integrity
import Memline.Races
import Memline.Cli
import Memline.UpdateRace
import Memline.Commands
import Memline.Settling
import Memline.Authority
import Memline.Harvest
import Memline.ExpiryFlags
import Memline.BridgeQueue
import Memline.Machine
import Memline.Lib.Counting
import Memline.Bridge
import Memline.Lib.Tally
import Memline.Transport
import Memline.Lib.Hoare
import Memline.OpenPairs
import Memline.Protection
import Memline.EventQueue
import Memline.Lib.History
import Memline.Desk
import Memline.Workers
import Memline.Shift
import Memline.Review
import Memline.Lib.Logic
import Memline.Checks
import Memline.CrossChecks
import Memline.Llm
import Memline.Provenance
import Memline.Rechecks
import Memline.Lib.Striking
import Memline.Rollback
import Memline.Reversal
import Memline.Readds
import Memline.Lib.Json
import Memline.Lib.Check
import Memline.Wiki.Artifacts
import Memline.Wiki.Adjudication
import Memline.Wiki.ReviewReport
import Memline.Wiki.Validated
import Memline.Wiki.Publication
import Memline.Wiki.Merge
import Memline.Wiki.Passes
import Memline.Wiki.Merged
import Memline.Wiki.Accumulation
import Memline.Wiki.MergedReport
import Memline.Wiki.Conserved
import Memline.Wiki.Totality
import Memline.Wiki.Typed
import Memline.Lib.Datetime
import Memline.Wiki.Batch
import Memline.Wiki.Coverage
import Memline.Lib.Lists
import Memline.Wiki.Plan
import Memline.Search
import Memline.Progress
import Memline.Heads
import Memline.Lib.Occurrence
import Memline.Lib.Regex
import Memline.Wiki.Page
import Memline.Wiki.Currency
import Memline.Paging
import Memline.Lib.Paths
import Memline.Ledger
import Memline.Wiki.Region
import Memline.Wiki.Content
import Memline.Wiki.Related
import Memline.Wiki.Index
import Memline.Wiki.Refresh
import Memline.Wiki.FrontMatter
import Memline.Wiki.Listing
import Memline.Wiki.Fixpoint
import Memline.Lib.Rewriting
import Memline.Lib.Matching
import Memline.Sanitizer
import Memline.Scrubbing
import Memline.Wiki.Profile
import Memline.Wiki.Resume
import Memline.Wiki.Sources
import Memline.Lib.Keyed
import Memline.Wiki.Suggest
import Memline.Wiki.Threads
import Memline.Wiki.Suggested
import Memline.Wiki.Bundle
import Memline.Lib.Finditer
import Memline.Lib.Language
import Memline.Wiki.Citations
import Memline.Wiki.Verify
import Memline.Text
import Memline.Segments
import Memline.Appending
import Memline.Timestamps
import Memline.Wiki.Section
import Memline.Wiki.Blocks
import Memline.Wiki.Compiled
import Memline.Wiki.Packets
import Memline.Wiki.Resolution
import Memline.Wiki.Uncited
import Memline.Wiki.Verified
import Memline.Lib.Coding
import Memline.Restoration
import Memline.Lib.Instants
import Memline.Normalization
import Memline.Deadlines
import Memline.Backfill
import Memline.Config
import Memline.Lib.Census
import Memline.Gate
import Memline.Wiki.Numbers
import Memline.Lib.JsonText
import Memline.Lib.JsonWriting
import Memline.Wire
import Memline.Lib.JsonOrder
import Memline.Wiki.Canonical
import Memline.Judge
import Memline.Salvage
import Memline.Lib.Retry
import Memline.Answers
import Memline.Stream
import Memline.Relay
import Memline.Lib.JsonLines
import Memline.Manifests
