import LiveMarkup.Main
import LiveMarkup.Proofs.Document.Operation
import LiveMarkup.Proofs.History
import LiveMarkup.Proofs.Idempotence
import LiveMarkup.Proofs.Document.Reachable
import LiveMarkup.Proofs.Document.Roundtrip
import LiveMarkup.Proofs.Engines
import LiveMarkup.Proofs.Blind
import LiveMarkup.Proofs.Cached
import LiveMarkup.Proofs.Document.Ages
import LiveMarkup.Proofs.Interleaving
import LiveMarkup.Proofs.Lasting
import LiveMarkup.Proofs.Survival
import LiveMarkup.Proofs.Completion
import LiveMarkup.Proofs.GeneratedRuns
import LiveMarkup.Proofs.Listening
import LiveMarkup.Proofs.Replay
import LiveMarkup.Proofs.Document.Freshness
import LiveMarkup.Proofs.Document.Parsing
import LiveMarkup.Proofs.Sharing
import LiveMarkup.Proofs.Upkeep
import LiveMarkup.Proofs.Document.Refusal
import LiveMarkup.Proofs.Detection
import LiveMarkup.Proofs.Hiding
import LiveMarkup.Proofs.Reported
import LiveMarkup.Proofs.Moments
import LiveMarkup.Proofs.Avoiding
import LiveMarkup.Proofs.Undefined
import LiveMarkup.Proofs.Bookkeeping
import LiveMarkup.Proofs.Reuse
import LiveMarkup.Proofs.Mirroring
import LiveMarkup.Proofs.Recursion
import LiveMarkup.Proofs.Scanning
import LiveMarkup.Proofs.Document.Effects
import LiveMarkup.Proofs.Refilling
import LiveMarkup.Proofs.Apart
import LiveMarkup.Proofs.Addressing
import LiveMarkup.Proofs.Document.Comments
import LiveMarkup.Proofs.Undoing
import LiveMarkup.Proofs.Shadowing
import LiveMarkup.Proofs.Listing
import LiveMarkup.Proofs.Json.Roundtrip
import LiveMarkup.Proofs.Document.Search
import LiveMarkup.Proofs.Indexing
