import StreamMerge.Choice
import StreamMerge.Collector
import StreamMerge.CommandLine
import StreamMerge.Credit
import StreamMerge.EndPolicy
import StreamMerge.FileTree
import StreamMerge.Inlet
import StreamMerge.InletId
import StreamMerge.Journal
import StreamMerge.Json.Document
import StreamMerge.Json.Lexeme
import StreamMerge.Json.Number
import StreamMerge.Json.Quote
import StreamMerge.Json.Skip
import StreamMerge.Link
import StreamMerge.LogFilter
import StreamMerge.Main
import StreamMerge.Merge
import StreamMerge.Merge.Attempt
import StreamMerge.Merge.Dispatch
import StreamMerge.Merge.Run
import StreamMerge.MergeError
import StreamMerge.Preferences
import StreamMerge.Profiles
import StreamMerge.Profiles.Memory
import StreamMerge.Program
import StreamMerge.Proofs.Accounts
import StreamMerge.Proofs.Alternation
import StreamMerge.Proofs.Answers
import StreamMerge.Proofs.Attempt
import StreamMerge.Proofs.Backpressure
import StreamMerge.Proofs.Bare
import StreamMerge.Proofs.Books
import StreamMerge.Proofs.Bypass
import StreamMerge.Proofs.Cancellation
import StreamMerge.Proofs.Coherence
import StreamMerge.Proofs.Collecting
import StreamMerge.Proofs.Columns
import StreamMerge.Proofs.Completion
import StreamMerge.Proofs.Consumer
import StreamMerge.Proofs.Course
import StreamMerge.Proofs.Custody
import StreamMerge.Proofs.Delivery
import StreamMerge.Proofs.Discipline
import StreamMerge.Proofs.Events
import StreamMerge.Proofs.Files
import StreamMerge.Proofs.Finality
import StreamMerge.Proofs.Gathering
import StreamMerge.Proofs.Gist
import StreamMerge.Proofs.Grammar
import StreamMerge.Proofs.Handles
import StreamMerge.Proofs.History
import StreamMerge.Proofs.Indifference
import StreamMerge.Proofs.Inlets
import StreamMerge.Proofs.Interleaving
import StreamMerge.Proofs.Lifecycle
import StreamMerge.Proofs.Listing
import StreamMerge.Proofs.Lossless
import StreamMerge.Proofs.Moves
import StreamMerge.Proofs.Pairing
import StreamMerge.Proofs.Preference
import StreamMerge.Proofs.Promptness
import StreamMerge.Proofs.ReadingOrder
import StreamMerge.Proofs.Records
import StreamMerge.Proofs.Repetition
import StreamMerge.Proofs.Requests
import StreamMerge.Proofs.Return
import StreamMerge.Proofs.Rotation
import StreamMerge.Proofs.RoundTrip
import StreamMerge.Proofs.Route
import StreamMerge.Proofs.Runs
import StreamMerge.Proofs.Seeking
import StreamMerge.Proofs.Shelves
import StreamMerge.Proofs.Sides
import StreamMerge.Proofs.Skipping
import StreamMerge.Proofs.Splitting
import StreamMerge.Proofs.Starvation
import StreamMerge.Proofs.Steps
import StreamMerge.Proofs.Supply
import StreamMerge.Proofs.Thrift
import StreamMerge.Proofs.Tokens
import StreamMerge.Proofs.Tolerance
import StreamMerge.Proofs.Transitions
import StreamMerge.Proofs.Trimming
import StreamMerge.Proofs.Uprightness
import StreamMerge.Proofs.Waiting
import StreamMerge.Proofs.Withdrawal
import StreamMerge.Session
import StreamMerge.Session.Move
import StreamMerge.Settings
import StreamMerge.Settings.Document
import StreamMerge.SettingsDirectory
import StreamMerge.SettingsError
import StreamMerge.Source
import StreamMerge.Source.Script
import StreamMerge.Strategy
import StreamMerge.Strategy.Alternate
import StreamMerge.Strategy.Interleave
import StreamMerge.Strategy.Pairing
import StreamMerge.Strategy.Rules
import StreamMerge.Text.Blank
import StreamMerge.Text.Combining
import StreamMerge.Text.Quoted
import StreamMerge.Text.Unprintable
import StreamMerge.Text.Utf8
import StreamMerge.Transition
