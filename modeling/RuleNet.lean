import RuleNet.Accumulator
import RuleNet.Agenda
import RuleNet.Data.Entries
import RuleNet.Data.Keyed
import RuleNet.Document.Basic
import RuleNet.Document.Stored
import RuleNet.Error
import RuleNet.Fact.Basic
import RuleNet.Fact.Binding
import RuleNet.Fact.Schema
import RuleNet.Matching.Facts
import RuleNet.Matching.Memory
import RuleNet.Matching.Propagate
import RuleNet.Network.Branch
import RuleNet.Network.Build
import RuleNet.Network.Graph
import RuleNet.Network.Scope
import RuleNet.Network.Test
import RuleNet.Number.Binary64
import RuleNet.Number.Power
import RuleNet.Number.Shortest
import RuleNet.Query.Plan
import RuleNet.Query.Rows
import RuleNet.Registry
import RuleNet.Rule.Action
import RuleNet.Rule.Condition
import RuleNet.Rule.Defect
import RuleNet.Rule.Definition
import RuleNet.Rule.Operator
import RuleNet.Rule.Pattern
import RuleNet.Rule.Temporal
import RuleNet.RuleBase
import RuleNet.Session.Basic
import RuleNet.Session.Fire
import RuleNet.Session.Mailbox
import RuleNet.Session.Operations
import RuleNet.Session.Stateless
import RuleNet.Settings
import RuleNet.Settings.File
import RuleNet.Text.Blank
import RuleNet.Text.Visible
import RuleNet.Time.Clock
import RuleNet.Time.Instant
import RuleNet.Time.Span
import RuleNet.Toml.Document
import RuleNet.Toml.Scalar
import RuleNet.Toml.Table
import RuleNet.Toml.Text
import RuleNet.Value.Basic
import RuleNet.Value.Equality
import RuleNet.Value.Literal
import RuleNet.Value.Order
import RuleNet.Value.Text
import RuleNet.WorkingMemory
import RuleNet.Proofs.Data.Filing
import RuleNet.Proofs.Matching.Match
import RuleNet.Proofs.Accumulator
import RuleNet.Proofs.Matching.Arrive
import RuleNet.Proofs.Matching.Assert
import RuleNet.Proofs.Matching.Rest
import RuleNet.Proofs.Matching.Update
import RuleNet.Proofs.Network.Build
import RuleNet.Proofs.Condition.Normalize
import RuleNet.Proofs.Network.Compile
import RuleNet.Proofs.Session.Evaluation
import RuleNet.Proofs.Session.Unique
import RuleNet.Proofs.Matching.Stock
import RuleNet.Proofs.Matching.Works
import RuleNet.Proofs.Matching.Shelf
import RuleNet.Proofs.Value.Zeros
import RuleNet.Proofs.Session.Abreast
import RuleNet.Proofs.Session.Timely
import RuleNet.Proofs.Session.Order
import RuleNet.Proofs.Session.Turns
import RuleNet.Proofs.Session.Exact
import RuleNet.Proofs.Session.Newest
import RuleNet.Proofs.Session.Latest
import RuleNet.Proofs.Network.Sketch
import RuleNet.Proofs.Network.Access
import RuleNet.Proofs.Session.Waiting
import RuleNet.Proofs.Network.Drawn
import RuleNet.Proofs.Query.Outline
import RuleNet.Proofs.Network.Dispatch
import RuleNet.Proofs.Network.Carried
import RuleNet.Proofs.Matching.Signs
import RuleNet.Proofs.Network.Agreement
import RuleNet.Proofs.Network.Answered
import RuleNet.Proofs.Session.References
import RuleNet.Proofs.Session.Policies
import RuleNet.Proofs.Query.Twins
import RuleNet.Proofs.Query.Variables
import RuleNet.Proofs.Query.Rows
import RuleNet.Proofs.Query.Planned
import RuleNet.Proofs.Query.Matched
import RuleNet.Proofs.Network.Sharing
import RuleNet.Proofs.Session.Lockstep
import RuleNet.Proofs.Session.Complement
import RuleNet.Proofs.Matching.Spare
import RuleNet.Proofs.Matching.Prune
import RuleNet.Proofs.Matching.Shift
import RuleNet.Proofs.Matching.Turning
import RuleNet.Proofs.Matching.Settling
import RuleNet.Proofs.Matching.Course
import RuleNet.Proofs.Conflict
import RuleNet.Proofs.Session.Acting
import RuleNet.Proofs.Session.Refusal
import RuleNet.Proofs.Session.Cycle
import RuleNet.Proofs.Session.Overdue
import RuleNet.Proofs.Query.Synchronized
import RuleNet.Proofs.Session.Alone
import RuleNet.Proofs.Session.Settled
import RuleNet.Proofs.Session.Pause
import RuleNet.Proofs.Session.NoLoop
import RuleNet.Proofs.Session.Journal
import RuleNet.Proofs.Session.Elapse
import RuleNet.Session.Service
import RuleNet.Proofs.Session.Service
import RuleNet.Proofs.Session.Underway
import RuleNet.Proofs.Session.Focus
import RuleNet.Proofs.Session.Captured
import RuleNet.Proofs.Books
import RuleNet.Proofs.Drain
import RuleNet.Proofs.Fact.Digest
import RuleNet.Proofs.WorkingMemory
import RuleNet.Proofs.Session.Coalesced
import RuleNet.Proofs.Value.Linear
import RuleNet.Proofs.Rule.Operator
import RuleNet.Proofs.Number.Rounding
import RuleNet.Proofs.Accumulator.Rescan
import RuleNet.Proofs.Accumulator.Trace
import RuleNet.Proofs.Document.Passage
import RuleNet.Proofs.Query.Cursor
import RuleNet.Proofs.Rule.Temporal
import RuleNet.Proofs.Matching.Granted
import RuleNet.Proofs.Query.Asked
import RuleNet.Proofs.Network.Diagnosis
import RuleNet.Proofs.Session.Life
import RuleNet.Proofs.Session.Stream
import RuleNet.Proofs.Session.Halting
