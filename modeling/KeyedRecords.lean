import KeyedRecords.Arguments
import KeyedRecords.Assoc
import KeyedRecords.Attribute
import KeyedRecords.Counters
import KeyedRecords.Cursor
import KeyedRecords.Deployment.Config
import KeyedRecords.Deployment.Description
import KeyedRecords.Deployment.Exchange
import KeyedRecords.Deployment.Plan
import KeyedRecords.Deployment.Procedure
import KeyedRecords.Endpoint
import KeyedRecords.Error
import KeyedRecords.Identifier
import KeyedRecords.Json
import KeyedRecords.Key.Basic
import KeyedRecords.Key.Defaulted
import KeyedRecords.Key.Strategy
import KeyedRecords.Key.Template
import KeyedRecords.Layout
import KeyedRecords.Model
import KeyedRecords.Number.Basic
import KeyedRecords.Number.Binary64
import KeyedRecords.Number.Reader
import KeyedRecords.Number.Shortest
import KeyedRecords.Projection
import KeyedRecords.Proofs.Attribute
import KeyedRecords.Proofs.Attribute.Lossless
import KeyedRecords.Proofs.Attribute.Path
import KeyedRecords.Proofs.Attribute.Precision
import KeyedRecords.Proofs.Attribute.Readable
import KeyedRecords.Proofs.Counters.Accumulate
import KeyedRecords.Proofs.Counters.AccumulateAll
import KeyedRecords.Proofs.Counters.Added
import KeyedRecords.Proofs.Counters.Exact
import KeyedRecords.Proofs.Counters.Increment
import KeyedRecords.Proofs.Counters.Join
import KeyedRecords.Proofs.Counters.Merge
import KeyedRecords.Proofs.Counters.Outcome
import KeyedRecords.Proofs.Counters.Raise
import KeyedRecords.Proofs.Counters.Total
import KeyedRecords.Proofs.Cursor
import KeyedRecords.Proofs.Deployment.Answers
import KeyedRecords.Proofs.Deployment.Config
import KeyedRecords.Proofs.Deployment.KeyAttributes
import KeyedRecords.Proofs.Deployment.Log
import KeyedRecords.Proofs.Deployment.Resuming
import KeyedRecords.Proofs.Deployment.Serial
import KeyedRecords.Proofs.Identifier
import KeyedRecords.Proofs.Key.Coverage
import KeyedRecords.Proofs.Key.Grammar
import KeyedRecords.Proofs.Key.Separation
import KeyedRecords.Proofs.Key.Template
import KeyedRecords.Proofs.Layout
import KeyedRecords.Proofs.Lists
import KeyedRecords.Proofs.Number.Digits
import KeyedRecords.Proofs.Number.FloatText
import KeyedRecords.Proofs.Number.Nearest
import KeyedRecords.Proofs.Number.Rounding
import KeyedRecords.Proofs.Number.Shortest
import KeyedRecords.Proofs.Projection
import KeyedRecords.Proofs.Query.Conflict
import KeyedRecords.Proofs.Query.Filter
import KeyedRecords.Proofs.Query.Found
import KeyedRecords.Proofs.Query.FullKey
import KeyedRecords.Proofs.Query.Paging
import KeyedRecords.Proofs.Query.Resuming
import KeyedRecords.Proofs.Query.SortFilter
import KeyedRecords.Proofs.Records.Conservation
import KeyedRecords.Proofs.Records.Creation
import KeyedRecords.Proofs.Records.Deleting
import KeyedRecords.Proofs.Records.Findable
import KeyedRecords.Proofs.Records.Keyed
import KeyedRecords.Proofs.Records.Listing
import KeyedRecords.Proofs.Records.Map
import KeyedRecords.Proofs.Records.Neighbours
import KeyedRecords.Proofs.Records.Operations
import KeyedRecords.Proofs.Records.Origins
import KeyedRecords.Proofs.Records.Overriding
import KeyedRecords.Proofs.Records.Owned
import KeyedRecords.Proofs.Records.PageRun
import KeyedRecords.Proofs.Records.PointRead
import KeyedRecords.Proofs.Records.Reached
import KeyedRecords.Proofs.Records.Requests
import KeyedRecords.Proofs.Records.Simulation
import KeyedRecords.Proofs.Records.Tidy
import KeyedRecords.Proofs.Records.Validation
import KeyedRecords.Proofs.Schema.Conforming
import KeyedRecords.Proofs.Schema.Normal
import KeyedRecords.Proofs.Schema.Overriding
import KeyedRecords.Proofs.Schema.Partial
import KeyedRecords.Proofs.Schema.Revision
import KeyedRecords.Proofs.Schema.Rewriting
import KeyedRecords.Proofs.Schema.RoundTrip
import KeyedRecords.Proofs.Schema.Unreadable
import KeyedRecords.Proofs.Service.Value
import KeyedRecords.Proofs.Store.Alongside
import KeyedRecords.Proofs.Store.Answer
import KeyedRecords.Proofs.Store.Asking
import KeyedRecords.Proofs.Store.Counting
import KeyedRecords.Proofs.Store.History
import KeyedRecords.Proofs.Store.Interleaving
import KeyedRecords.Proofs.Store.Partition
import KeyedRecords.Proofs.Store.Placement
import KeyedRecords.Proofs.Store.Run
import KeyedRecords.Proofs.Table.Accumulating
import KeyedRecords.Proofs.Table.Agreement
import KeyedRecords.Proofs.Table.Failing
import KeyedRecords.Proofs.Table.Incrementing
import KeyedRecords.Proofs.Table.Querying
import KeyedRecords.Proofs.Table.Returned
import KeyedRecords.Proofs.Table.Streaming
import KeyedRecords.Proofs.Table.Updating
import KeyedRecords.Proofs.Text.Base64
import KeyedRecords.Proofs.Text.Order
import KeyedRecords.Proofs.Text.Split
import KeyedRecords.Proofs.Text.Timestamp
import KeyedRecords.Proofs.Text.Utf8
import KeyedRecords.Proofs.Update.Expression
import KeyedRecords.Proofs.Update.Keys
import KeyedRecords.Proofs.Update.Leaves
import KeyedRecords.Proofs.Update.Nested
import KeyedRecords.Proofs.Update.Overlay
import KeyedRecords.Proofs.Update.Readable
import KeyedRecords.Proofs.Update.Separate
import KeyedRecords.Proofs.Update.Texts
import KeyedRecords.Query.Basic
import KeyedRecords.Query.Condition
import KeyedRecords.Query.Filter
import KeyedRecords.Records.Basic
import KeyedRecords.Records.Listing
import KeyedRecords.Schema.Basic
import KeyedRecords.Schema.Encoding
import KeyedRecords.Service.BodyType
import KeyedRecords.Service.Request
import KeyedRecords.Service.Response
import KeyedRecords.Service.Value
import KeyedRecords.Store.Call
import KeyedRecords.Store.Contents
import KeyedRecords.Store.Faults
import KeyedRecords.Store.Memory
import KeyedRecords.Store.Program
import KeyedRecords.Table
import KeyedRecords.Text.Base64
import KeyedRecords.Text.Blank
import KeyedRecords.Text.Quoted
import KeyedRecords.Text.Split
import KeyedRecords.Text.Timestamp
import KeyedRecords.Text.Unprintable
import KeyedRecords.Text.Utf8
import KeyedRecords.Update.Application
import KeyedRecords.Update.Basic
import KeyedRecords.Update.Expression

/-! Records and counters kept by key in a table of items.

Keys are made of templates over the fields of a record, and filters become queries of one partition. Commands on records
(`Records`) and on tables (`Table`) are programs over a store: one in memory, or a service that is asked in JSON. Plans
bring the tables of the service into being. The modules under `Proofs` hold what is true of these programs, on every
run. -/
