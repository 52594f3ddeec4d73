import Statechart.Definition.Compose
import Statechart.Definition.Json
import Statechart.Search.Adjacency
import Statechart.Search.Simple
import Statechart.Session.Calls
import Statechart.Proofs.Configuration.Reachable
import Statechart.Proofs.Selection.Maximal
import Statechart.Proofs.Entry.Defaults
import Statechart.Proofs.Macrostep.Taken
import Statechart.Proofs.Macrostep.Cycle
import Statechart.Proofs.Session.Lifetimes
import Statechart.Proofs.Session.Observed
import Statechart.Proofs.Session.Order
import Statechart.Proofs.Session.Delivery
import Statechart.Proofs.Search.Shortest
import Statechart.Proofs.Chart.Keys
import Statechart.Proofs.Json.Text
import Statechart.Proofs.Configuration.Value
import Statechart.Proofs.Search.Fingerprint
import Statechart.Proofs.Search.Live
import Statechart.Proofs.Configuration.Alternation
import Statechart.Proofs.Session.LifeCycle
import Statechart.Proofs.Session.Clock
import Statechart.Proofs.Session.Untimed
import Statechart.Proofs.Session.Splitting
import Statechart.Proofs.Configuration.Completion
import Statechart.Proofs.Macrostep.Microsteps
import Statechart.Proofs.Macrostep.Unchanged
import Statechart.Proofs.Macrostep.Announced
import Statechart.Proofs.Search.Recorded
import Statechart.Proofs.Session.Faithful
import Statechart.Proofs.Session.Prompt
import Statechart.Proofs.Bounds.Macrostep
import Statechart.Proofs.Bounds.Closed
import Statechart.Proofs.Bounds.Entry
import Statechart.Proofs.Search.Simple
import Statechart.Proofs.Search.Adjacency
import Statechart.Proofs.Search.Limit
import Statechart.Proofs.Session.Atomic
import Statechart.Proofs.Search.Separation
import Statechart.Proofs.Session.Path
import Statechart.Proofs.Definition.RoundTrip
import Statechart.Proofs.Snapshot.RoundTrip
import Statechart.Proofs.Configuration.Start
import Statechart.Proofs.Entry.Seeds
import Statechart.Proofs.Configuration.Independence
import Statechart.Proofs.Macrostep.Course
import Statechart.Proofs.Macrostep.Orders
import Statechart.Proofs.Configuration.Recall
import Statechart.Proofs.Configuration.Matches
import Statechart.Proofs.Session.Farewell
import Statechart.Proofs.Configuration.Unsplit
import Statechart.Proofs.Definition.Regroup
import Statechart.Proofs.Chart.Regroup
import Statechart.Proofs.Chart.Renumbered
import Statechart.Proofs.Macrostep.Renumbered
import Statechart.Proofs.Session.Shadow
import Statechart.Proofs.Session.Gathered
import Statechart.Proofs.Chart.Offered
import Statechart.Proofs.Chart.Target
import Statechart.Proofs.Macrostep.Internal
import Statechart.Proofs.Search.Duplicates
import Statechart.Proofs.Journal
import Statechart.Proofs.Chart.Preorder
import Statechart.Proofs.Session.Paced
