import ManagementPlane.Value.Parser
import ManagementPlane.Operation.Response
import ManagementPlane.Resource.Populate
import ManagementPlane.Tree.Transaction
import ManagementPlane.ProcessState
import ManagementPlane.Prepared
import ManagementPlane.Attachments
import ManagementPlane.Workers.Container
import ManagementPlane.Registration.Describe
import ManagementPlane.Machine.Session
import ManagementPlane.Declaration.Controller
import ManagementPlane.Declaration.Request
import ManagementPlane.Proofs.Model.Equality
import ManagementPlane.Proofs.Model.View
import ManagementPlane.Proofs.Value.Scalars
import ManagementPlane.Proofs.Value.RoundTrip
import ManagementPlane.Proofs.Model.ThreeWay
import ManagementPlane.Proofs.Model.Staged
import ManagementPlane.Proofs.Model.History
import ManagementPlane.Proofs.Model.Lock
import ManagementPlane.Proofs.Pipeline.Changes
import ManagementPlane.Proofs.Pipeline.Frame
import ManagementPlane.Proofs.Pipeline.Agenda
import ManagementPlane.Proofs.Machine.Turns
import ManagementPlane.Proofs.Machine.Course
import ManagementPlane.Proofs.Machine.Lived
import ManagementPlane.Proofs.Machine.Ending
import ManagementPlane.Proofs.Machine.Steady
import ManagementPlane.Proofs.Machine.Atomic
import ManagementPlane.Proofs.Proxied.Custody
import ManagementPlane.Proofs.Proxied.Reports
import ManagementPlane.Proofs.Proxied.Handing
import ManagementPlane.Proofs.Proxied.Deals
import ManagementPlane.Proofs.Proxied.Tasks
import ManagementPlane.Proofs.Proxied.Stances
import ManagementPlane.Proofs.Proxied.Stories
import ManagementPlane.Proofs.Proxied.Ledger
import ManagementPlane.Proofs.Proxied.World
import ManagementPlane.Proofs.Proxied.Locks
import ManagementPlane.Proofs.Proxied.Runs
import ManagementPlane.Proofs.Proxied.TwoPhase
import ManagementPlane.Proofs.Proxied.Stagewise
import ManagementPlane.Proofs.Machine.Violations
import ManagementPlane.Proofs.Transport.Leaving
import ManagementPlane.Proofs.Global.Local
import ManagementPlane.Proofs.Global.Work
import ManagementPlane.Proofs.Global.Upshot
import ManagementPlane.Proofs.Global.Alone
import ManagementPlane.Proofs.Global.Sequence
import ManagementPlane.Proofs.Model.Conflicts
import ManagementPlane.Proofs.Model.Merging
import ManagementPlane.Proofs.Model.Conformance
import ManagementPlane.Proofs.Global.Preserving
import ManagementPlane.Proofs.Global.Editing
import ManagementPlane.Proofs.Machine.Transitions
import ManagementPlane.Proofs.Machine.Fair
import ManagementPlane.Proofs.Machine.Clings
import ManagementPlane.Proofs.Machine.Grasps
import ManagementPlane.Proofs.Machine.Intent
import ManagementPlane.Proofs.Machine.Stages
import ManagementPlane.Proofs.Machine.Discipline
import ManagementPlane.Proofs.Machine.Publishing
import ManagementPlane.Proofs.Workers.Mirror
import ManagementPlane.Proofs.Workers.Steps
import ManagementPlane.Proofs.Workers.Serving
import ManagementPlane.Proofs.Workers.Exact
import ManagementPlane.Proofs.Workers.Serial
import ManagementPlane.Proofs.Proxied.Linked
import ManagementPlane.Proofs.Proxied.Lockstep
import ManagementPlane.Proofs.Proxied.Stable
import ManagementPlane.Proofs.Proxied.Kinship
import ManagementPlane.Proofs.Proxied.Wards
import ManagementPlane.Proofs.Proxied.Entrusted
import ManagementPlane.Proofs.Proxied.Overruled
import ManagementPlane.Proofs.Proxied.Cancellation
import ManagementPlane.Proofs.Value.Paths
import ManagementPlane.Proofs.Registration.Building
import ManagementPlane.Proofs.Registration.InPlace
import ManagementPlane.Proofs.Registration.Resolving
import ManagementPlane.Proofs.Registration.Naming
import ManagementPlane.Proofs.Registration.Refusing
import ManagementPlane.Proofs.Global.Answering
import ManagementPlane.Proofs.Global.Rendered
import ManagementPlane.Proofs.Global.Reading
import ManagementPlane.Proofs.Global.Described
import ManagementPlane.Proofs.Global.Describing
import ManagementPlane.Proofs.Proxied.Asking
import ManagementPlane.Proofs.Proxied.Inquiring
import ManagementPlane.Proofs.Proxied.Inquired
import ManagementPlane.Proofs.Proxied.Pursued
import ManagementPlane.Proofs.Proxied.Splicing
import ManagementPlane.Proofs.Model.Locking
import ManagementPlane.Proofs.Prepared.Clones
import ManagementPlane.Proofs.Model.Refused
import ManagementPlane.Proofs.Model.Extensional
import ManagementPlane.Proofs.Model.Agreement
import ManagementPlane.Proofs.Proxied.Asleep
import ManagementPlane.Proofs.Proxied.Destined
import ManagementPlane.Proofs.Proxied.Winding
import ManagementPlane.Proofs.Proxied.Company
import ManagementPlane.Proofs.Proxied.Rest
import ManagementPlane.Proofs.Proxied.Chain
import ManagementPlane.Proofs.Proxied.Preparing
import ManagementPlane.Proofs.Proxied.Arriving
import ManagementPlane.Proofs.Proxied.Descending
import ManagementPlane.Proofs.Proxied.Confined
import ManagementPlane.Proofs.Proxied.Foretold
import ManagementPlane.Proofs.Proxied.Predicting
import ManagementPlane.Proofs.Address.Canonical
import ManagementPlane.Proofs.Address.Patterns
import ManagementPlane.Proofs.Workers.KeepAlive
import ManagementPlane.Proofs.Transport.Courier
import ManagementPlane.Proofs.Transport.Answers
import ManagementPlane.Proofs.Global.Slots
import ManagementPlane.Proofs.Machine.Responses
import ManagementPlane.Proofs.Machine.Collecting
import ManagementPlane.Proofs.Machine.Blame
