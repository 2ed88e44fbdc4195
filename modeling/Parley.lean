import Parley.Conversation.Host
import Parley.Event.Bus
import Parley.Main
import Parley.Proofs.Conversation.Pointers
import Parley.Proofs.Conversation.Variables
import Parley.Proofs.Expr.RoundTrip
import Parley.Proofs.Expr.Unambiguous
import Parley.Save.Folder
import Parley.Settings
import Parley.Store.View
import Parley.Proofs.Body.Accepted
import Parley.Proofs.Body.Drafts
import Parley.Proofs.Body.Embedded
import Parley.Proofs.Body.Scripts
import Parley.Proofs.Event.Delivery
import Parley.Proofs.Store.Course
import Parley.Proofs.Store.Dictionary
import Parley.Proofs.Store.Harmless
import Parley.Proofs.Body.InStep
import Parley.Proofs.Conversation.Apart
import Parley.Proofs.Conversation.Assignments
import Parley.Proofs.Conversation.Lifecycle
import Parley.Proofs.Body.Acceptance
import Parley.Proofs.Body.Numbering
import Parley.Proofs.Body.Orderly
import Parley.Proofs.Body.ReplyIds
import Parley.Proofs.Body.ReplyOrder
import Parley.Proofs.Body.RoundTrip
import Parley.Proofs.Save.Checksum
import Parley.Proofs.Save.Latest
import Parley.Proofs.Dialogue.RoundTrip
import Parley.Proofs.Body.Final
import Parley.Proofs.Body.Markers
import Parley.Proofs.Body.Unclosed
import Parley.Proofs.Dialogue.Separate
import Parley.Proofs.Expr.Operations
import Parley.Proofs.Expr.Escapes
import Parley.Proofs.Expr.Frame
import Parley.Proofs.Expr.Stops
import Parley.Proofs.Body.Located
import Parley.Proofs.Body.Counting
import Parley.Proofs.Body.Faults
import Parley.Proofs.Body.ReplyScripts
import Parley.Proofs.Body.References
import Parley.Proofs.Conversation.Failed
import Parley.Proofs.Body.Options
import Parley.Proofs.Body.Layouts
import Parley.Proofs.Value.Equality
import Parley.Proofs.Random.Intervals
import Parley.Proofs.Body.Tiling
import Parley.Proofs.Template.Meaning
import Parley.Proofs.Body.Trimming
import Parley.Proofs.Library.Agreement
