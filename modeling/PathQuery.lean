import PathQuery.Rule.Plain
import PathQuery.Pipeline.Text
import PathQuery.Log
import PathQuery.Proofs.Outcome
import PathQuery.Proofs.Locality
import PathQuery.Proofs.Entries
import PathQuery.Proofs.Pinned
import PathQuery.Proofs.Limit
import PathQuery.Proofs.Nesting
import PathQuery.Proofs.Opaque
import PathQuery.Proofs.Literal
import PathQuery.Proofs.Running
import PathQuery.Proofs.Meaning
import PathQuery.Proofs.Compositional
import PathQuery.Proofs.Receiver
import PathQuery.Proofs.Scoping
import PathQuery.Proofs.Projection
import PathQuery.Proofs.Noting
import PathQuery.Proofs.Supported
import PathQuery.Proofs.Closed
import PathQuery.Proofs.Renaming
import PathQuery.Proofs.Numbering
import PathQuery.Proofs.Conversion
import PathQuery.Proofs.ReadBack
import PathQuery.Proofs.Rendering
import PathQuery.Proofs.MixedOrder
import PathQuery.Proofs.OrderFree
import PathQuery.Proofs.Surroundings
import PathQuery.Proofs.CheckedForms
import PathQuery.Proofs.Cuts
import PathQuery.Proofs.Alternatives
import PathQuery.Proofs.Bracketed
import PathQuery.Proofs.Flattening
import PathQuery.Proofs.OpenScopes
import PathQuery.Proofs.Parentheses
import PathQuery.Proofs.Report
