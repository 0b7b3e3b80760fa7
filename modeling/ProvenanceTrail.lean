import ProvenanceTrail.Proofs.Address.Folding
import ProvenanceTrail.Proofs.Address.Segments
import ProvenanceTrail.Proofs.Condition.Completeness
import ProvenanceTrail.Proofs.Condition.Counting
import ProvenanceTrail.Proofs.Condition.Fields
import ProvenanceTrail.Proofs.Condition.Laws
import ProvenanceTrail.Proofs.Condition.SearchTrees
import ProvenanceTrail.Proofs.Condition.Subgraphs
import ProvenanceTrail.Proofs.Federation.Routing
import ProvenanceTrail.Proofs.Graph.GeneralConnector
import ProvenanceTrail.Proofs.Graph.LinearPath
import ProvenanceTrail.Proofs.Graph.Name
import ProvenanceTrail.Proofs.Graph.Reach
import ProvenanceTrail.Proofs.Query.Connectors
import ProvenanceTrail.Proofs.Query.Exchange
import ProvenanceTrail.Proofs.Regex.WholeInputs
import ProvenanceTrail.Proofs.Search.Containment
import ProvenanceTrail.Proofs.Search.Failures
import ProvenanceTrail.Proofs.Search.Fetches
import ProvenanceTrail.Proofs.Search.Layout
import ProvenanceTrail.Proofs.Search.Loop
import ProvenanceTrail.Proofs.Search.Redirects
import ProvenanceTrail.Proofs.Search.Reporting
import ProvenanceTrail.Proofs.Search.Shown
import ProvenanceTrail.Proofs.Search.HeapQueue
import ProvenanceTrail.Proofs.Search.Ties
import ProvenanceTrail.Proofs.Search.VisitLimit
import ProvenanceTrail.Proofs.Trust.Digests
import ProvenanceTrail.Proofs.Trust.IssuedSignatures
import ProvenanceTrail.Proofs.Trust.Recency
import ProvenanceTrail.Proofs.Version.Resolution
import ProvenanceTrail.Service.Routes
