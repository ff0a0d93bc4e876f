import SchemaAtlas.CommandLine.FileTree
import SchemaAtlas.CommandLine.Run
import SchemaAtlas.Main
import SchemaAtlas.Loading
import SchemaAtlas.Merge
import SchemaAtlas.ReferenceGraph
import SchemaAtlas.Schema.Access
import SchemaAtlas.Schema.Debug
import SchemaAtlas.Schema.Outline
import SchemaAtlas.Schema.Render
import SchemaAtlas.Toml.Writer
import SchemaAtlas.Proofs.Graph.Resolved
import SchemaAtlas.Proofs.Graph.Cycles
import SchemaAtlas.Proofs.Graph.Sharing
import SchemaAtlas.Proofs.Graph.Drafts
import SchemaAtlas.Proofs.Graph.Identified
import SchemaAtlas.Proofs.Draft.Conservative
import SchemaAtlas.Proofs.Merge.Kept
import SchemaAtlas.Proofs.Loading.Strictness
import SchemaAtlas.Proofs.Loading.Termination
import SchemaAtlas.Proofs.Render.Identity
import SchemaAtlas.Proofs.Loading.Commit
import SchemaAtlas.Proofs.Lookup.Navigated
import SchemaAtlas.Proofs.Graph.Placed
import SchemaAtlas.Proofs.Spelling.Independence
import SchemaAtlas.Proofs.History.Independence
import SchemaAtlas.Proofs.Merge.Commute
import SchemaAtlas.Proofs.Render.Conforming
import SchemaAtlas.Proofs.Merge.Twice
import SchemaAtlas.Proofs.Merge.Verdict
import SchemaAtlas.Proofs.Merge.Named
import SchemaAtlas.Proofs.Render.Offered
import SchemaAtlas.Proofs.Loading.Anew
import SchemaAtlas.Proofs.Loading.Recollect
import SchemaAtlas.Proofs.Loading.Addressed
import SchemaAtlas.Proofs.Loading.Candid
import SchemaAtlas.Proofs.Render.Limits
import SchemaAtlas.Proofs.ReferenceGraph.Exact
import SchemaAtlas.Proofs.Graph.Chains
import SchemaAtlas.Proofs.Pointer.Derived
import SchemaAtlas.Proofs.Lookup.Evaluated
import SchemaAtlas.Proofs.Graph.Segments
import SchemaAtlas.Proofs.Store.Answers
import SchemaAtlas.Proofs.Schema.Reidentified
import SchemaAtlas.Proofs.Loading.Counts
import SchemaAtlas.Proofs.Graph.Named
import SchemaAtlas.Proofs.Loading.Balanced
import SchemaAtlas.Proofs.Render.Views
import SchemaAtlas.Proofs.Schema.Loaded
