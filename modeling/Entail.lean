import Entail.Arena
import Entail.Binary64
import Entail.Bits
import Entail.Config
import Entail.Config.Params
import Entail.Config.Toml
import Entail.Context.Assert
import Entail.Context.Basic
import Entail.Context.Check
import Entail.Context.Encode
import Entail.Context.Gates
import Entail.Context.Model
import Entail.Context.Scopes
import Entail.Context.Simplify
import Entail.Context.Validate
import Entail.Doc
import Entail.Doc.Width
import Entail.Egraph.Basic
import Entail.Egraph.Decide
import Entail.Egraph.Explain
import Entail.Egraph.Merge
import Entail.Engine
import Entail.Failure
import Entail.Literal
import Entail.Model
import Entail.Model.Print
import Entail.Names
import Entail.Pool
import Entail.Proofs.Arena
import Entail.Proofs.Calls.Arguments
import Entail.Proofs.Context.Attached
import Entail.Proofs.Context.Blocking
import Entail.Proofs.Context.Coverage
import Entail.Proofs.Context.Definable
import Entail.Proofs.Context.Definitions
import Entail.Proofs.Context.Edits
import Entail.Proofs.Context.Eliminated
import Entail.Proofs.Context.Elimination
import Entail.Proofs.Context.Encodable
import Entail.Proofs.Context.Frame
import Entail.Proofs.Context.Gates
import Entail.Proofs.Context.Interrupt
import Entail.Proofs.Context.Journal
import Entail.Proofs.Context.Lockstep
import Entail.Proofs.Context.Moves
import Entail.Proofs.Context.Processed
import Entail.Proofs.Context.Production
import Entail.Proofs.Context.Pursuit
import Entail.Proofs.Context.Quantifiers
import Entail.Proofs.Context.Recycling
import Entail.Proofs.Context.References
import Entail.Proofs.Context.Refusals
import Entail.Proofs.Context.Runs
import Entail.Proofs.Context.Scopes
import Entail.Proofs.Context.Search
import Entail.Proofs.Context.SupportedRuns
import Entail.Proofs.Context.SupportedSearch
import Entail.Proofs.Context.Supports
import Entail.Proofs.Context.Termination
import Entail.Proofs.Context.Tidy
import Entail.Proofs.Context.TidyEncode
import Entail.Proofs.Context.TidyProcess
import Entail.Proofs.Context.TidyRuns
import Entail.Proofs.Context.TidySearch
import Entail.Proofs.Context.Typed
import Entail.Proofs.Context.TypedRuns
import Entail.Proofs.Context.Validation
import Entail.Proofs.Contexts
import Entail.Proofs.Egraph.Admits
import Entail.Proofs.Egraph.Build
import Entail.Proofs.Egraph.Classes
import Entail.Proofs.Egraph.Levels
import Entail.Proofs.Egraph.Merge
import Entail.Proofs.Egraph.Nodes
import Entail.Proofs.Egraph.Ordering
import Entail.Proofs.Egraph.Propagate
import Entail.Proofs.Egraph.Reached
import Entail.Proofs.Egraph.Reasons
import Entail.Proofs.Egraph.Restored
import Entail.Proofs.Egraph.Runs
import Entail.Proofs.Egraph.Settle
import Entail.Proofs.Egraph.Signatures
import Entail.Proofs.Egraph.Sufficient
import Entail.Proofs.Egraph.Sync
import Entail.Proofs.Egraph.Types
import Entail.Proofs.Egraph.Undo
import Entail.Proofs.Encoding.Allows
import Entail.Proofs.Encoding.Amends
import Entail.Proofs.Encoding.Atoms
import Entail.Proofs.Encoding.Bitvectors
import Entail.Proofs.Encoding.Clauses
import Entail.Proofs.Encoding.Conveyed
import Entail.Proofs.Encoding.Drafts
import Entail.Proofs.Encoding.Exact
import Entail.Proofs.Encoding.Exactness
import Entail.Proofs.Encoding.Hidden
import Entail.Proofs.Encoding.Readings
import Entail.Proofs.Encoding.Recast
import Entail.Proofs.Encoding.Runs
import Entail.Proofs.Encoding.Searches
import Entail.Proofs.Encoding.Soundness
import Entail.Proofs.Encoding.Terms
import Entail.Proofs.Encoding.Truths
import Entail.Proofs.Encoding.Warrants
import Entail.Proofs.Encoding.Words
import Entail.Proofs.Engine
import Entail.Proofs.Model
import Entail.Proofs.Model.Constructors
import Entail.Proofs.Model.Coverage
import Entail.Proofs.Model.Evaluation
import Entail.Proofs.Model.Operations
import Entail.Proofs.Model.Printing
import Entail.Proofs.Model.Substitution
import Entail.Proofs.Model.Valuation
import Entail.Proofs.Model.Values
import Entail.Proofs.Model.Words
import Entail.Proofs.Moves
import Entail.Proofs.Names
import Entail.Proofs.Quant.Inference
import Entail.Proofs.Quant.Instances
import Entail.Proofs.Quant.Match
import Entail.Proofs.Quant.Production
import Entail.Proofs.Quant.Tables
import Entail.Proofs.Quant.Types
import Entail.Proofs.Refusals
import Entail.Proofs.Search.Analyze
import Entail.Proofs.Search.Assertions
import Entail.Proofs.Search.Clauses
import Entail.Proofs.Search.Conflicts
import Entail.Proofs.Search.Courses
import Entail.Proofs.Search.Entailment
import Entail.Proofs.Search.Levels
import Entail.Proofs.Search.Loop
import Entail.Proofs.Search.Progress
import Entail.Proofs.Search.Propagate
import Entail.Proofs.Search.Restarts
import Entail.Proofs.Search.Runs
import Entail.Proofs.Search.Scopes
import Entail.Proofs.Search.State
import Entail.Proofs.Search.Trail
import Entail.Proofs.Search.Vocabulary
import Entail.Proofs.Search.Watches
import Entail.Proofs.Semantics
import Entail.Proofs.Store.Amounts
import Entail.Proofs.Store.Avoids
import Entail.Proofs.Store.Becomes
import Entail.Proofs.Store.Build
import Entail.Proofs.Store.Canonical
import Entail.Proofs.Store.Capture
import Entail.Proofs.Store.Carried
import Entail.Proofs.Store.Collect
import Entail.Proofs.Store.Costs
import Entail.Proofs.Store.Granted
import Entail.Proofs.Store.Handles
import Entail.Proofs.Store.Listing
import Entail.Proofs.Store.Made
import Entail.Proofs.Store.Marking
import Entail.Proofs.Store.Normal
import Entail.Proofs.Store.Orderly
import Entail.Proofs.Store.Runs
import Entail.Proofs.Store.Steady
import Entail.Proofs.Store.Subst
import Entail.Proofs.Store.Subterms
import Entail.Proofs.Store.Supported
import Entail.Proofs.Store.Types
import Entail.Proofs.Store.Untouched
import Entail.Proofs.Store.Wf
import Entail.Proofs.Store.Words
import Entail.Proofs.Structures
import Entail.Proofs.Tables
import Entail.Proofs.Valuations
import Entail.Proofs.Variables
import Entail.Proofs.Variables.Histories
import Entail.Quant.Match
import Entail.Quant.Pattern
import Entail.Quant.Solver
import Entail.Search.Analyze
import Entail.Search.Basic
import Entail.Search.Order
import Entail.Search.Propagate
import Entail.Search.Solve
import Entail.Session
import Entail.Session.Terms
import Entail.Status
import Entail.Store.Basic
import Entail.Store.Build
import Entail.Store.Collect
import Entail.Store.Explore
import Entail.Store.Print
import Entail.Store.Subst
import Entail.Term
import Entail.Theory.Registry
import Entail.Variables
