import QueryGuard.CommandLine.FileTree
import QueryGuard.Criterion.Membership
import QueryGuard.Criterion.Template
import QueryGuard.Main
import QueryGuard.Proofs.Rewriting.Reachable
import QueryGuard.Proofs.Engine.Guarded
import QueryGuard.Proofs.Siblings.Adoption
import QueryGuard.Proofs.Rewriting.Preservation
import QueryGuard.Proofs.Binding.Performing
import QueryGuard.Proofs.Binding.Relabeling
import QueryGuard.Proofs.Criterion.Agreeing
import QueryGuard.Proofs.Engine.Lacking
import QueryGuard.Proofs.Engine.Values
import QueryGuard.Proofs.Engine.Completing
import QueryGuard.Proofs.Engine.Isolation
import QueryGuard.Proofs.Grammar.Deciding
import QueryGuard.Proofs.Grammar.Limits
import QueryGuard.Proofs.Places.Enumeration
import QueryGuard.Proofs.Places.Reparsing
import QueryGuard.Proofs.Rewriting.Continuing
import QueryGuard.Proofs.Engine.Accounting
import QueryGuard.Proofs.Engine.Stability
import QueryGuard.Proofs.Criterion.Policies
import QueryGuard.Proofs.Lexing.Tiling
import QueryGuard.Proofs.Lexing.Spacing
import QueryGuard.Proofs.Reading.Bracketing
import QueryGuard.Proofs.Renaming.Fresh
import QueryGuard.Proofs.Projection.Collections
import QueryGuard.Proofs.Engine.Precedence
import QueryGuard.Proofs.Rewriting.Conflicts
import QueryGuard.Proofs.Rewriting.Typing
import QueryGuard.Proofs.Rewriting.Repetition
import QueryGuard.Proofs.Parameter.Uuids
import QueryGuard.Proofs.Catalog.Composition
import QueryGuard.Proofs.Criterion.Readable
import QueryGuard.Proofs.Siblings.Numbering
import QueryGuard.Proofs.Text.Carets
import QueryGuard.Proofs.Reading.Constructed
import QueryGuard.Proofs.Reading.Decimals
import QueryGuard.Proofs.Walks
