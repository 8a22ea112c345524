import Orchestration.Breadcrumb
import Orchestration.CommandLine.Basic
import Orchestration.CommandLine.Folder
import Orchestration.CommandLine.Options
import Orchestration.Decimal.Basic
import Orchestration.Decimal.Notation
import Orchestration.Decimal.Rounding
import Orchestration.Decimal.Shortest
import Orchestration.Definition.Basic
import Orchestration.Definition.Dependency
import Orchestration.Definition.Freeze
import Orchestration.Digest
import Orchestration.Digest.Bytes
import Orchestration.Digest.MD5
import Orchestration.Digest.SHA1
import Orchestration.Digest.SHA2
import Orchestration.Digest.SipHash
import Orchestration.Document.Line
import Orchestration.Document.Reader
import Orchestration.Document.Token
import Orchestration.Error
import Orchestration.Fields
import Orchestration.Function.Build
import Orchestration.Function.Collection
import Orchestration.Function.Intrinsic
import Orchestration.Function.Loop
import Orchestration.Function.Member
import Orchestration.Function.Registry
import Orchestration.Function.Writing
import Orchestration.Json.Numeral
import Orchestration.Json.Reader
import Orchestration.Json.Token
import Orchestration.Json.Writer
import Orchestration.Main
import Orchestration.Migration.Apply
import Orchestration.Migration.Basic
import Orchestration.Migration.Kind
import Orchestration.Migration.Path
import Orchestration.Migration.Rule
import Orchestration.Migration.Tables
import Orchestration.Properties.Basic
import Orchestration.Properties.View
import Orchestration.Resource.Live
import Orchestration.Snippet.Basic
import Orchestration.Snippet.Parser
import Orchestration.Stack.Basic
import Orchestration.Stack.Enabled
import Orchestration.Stack.Evaluation
import Orchestration.Stack.Inquiry
import Orchestration.Stack.Memo
import Orchestration.Stack.Rendering
import Orchestration.Stack.Validation
import Orchestration.Template.Basic
import Orchestration.Template.Definitions
import Orchestration.Template.Parameters
import Orchestration.Text.Blank
import Orchestration.Text.Indent
import Orchestration.Text.Numeral
import Orchestration.Text.Pieces
import Orchestration.Text.Substitution
import Orchestration.Value.Basic
import Orchestration.Value.Fingerprint
import Orchestration.Value.Path
import Orchestration.Version.Basic
import Orchestration.Version.Detect
import Orchestration.Proofs.Conditions.Circularity
import Orchestration.Proofs.Migration.Preservation
import Orchestration.Proofs.Migration.ReadOrder
import Orchestration.Proofs.Snippets.Calls
import Orchestration.Proofs.References.Names
import Orchestration.Proofs.References.Attributes
import Orchestration.Proofs.Contracts
import Orchestration.Proofs.References.Closed
import Orchestration.Proofs.Snippets.Reading
import Orchestration.Proofs.Snippets.Made
import Orchestration.Proofs.References.Noninterference
import Orchestration.Proofs.Validation.Supported
import Orchestration.Proofs.Validation.Offered
import Orchestration.Proofs.Snippets.Bare
import Orchestration.Proofs.Snippets.RoundTrip
import Orchestration.Proofs.Sorting
import Orchestration.Proofs.Fields
import Orchestration.Proofs.Migration.Precedence
import Orchestration.Proofs.Migration.Missing
import Orchestration.Proofs.Evaluation
import Orchestration.Proofs.Definitions.Freezing
import Orchestration.Proofs.Text.Substitution
import Orchestration.Proofs.Values.Alike
import Orchestration.Proofs.Values.Results
import Orchestration.Proofs.Values.Collections
import Orchestration.Proofs.Values.Equivalence
import Orchestration.Proofs.Values.Fingerprints
import Orchestration.Proofs.Values.Writing
import Orchestration.Proofs.Values.Loops
import Orchestration.Proofs.Equality.Arguments
import Orchestration.Proofs.Equality.Functions
import Orchestration.Proofs.Equality.Ordered
import Orchestration.Proofs.Equality.Sections
import Orchestration.Proofs.Snippets.Foreign
import Orchestration.Proofs.Definitions.Retention
import Orchestration.Proofs.Migration.Declarations
import Orchestration.Proofs.Migration.Alike
import Orchestration.Proofs.Migration.Still
import Orchestration.Proofs.Migration.Clients
import Orchestration.Proofs.Migration.Offline
import Orchestration.Proofs.Migration.Indexes
import Orchestration.Proofs.Conditions.Negation
import Orchestration.Proofs.Definitions.Rereading
import Orchestration.Proofs.Definitions.Enabling
import Orchestration.Proofs.Migration.Nesting
import Orchestration.Proofs.Snippets.Outcomes
import Orchestration.Proofs.Snippets.Inlining
import Orchestration.Proofs.Snippets.Places
import Orchestration.Proofs.Validation.Admission
import Orchestration.Proofs.Validation.Places
import Orchestration.Proofs.Values.Places
import Orchestration.Proofs.Migration.Promises
import Orchestration.Proofs.Migration.Reach
import Orchestration.Proofs.Migration.Deletion
import Orchestration.Proofs.Migration.Listing
import Orchestration.Proofs.Migration.Replacing
import Orchestration.Proofs.Text.Segments
import Orchestration.Proofs.Text.InTurn
import Orchestration.Proofs.Functions.Replacement
import Orchestration.Proofs.Functions.Loops
import Orchestration.Proofs.Functions.Verbatim
import Orchestration.Proofs.Parameters
import Orchestration.Proofs.Text.Numerals
import Orchestration.Proofs.Text.Pieces
import Orchestration.Proofs.Functions.Renaming
import Orchestration.Proofs.Functions.Members
import Orchestration.Proofs.Functions.Splitting
import Orchestration.Proofs.Json.Numbers
import Orchestration.Proofs.Json.Tokens
import Orchestration.Proofs.Json.Reading
import Orchestration.Proofs.Json.RoundTrip
import Orchestration.Proofs.Definitions.Identity
import Orchestration.Proofs.Text.Trimming
import Orchestration.Proofs.Functions.Selecting
import Orchestration.Proofs.Functions.Concatenation
import Orchestration.Proofs.Migration.Removal
import Orchestration.Proofs.Text.Widths
import Orchestration.Proofs.Text.Clipping
import Orchestration.Proofs.Text.Indentation
